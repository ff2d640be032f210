import TraceGraph.Proofs.Course

/-! # Courses led on

Once every step of a course has been led on, the last to the rest of the trace and each other one to
the step below it, its start reads the trace and otherwise what it read before. -/
namespace TraceGraph
set_option autoImplicit false

/-- Every step, last one first, has been led on: the first to `child`, each other one to the state
made from the step before; `top` is what was made from the last. -/
inductive Relaid {α : Type} (store after : Store α) :
    StateId → List (Step α) → StateId → Prop
  | done (child : StateId) : Relaid store after child [] child
  | lead (child made top : StateId) (step : Step α) (steps : List (Step α)) (row new : Row α)
      (displaced : Option StateId) (hrow : store.row? step.state = some row)
      (hedit : row.edit (step.edit child) = .ok (new, displaced))
      (hmade : after.row? made = some new) (hrest : Relaid store after made steps top) :
      Relaid store after child (step :: steps) top

namespace Relaid

variable {α : Type}

theorem append (store after : Store α) (child mid top : StateId) (steps steps' : List (Step α))
    (h : Relaid store after child steps mid) (h' : Relaid store after mid steps' top) :
    Relaid store after child (steps ++ steps') top := by
  induction h with
  | done child => exact h'
  | lead child made top step steps row new displaced hrow hedit hmade hrest ih =>
    exact lead child made _ step _ row new displaced hrow hedit hmade (ih h')

theorem of_append (store after : Store α) (child top : StateId) (steps steps' : List (Step α))
    (h : Relaid store after child (steps ++ steps') top) :
    ∃ mid, Relaid store after child steps mid ∧ Relaid store after mid steps' top := by
  induction steps generalizing child with
  | nil => exact ⟨child, done child, h⟩
  | cons step steps ih =>
    cases h with
    | lead _ made _ _ _ row new displaced hrow hedit hmade hrest =>
      obtain ⟨mid, hmid, htop⟩ := ih made hrest
      exact ⟨mid, lead child made mid step steps row new displaced hrow hedit hmade hmid, htop⟩

/-- The state made from one step has its row, but for the edge that leads on. -/
theorem edge?_single (store after : Store α) (child top : StateId) (step : Step α)
    (h : Relaid store after child [step] top) : ∃ output,
      step.added.or ((store.edge? step.state step.symbol).map Edge.output) = some output ∧
      ∀ symbol, after.edge? top symbol =
        if symbol = step.symbol then some ⟨child, output⟩ else store.edge? step.state symbol := by
  cases h with
  | lead _ made _ _ _ row new displaced hrow hedit hmade hrest =>
    cases hrest
    obtain ⟨output, houtput, hedges⟩ := Row.edge?_edit row new _ displaced hedit
    rw [Step.output?_edit] at houtput
    rw [Step.symbol_edit, Step.target_edit] at hedges
    refine ⟨output, ?_, fun symbol => ?_⟩
    · rw [store.edge?_of_row? step.state row step.symbol hrow]
      exact houtput
    · rw [after.edge?_of_row? top new symbol hmade, hedges symbol,
        store.edge?_of_row? step.state row symbol hrow]

variable (store after : Store α) (start : StateId) (input : List Nat) (output : List α)
  (steps : List (Step α)) (h : Course store start input output steps)

include h

/-- A course led on reads its trace, and otherwise what its start read before, if `child` reads the
rest of the trace and the states beside the course read what they did. -/
theorem residual_eq_overlay (child top : StateId) (hlen : input.length = output.length)
    (hrelaid : Relaid store after child steps.reverse top)
    (hchild : ∀ word, after.residual child word =
      overlay (fun _ => none) (input.drop steps.length) (output.drop steps.length) word)
    (hbeside : ∀ step ∈ steps, ∀ symbol edge, store.edge? step.state symbol = some edge →
      symbol ≠ step.symbol → ∀ word,
        after.residual edge.target word = store.residual edge.target word) (word : List Nat) :
    after.residual top word = overlay (store.residual start) input output word := by
  induction h generalizing top word with
  | leave start symbol input out output row hrow hlt hslot =>
    obtain ⟨found, hfound, hedges⟩ := edge?_single store after child top _ hrelaid
    obtain rfl : out = found := Option.some.inj hfound
    have hnone := (store.edge?_of_row? start row symbol hrow).trans hslot
    refine residual_eq_overlay_cons after top child symbol out _ (fun _ => none) input output
      ((hedges symbol).trans (if_pos rfl)) hchild
      (fun word => store.residual_of_no_edge start symbol word hnone) (fun other word hs => ?_) word
    exact store.residual_cons_congr after _ top other word ((hedges other).trans (if_neg hs))
      fun edge hedge => hbeside _ List.mem_cons_self other edge hedge hs word
  | pass start symbol input output edge steps hedge hrest ih =>
    rw [List.reverse_cons] at hrelaid
    obtain ⟨mid, hmid, htop⟩ := of_append store after child top _ _ hrelaid
    obtain ⟨found, hfound, hedges⟩ := edge?_single store after mid top _ htop
    change Option.or none ((store.edge? start symbol).map Edge.output) = some found at hfound
    rw [hedge] at hfound
    obtain rfl : edge.output = found := Option.some.inj hfound
    have hmid_reads := ih mid (Nat.succ.inj hlen) hmid hchild
      fun step hmem => hbeside step (List.mem_cons_of_mem _ hmem)
    refine residual_eq_overlay_cons after top mid symbol edge.output _ _ input output
      ((hedges symbol).trans (if_pos rfl)) hmid_reads
      (fun word => store.residual_of_edge? start symbol edge word hedge) (fun other word hs => ?_)
      word
    exact store.residual_cons_congr after _ top other word ((hedges other).trans (if_neg hs))
      fun below hbelow => hbeside _ List.mem_cons_self other below hbelow hs word

theorem ne_start (child top : StateId) (hrelaid : Relaid store after child steps.reverse top)
    (hrow : ∀ step ∈ steps, after.row? step.state = store.row? step.state) : top ≠ start := by
  induction h generalizing top with
  | leave start symbol input out output row hslot hlt hnone =>
    obtain ⟨found, _, hedges⟩ := edge?_single store after child top _ hrelaid
    intro he
    have hsome := hedges symbol
    rw [if_pos rfl, he, Store.edge?, hrow _ List.mem_cons_self] at hsome
    rw [← Store.edge?, store.edge?_of_row? start row symbol hslot, hnone] at hsome
    cases hsome
  | pass start symbol input output edge steps hedge hrest ih =>
    rw [List.reverse_cons] at hrelaid
    obtain ⟨mid, hmid, htop⟩ := of_append store after child top _ _ hrelaid
    obtain ⟨found, _, hedges⟩ := edge?_single store after mid top _ htop
    have hne := ih mid hmid fun step hmem => hrow step (List.mem_cons_of_mem _ hmem)
    intro he
    have hsome := hedges symbol
    rw [if_pos rfl, he, Store.edge?, hrow _ List.mem_cons_self] at hsome
    change store.edge? start symbol = _ at hsome
    rw [hedge] at hsome
    cases hsome
    exact hne rfl

omit h

/-- What is made from a part of a course is no state at which that part starts. -/
theorem ne_first (own shared : List (Step α))
    (h : Course store start input output (own ++ shared)) (child top : StateId)
    (hrelaid : Relaid store after child shared.reverse top)
    (hrow : ∀ step ∈ shared, after.row? step.state = store.row? step.state) (step : Step α)
    (hfirst : shared.head? = some step) : step.state ≠ top := by
  obtain ⟨rest, rfl⟩ : ∃ rest, shared = step :: rest := ⟨_, List.eq_cons_of_mem_head? hfirst⟩
  obtain ⟨mid, hdrop⟩ := h.drop store start input output _ own.length (by simp)
  rw [List.drop_left] at hdrop
  obtain ⟨first, _, hcons, hmid⟩ := hdrop.head_state
  cases hcons
  exact fun he => ne_start store after mid _ _ _ hdrop child top hrelaid hrow (he.symm.trans hmid)

end Relaid

end TraceGraph
