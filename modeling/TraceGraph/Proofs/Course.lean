import TraceGraph.Graph.Insert
import TraceGraph.Proofs.Residual

/-! # Courses

The course of a new trace: the steps along its recorded beginning, the last of which leaves the
recorded part.  Following a trace gives its course, unless all of it is recorded or an output
disagrees. -/
namespace TraceGraph
set_option autoImplicit false

namespace Step

variable {α : Type}

theorem symbol_edit (step : Step α) (child : StateId) : (step.edit child).symbol = step.symbol := by
  unfold edit
  cases step.added with
  | none => rfl
  | some output => rfl

theorem output?_edit (step : Step α) (child : StateId) (row : Row α) :
    (step.edit child).output? row = step.added.or ((row.edge? step.symbol).map Edge.output) := by
  unfold edit
  cases step.added with
  | none => rfl
  | some output => rfl

theorem target_edit (step : Step α) (child : StateId) : (step.edit child).target = child := by
  unfold edit
  cases step.added with
  | none => rfl
  | some output => rfl

/-- The state that the step's edge leads to, if it stands on one. -/
def target? (store : Store α) (step : Step α) : Option StateId :=
  (store.edge? step.state step.symbol).map Edge.target

theorem target?_congr (store after : Store α) (step : Step α)
    (h : after.row? step.state = store.row? step.state) :
    step.target? after = step.target? store := by
  rw [target?, target?, Store.edge?, Store.edge?, h]

/-- A step fits a row if it adds an edge where there is none, or redirects the one that is there. -/
def Fits (store : Store α) (step : Step α) : Prop :=
  ∃ row, store.row? step.state = some row ∧ step.symbol < row.arity ∧
    (row.edge? step.symbol).isNone = step.added.isSome

theorem Fits.edit (store : Store α) (step : Step α) (h : step.Fits store) (child : StateId) :
    ∃ row new, store.row? step.state = some row ∧
      row.edit (step.edit child) = .ok (new, step.target? store) := by
  obtain ⟨row, hrow, hlt, hslot⟩ := h
  have hedge := store.edge?_of_row? step.state row step.symbol hrow
  have hok : ∃ new displaced, row.edit (step.edit child) = .ok (new, displaced) := by
    unfold Step.edit
    cases hadded : step.added with
    | some output =>
      rw [hadded, Option.isSome_some, Option.isNone_iff_eq_none] at hslot
      obtain ⟨new, hnew⟩ := row.edit_add step.symbol ⟨child, output⟩ hlt hslot
      exact ⟨new, none, hnew⟩
    | none =>
      cases he : row.edge? step.symbol with
      | none =>
        rw [hadded, he] at hslot
        cases hslot
      | some edge =>
        obtain ⟨new, hnew⟩ := row.edit_redirect step.symbol child edge he
        exact ⟨new, some edge.target, hnew⟩
  obtain ⟨new, displaced, hnew⟩ := hok
  refine ⟨row, new, hrow, ?_⟩
  rw [target?, hedge, ← symbol_edit step child, ← Row.displaced_edit row new _ displaced hnew]
  exact hnew

/-- The step `upper` is on an edge to the state of the step `lower`. -/
def Above (store : Store α) (lower upper : Step α) : Prop :=
  upper.added = none ∧
    ∃ edge, store.edge? upper.state upper.symbol = some edge ∧ edge.target = lower.state

theorem Above.target?_eq (store : Store α) (lower upper : Step α) (h : Above store lower upper) :
    upper.target? store = some lower.state := by
  obtain ⟨_, edge, hedge, htarget⟩ := h
  rw [target?, hedge, Option.map_some, htarget]

end Step

/-! ## The course of a trace -/

/-- The steps of a trace from `start`: along edges with the outputs of the trace, up to the first
symbol that has no edge. -/
inductive Course {α : Type} (store : Store α) :
    StateId → List Nat → List α → List (Step α) → Prop
  | leave (start : StateId) (symbol : Nat) (input : List Nat) (out : α) (output : List α)
      (row : Row α) (hrow : store.row? start = some row) (hlt : symbol < row.arity)
      (hslot : row.edge? symbol = none) :
      Course store start (symbol :: input) (out :: output) [⟨start, symbol, some out⟩]
  | pass (start : StateId) (symbol : Nat) (input : List Nat) (output : List α) (edge : Edge α)
      (steps : List (Step α)) (hedge : store.edge? start symbol = some edge)
      (hrest : Course store edge.target input output steps) :
      Course store start (symbol :: input) (edge.output :: output) (⟨start, symbol, none⟩ :: steps)

namespace Course

variable {α : Type} (store : Store α) (start : StateId) (input : List Nat) (output : List α)
  (steps : List (Step α)) (h : Course store start input output steps)

include h

theorem head_state : ∃ step rest, steps = step :: rest ∧ step.state = start := by
  cases h with
  | leave _ _ _ out _ row hrow hlt hslot => exact ⟨_, _, rfl, rfl⟩
  | pass _ symbol _ _ edge steps hedge hrest => exact ⟨_, _, rfl, rfl⟩

theorem fits : ∀ step ∈ steps, step.Fits store := by
  induction h with
  | leave start symbol input out output row hrow hlt hslot =>
    intro step hmem
    rw [List.mem_singleton.mp hmem]
    exact ⟨row, hrow, hlt, by rw [hslot]; rfl⟩
  | pass start symbol input output edge steps hedge hrest ih =>
    intro step hmem
    rcases List.mem_cons.mp hmem with rfl | hmem
    · obtain ⟨row, hrow, hslot⟩ := store.row?_of_edge? start symbol edge hedge
      exact ⟨row, hrow, row.lt_arity symbol edge hslot, by rw [hslot]; rfl⟩
    · exact ih step hmem

theorem isChain : steps.IsChain fun upper lower => Step.Above store lower upper := by
  induction h with
  | leave start symbol input out output row hrow hlt hslot => exact List.IsChain.singleton _
  | pass start symbol input output edge steps hedge hrest ih =>
    obtain ⟨next, rest, rfl, hnext⟩ := head_state store edge.target input output steps hrest
    exact List.isChain_cons_cons.mpr ⟨⟨rfl, edge, hedge, hnext.symm⟩, ih⟩

theorem descends (canon : Canon α) (rank : StateId → Nat) (hfiled : canon.Filed store)
    (hrank : ∀ id ∈ canon.ids, ∀ target, store.Leads id target → rank target < rank id)
    (hstart : start ∈ canon.ids) :
    (steps.map Step.state).Pairwise (fun upper lower => rank lower < rank upper) ∧
      ∀ step ∈ steps, step.state ∈ canon.ids ∧ rank step.state ≤ rank start := by
  induction h with
  | leave start symbol input out output row hrow hlt hslot =>
    refine ⟨List.pairwise_singleton _ _, fun step hmem => ?_⟩
    rw [List.mem_singleton.mp hmem]
    exact ⟨hstart, Nat.le_refl _⟩
  | pass start symbol input output edge steps hedge hrest ih =>
    have hleads := store.leads_of_edge? start symbol edge hedge
    have hlt := hrank start hstart edge.target hleads
    obtain ⟨hpair, hall⟩ := ih (hfiled.closed start hstart edge.target hleads)
    refine ⟨List.pairwise_cons.mpr ⟨fun id hmem => ?_, hpair⟩, fun step hmem => ?_⟩
    · obtain ⟨step, hstep, rfl⟩ := List.mem_map.mp hmem
      have := (hall step hstep).2
      change rank step.state < rank start
      omega
    · rcases List.mem_cons.mp hmem with rfl | hmem
      · exact ⟨hstart, Nat.le_refl _⟩
      · have := (hall step hmem).2
        exact ⟨(hall step hmem).1, by omega⟩

theorem drop (own : Nat) (hown : own < steps.length) : ∃ mid,
    Course store mid (input.drop own) (output.drop own) (steps.drop own) := by
  induction h generalizing own with
  | leave start symbol input out output row hrow hlt hslot =>
    obtain rfl : own = 0 := by
      rw [List.length_singleton] at hown
      omega
    exact ⟨start, Course.leave start symbol input out output row hrow hlt hslot⟩
  | pass start symbol input output edge steps hedge hrest ih =>
    cases own with
    | zero => exact ⟨start, Course.pass start symbol input output edge steps hedge hrest⟩
    | succ own => exact ih own (Nat.lt_of_succ_lt_succ hown)

/-- The last step adds the output of its place, each other one is on an edge that has it. -/
theorem step_cases (i : Nat) (step : Step α) (hstep : steps[i]? = some step) :
    input[i]? = some step.symbol ∧ ∃ out, output[i]? = some out ∧
      ((i + 1 = steps.length ∧ step.added = some out ∧
          store.edge? step.state step.symbol = none) ∨
        (i + 1 < steps.length ∧ step.added = none ∧
          ∃ target, store.edge? step.state step.symbol = some ⟨target, out⟩)) := by
  induction h generalizing i with
  | leave start symbol input out output row hrow hlt hslot =>
    cases i with
    | zero =>
      cases hstep
      exact ⟨rfl, out, rfl, .inl ⟨rfl, rfl, (store.edge?_of_row? start row symbol hrow).trans hslot⟩⟩
    | succ i => cases hstep
  | pass start symbol input output edge steps hedge hrest ih =>
    cases i with
    | zero =>
      cases hstep
      obtain ⟨next, rest, rfl, _⟩ := head_state store edge.target input output steps hrest
      exact ⟨rfl, edge.output, rfl, .inr ⟨by simp, rfl, edge.target, hedge⟩⟩
    | succ i =>
      obtain ⟨hsymbol, out, hout, hcases⟩ := ih i hstep
      rw [List.length_cons, Nat.add_left_inj, Nat.add_lt_add_iff_right]
      exact ⟨hsymbol, out, hout, hcases⟩

end Course

/-! ## Following a trace -/

namespace Store

variable {α : Type} [DecidableEq α]

section

variable (store : Store α) (start : StateId) (position symbol : Nat) (input : List Nat)
  (out : α) (output : List α)

theorem follow_of_no_edge (row : Row α) (hrow : store.row? start = some row)
    (hlt : symbol < row.arity) (hslot : row.edge? symbol = none) :
    store.follow start position (symbol :: input) (out :: output) = .ok [] := by
  obtain ⟨state, hstate, rfl⟩ := store.get?_of_row? start row hrow
  rw [follow, fetch_eq store start state hstate]
  simp only [Except.mapError, bind, Except.bind, Row.slot, if_pos hlt, hslot]
  rfl

theorem follow_of_edge? (edge : Edge α) (hedge : store.edge? start symbol = some edge) :
    store.follow start position (symbol :: input) (out :: output) =
      if edge.output = out
      then (store.follow edge.target (position + 1) input output).map (edge.target :: ·)
      else .error (.refused (.conflict position edge.output out)) := by
  obtain ⟨row, hrow, hslot⟩ := store.row?_of_edge? start symbol edge hedge
  obtain ⟨state, hstate, rfl⟩ := store.get?_of_row? start row hrow
  rw [follow, fetch_eq store start state hstate]
  simp only [Except.mapError, bind, Except.bind, Row.slot,
    if_pos (state.row.lt_arity symbol edge hslot), hslot]
  split
  · cases store.follow edge.target (position + 1) input output with
    | error failure => rfl
    | ok path => rfl
  · rfl

end

/-- Following a trace reads all of it, gives its course, or meets a disagreement. -/
theorem follow_cases (store : Store α) (arity : Nat)
    (hclosed : ∀ id target, store.Leads id target → store.Live target)
    (harity : ∀ id row, store.row? id = some row → row.arity = arity) (start : StateId)
    (position : Nat) (input : List Nat) (output : List α) (hstart : store.Live start)
    (hlen : input.length = output.length) (hsym : ∀ symbol ∈ input, symbol < arity) :
    (∃ path, store.follow start position input output = .ok path ∧
        path.length = input.length ∧ store.residual start input = some output) ∨
      (∃ path, store.follow start position input output = .ok path ∧
        path.length < input.length ∧
        Course store start input output (Step.along (start :: path) input output) ∧
        (Step.along (start :: path) input output).map Step.state = start :: path) ∨
      ∃ place recorded requested, store.follow start position input output =
        .error (.refused (.conflict place recorded requested)) := by
  induction input generalizing start position output with
  | nil =>
    obtain rfl := List.length_eq_zero_iff.mp hlen.symm
    exact .inl ⟨[], rfl, rfl, rfl⟩
  | cons symbol input ih =>
    obtain ⟨out, output, rfl⟩ := List.exists_cons_of_length_eq_add_one hlen.symm
    obtain ⟨row, hrow⟩ := hstart
    have hslot := store.edge?_of_row? start row symbol hrow
    cases hedge : store.edge? start symbol with
    | none =>
      rw [hedge] at hslot
      have hlt : symbol < row.arity := by
        rw [harity start row hrow]
        exact hsym symbol List.mem_cons_self
      refine .inr (.inl ⟨[], ?_, Nat.succ_pos _, ?_, rfl⟩)
      · exact store.follow_of_no_edge start position symbol input out output row hrow hlt hslot.symm
      · exact Course.leave start symbol input out output row hrow hlt hslot.symm
    | some edge =>
      have hfollow := store.follow_of_edge? start position symbol input out output edge hedge
      by_cases hout : edge.output = out
      · subst hout
        rw [if_pos rfl] at hfollow
        have hlive := hclosed start edge.target (store.leads_of_edge? start symbol edge hedge)
        have hsym' : ∀ other ∈ input, other < arity := fun other hmem =>
          hsym other (List.mem_cons_of_mem symbol hmem)
        rcases ih edge.target (position + 1) output hlive (Nat.succ.inj hlen) hsym' with
          ⟨path, hpath, hcount, hres⟩ | ⟨path, hpath, hcount, hcourse, hstates⟩ |
          ⟨place, recorded, requested, herror⟩
        · refine .inl ⟨edge.target :: path, by rw [hfollow, hpath]; rfl, ?_, ?_⟩
          · rw [List.length_cons, List.length_cons, hcount]
          · rw [store.residual_of_edge? start symbol edge input hedge, hres]
            rfl
        · refine .inr (.inl ⟨edge.target :: path, by rw [hfollow, hpath]; rfl, ?_, ?_, ?_⟩)
          · rw [List.length_cons, List.length_cons]
            omega
          · exact Course.pass start symbol input output edge _ hedge hcourse
          · rw [Step.along, List.map_cons, hstates]
        · exact .inr (.inr ⟨place, recorded, requested, by rw [hfollow, herror]; rfl⟩)
      · rw [if_neg hout] at hfollow
        exact .inr (.inr ⟨position, edge.output, out, hfollow⟩)

end Store

end TraceGraph
