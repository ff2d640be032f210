import TraceGraph.Proofs.Filing

/-! # Residuals

The residual of a state is the partial function from words to output words that its edges define.
It depends on the rows that the state reaches and on nothing else, it composes along words, and in a
filed canon it tells any two states apart. -/
namespace TraceGraph
set_option autoImplicit false

namespace Store

variable {α : Type}

/-- The outputs along the edges that `word` names from `id`, if all of them are there. -/
def residual (store : Store α) (id : StateId) : List Nat → Option (List α)
  | [] => some []
  | symbol :: word => (store.edge? id symbol).bind fun edge =>
    (store.residual edge.target word).map fun outputs => edge.output :: outputs

def reach (store : Store α) (id : StateId) : List Nat → Option StateId
  | [] => some id
  | symbol :: word => (store.edge? id symbol).bind fun edge => store.reach edge.target word

section

variable (store : Store α)

theorem residual_of_edge? (id : StateId) (symbol : Nat) (edge : Edge α) (word : List Nat)
    (h : store.edge? id symbol = some edge) : store.residual id (symbol :: word) =
      (store.residual edge.target word).map fun outputs => edge.output :: outputs := by
  rw [residual, h, Option.bind_some]

theorem residual_of_no_edge (id : StateId) (symbol : Nat) (word : List Nat)
    (h : store.edge? id symbol = none) : store.residual id (symbol :: word) = none := by
  rw [residual, h, Option.bind_none]

theorem reach_of_edge? (id : StateId) (symbol : Nat) (edge : Edge α) (word : List Nat)
    (h : store.edge? id symbol = some edge) :
    store.reach id (symbol :: word) = store.reach edge.target word := by
  rw [reach, h, Option.bind_some]

theorem reach_of_no_edge (id : StateId) (symbol : Nat) (word : List Nat)
    (h : store.edge? id symbol = none) : store.reach id (symbol :: word) = none := by
  rw [reach, h, Option.bind_none]

/-- An edge shows in the residual by the word of one symbol. -/
theorem residual_singleton (id : StateId) (symbol : Nat) :
    store.residual id [symbol] = (store.edge? id symbol).map fun edge => [edge.output] := by
  cases h : store.edge? id symbol with
  | none => exact store.residual_of_no_edge id symbol [] h
  | some edge => exact store.residual_of_edge? id symbol edge [] h

theorem length_residual (id : StateId) (word : List Nat) (outputs : List α)
    (h : store.residual id word = some outputs) : outputs.length = word.length := by
  induction word generalizing id outputs with
  | nil =>
    cases h
    rfl
  | cons symbol word ih =>
    obtain ⟨edge, _, hrest⟩ := Option.bind_eq_some_iff.mp h
    obtain ⟨rest, hres, rfl⟩ := Option.map_eq_some_iff.mp hrest
    rw [List.length_cons, List.length_cons, ih edge.target rest hres]

theorem isSome_residual (id : StateId) (word : List Nat) :
    (store.residual id word).isSome = (store.reach id word).isSome := by
  induction word generalizing id with
  | nil => rfl
  | cons symbol word ih =>
    cases h : store.edge? id symbol with
    | none =>
      rw [store.residual_of_no_edge id symbol word h, store.reach_of_no_edge id symbol word h]
      rfl
    | some edge =>
      rw [store.residual_of_edge? id symbol edge word h, store.reach_of_edge? id symbol edge word h,
        Option.isSome_map, ih edge.target]

theorem exists_reach_of_residual (id : StateId) (word : List Nat) (outputs : List α)
    (h : store.residual id word = some outputs) : ∃ last, store.reach id word = some last := by
  have hsome := store.isSome_residual id word
  rw [h, Option.isSome_some] at hsome
  exact Option.isSome_iff_exists.mp hsome.symm

theorem residual_append (id last : StateId) (u v : List Nat) (outputs : List α)
    (hreach : store.reach id u = some last) (hres : store.residual id u = some outputs) :
    store.residual id (u ++ v) = (store.residual last v).map fun rest => outputs ++ rest := by
  induction u generalizing id outputs with
  | nil =>
    cases hreach
    cases hres
    simp
  | cons symbol u ih =>
    obtain ⟨edge, hedge, hmap⟩ := Option.bind_eq_some_iff.mp hres
    obtain ⟨rest, hrest, rfl⟩ := Option.map_eq_some_iff.mp hmap
    rw [store.reach_of_edge? id symbol edge u hedge] at hreach
    rw [List.cons_append, store.residual_of_edge? id symbol edge _ hedge,
      ih edge.target rest hreach hrest, Option.map_map]
    rfl

theorem reach_append (id last : StateId) (u v : List Nat) (h : store.reach id u = some last) :
    store.reach id (u ++ v) = store.reach last v := by
  induction u generalizing id with
  | nil =>
    cases h
    rfl
  | cons symbol u ih =>
    obtain ⟨edge, hedge, hrest⟩ := Option.bind_eq_some_iff.mp h
    rw [List.cons_append, store.reach_of_edge? id symbol edge _ hedge, ih edge.target hrest]

theorem reach_concat (id last : StateId) (word : List Nat) (symbol : Nat) :
    store.reach id (word ++ [symbol]) = some last ↔ ∃ mid edge, store.reach id word = some mid ∧
      store.edge? mid symbol = some edge ∧ edge.target = last := by
  induction word generalizing id with
  | nil =>
    constructor
    · intro h
      obtain ⟨edge, hedge, hlast⟩ := Option.bind_eq_some_iff.mp h
      exact ⟨id, edge, rfl, hedge, Option.some.inj hlast⟩
    · rintro ⟨mid, edge, hmid, hedge, rfl⟩
      cases hmid
      exact store.reach_of_edge? id symbol edge [] hedge
  | cons first word ih =>
    cases hedge : store.edge? id first with
    | none =>
      rw [List.cons_append, store.reach_of_no_edge id first _ hedge,
        store.reach_of_no_edge id first word hedge]
      exact iff_of_false nofun fun h => nomatch h.choose_spec.choose_spec.1
    | some edge =>
      rw [List.cons_append, store.reach_of_edge? id first edge _ hedge,
        store.reach_of_edge? id first edge word hedge]
      exact ih edge.target

/-- The edges of a chain make up a word. -/
theorem exists_reach_of_chain (id last : StateId) (h : Relation.TransGen store.Leads id last) :
    ∃ word, word ≠ [] ∧ store.reach id word = some last := by
  induction h with
  | single hleads =>
    obtain ⟨symbol, edge, hedge, rfl⟩ := (store.leads_iff _ _).mp hleads
    exact ⟨[symbol], List.cons_ne_nil _ _, store.reach_of_edge? id symbol edge [] hedge⟩
  | tail _ hleads ih =>
    obtain ⟨word, hne, hword⟩ := ih
    obtain ⟨symbol, edge, hedge, rfl⟩ := (store.leads_iff _ _).mp hleads
    exact ⟨word ++ [symbol], List.append_ne_nil_of_left_ne_nil hne _,
      (store.reach_concat id edge.target word symbol).mpr ⟨_, edge, hword, hedge, rfl⟩⟩

/-- Each symbol of a word that can be read is on an edge, which leads from the state before it to
the state after it. -/
theorem exists_edge_of_residual (id : StateId) (word : List Nat) (outputs : List α)
    (h : store.residual id word = some outputs) (place symbol : Nat)
    (hsymbol : word[place]? = some symbol) :
    ∃ before edge, store.reach id (word.take place) = some before ∧
      store.edge? before symbol = some edge ∧
      store.reach id (word.take (place + 1)) = some edge.target ∧
      outputs[place]? = some edge.output := by
  induction word generalizing id outputs place with
  | nil => simp at hsymbol
  | cons first word ih =>
    obtain ⟨edge, hedge, hmap⟩ := Option.bind_eq_some_iff.mp h
    obtain ⟨rest, hrest, rfl⟩ := Option.map_eq_some_iff.mp hmap
    cases place with
    | zero =>
      obtain rfl : first = symbol := by simpa using hsymbol
      refine ⟨id, edge, rfl, hedge, ?_, rfl⟩
      rw [List.take_succ_cons, store.reach_of_edge? id first edge _ hedge]
      rfl
    | succ place =>
      obtain ⟨before, next, hbefore, hnext, hafter, houtput⟩ :=
        ih edge.target rest hrest place (by simpa using hsymbol)
      refine ⟨before, next, ?_, hnext, ?_, by simpa using houtput⟩
      · rw [List.take_succ_cons, store.reach_of_edge? id first edge _ hedge, hbefore]
      · rw [List.take_succ_cons, store.reach_of_edge? id first edge _ hedge, hafter]

theorem live_reach (hclosed : ∀ id target, store.Leads id target → store.Live target)
    (id last : StateId) (word : List Nat) (hid : store.Live id)
    (h : store.reach id word = some last) : store.Live last := by
  induction word generalizing id with
  | nil =>
    cases h
    exact hid
  | cons symbol word ih =>
    obtain ⟨edge, hedge, hrest⟩ := Option.bind_eq_some_iff.mp h
    exact ih edge.target (hclosed id _ (store.leads_of_edge? id symbol edge hedge)) hrest

end

/-- Every beginning of a recorded word is recorded, with the beginning of its outputs. -/
theorem residual_of_prefix (store : Store α) (id : StateId) (word input : List Nat)
    (output : List α) (hpre : word <+: input) (h : store.residual id input = some output) :
    store.residual id word = some (output.take word.length) := by
  induction word generalizing id input output with
  | nil => rfl
  | cons symbol word ih =>
    obtain ⟨rest, rfl⟩ := hpre
    obtain ⟨edge, hedge, hmap⟩ := Option.bind_eq_some_iff.mp h
    obtain ⟨outputs, hrest, rfl⟩ := Option.map_eq_some_iff.mp hmap
    rw [store.residual_of_edge? id symbol edge word hedge,
      ih edge.target (word ++ rest) outputs (List.prefix_append word rest) hrest]
    rfl

/-- States with the same edge on `symbol` read the words that begin with it alike if the target is
unchanged. -/
theorem residual_cons_congr (store after : Store α) (id made : StateId) (symbol : Nat)
    (word : List Nat) (hsame : after.edge? made symbol = store.edge? id symbol)
    (htarget : ∀ edge, store.edge? id symbol = some edge →
      after.residual edge.target word = store.residual edge.target word) :
    after.residual made (symbol :: word) = store.residual id (symbol :: word) := by
  cases hedge : store.edge? id symbol with
  | none =>
    rw [store.residual_of_no_edge id symbol word hedge,
      after.residual_of_no_edge made symbol word (hsame.trans hedge)]
  | some edge =>
    rw [store.residual_of_edge? id symbol edge word hedge,
      after.residual_of_edge? made symbol edge word (hsame.trans hedge), htarget edge hedge]

/-- Edges decide: where a set that no edge leads out of has the same edges, it has the same
residuals. -/
theorem residual_congr (store after : Store α) (kept : StateId → Prop)
    (hclosed : ∀ id, kept id → ∀ target, store.Leads id target → kept target)
    (hedge : ∀ id, kept id → ∀ symbol, after.edge? id symbol = store.edge? id symbol)
    (id : StateId) (hid : kept id) (word : List Nat) :
    after.residual id word = store.residual id word := by
  induction word generalizing id with
  | nil => rfl
  | cons symbol word ih =>
    refine residual_cons_congr store after id id symbol word (hedge id hid symbol) fun edge he => ?_
    exact ih edge.target (hclosed id hid _ (store.leads_of_edge? id symbol edge he))

/-- No symbol beyond the arity of the rows is on an edge. -/
theorem residual_eq_none (store : Store α) (arity : Nat)
    (harity : ∀ id row, store.row? id = some row → row.arity = arity) (id : StateId)
    (word : List Nat) (h : ∃ symbol ∈ word, arity ≤ symbol) : store.residual id word = none := by
  induction word generalizing id with
  | nil =>
    obtain ⟨_, hmem, _⟩ := h
    exact absurd hmem List.not_mem_nil
  | cons symbol word ih =>
    cases hedge : store.edge? id symbol with
    | none => exact store.residual_of_no_edge id symbol word hedge
    | some edge =>
      obtain ⟨row, hrow, hslot⟩ := store.row?_of_edge? id symbol edge hedge
      have hlt := row.lt_arity symbol edge hslot
      rw [harity id row hrow] at hlt
      obtain ⟨large, hmem, hge⟩ := h
      have hword : large ∈ word := by
        rcases List.mem_cons.mp hmem with rfl | hmem
        · omega
        · exact hmem
      rw [store.residual_of_edge? id symbol edge word hedge, ih edge.target ⟨large, hword, hge⟩]
      rfl

theorem edge?_of_residual_eq (store after : Store α) (id other : StateId)
    (h : ∀ word, store.residual id word = after.residual other word) (symbol : Nat) (edge : Edge α)
    (hedge : store.edge? id symbol = some edge) : ∃ like, after.edge? other symbol = some like ∧
      like.output = edge.output ∧
      ∀ word, store.residual edge.target word = after.residual like.target word := by
  have hone := h [symbol]
  rw [residual_singleton, residual_singleton, hedge, Option.map_some] at hone
  obtain ⟨like, hlike, houtput⟩ := Option.map_eq_some_iff.mp hone.symm
  have hout : like.output = edge.output := (List.cons.inj houtput).1
  refine ⟨like, hlike, hout, fun word => ?_⟩
  have hword := h (symbol :: word)
  rw [store.residual_of_edge? id symbol edge word hedge,
    after.residual_of_edge? other symbol like word hlike, hout] at hword
  exact Option.map_injective (fun _ _ he => (List.cons.inj he).2) hword

end Store

namespace Canon

variable {α : Type}

/-- Filed states with one residual are one state.  The induction is on the rank: equal residuals
make the targets of equal symbols have equal residuals, and these stand lower. -/
theorem Filed.eq_of_residual (canon : Canon α) (store : Store α) (h : canon.Filed store) (arity : Nat)
    (harity : ∀ id row, store.row? id = some row → row.arity = arity) (id other : StateId)
    (hid : id ∈ canon.ids) (ho : other ∈ canon.ids)
    (hres : ∀ word, store.residual id word = store.residual other word) : id = other := by
  obtain ⟨rank, hrank⟩ := h.ranked
  have key : ∀ n id other, rank id < n → id ∈ canon.ids → other ∈ canon.ids →
      (∀ word, store.residual id word = store.residual other word) → id = other := by
    intro n
    induction n with
    | zero => intro id other hlt; omega
    | succ n ih =>
      intro id other hlt hid ho hres
      have hedges : ∀ symbol, store.edge? id symbol = store.edge? other symbol := by
        intro symbol
        cases hedge : store.edge? id symbol with
        | none =>
          cases hother : store.edge? other symbol with
          | none => rfl
          | some edge =>
            obtain ⟨like, hlike, _⟩ := Store.edge?_of_residual_eq store store other id
              (fun word => (hres word).symm) symbol edge hother
            cases hedge.symm.trans hlike
        | some edge =>
          obtain ⟨like, hlike, houtput, htargets⟩ :=
            Store.edge?_of_residual_eq store store id other hres symbol edge hedge
          have hleads := store.leads_of_edge? id symbol edge hedge
          have hleads' := store.leads_of_edge? other symbol like hlike
          have hbelow := hrank id hid edge.target hleads
          have htarget := ih edge.target like.target (by omega) (h.closed id hid _ hleads)
            (h.closed other ho _ hleads') htargets
          rw [hlike, Option.some.injEq]
          cases edge
          cases like
          rw [Edge.mk.injEq]
          exact ⟨htarget, houtput.symm⟩
      obtain ⟨row, hrow⟩ := h.live id hid
      obtain ⟨row', hrow'⟩ := h.live other ho
      refine h.distinct id hid other ho ?_
      rw [hrow, hrow']
      refine congrArg some (row.ext_edge? row' ?_ fun symbol => ?_)
      · rw [harity id row hrow, harity other row' hrow']
      · rw [← store.edge?_of_row? id row symbol hrow, ← store.edge?_of_row? other row' symbol hrow']
        exact hedges symbol
  exact key (rank id + 1) id other (Nat.lt_succ_self _) hid ho hres

/-- A filed state reads no word longer than its rank. -/
theorem Filed.length_le_rank (canon : Canon α) (store : Store α) (h : canon.Filed store)
    (rank : StateId → Nat)
    (hrank : ∀ id ∈ canon.ids, ∀ target, store.Leads id target → rank target < rank id)
    (id : StateId) (word : List Nat) (hid : id ∈ canon.ids)
    (hreach : (store.reach id word).isSome = true) : word.length ≤ rank id := by
  induction word generalizing id with
  | nil => exact Nat.zero_le _
  | cons symbol word ih =>
    obtain ⟨last, hlast⟩ := Option.isSome_iff_exists.mp hreach
    obtain ⟨edge, hedge, hrest⟩ := Option.bind_eq_some_iff.mp hlast
    have hleads := store.leads_of_edge? id symbol edge hedge
    have hbelow := ih edge.target (h.closed id hid edge.target hleads) (by rw [hrest]; rfl)
    have hlt := hrank id hid edge.target hleads
    rw [List.length_cons]
    omega

/-- No state leads to a filed state that reads all that it reads: they would read the word between
them over and over. -/
theorem Filed.not_chain_of_reads (canon : Canon α) (store : Store α) (h : canon.Filed store)
    (id last : StateId) (hlast : last ∈ canon.ids)
    (hreads : ∀ word, (store.reach id word).isSome = true → (store.reach last word).isSome = true) :
    ¬ Relation.TransGen store.Leads id last := by
  intro hchain
  obtain ⟨word, hne, hword⟩ := store.exists_reach_of_chain id last hchain
  have hlong : ∀ n, ∃ long : List Nat, n ≤ long.length ∧ (store.reach last long).isSome = true := by
    intro n
    induction n with
    | zero => exact ⟨[], Nat.zero_le _, rfl⟩
    | succ n ih =>
      obtain ⟨long, hle, hlong⟩ := ih
      refine ⟨word ++ long, ?_, hreads _ ?_⟩
      · have hpos := List.length_pos_iff.mpr hne
        rw [List.length_append]
        omega
      · rw [store.reach_append id last word long hword]
        exact hlong
  obtain ⟨rank, hrank⟩ := h.ranked
  obtain ⟨long, hle, hreach⟩ := hlong (rank last + 1)
  have hshort := h.length_le_rank canon store rank hrank last long hlast hreach
  omega

end Canon

/-! ## Recording over a function -/

section

variable {α : Type}

/-- The partial function `f` with the prefixes of a trace recorded over it. -/
def overlay (f : List Nat → Option (List α)) (input : List Nat) (output : List α)
    (word : List Nat) : Option (List α) :=
  if word <+: input then some (output.take word.length) else f word

theorem overlay_nil_word (f : List Nat → Option (List α)) (input : List Nat) (output : List α) :
    overlay f input output [] = some [] := by
  rw [overlay, if_pos List.nil_prefix]
  rfl

theorem overlay_cons_ne (f : List Nat → Option (List α)) (symbol other : Nat) (out : α)
    (input : List Nat) (output : List α) (word : List Nat) (h : other ≠ symbol) :
    overlay f (symbol :: input) (out :: output) (other :: word) = f (other :: word) := by
  rw [overlay, if_neg]
  intro hpre
  exact h (List.cons_prefix_cons.mp hpre).1

theorem overlay_of_recorded (store : Store α) (id : StateId) (input : List Nat) (output : List α)
    (h : store.residual id input = some output) (word : List Nat) :
    overlay (store.residual id) input output word = store.residual id word := by
  by_cases hpre : word <+: input
  · rw [overlay, if_pos hpre, store.residual_of_prefix id word input output hpre h]
  · rw [overlay, if_neg hpre]

/-- Recording over a function and over its part after `symbol`. -/
theorem overlay_cons (f g : List Nat → Option (List α)) (symbol : Nat) (out : α)
    (input : List Nat) (output : List α) (word : List Nat)
    (h : f (symbol :: word) = (g word).map fun outputs => out :: outputs) :
    overlay f (symbol :: input) (out :: output) (symbol :: word) =
      (overlay g input output word).map fun outputs => out :: outputs := by
  unfold overlay
  by_cases hpre : word <+: input
  · rw [if_pos (List.cons_prefix_cons.mpr ⟨rfl, hpre⟩), if_pos hpre, List.length_cons,
      List.take_succ_cons]
    rfl
  · rw [if_neg fun hboth => hpre (List.cons_prefix_cons.mp hboth).2, if_neg hpre, h]

/-- A state whose edge on the first symbol of a trace leads to a state that reads the rest over `g`
reads the whole trace over `f`, if it reads the words that begin otherwise as `f` does. -/
theorem residual_eq_overlay_cons (store : Store α) (id below : StateId) (symbol : Nat) (out : α)
    (f g : List Nat → Option (List α)) (input : List Nat) (output : List α)
    (hedge : store.edge? id symbol = some ⟨below, out⟩)
    (hbelow : ∀ word, store.residual below word = overlay g input output word)
    (hover : ∀ word, f (symbol :: word) = (g word).map fun outputs => out :: outputs)
    (hbeside : ∀ other word, other ≠ symbol →
      store.residual id (other :: word) = f (other :: word)) (word : List Nat) :
    store.residual id word = overlay f (symbol :: input) (out :: output) word := by
  cases word with
  | nil => exact (overlay_nil_word _ _ _).symm
  | cons other word =>
    by_cases hs : other = symbol
    · subst hs
      rw [store.residual_of_edge? id other _ word hedge, hbelow word,
        overlay_cons f g other out input output word (hover word)]
    · rw [overlay_cons_ne f symbol other out input output word hs, hbeside other word hs]

end

end TraceGraph
