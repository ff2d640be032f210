import TraceGraph.Proofs.Graph.Canonicity
import TraceGraph.Proofs.Separation.Agreement
import TraceGraph.Proofs.Separation.Exactness

/-! # Comparing a machine with a graph

As a machine a graph answers what it records.  Along a recorded word the ranks of the states fall,
so the word is shorter than the graph has states; and since only recorded words lead to pairs of
states to be compared, a comparison with a graph ends for every target. -/
namespace TraceGraph
set_option autoImplicit false

variable {α : Type}

/-! ## The length of recorded words -/

/-- The states along a word, each of lower rank than the one before. -/
theorem Canon.Filed.exists_descent (canon : Canon α) (store : Store α) (h : canon.Filed store)
    (rank : StateId → Nat)
    (hrank : ∀ id ∈ canon.ids, ∀ target, store.Leads id target → rank target < rank id)
    (id last : StateId) (word : List Nat) (hid : id ∈ canon.ids)
    (hreach : store.reach id word = some last) :
    ∃ ids : List StateId, ids.length = word.length ∧ (∀ other ∈ ids, other ∈ canon.ids) ∧
      (id :: ids).Pairwise fun upper lower => rank lower < rank upper := by
  induction word generalizing id with
  | nil => exact ⟨[], rfl, fun _ hmem => absurd hmem List.not_mem_nil, List.pairwise_singleton _ _⟩
  | cons symbol word ih =>
    obtain ⟨edge, hedge, hrest⟩ := Option.bind_eq_some_iff.mp hreach
    have hleads := store.leads_of_edge? id symbol edge hedge
    have htarget := h.closed id hid edge.target hleads
    have hlt := hrank id hid edge.target hleads
    obtain ⟨ids, hlen, hmem, hpair⟩ := ih edge.target htarget hrest
    refine ⟨edge.target :: ids, ?_, List.forall_mem_cons.mpr ⟨htarget, hmem⟩,
      List.pairwise_cons.mpr ⟨List.forall_mem_cons.mpr ⟨hlt, fun other hother => ?_⟩, hpair⟩⟩
    · rw [List.length_cons, List.length_cons, hlen]
    · exact ((List.pairwise_cons.mp hpair).1 other hother).trans hlt

theorem Canon.Filed.length_lt (canon : Canon α) (store : Store α) (h : canon.Filed store)
    (id last : StateId) (word : List Nat) (hid : id ∈ canon.ids)
    (hreach : store.reach id word = some last) : word.length < canon.size := by
  obtain ⟨rank, hrank⟩ := h.ranked
  obtain ⟨ids, hlen, hmem, hpair⟩ :=
    h.exists_descent canon store rank hrank id last word hid hreach
  have hnodup : (id :: ids).Nodup := hpair.imp fun hlt he => by
    rw [he] at hlt
    omega
  have hsub : id :: ids ⊆ canon.ids := List.cons_subset.mpr ⟨hid, fun other => hmem other⟩
  have hle := (hnodup.subperm hsub).length_le
  rw [List.length_cons, hlen, canon.length_ids] at hle
  exact hle

/-- As many states are canonical as there are. -/
theorem Pool.Rooted.size_canon (pool : Pool α) (root : StateId) (arity : Nat)
    (h : pool.Rooted root arity) : pool.canon.size = pool.store.size := by
  have hset : {id | pool.store.Live id} = (pool.canon.ids.toFinset : Set StateId) := by
    ext id
    rw [Finset.mem_coe, List.mem_toFinset]
    exact ⟨h.complete id, h.coherent.filed.live id⟩
  have hcard := pool.store.encard_live h.coherent.settled.accounted
  rw [hset, Set.encard_coe_eq_coe_finsetCard,
    List.toFinset_card_of_nodup pool.canon.nodup, pool.canon.length_ids] at hcard
  exact Nat.cast_injective hcard

namespace Graph

variable (graph : Graph α)

/-! ## A graph as a machine -/

theorem runFrom_machine (id : StateId) (word : List Nat) :
    (graph.machine.runFrom id word).map Prod.fst = graph.pool.store.residual id word := by
  induction word generalizing id with
  | nil => rfl
  | cons symbol word ih =>
    have hstep : graph.machine.step id symbol = _ := graph.step_eq id symbol
    rw [Machine.runFrom, hstep]
    cases hedge : graph.pool.store.edge? id symbol with
    | none => exact (graph.pool.store.residual_of_no_edge id symbol word hedge).symm
    | some edge =>
      rw [graph.pool.store.residual_of_edge? id symbol edge word hedge, ← ih edge.target,
        Option.map_map]
      simp only [Option.map_some, Option.bind_eq_bind, Option.bind_some]
      cases graph.machine.runFrom edge.target word with
      | none => rfl
      | some read => rfl

theorem answer_machine (word : List Nat) : graph.machine.answer word = graph.reading word :=
  graph.runFrom_machine graph.root word

section

variable {τ : Type} (h : graph.Sound) (target : Machine τ α)

include h

theorem length_lt_of_reading (word : List Nat) (outputs : List α)
    (hread : graph.reading word = some outputs) : word.length < graph.stateCount := by
  obtain ⟨last, hreach⟩ := graph.pool.store.exists_reach_of_residual graph.root word outputs hread
  have hlt := h.coherent.filed.length_lt graph.pool.canon graph.pool.store graph.root last word
    h.root_mem hreach
  rw [h.size_canon] at hlt
  exact hlt

/-- Words over the alphabet decide agreement with a graph, since it answers no others. -/
theorem agrees_machine_iff (lenient : Bool) :
    graph.machine.Agrees target graph.arity lenient ↔
      ∀ word outputs, graph.reading word = some outputs →
        target.answer word = some outputs ∨ (target.answer word = none ∧ lenient = true) := by
  constructor
  · exact fun hagrees word outputs hread =>
      hagrees word outputs (graph.lt_arity_of_reading h word outputs hread)
        ((graph.answer_machine word).trans hread)
  · exact fun hall word outputs _ hanswer =>
      hall word outputs ((graph.answer_machine word).symm.trans hanswer)

/-! ## Rounds enough -/

omit h in
/-- Words that lead to a pair are recorded. -/
theorem exists_reading_of_meets (word : List Nat) (pair : StateId × τ)
    (hmeets : graph.machine.Meets target word pair) :
    ∃ outputs, graph.reading word = some outputs := by
  obtain ⟨outputs, hleft, _⟩ := hmeets
  refine ⟨outputs, ?_⟩
  rw [← graph.answer_machine word]
  exact (graph.machine.answer_eq_some_iff word outputs).mpr ⟨pair.1, hleft⟩

/-- Symbols beyond the alphabet lead to no pairs. -/
theorem together_subset (arity : Nat) :
    graph.machine.together target arity ⊆ graph.machine.together target graph.arity := by
  rintro pair ⟨word, _, hmeets⟩
  obtain ⟨outputs, hread⟩ := graph.exists_reading_of_meets target word pair hmeets
  exact ⟨word, graph.lt_arity_of_reading h word outputs hread, hmeets⟩

variable [DecidableEq α] [DecidableEq τ]

/-- Each pair to be compared is met by a word that is recorded, hence short. -/
theorem together_subset_meetings : graph.machine.together target graph.arity ⊆
    (((wordsUpTo graph.arity graph.stateCount).filterMap
      (graph.machine.meeting target)).toFinset : Set (StateId × τ)) := by
  rintro pair ⟨word, hinside, hmeets⟩
  obtain ⟨outputs, hread⟩ := graph.exists_reading_of_meets target word pair hmeets
  have hshort := graph.length_lt_of_reading h word outputs hread
  rw [Finset.mem_coe, List.mem_toFinset, List.mem_filterMap]
  exact ⟨word, mem_wordsUpTo graph.arity graph.stateCount word hinside hshort.le,
    (graph.machine.meeting_eq_some_iff target word pair).mpr hmeets⟩

theorem ncard_together_le :
    (graph.machine.together target graph.arity).ncard ≤ (graph.arity + 1) ^ graph.stateCount :=
  calc (graph.machine.together target graph.arity).ncard
    _ ≤ ((wordsUpTo graph.arity graph.stateCount).filterMap
        (graph.machine.meeting target)).toFinset.card := by
      rw [← Set.ncard_coe_finset]
      exact Set.ncard_le_ncard (graph.together_subset_meetings h target) (Finset.finite_toSet _)
    _ ≤ ((wordsUpTo graph.arity graph.stateCount).filterMap
        (graph.machine.meeting target)).length := List.toFinset_card_le _
    _ ≤ (wordsUpTo graph.arity graph.stateCount).length := List.length_filterMap_le _ _
    _ ≤ (graph.arity + 1) ^ graph.stateCount := length_wordsUpTo_le _ _

theorem finite_together : (graph.machine.together target graph.arity).Finite :=
  (Finset.finite_toSet _).subset (graph.together_subset_meetings h target)

variable [Hashable τ] (lenient : Bool)

theorem holds_separatingWord : graph.machine.Holds target graph.arity lenient
    (graph.machine.compare target (graph.machine.symbolsBelow graph.arity) lenient
      ((graph.arity + 1) ^ graph.stateCount)) :=
  graph.machine.holds_compare target graph.arity lenient _
    (graph.machine.lists_symbolsBelow graph.arity)
    (graph.finite_together h target) _ (graph.ncard_together_le h target)

theorem separatingWord_eq_none_iff : graph.separatingWord target lenient = none ↔
    graph.machine.Agrees target graph.arity lenient := by
  rw [Machine.agrees_iff]
  exact (graph.holds_separatingWord h target lenient).word?_eq_none_iff

theorem separatingWord_eq_some_iff (word : List Nat) :
    graph.separatingWord target lenient = some word ↔
      graph.machine.SeparatesFirst target graph.arity lenient word :=
  (graph.holds_separatingWord h target lenient).word?_eq_some_iff word

end

end Graph

end TraceGraph
