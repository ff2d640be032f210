import Mathlib
import TraceGraph.Proofs.Graph.Canonicity

/-! # Edges

The edges of a graph as its states show them.  Every edge leads to a live state, and a state has
counted exactly the edges that lead to it.  No chain of edges comes back to where it began, and each
state is at the end of one that begins at the root; so the states along a recorded word differ, and
none is left over. -/
namespace TraceGraph
set_option autoImplicit false

namespace Graph

variable {α : Type}

/-! ## Counts -/

/-- The states and symbols whose steps lead to `id`. -/
def entries (graph : Graph α) (id : StateId) : Set (StateId × Nat) :=
  {entry | ∃ output, graph.step entry.1 entry.2 = some (id, output)}

theorem entries_eq_arrows (graph : Graph α) (id : StateId) :
    graph.entries id = graph.pool.store.arrows id := by
  ext ⟨parent, symbol⟩
  simp only [entries, Store.arrows, Set.mem_ofPred_eq, step_eq]
  constructor
  · rintro ⟨output, hstep⟩
    obtain ⟨edge, hedge, he⟩ := Option.map_eq_some_iff.mp hstep
    exact ⟨edge, hedge, (Prod.mk.inj he).1⟩
  · rintro ⟨edge, hedge, rfl⟩
    exact ⟨edge.output, by rw [hedge]; rfl⟩

theorem encard_entries (graph : Graph α) (h : graph.Sound) (id : StateId) (state : State α)
    (hstate : graph.state? id = some state) : (graph.entries id).encard = state.incoming := by
  rw [entries_eq_arrows, ← (graph.pool.store.arrows_finite id).cast_ncard_eq,
    ← graph.pool.store.inEdges_eq_ncard,
    h.coherent.settled.incoming_eq graph.pool.store id state hstate]

/-- After any history every edge leads to a live state, and each state has counted the edges that
lead to it, one for each state and symbol: the root none, every other state at least one. -/
theorem counts_exact [DecidableEq α] (graph : Graph α) (h : graph.Reachable) :
    (∀ id state, graph.state? id = some state →
      (∀ symbol edge, state.row.edge? symbol = some edge →
        (graph.state? edge.target).isSome = true) ∧
      (graph.entries id).encard = state.incoming ∧
      (id ≠ graph.root → 1 ≤ state.incoming)) ∧
    ∃ state, graph.state? graph.root = some state ∧ state.incoming = 0 := by
  have hsound := h.sound
  have hcount := hsound.coherent.settled.incoming_eq graph.pool.store
  refine ⟨fun id state hstate => ⟨fun symbol edge hedge => ?_, ?_, fun hne => ?_⟩, ?_⟩
  · have hrow := graph.pool.store.row?_of_get? id state hstate
    rw [isSome_state?]
    refine hsound.coherent.settled.closed id edge.target ⟨state.row, hrow, ?_⟩
    exact state.row.target_mem_successors symbol edge hedge
  · exact graph.encard_entries hsound id state hstate
  · rw [hcount id state hstate]
    have hlive := (graph.pool.store.live_iff id).mpr ⟨state, hstate⟩
    exact (hsound.fed id hlive).resolve_left fun hroot => hne (List.mem_singleton.mp hroot)
  · obtain ⟨state, hstate⟩ := (graph.pool.store.live_iff graph.root).mp (graph.root_live hsound)
    exact ⟨state, hstate, (hcount graph.root state hstate).trans hsound.root_free⟩

/-- Two words that come to have the same continuations, so that the state of the one is merged into
that of the other. -/
def joinedSteps : Graph Char := after 2
  [.insert [0, 0] ['x', 'x'], .insert [0, 1] ['x', 'z'], .insert [1, 1] ['y', 'z'],
    .insert [1, 0] ['y', 'x']]

/-- The state that is left has counted the edge of the merged one too. -/
theorem entries_of_joinedSteps :
    joinedSteps.Reachable ∧ (joinedSteps.state? ⟨2⟩).map State.incoming = some 2 ∧
      (joinedSteps.entries ⟨2⟩).encard = 2 := by
  have hreach : joinedSteps.Reachable := ⟨2, _, rfl⟩
  have hincoming : (joinedSteps.state? ⟨2⟩).map State.incoming = some 2 := by cbv
  obtain ⟨state, hstate, htwo⟩ := Option.map_eq_some_iff.mp hincoming
  refine ⟨hreach, hincoming, ?_⟩
  rw [((counts_exact joinedSteps hreach).1 ⟨2⟩ state hstate).2.1, htwo]
  rfl

/-! ## Chains -/

/-- Some step of the live state `id` leads to `next`. -/
def Leads (graph : Graph α) (id next : StateId) : Prop :=
  ∃ symbol output, graph.step id symbol = some (next, output)

theorem leads_of_edge? (graph : Graph α) (id : StateId) (symbol : Nat) (edge : Edge α)
    (h : graph.pool.store.edge? id symbol = some edge) : graph.Leads id edge.target :=
  ⟨symbol, edge.output, by rw [step_eq, h]; rfl⟩

theorem store_leads (graph : Graph α) (id next : StateId) (h : graph.Leads id next) :
    graph.pool.store.Leads id next := by
  obtain ⟨symbol, output, hstep⟩ := h
  rw [step_eq] at hstep
  obtain ⟨edge, hedge, he⟩ := Option.map_eq_some_iff.mp hstep
  rw [← (Prod.mk.inj he).1]
  exact graph.pool.store.leads_of_edge? id symbol edge hedge

theorem chain_of_reach (graph : Graph α) (id last : StateId) (word : List Nat) (hne : word ≠ [])
    (h : graph.pool.store.reach id word = some last) : Relation.TransGen graph.Leads id last := by
  induction word generalizing id with
  | nil => exact absurd rfl hne
  | cons symbol word ih =>
    obtain ⟨edge, hedge, hrest⟩ := Option.bind_eq_some_iff.mp h
    have hleads := graph.leads_of_edge? id symbol edge hedge
    by_cases hword : word = []
    · subst hword
      cases hrest
      exact .single hleads
    · exact .head hleads (ih edge.target hword hrest)

section

variable (graph : Graph α) (h : graph.Sound)

include h

/-- Every state that leads anywhere is filed, and no chain comes back to a filed one. -/
theorem not_chain_self (id : StateId) : ¬ Relation.TransGen graph.Leads id id := by
  intro hchain
  obtain ⟨next, hleads, _⟩ := Relation.TransGen.head'_iff.mp hchain
  have hlive := (graph.store_leads id next hleads).live graph.pool.store
  exact h.coherent.filed.not_chain_self graph.pool.canon graph.pool.store id (h.complete id hlive)
    (Relation.TransGen.mono graph.store_leads _ _ hchain)

theorem exists_recorded (id : StateId) (hid : (graph.state? id).isSome = true) :
    ∃ word, graph.Recorded word ∧ graph.stateAfter word = .ok (some id) := by
  have hlive := (graph.isSome_state? id).mp hid
  obtain ⟨word, hreach⟩ := h.exists_reach graph.pool graph.root graph.arity id
    (h.complete id hlive)
  refine ⟨word, (graph.recorded_iff h word).mpr ⟨id, hreach⟩, ?_⟩
  rw [graph.stateAfter_eq h word (graph.pool.store.lt_arity_of_reach graph.arity
    h.coherent.arities graph.root id word hreach), hreach]

theorem reach_of_prefix (u v : List Nat) (last : StateId) (hpre : u <+: v)
    (hreach : graph.pool.store.reach graph.root v = some last) :
    ∃ mid, graph.pool.store.reach graph.root u = some mid := by
  obtain ⟨outputs, hres, _⟩ := graph.replay_eq_of_reach h v last hreach
  have hbegin := graph.pool.store.residual_of_prefix graph.root u v outputs hpre hres
  exact graph.pool.store.exists_reach_of_residual graph.root u _ hbegin

/-- Two beginnings of a recorded word that lead to one state are one beginning. -/
theorem eq_of_stateAfter_eq (u v : List Nat) (hrec : graph.Recorded v) (hpre : u <+: v)
    (hsame : graph.stateAfter u = graph.stateAfter v) : u = v := by
  obtain ⟨last, hv⟩ := (graph.recorded_iff h v).mp hrec
  obtain ⟨mid, hu⟩ := graph.reach_of_prefix h u v last hpre hv
  have hlt := graph.pool.store.lt_arity_of_reach graph.arity h.coherent.arities graph.root
  rw [graph.stateAfter_eq h u (hlt mid u hu), graph.stateAfter_eq h v (hlt last v hv), hu, hv]
    at hsame
  obtain rfl : mid = last := Option.some.inj (Except.ok.inj hsame)
  obtain ⟨rest, rfl⟩ := hpre
  rw [graph.pool.store.reach_append graph.root mid u rest hu] at hv
  by_contra hne
  have hrest : rest ≠ [] := fun he => hne (by rw [he, List.append_nil])
  exact graph.not_chain_self h mid (graph.chain_of_reach mid mid rest hrest hv)

end

/-- After any history no chain of edges comes back, and every live state is reached from the root by
a recorded word.  This is also how every further call leaves the graph: along a recorded word, be it
old or new, no state stands below itself, and no state is left that nothing reaches. -/
theorem acyclic_and_reached [DecidableEq α] (graph : Graph α) (h : graph.Reachable) :
    (∀ id, ¬ Relation.TransGen graph.Leads id id) ∧
    (∀ id, (graph.state? id).isSome = true →
      ∃ word, graph.Recorded word ∧ graph.stateAfter word = .ok (some id)) ∧
    ∀ call,
      (∀ u v, (graph.perform call).Recorded v → u <+: v →
        (graph.perform call).stateAfter u = (graph.perform call).stateAfter v → u = v) ∧
      ∀ id, ((graph.perform call).state? id).isSome = true →
        ∃ word, (graph.perform call).Recorded word ∧
          (graph.perform call).stateAfter word = .ok (some id) := by
  have hsound := h.sound
  refine ⟨graph.not_chain_self hsound, graph.exists_recorded hsound, fun call => ?_⟩
  have hafter := graph.sound_perform hsound call
  exact ⟨eq_of_stateAfter_eq _ hafter, exists_recorded _ hafter⟩

/-- A trace whose end has the shape of the state it is added to.  The end gets a state of its own
below that state. -/
def repeatedShape : Graph Char := after 2 [.insert [0, 1] ['1', '2']]

theorem acyclic_repeatedShape :
    repeatedShape.Reachable ∧
      (repeatedShape.perform (.insert [0, 0, 1] ['1', '1', '2'])).Recorded [0, 0] ∧
      (repeatedShape.perform (.insert [0, 0, 1] ['1', '1', '2'])).stateAfter [0] ≠
        (repeatedShape.perform (.insert [0, 0, 1] ['1', '1', '2'])).stateAfter [0, 0] := by
  have hreach : repeatedShape.Reachable := ⟨2, _, rfl⟩
  have hrec : (repeatedShape.perform (.insert [0, 0, 1] ['1', '1', '2'])).Recorded [0, 0] :=
    ⟨['1', '1'], by cbv⟩
  refine ⟨hreach, hrec, fun hsame => ?_⟩
  have hcalls := (acyclic_and_reached repeatedShape hreach).2.2
  have heq := (hcalls (.insert [0, 0, 1] ['1', '1', '2'])).1 [0] [0, 0] hrec ⟨[0], rfl⟩ hsame
  exact absurd heq (by decide)

end Graph

end TraceGraph
