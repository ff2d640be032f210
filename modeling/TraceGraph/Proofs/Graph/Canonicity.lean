import Mathlib
import TraceGraph.Machine
import TraceGraph.Graph.Separate
import TraceGraph.Proofs.Graph.Sharing

/-! # Canonicity

Two sound graphs that read the same from their roots have, for each state of the one, exactly one
state of the other that reads the same.  Taking states to each other so keeps the root, the edges
and, since the arrows into a state go over as a whole, the number of incoming edges.  What a graph
records thus decides it up to the numbers of its states. -/
namespace TraceGraph
set_option autoImplicit false

namespace Graph

variable {α : Type}

/-- A renaming of the live states of one graph as those of another, which keeps the root, each step
and each count. -/
structure Renaming (graph other : Graph α) (f : StateId → StateId) : Prop where
  bijective : Set.BijOn f {id | (graph.state? id).isSome = true}
    {id | (other.state? id).isSome = true}
  root : f graph.root = other.root
  step : ∀ id, (graph.state? id).isSome = true → ∀ symbol,
    other.step (f id) symbol = (graph.step id symbol).map fun next => (f next.1, next.2)
  incoming : ∀ id, (graph.state? id).isSome = true →
    (other.state? (f id)).map State.incoming = (graph.state? id).map State.incoming

/-- `f` takes every live state to a live state that reads the same. -/
def Matches (graph other : Graph α) (f : StateId → StateId) : Prop :=
  ∀ id, graph.pool.store.Live id → other.pool.store.Live (f id) ∧
    other.pool.store.residual (f id) = graph.pool.store.residual id

theorem step_eq (graph : Graph α) (id : StateId) (symbol : Nat) : graph.step id symbol =
    (graph.pool.store.edge? id symbol).map fun edge => (edge.target, edge.output) := by
  unfold step state? Store.edge? Store.row?
  cases graph.pool.store.get? id with
  | none => rfl
  | some state =>
    simp only [Option.bind_eq_bind, Option.bind_some, Option.map_some]
    cases state.row.edge? symbol with
    | none => rfl
    | some edge => rfl

theorem isSome_state? (graph : Graph α) (id : StateId) :
    (graph.state? id).isSome = true ↔ graph.pool.store.Live id := by
  rw [Store.live_iff, Option.isSome_iff_exists]
  exact Iff.rfl

theorem incoming_eq (graph : Graph α) (h : graph.Sound) (id : StateId)
    (hid : graph.pool.store.Live id) :
    (graph.state? id).map State.incoming = some (graph.pool.store.inEdges id) := by
  obtain ⟨state, hstate⟩ := (graph.pool.store.live_iff id).mp hid
  rw [state?, hstate, Option.map_some,
    h.coherent.settled.incoming_eq graph.pool.store id state hstate]

section

variable (graph other : Graph α) (h : graph.Sound) (h' : other.Sound)
  (hread : graph.reading = other.reading)

include h h' hread

theorem exists_match (id : StateId) (hid : graph.pool.store.Live id) :
    ∃ like, other.pool.store.Live like ∧
      other.pool.store.residual like = graph.pool.store.residual id := by
  obtain ⟨word, hword⟩ := h.exists_reach graph.pool graph.root graph.arity id (h.complete id hid)
  obtain ⟨outputs, hres, _⟩ := graph.replay_eq_of_reach h word id hword
  have hres' : other.pool.store.residual other.root word = some outputs :=
    (congrFun hread word).symm.trans hres
  obtain ⟨like, hlike⟩ := other.pool.store.exists_reach_of_residual other.root word outputs hres'
  refine ⟨like, other.pool.store.live_reach h'.coherent.settled.closed other.root like word
    (other.root_live h') hlike, funext fun rest => ?_⟩
  have happend := graph.pool.store.residual_append graph.root id word rest outputs hword hres
  have happend' := other.pool.store.residual_append other.root like word rest outputs hlike hres'
  have hsame := happend'.symm.trans ((congrFun hread (word ++ rest)).symm.trans happend)
  exact Option.map_injective (List.append_right_injective outputs) hsame

theorem exists_matches : ∃ f, graph.Matches other f := by
  have : Nonempty StateId := ⟨graph.root⟩
  choose! f hf using graph.exists_match other h h' hread
  exact ⟨f, hf⟩

variable (f : StateId → StateId) (hf : graph.Matches other f)

include hf

theorem bijOn_of_matches :
    Set.BijOn f {id | graph.pool.store.Live id} {id | other.pool.store.Live id} := by
  refine ⟨fun id hid => (hf id hid).1, fun one h1 two h2 he => ?_, fun like hlike => ?_⟩
  · refine graph.residual_injOn h h1 h2 ?_
    rw [← (hf one h1).2, ← (hf two h2).2, he]
  · obtain ⟨id, hid, hres⟩ := other.exists_match graph h' h hread.symm like hlike
    refine ⟨id, hid, other.residual_injOn h' (hf id hid).1 hlike ?_⟩
    rw [(hf id hid).2, hres]

theorem root_of_matches : f graph.root = other.root := by
  have hlive := graph.root_live h
  refine other.residual_injOn h' (hf graph.root hlive).1 (other.root_live h') ?_
  rw [(hf graph.root hlive).2]
  exact hread

omit hread in
theorem edge?_of_matches (id : StateId) (hid : graph.pool.store.Live id) (symbol : Nat) :
    other.pool.store.edge? (f id) symbol =
      (graph.pool.store.edge? id symbol).map fun edge => ⟨f edge.target, edge.output⟩ := by
  have hsame := (hf id hid).2
  cases hedge : graph.pool.store.edge? id symbol with
  | none =>
    cases hlike : other.pool.store.edge? (f id) symbol with
    | none => rfl
    | some like =>
      obtain ⟨edge, he, _⟩ := Store.edge?_of_residual_eq other.pool.store graph.pool.store (f id) id
        (congrFun hsame) symbol like hlike
      cases hedge.symm.trans he
  | some edge =>
    obtain ⟨like, hlike, houtput, htarget⟩ := Store.edge?_of_residual_eq graph.pool.store
      other.pool.store id (f id) (congrFun hsame.symm) symbol edge hedge
    have hlive := h.coherent.settled.closed id edge.target
      (graph.pool.store.leads_of_edge? id symbol edge hedge)
    have hlive' := h'.coherent.settled.closed (f id) like.target
      (other.pool.store.leads_of_edge? (f id) symbol like hlike)
    have heq : like.target = f edge.target := by
      refine other.residual_injOn h' hlive' (hf edge.target hlive).1 ?_
      rw [(hf edge.target hlive).2]
      exact (funext htarget).symm
    rw [hlike, Option.map_some, ← heq, ← houtput]

theorem arrows_of_matches (target : StateId) (htarget : graph.pool.store.Live target) :
    other.pool.store.arrows (f target) =
      (fun arrow => (f arrow.1, arrow.2)) '' graph.pool.store.arrows target := by
  have hbij := graph.bijOn_of_matches other h h' hread f hf
  have hedges := graph.edge?_of_matches other h h' f hf
  ext ⟨like, symbol⟩
  constructor
  · rintro ⟨edge', hedge', he⟩
    have hlike := (other.pool.store.leads_of_edge? like symbol edge' hedge').live
    obtain ⟨id, hid, rfl⟩ := hbij.surjOn hlike
    have hmap := hedges id hid symbol
    change other.pool.store.edge? (f id) symbol = some edge' at hedge'
    rw [hedge'] at hmap
    obtain ⟨edge, hedge, rfl⟩ := Option.map_eq_some_iff.mp hmap.symm
    have hlive := h.coherent.settled.closed id edge.target
      (graph.pool.store.leads_of_edge? id symbol edge hedge)
    exact ⟨(id, symbol), ⟨edge, hedge, hbij.injOn hlive htarget he⟩, rfl⟩
  · rintro ⟨⟨id, same⟩, ⟨edge, hedge, he⟩, heq⟩
    obtain ⟨rfl, hsymbol⟩ := Prod.mk.inj heq
    obtain rfl : same = symbol := hsymbol
    have hid := (graph.pool.store.leads_of_edge? id same edge hedge).live
    refine ⟨⟨f edge.target, edge.output⟩, ?_, congrArg f he⟩
    rw [hedges id hid same]
    exact congrArg (Option.map _) hedge

theorem inEdges_of_matches (target : StateId) (htarget : graph.pool.store.Live target) :
    other.pool.store.inEdges (f target) = graph.pool.store.inEdges target := by
  have hbij := graph.bijOn_of_matches other h h' hread f hf
  rw [Store.inEdges_eq_ncard, Store.inEdges_eq_ncard,
    graph.arrows_of_matches other h h' hread f hf target htarget]
  refine Set.InjOn.ncard_image ?_
  rintro ⟨id, symbol⟩ ⟨edge, hedge, _⟩ ⟨id', symbol'⟩ ⟨edge', hedge', _⟩ he
  have hid := (graph.pool.store.leads_of_edge? id symbol edge hedge).live
  have hid' := (graph.pool.store.leads_of_edge? id' symbol' edge' hedge').live
  obtain ⟨hfst, rfl⟩ := Prod.mk.inj he
  rw [hbij.injOn hid hid' hfst]

theorem renaming_of_matches : graph.Renaming other f where
  bijective := by
    simp only [isSome_state?]
    exact graph.bijOn_of_matches other h h' hread f hf
  root := graph.root_of_matches other h h' hread f hf
  step id hid symbol := by
    rw [step_eq, step_eq,
      graph.edge?_of_matches other h h' f hf id ((graph.isSome_state? id).mp hid) symbol,
      Option.map_map, Option.map_map]
    rfl
  incoming id hid := by
    have hlive := (graph.isSome_state? id).mp hid
    rw [graph.incoming_eq h id hlive, other.incoming_eq h' (f id) (hf id hlive).1,
      graph.inEdges_of_matches other h h' hread f hf id hlive]

end

variable [DecidableEq α]

/-- Whatever their histories, graphs over one alphabet that answer every word alike are equal up to
a renaming of their states; so they have equally many. -/
theorem renaming_of_replay (graph other : Graph α) (h : graph.Reachable) (h' : other.Reachable)
    (harity : graph.arity = other.arity)
    (hreplay : ∀ word, (∀ symbol ∈ word, symbol < graph.arity) →
      graph.replay word = other.replay word) :
    (∃ f, graph.Renaming other f) ∧ graph.stateCount = other.stateCount := by
  have hsound := h.sound
  have hsound' := h'.sound
  have hread : graph.reading = other.reading := by
    refine graph.residual_ext hsound other hsound' harity graph.root other.root fun word hword => ?_
    have := hreplay word hword
    rw [graph.replay_eq hsound word hword, other.replay_eq hsound' word (harity ▸ hword)] at this
    exact Except.ok.inj this
  obtain ⟨f, hf⟩ := graph.exists_matches other hsound hsound' hread
  refine ⟨⟨f, graph.renaming_of_matches other hsound hsound' hread f hf⟩, ?_⟩
  have hbij := graph.bijOn_of_matches other hsound hsound' hread f hf
  have hcard := hbij.injOn.encard_image
  rw [hbij.image_eq, other.pool.store.encard_live hsound'.coherent.settled.accounted,
    graph.pool.store.encard_live hsound.coherent.settled.accounted] at hcard
  exact (Nat.cast_injective hcard).symm

/-! ## Two traces in either order -/

def forth : Graph Char := after 2 [.insert [0, 0] ['a', 'b'], .insert [1, 0] ['c', 'd']]

def back : Graph Char := after 2 [.insert [1, 0] ['c', 'd'], .insert [0, 0] ['a', 'b']]

theorem replay_forth (word : List Nat) (hword : ∀ symbol ∈ word, symbol < 2) :
    forth.replay word = back.replay word := by
  have h := sound_new (α := Char) 2
  obtain ⟨h₁, harity₁, hread₁⟩ := reading_insert _ h [0, 0] ['a', 'b'] true (by cbv)
  obtain ⟨h₁₂, harity₁₂, hread₁₂⟩ := reading_insert _ h₁ [1, 0] ['c', 'd'] true (by cbv)
  obtain ⟨h₂, harity₂, hread₂⟩ := reading_insert _ h [1, 0] ['c', 'd'] true (by cbv)
  obtain ⟨h₂₁, harity₂₁, hread₂₁⟩ := reading_insert _ h₂ [0, 0] ['a', 'b'] true (by cbv)
  have hforth := replay_eq _ h₁₂ word (by rw [harity₁₂, harity₁]; exact hword)
  have hback := replay_eq _ h₂₁ word (by rw [harity₂₁, harity₂]; exact hword)
  refine hforth.trans (Eq.trans ?_ hback.symm)
  rw [hread₁₂, hread₁, hread₂₁, hread₂]
  -- only the empty word begins both traces
  cases word with
  | nil => rfl
  | cons symbol word =>
    unfold overlay
    by_cases hs : symbol = 0
    · simp [hs]
    · simp [hs]

/-- The two states below the root have changed places. -/
theorem renaming_of_forth :
    forth.stateAfter [0] = .ok (some ⟨2⟩) ∧ back.stateAfter [0] = .ok (some ⟨3⟩) ∧
      (∃ f, forth.Renaming back f) ∧ forth.stateCount = back.stateCount := by
  have harity : forth.arity = 2 := by cbv
  have harity' : back.arity = 2 := by cbv
  refine ⟨by cbv, by cbv, ?_⟩
  exact renaming_of_replay forth back ⟨2, _, rfl⟩ ⟨2, _, rfl⟩ (harity.trans harity'.symm)
    fun word hword => replay_forth word (harity ▸ hword)

end Graph

end TraceGraph
