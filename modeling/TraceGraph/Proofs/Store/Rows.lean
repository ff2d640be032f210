import TraceGraph.Proofs.RowEdit
import TraceGraph.Store

/-! # The rows of a store

What a store shows when the counts are left aside: which states are live, which row each of them
has, and which states an edge leads to.  Every operation is described by the states it leaves. -/
namespace TraceGraph
set_option autoImplicit false

namespace Store

variable {α : Type}

def row? (store : Store α) (id : StateId) : Option (Row α) := (store.get? id).map State.row

def Live (store : Store α) (id : StateId) : Prop := ∃ row, store.row? id = some row

/-- The edge of the live state `id` on `symbol`. -/
def edge? (store : Store α) (id : StateId) (symbol : Nat) : Option (Edge α) :=
  (store.row? id).bind fun row => row.edge? symbol

/-- Some edge of the live state `id` leads to `target`. -/
def Leads (store : Store α) (id target : StateId) : Prop :=
  ∃ row, store.row? id = some row ∧ target ∈ row.successors

theorem row?_of_get? (store : Store α) (id : StateId) (state : State α)
    (h : store.get? id = some state) : store.row? id = some state.row := by
  rw [row?, h]
  rfl

theorem get?_of_row? (store : Store α) (id : StateId) (row : Row α)
    (h : store.row? id = some row) : ∃ state, store.get? id = some state ∧ state.row = row :=
  Option.map_eq_some_iff.mp h

theorem live_iff (store : Store α) (id : StateId) :
    store.Live id ↔ ∃ state, store.get? id = some state := by
  constructor
  · rintro ⟨row, hrow⟩
    obtain ⟨state, hstate, _⟩ := store.get?_of_row? id row hrow
    exact ⟨state, hstate⟩
  · rintro ⟨state, hstate⟩
    exact ⟨state.row, store.row?_of_get? id state hstate⟩

theorem not_live_iff (store : Store α) (id : StateId) : ¬ store.Live id ↔ store.get? id = none := by
  rw [live_iff, Option.eq_none_iff_forall_ne_some]
  exact not_exists

theorem Leads.live (store : Store α) (id target : StateId) (h : store.Leads id target) :
    store.Live id := by
  obtain ⟨row, hrow, _⟩ := h
  exact ⟨row, hrow⟩

theorem edge?_of_row? (store : Store α) (id : StateId) (row : Row α) (symbol : Nat)
    (h : store.row? id = some row) : store.edge? id symbol = row.edge? symbol := by
  rw [edge?, h]
  rfl

theorem row?_of_edge? (store : Store α) (id : StateId) (symbol : Nat) (edge : Edge α)
    (h : store.edge? id symbol = some edge) :
    ∃ row, store.row? id = some row ∧ row.edge? symbol = some edge :=
  Option.bind_eq_some_iff.mp h

theorem leads_iff (store : Store α) (id target : StateId) :
    store.Leads id target ↔ ∃ symbol edge, store.edge? id symbol = some edge ∧
      edge.target = target := by
  constructor
  · rintro ⟨row, hrow, hmem⟩
    obtain ⟨symbol, edge, hedge, heq⟩ := (row.mem_successors target).mp hmem
    exact ⟨symbol, edge, (edge?_of_row? store id row symbol hrow).trans hedge, heq⟩
  · rintro ⟨symbol, edge, hedge, heq⟩
    obtain ⟨row, hrow, hslot⟩ := row?_of_edge? store id symbol edge hedge
    exact ⟨row, hrow, (row.mem_successors target).mpr ⟨symbol, edge, hslot, heq⟩⟩

theorem leads_of_edge? (store : Store α) (id : StateId) (symbol : Nat) (edge : Edge α)
    (h : store.edge? id symbol = some edge) : store.Leads id edge.target :=
  (leads_iff store id edge.target).mpr ⟨symbol, edge, h, rfl⟩

theorem fetch_eq (store : Store α) (id : StateId) (state : State α)
    (h : store.get? id = some state) : store.fetch id = .ok state := by
  rw [fetch, h]

theorem get?_eq_some_iff (store : Store α) (id : StateId) (state : State α) :
    store.get? id = some state ↔ store.slots[id.index]? = some (some state) :=
  Option.join_eq_some_iff

/-! ## The live states in slot order -/

theorem mem_live_map (store : Store α) (id : StateId) :
    id ∈ store.live.map Prod.fst ↔ store.Live id := by
  rw [live_iff, List.mem_map]
  constructor
  · rintro ⟨⟨_, state⟩, hmem, rfl⟩
    exact ⟨state, (store.mem_live _ state).mp hmem⟩
  · rintro ⟨state, hstate⟩
    exact ⟨(id, state), (store.mem_live id state).mpr hstate, rfl⟩

theorem live_ascending (store : Store α) : (store.live.map Prod.fst).Pairwise (· < ·) := by
  have hslots : store.slots.toList.zipIdx.Pairwise fun entry other => entry.2 < other.2 := by
    refine List.pairwise_map.mp ?_
    rw [List.zipIdx_map_snd]
    exact List.pairwise_lt_range'
  unfold live
  rw [List.map_filterMap]
  refine hslots.filterMap _ fun entry other hlt id hid id' hid' => ?_
  obtain ⟨entry', hentry, rfl⟩ := Option.map_eq_some_iff.mp hid
  obtain ⟨other', hother, rfl⟩ := Option.map_eq_some_iff.mp hid'
  obtain ⟨state, _, rfl⟩ := Option.map_eq_some_iff.mp hentry
  obtain ⟨state', _, rfl⟩ := Option.map_eq_some_iff.mp hother
  exact hlt

/-! ## Slots -/

/-- The vacant slots are listed once each, and no others are. -/
structure Accounted (store : Store α) : Prop where
  nodup : store.vacant.Nodup
  mem_vacant : ∀ id, id ∈ store.vacant ↔ store.slots[id.index]? = some none

theorem accounted_empty : (empty : Store α).Accounted where
  nodup := List.nodup_nil
  mem_vacant id := by simp [empty]

/-- A new state goes behind all others if no slot is vacant, and else where one was vacated last. -/
theorem alloc_cases (store after : Store α) (state : State α) (id : StateId)
    (h : store.alloc state = .ok (after, id)) :
    (store.vacant = [] ∧ store.push state = (after, id)) ∨
      ∃ vacant, store.vacant = id :: vacant ∧ store.slots[id.index]? = some none ∧
        after = ⟨store.slots.setIfInBounds id.index (some state), vacant⟩ := by
  unfold alloc at h
  split at h
  · next hv => exact .inl ⟨hv, Except.ok.inj h⟩
  · next first vacant hv =>
    split at h
    · cases h
    · cases h
    · next hs =>
      cases h
      exact .inr ⟨vacant, hv, hs, rfl⟩

/-- There is a slot for every new state. -/
theorem exists_alloc (store : Store α) (state : State α) (h : store.Accounted) :
    ∃ after id, store.alloc state = .ok (after, id) := by
  unfold alloc
  split
  · exact ⟨_, _, rfl⟩
  · next id vacant hv =>
    rw [(h.mem_vacant id).mp (by rw [hv]; exact List.mem_cons_self)]
    exact ⟨_, _, rfl⟩

/-- A new state gets a slot of its own, and no other slot changes. -/
theorem slots_alloc (store after : Store α) (state : State α) (id : StateId)
    (h : store.alloc state = .ok (after, id)) (other : StateId) :
    after.slots[other.index]? =
      if other = id then some (some state) else store.slots[other.index]? := by
  rcases alloc_cases store after state id h with ⟨_, hpush⟩ | ⟨vacant, _, hslot, rfl⟩
  · cases hpush
    rw [Array.getElem?_push]
    by_cases ho : other.index = store.slots.size
    · have he : other = ⟨store.slots.size⟩ := (StateId.ext_iff _ _).mpr ho
      rw [if_pos ho, if_pos he]
    · have he : other ≠ ⟨store.slots.size⟩ := fun e => ho ((StateId.ext_iff _ _).mp e)
      rw [if_neg ho, if_neg he]
  · exact slots_set store id other (some state) (Array.getElem?_eq_some_iff.mp hslot).1

/-- A new state gets a slot without a live state, and the other states stay as they are. -/
theorem get?_alloc (store after : Store α) (state : State α) (id : StateId)
    (h : store.alloc state = .ok (after, id)) :
    store.get? id = none ∧
      ∀ other, after.get? other = if other = id then some state else store.get? other := by
  constructor
  · rcases alloc_cases store after state id h with ⟨_, hpush⟩ | ⟨vacant, _, hslot, rfl⟩
    · cases hpush
      simp [get?]
    · rw [get?, hslot]
      rfl
  · intro other
    unfold get?
    rw [store.slots_alloc after state id h other]
    split
    · rfl
    · rfl

/-- A change of one slot between filled and empty keeps the account if the list follows it. -/
theorem accounted_set (store : Store α) (id : StateId) (slot : Option (State α))
    (vacant : List StateId) (hlt : id.index < store.slots.size) (hnodup : vacant.Nodup)
    (hself : id ∈ vacant ↔ slot = none)
    (hother : ∀ other, other ≠ id → (other ∈ vacant ↔ store.slots[other.index]? = some none)) :
    Accounted ⟨store.slots.setIfInBounds id.index slot, vacant⟩ where
  nodup := hnodup
  mem_vacant other := by
    rw [slots_set store id other slot hlt]
    split
    · next he =>
      rw [he, Option.some.injEq]
      exact hself
    · next he => exact hother other he

theorem accounted_alloc (store after : Store α) (state : State α) (id : StateId)
    (h : store.Accounted) (halloc : store.alloc state = .ok (after, id)) : after.Accounted := by
  rcases alloc_cases store after state id halloc with ⟨hv, hpush⟩ | ⟨vacant, hv, hslot, rfl⟩
  · cases hpush
    refine ⟨by rw [hv]; exact List.nodup_nil, fun other => ?_⟩
    rw [h.mem_vacant other, Array.getElem?_push]
    by_cases ho : other.index = store.slots.size
    · simp [ho]
    · rw [if_neg ho]
  · have hnodup := h.nodup
    rw [hv, List.nodup_cons] at hnodup
    refine accounted_set store id (some state) vacant (Array.getElem?_eq_some_iff.mp hslot).1
      hnodup.2 ?_ ?_
    · exact ⟨fun hmem => absurd hmem hnodup.1, fun he => absurd he (Option.some_ne_none _)⟩
    · intro other hne
      rw [← h.mem_vacant other, hv, List.mem_cons]
      exact ⟨.inr, fun hmem => hmem.resolve_left hne⟩

theorem accounted_put (store : Store α) (id : StateId) (old new : State α) (h : store.Accounted)
    (hget : store.get? id = some old) : (store.put id new).Accounted := by
  have hlt := index_lt_of_get? store id old hget
  refine accounted_set store id (some new) store.vacant hlt h.nodup ?_ fun other _ =>
    h.mem_vacant other
  refine ⟨fun hmem => ?_, fun he => absurd he (Option.some_ne_none _)⟩
  have hslot := (h.mem_vacant id).mp hmem
  rw [get?, hslot] at hget
  cases hget

theorem free_eq (store : Store α) (id : StateId) (state : State α)
    (h : store.get? id = some state) :
    ∃ after, store.free id = .ok (after, state) ∧ (store.Accounted → after.Accounted) := by
  have hslot := slot_of_fetch store id state (fetch_eq store id state h)
  refine ⟨⟨store.slots.setIfInBounds id.index none, id :: store.vacant⟩, ?_, fun hacc => ?_⟩
  · rw [free, hslot]
  · have hlt := index_lt_of_get? store id state h
    have hnot : id ∉ store.vacant := fun hmem => by
      rw [(hacc.mem_vacant id).mp hmem] at hslot
      cases hslot
    refine accounted_set store id none (id :: store.vacant) hlt
      (List.nodup_cons.mpr ⟨hnot, hacc.nodup⟩) ?_ ?_
    · exact ⟨fun _ => rfl, fun _ => List.mem_cons_self⟩
    · intro other hne
      rw [List.mem_cons, hacc.mem_vacant]
      exact ⟨fun hmem => hmem.resolve_left hne, .inr⟩

/-- Without a live state there is nothing to free, in a vacant slot as beyond the last slot. -/
theorem free_of_not_live (store : Store α) (id : StateId) (h : store.Accounted)
    (hdead : ¬ store.Live id) :
    store.free id = .error (if id ∈ store.vacant then .alreadyVacant
      else .indexOutOfBounds store.slots.size id.index) := by
  rw [not_live_iff, get?] at hdead
  have hvacant := h.mem_vacant id
  rw [free]
  split
  · next hs =>
    rw [hs] at hvacant
    rw [if_neg fun hmem => nomatch hvacant.mp hmem]
  · next hs => rw [if_pos (hvacant.mpr hs)]
  · next hs =>
    rw [hs] at hdead
    cases hdead

/-! ## Rows after a change -/

theorem row?_put (store : Store α) (id other : StateId) (old new : State α)
    (h : store.get? id = some old) :
    (store.put id new).row? other = if other = id then some new.row else store.row? other := by
  rw [row?, get?_put store id other old new h]
  split
  · rfl
  · rfl

theorem row?_alloc (store after : Store α) (state : State α) (id : StateId)
    (h : store.alloc state = .ok (after, id)) (other : StateId) :
    after.row? other = if other = id then some state.row else store.row? other := by
  rw [row?, (get?_alloc store after state id h).2 other]
  split
  · rfl
  · rfl

theorem row?_free (store after : Store α) (id other : StateId) (state : State α)
    (h : store.free id = .ok (after, state)) :
    after.row? other = if other = id then none else store.row? other := by
  rw [row?, (get?_free store after id other state h).2]
  split
  · rfl
  · rfl

theorem row?_widen (store : Store α) (arity : Nat) (id : StateId) :
    (store.widen arity).row? id = (store.row? id).map fun row => row.widen arity := by
  rw [row?, row?, get?_widen, Option.map_map, Option.map_map]
  rfl

theorem live_of_row?_eq (store after : Store α) (id : StateId)
    (h : after.row? id = store.row? id) : after.Live id ↔ store.Live id := by
  rw [Live, Live, h]

end Store

end TraceGraph
