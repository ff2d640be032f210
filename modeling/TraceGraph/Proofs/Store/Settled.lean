import TraceGraph.Proofs.Store.Owing

/-! # Settled counts

A store is settled up to two lists: the edges that are there but not yet counted, and the edges that
are gone but still counted.  An edit puts an edge on either list, and counting a new edge or
dropping an old one takes it off again; with both lists empty every count is exact. -/
namespace TraceGraph
set_option autoImplicit false

namespace Store

variable {α : Type}

structure Settled (store : Store α) (uncounted pending : List StateId) : Prop where
  accounted : store.Accounted
  closed : ∀ id target, store.Leads id target → store.Live target
  uncounted_live : ∀ id ∈ uncounted, store.Live id
  pending_live : ∀ id ∈ pending, store.Live id
  counted : ∀ id state, store.get? id = some state →
    state.incoming + uncounted.count id = store.inEdges id + pending.count id

namespace Settled

theorem incoming_eq (store : Store α) (h : store.Settled [] []) (id : StateId) (state : State α)
    (hstate : store.get? id = some state) : state.incoming = store.inEdges id := by
  have hcount := h.counted id state hstate
  simp only [List.count_nil, Nat.add_zero] at hcount
  exact hcount

/-- With nothing uncounted, a settled store is one that owes the pending edges. -/
theorem iff_owing (store : Store α) (pending : List StateId) :
    store.Settled [] pending ↔ store.Accounted ∧ store.Owing pending := by
  constructor
  · intro h
    exact ⟨h.accounted, h.closed, h.pending_live, fun id state hstate => by
      simpa using h.counted id state hstate⟩
  · rintro ⟨hacc, h⟩
    exact ⟨hacc, h.closed, fun _ hid => absurd hid List.not_mem_nil, h.live,
      fun id state hstate => by simpa using h.counted id state hstate⟩

/-- A change of counts alone, state by state. -/
theorem of_counts (store after : Store α) (uncounted pending uncounted' pending' : List StateId)
    (h : store.Settled uncounted pending) (hacc : after.Accounted)
    (hrow : ∀ id, after.row? id = store.row? id)
    (hu : ∀ id ∈ uncounted', id ∈ uncounted) (hp : ∀ id ∈ pending', id ∈ pending)
    (hcount : ∀ id old new, store.get? id = some old → after.get? id = some new →
      new.incoming + uncounted'.count id + pending.count id =
        old.incoming + uncounted.count id + pending'.count id) :
    after.Settled uncounted' pending' := by
  have hlive : ∀ id, store.Live id → after.Live id := fun id hid =>
    (live_of_row?_eq store after id (hrow id)).mpr hid
  refine ⟨hacc, ?_, fun id hid => hlive id (h.uncounted_live id (hu id hid)),
    fun id hid => hlive id (h.pending_live id (hp id hid)), ?_⟩
  · rintro id target ⟨row, hr, hmem⟩
    exact hlive target (h.closed id target ⟨row, by rw [← hrow id]; exact hr, hmem⟩)
  · intro id new hnew
    have hlive' : store.Live id := (live_of_row?_eq store after id (hrow id)).mp
      ((live_iff after id).mpr ⟨new, hnew⟩)
    obtain ⟨old, hold⟩ := (live_iff store id).mp hlive'
    have hc := h.counted id old hold
    have hd := hcount id old new hold hnew
    rw [inEdges_congr store after hrow id]
    omega

/-- An edge gained and an edge lost to the same state need no counting. -/
theorem cancel (store : Store α) (id : StateId) (uncounted pending : List StateId)
    (h : store.Settled (id :: uncounted) (id :: pending)) : store.Settled uncounted pending := by
  refine of_counts store store _ _ uncounted pending h h.accounted (fun _ => rfl)
    (fun other hmem => List.mem_cons_of_mem id hmem)
    (fun other hmem => List.mem_cons_of_mem id hmem) ?_
  intro other old new hold hnew
  rw [hold] at hnew
  cases hnew
  rw [List.count_cons, List.count_cons]
  omega

theorem gainEdge (store : Store α) (id : StateId) (uncounted pending : List StateId)
    (h : store.Settled (id :: uncounted) pending) :
    ∃ after, store.gainEdge id = .ok after ∧ after.Settled uncounted pending ∧
      ∀ other, after.row? other = store.row? other := by
  obtain ⟨state, hstate⟩ := (live_iff store id).mp (h.uncounted_live id List.mem_cons_self)
  have hrow : ∀ other, (store.put id state.gain).row? other = store.row? other := by
    intro other
    rw [row?_put store id other state state.gain hstate]
    split
    · next he => rw [he, row?_of_get? store id state hstate]; rfl
    · rfl
  refine ⟨store.put id state.gain, ?_, ?_, hrow⟩
  · rw [Store.gainEdge, fetch_eq store id state hstate]
    rfl
  · refine of_counts store _ (id :: uncounted) pending uncounted pending h
      (accounted_put store id state state.gain h.accounted hstate) hrow
      (fun other hmem => List.mem_cons_of_mem id hmem) (fun _ hmem => hmem) ?_
    intro other old new hold hnew
    rw [get?_put store id other state state.gain hstate] at hnew
    rw [List.count_cons]
    by_cases he : other = id
    · rw [if_pos he] at hnew
      rw [he, hstate] at hold
      cases hold
      cases hnew
      simp only [State.gain, he, beq_self_eq_true, if_true]
      omega
    · rw [if_neg he, hold] at hnew
      cases hnew
      simp only [beq_iff_eq, Ne.symm he, if_false]
      omega

theorem gainEdges (store : Store α) (ids pending : List StateId) (h : store.Settled ids pending) :
    ∃ after, store.gainEdges ids = .ok after ∧ after.Settled [] pending ∧
      ∀ other, after.row? other = store.row? other := by
  induction ids generalizing store with
  | nil => exact ⟨store, rfl, h, fun _ => rfl⟩
  | cons id ids ih =>
    obtain ⟨mid, hgain, hmid, hrow⟩ := gainEdge store id ids pending h
    obtain ⟨after, hgains, hafter, hrow'⟩ := ih mid hmid
    refine ⟨after, ?_, hafter, fun other => (hrow' other).trans (hrow other)⟩
    rw [Store.gainEdges, List.foldlM_cons, hgain]
    exact hgains

/-! ## New rows -/

/-- The edges of a new state are uncounted at first. -/
theorem alloc (store after : Store α) (row : Row α) (id : StateId) (h : store.Settled [] [])
    (halloc : store.alloc (.fresh row) = .ok (after, id))
    (hrow : ∀ target ∈ row.successors, store.Live target) : after.Settled row.successors [] := by
  obtain ⟨hnone, hget⟩ := get?_alloc store after (.fresh row) id halloc
  have hrows := row?_alloc store after (.fresh row) id halloc
  have hacc := accounted_alloc store after (.fresh row) id h.accounted halloc
  have hdead : ¬ store.Live id := (not_live_iff store id).mpr hnone
  have hlive : ∀ other, store.Live other → after.Live other := by
    intro other hother
    refine (live_of_row?_eq store after other ?_).mpr hother
    rw [hrows other, if_neg fun he : other = id => hdead (he ▸ hother)]
  refine ⟨hacc, ?_, fun target hmem => hlive target (hrow target hmem),
    fun _ hmem => absurd hmem List.not_mem_nil, ?_⟩
  · rintro other target ⟨found, hfound, hmem⟩
    rw [hrows other] at hfound
    split at hfound
    · cases hfound
      exact hlive target (hrow target hmem)
    · exact hlive target (h.closed other target ⟨found, hfound, hmem⟩)
  · intro other state hstate
    have hchange := inEdges_change store after id
      (fun other hne => by rw [hrows other, if_neg hne]) other
    have hnew : after.row? id = some row := by rw [hrows id, if_pos rfl]; rfl
    have hold : store.row? id = none := by rw [row?, hnone]; rfl
    rw [hnew, hold] at hchange
    simp only [edgesTo] at hchange
    rw [hget other] at hstate
    split at hstate
    · next he =>
      cases hstate
      have hzero : store.inEdges other = 0 := by
        by_contra hpos
        obtain ⟨parent, hleads⟩ := (inEdges_pos_iff store other).mp (Nat.pos_of_ne_zero hpos)
        exact hdead (he ▸ h.closed parent other hleads)
      simp only [State.fresh, List.count_nil]
      omega
    · have hc := h.counted other state hstate
      simp only [List.count_nil] at hc ⊢
      omega

/-- A new state with its edges counted. -/
theorem add (store : Store α) (row : Row α) (h : store.Settled [] [])
    (hrow : ∀ target ∈ row.successors, store.Live target) :
    ∃ mid id after, store.alloc (.fresh row) = .ok (mid, id) ∧
      mid.gainEdges row.successors = .ok after ∧ after.Settled [] [] ∧ ¬ store.Live id ∧
      ∀ other, after.row? other = if other = id then some row else store.row? other := by
  obtain ⟨mid, id, halloc⟩ := exists_alloc store (.fresh row) h.accounted
  obtain ⟨after, hgain, hafter, hsame⟩ := gainEdges mid row.successors []
    (alloc store mid row id h halloc hrow)
  refine ⟨mid, id, after, halloc, hgain, hafter, ?_, fun other => ?_⟩
  · exact (store.not_live_iff id).mpr (get?_alloc store mid (.fresh row) id halloc).1
  · rw [hsame other, row?_alloc store mid (.fresh row) id halloc other]
    rfl

end Settled

/-- What an edit of a live state's row leaves: the edge to the new target is uncounted, the one to
the displaced target pending. -/
theorem Settled.edit (store : Store α) (id : StateId) (row new : Row α) (change : Edit α)
    (displaced : Option StateId) (h : store.Settled [] []) (hrow : store.row? id = some row)
    (hedit : row.edit change = .ok (new, displaced)) (htarget : store.Live change.target) :
    ∃ after, store.edit id change = .ok (after, displaced) ∧
      after.Settled [change.target] displaced.toList ∧
      ∀ other, after.row? other = if other = id then some new else store.row? other := by
  obtain ⟨state, hget, rfl⟩ := get?_of_row? store id row hrow
  have hrows := fun other => row?_put store id other state { state with row := new } hget
  have hlive : ∀ other, store.Live other → (store.put id { state with row := new }).Live other := by
    rintro other ⟨found, hfound⟩
    rw [Live, hrows other]
    split
    · exact ⟨new, rfl⟩
    · exact ⟨found, hfound⟩
  have hsucc : ∀ target ∈ state.row.successors, store.Live target := fun target hmem =>
    h.closed id target ⟨state.row, hrow, hmem⟩
  refine ⟨store.put id { state with row := new }, ?_, ⟨?_, ?_, ?_, ?_, ?_⟩, hrows⟩
  · simp only [Store.edit, fetch_eq store id state hget, State.edit, bind, Except.bind, hedit]
    rfl
  · exact accounted_put store id state _ h.accounted hget
  · rintro other target ⟨found, hfound, hmem⟩
    refine hlive target ?_
    rw [hrows other] at hfound
    split at hfound
    · cases hfound
      rcases Row.mem_successors_edit _ _ change displaced hedit target hmem with he | hold
      · exact he ▸ htarget
      · exact hsucc target hold
    · exact h.closed other target ⟨found, hfound, hmem⟩
  · intro target hmem
    rw [List.mem_singleton.mp hmem]
    exact hlive _ htarget
  · intro target hmem
    have hold := Row.displaced_mem_successors _ _ change displaced hedit target hmem
    exact hlive target (hsucc target hold)
  · intro other found hfound
    have hchange := inEdges_change store (store.put id { state with row := new }) id
      (fun other hne => by rw [hrows other, if_neg hne]) other
    rw [hrows id, if_pos rfl, hrow] at hchange
    simp only [edgesTo] at hchange
    have hcount := Row.count_edit state.row new change displaced hedit other
    rw [get?_put store id other state _ hget] at hfound
    have hincoming : ∃ old, store.get? other = some old ∧ old.incoming = found.incoming := by
      split at hfound
      · next he =>
        cases hfound
        exact ⟨state, he ▸ hget, rfl⟩
      · exact ⟨found, hfound, rfl⟩
    obtain ⟨old, hold, hsame⟩ := hincoming
    have hc := h.counted other old hold
    rw [hsame, List.count_nil] at hc
    omega

end Store

end TraceGraph
