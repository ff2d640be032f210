import TraceGraph.Proofs.Store.InEdges

/-! # Owed edges

A store owes a list of edges when these are gone but still counted, and everything else about its
edges is in order.  Dropping an owed edge takes it off the list, and freeing a state to which no
edge leads puts the edges of that state on it. -/
namespace TraceGraph
set_option autoImplicit false

namespace Store

variable {α : Type}

/-- Every edge leads to a live state, and every live state has counted the edges that lead to it and
the pending ones. -/
structure Owing (store : Store α) (pending : List StateId) : Prop where
  closed : ∀ id target, store.Leads id target → store.Live target
  live : ∀ id ∈ pending, store.Live id
  counted : ∀ id state, store.get? id = some state →
    state.incoming = store.inEdges id + pending.count id

namespace Owing

/-- The live states and their edges are finitely many, so owing can be checked. -/
instance (store : Store α) (pending : List StateId) : Decidable (store.Owing pending) :=
  decidable_of_iff
    ((∀ entry ∈ store.live, ∀ target ∈ entry.2.row.successors, (store.get? target).isSome = true) ∧
      (∀ id ∈ pending, (store.get? id).isSome = true) ∧
      ∀ entry ∈ store.live, entry.2.incoming = store.inEdges entry.1 + pending.count entry.1) <| by
    have hlive : ∀ id, (store.get? id).isSome = true ↔ store.Live id := fun id => by
      rw [live_iff, Option.isSome_iff_exists]
    simp only [hlive, Prod.forall, mem_live]
    constructor
    · rintro ⟨hclosed, hpending, hcounted⟩
      refine ⟨fun id target hleads => ?_, hpending, hcounted⟩
      obtain ⟨row, hrow, hmem⟩ := hleads
      obtain ⟨state, hstate, rfl⟩ := get?_of_row? store id row hrow
      exact hclosed id state hstate target hmem
    · intro h
      exact ⟨fun id state hstate target hmem =>
        h.closed id target ⟨state.row, row?_of_get? store id state hstate, hmem⟩, h.live, h.counted⟩

/-- Dropping an edge takes it off the pending ones and answers with the edges that are left. -/
theorem loseEdge (store : Store α) (id : StateId) (pending : List StateId)
    (h : store.Owing (id :: pending)) :
    ∃ after, store.loseEdge id = .ok (after, store.inEdges id + pending.count id) ∧
      after.Owing pending ∧ (store.Accounted → after.Accounted) ∧
      ∀ other, after.row? other = store.row? other := by
  obtain ⟨⟨row, incoming⟩, hstate⟩ := (live_iff store id).mp (h.live id List.mem_cons_self)
  have hcount := h.counted id ⟨row, incoming⟩ hstate
  rw [List.count_cons_self] at hcount
  obtain rfl : incoming = store.inEdges id + pending.count id + 1 := hcount
  have hrow : ∀ other,
      (store.put id ⟨row, store.inEdges id + pending.count id⟩).row? other = store.row? other := by
    intro other
    rw [row?_put store id other _ _ hstate]
    split
    · next he => rw [he, row?_of_get? store id _ hstate]
    · rfl
  have hlive : ∀ other, store.Live other →
      (store.put id ⟨row, store.inEdges id + pending.count id⟩).Live other := fun other hother =>
    (live_of_row?_eq store _ other (hrow other)).mpr hother
  refine ⟨_, ?_, ⟨?_, ?_, ?_⟩, fun hacc => accounted_put store id _ _ hacc hstate, hrow⟩
  · simp only [Store.loseEdge, fetch_eq store id _ hstate, State.lose]
    rfl
  · rintro other target ⟨found, hfound, hmem⟩
    exact hlive target (h.closed other target ⟨found, (hrow other).symm.trans hfound, hmem⟩)
  · exact fun other hmem => hlive other (h.live other (List.mem_cons_of_mem id hmem))
  · intro other found hfound
    rw [get?_put store id other _ _ hstate] at hfound
    rw [inEdges_congr store _ hrow other]
    by_cases he : other = id
    · rw [if_pos he] at hfound
      cases hfound
      rw [he]
    · rw [if_neg he] at hfound
      have hother := h.counted other found hfound
      rw [List.count_cons_of_ne (Ne.symm he)] at hother
      exact hother

/-- A state to which no edge leads and none is pending can be freed, and its edges are pending
then. -/
theorem free (store : Store α) (id : StateId) (row : Row α) (pending : List StateId)
    (h : store.Owing pending) (hrow : store.row? id = some row) (hzero : store.inEdges id = 0)
    (hpending : id ∉ pending) :
    ∃ after state, store.free id = .ok (after, state) ∧ state.row = row ∧
      after.Owing (row.successors ++ pending) ∧ (store.Accounted → after.Accounted) ∧
      ∀ other, after.row? other = if other = id then none else store.row? other := by
  obtain ⟨state, hget, rfl⟩ := get?_of_row? store id row hrow
  obtain ⟨after, hfree, hacc⟩ := free_eq store id state hget
  have hrows := fun other => row?_free store after id other state hfree
  have hapart : ∀ parent target, store.Leads parent target → target ≠ id := by
    intro parent target hleads he
    have := (inEdges_pos_iff store target).mpr ⟨parent, hleads⟩
    rw [he] at this
    omega
  have hlive : ∀ other, other ≠ id → store.Live other → after.Live other := by
    intro other hne hother
    refine (live_of_row?_eq store after other ?_).mpr hother
    rw [hrows other, if_neg hne]
  refine ⟨after, state, hfree, rfl, ⟨?_, ?_, ?_⟩, hacc, hrows⟩
  · rintro other target ⟨found, hfound, hmem⟩
    rw [hrows other] at hfound
    split at hfound
    · cases hfound
    · have hleads : store.Leads other target := ⟨found, hfound, hmem⟩
      exact hlive target (hapart other target hleads) (h.closed other target hleads)
  · intro target hmem
    rcases List.mem_append.mp hmem with hmem | hmem
    · have hleads : store.Leads id target := ⟨state.row, hrow, hmem⟩
      exact hlive target (hapart id target hleads) (h.closed id target hleads)
    · exact hlive target (fun he => hpending (he ▸ hmem)) (h.live target hmem)
  · intro other found hfound
    have hchange := inEdges_change store after id
      (fun other hne => by rw [hrows other, if_neg hne]) other
    rw [hrows id, if_pos rfl, hrow] at hchange
    simp only [edgesTo] at hchange
    rw [(get?_free store after id other state hfree).2] at hfound
    split at hfound
    · cases hfound
    · have hc := h.counted other found hfound
      rw [List.count_append]
      omega

end Owing

end Store

end TraceGraph
