import TraceGraph.Pool
import TraceGraph.Proofs.Filing
import TraceGraph.Proofs.Store.Settled

/-! # Interning

A pool is coherent when its counts are settled, its canon is filed and its rows have one arity.
Hiding states leaves a coherent pool if nothing outside leads to them.  Interning rows only ever
adds states, all of them canonical, so whatever was there stays as it was. -/
namespace TraceGraph
set_option autoImplicit false

namespace Pool

variable {α : Type}

structure Coherent (pool : Pool α) (arity : Nat) : Prop where
  settled : pool.store.Settled [] []
  filed : pool.canon.Filed pool.store
  arities : ∀ id row, pool.store.row? id = some row → row.arity = arity

/-! ## Hiding -/

theorem hide_eq [DecidableEq α] (pool : Pool α) (ids : List StateId) (hnodup : ids.Nodup)
    (hkeyed : pool.canon.Keyed pool.store) (hmem : ∀ id ∈ ids, id ∈ pool.canon.ids) :
    ∃ canon, pool.hide ids = .ok ⟨pool.store, canon⟩ ∧ canon.Keyed pool.store ∧
      ∀ other, other ∈ canon.ids ↔ other ∉ ids ∧ other ∈ pool.canon.ids := by
  induction ids generalizing pool with
  | nil => exact ⟨pool.canon, rfl, hkeyed, fun other => by simp⟩
  | cons id ids ih =>
    obtain ⟨hnot, htail⟩ := List.nodup_cons.mp hnodup
    have hid := hmem id List.mem_cons_self
    obtain ⟨canon, hhide, hafter, hcanon⟩ := ih ⟨pool.store, pool.canon.erase id⟩ htail
      (hkeyed.erase id) (fun other ho => (pool.canon.mem_erase id other).mpr
        ⟨fun he => hnot (he ▸ ho), hmem other (List.mem_cons_of_mem id ho)⟩)
    refine ⟨canon, ?_, hafter, fun other => ?_⟩
    · rw [hide, Canon.withdraw_eq pool.canon pool.store id hkeyed (hkeyed.live id hid)]
      simpa [bind, Except.bind, hid] using hhide
    · rw [hcanon other, pool.canon.mem_erase, List.mem_cons]
      tauto

theorem Coherent.hide (pool : Pool α) (arity : Nat) (h : pool.Coherent arity) (canon : Canon α)
    (hkeyed : canon.Keyed pool.store) (hsub : ∀ id ∈ canon.ids, id ∈ pool.canon.ids)
    (hclosed : ∀ id ∈ canon.ids, ∀ target, pool.store.Leads id target → target ∈ canon.ids) :
    Coherent ⟨pool.store, canon⟩ arity where
  settled := h.settled
  filed := h.filed.subset pool.canon canon pool.store hkeyed hsub hclosed
  arities := h.arities

/-! ## Growing -/

/-- `after` has all states of `pool` with their rows, and new ones that are all canonical. -/
structure Grows (pool after : Pool α) : Prop where
  rows : ∀ id row, pool.store.row? id = some row → after.store.row? id = some row
  canon : ∀ id ∈ pool.canon.ids, id ∈ after.canon.ids
  old : ∀ id ∈ after.canon.ids, id ∈ pool.canon.ids ∨ ¬ pool.store.Live id
  new : ∀ id, after.store.Live id → pool.store.Live id ∨ id ∈ after.canon.ids
  inEdges : ∀ id, pool.store.Live id → id ∉ pool.canon.ids →
    after.store.inEdges id = pool.store.inEdges id

namespace Grows

theorem live (pool after : Pool α) (h : pool.Grows after) (id : StateId)
    (hid : pool.store.Live id) : after.store.Live id := by
  obtain ⟨row, hrow⟩ := hid
  exact ⟨row, h.rows id row hrow⟩

theorem row?_eq (pool after : Pool α) (h : pool.Grows after) (id : StateId)
    (hid : pool.store.Live id) : after.store.row? id = pool.store.row? id := by
  obtain ⟨row, hrow⟩ := hid
  rw [h.rows id row hrow, hrow]

theorem not_canon (pool after : Pool α) (h : pool.Grows after) (id : StateId)
    (hid : pool.store.Live id) (hnot : id ∉ pool.canon.ids) : id ∉ after.canon.ids := by
  intro hmem
  rcases h.old id hmem with hin | hdead
  · exact hnot hin
  · exact hdead hid

theorem refl (pool : Pool α) : pool.Grows pool where
  rows _ _ hrow := hrow
  canon _ hmem := hmem
  old _ hmem := .inl hmem
  new _ hlive := .inl hlive
  inEdges _ _ _ := rfl

theorem trans (pool mid after : Pool α) (h : pool.Grows mid) (h' : mid.Grows after) :
    pool.Grows after where
  rows id row hrow := h'.rows id row (h.rows id row hrow)
  canon id hmem := h'.canon id (h.canon id hmem)
  old id hmem := by
    rcases h'.old id hmem with hin | hdead
    · exact h.old id hin
    · exact .inr fun hlive => hdead (h.live pool mid id hlive)
  new id hlive := by
    rcases h'.new id hlive with hmid | hmem
    · rcases h.new id hmid with hpool | hmem
      · exact .inl hpool
      · exact .inr (h'.canon id hmem)
    · exact .inr hmem
  inEdges id hlive hnot := by
    rw [h'.inEdges id (h.live pool mid id hlive) (h.not_canon pool mid id hlive hnot)]
    exact h.inEdges id hlive hnot

end Grows

/-! ## New states -/

/-- `added` are the live states of `pool` that `base` does not have.  If there are any, `top` is the
last of them, and nothing leads to it yet. -/
structure Adds (base pool : Pool α) (top : StateId) (added : List StateId) : Prop where
  live : ∀ id, pool.store.Live id ↔ base.store.Live id ∨ id ∈ added
  new : ∀ id ∈ added, ¬ base.store.Live id
  nodup : added.Nodup
  lone : added ≠ [] → ∀ id, ¬ pool.store.Leads id top

theorem Adds.refl (pool : Pool α) (top : StateId) : Adds pool pool top [] where
  live _ := ⟨.inl, fun hid => hid.resolve_right List.not_mem_nil⟩
  new _ hid := absurd hid List.not_mem_nil
  nodup := List.nodup_nil
  lone hne := absurd rfl hne

/-- Where nothing leads to the last new state, no state has a row that does, so the next one is new
as well. -/
theorem Adds.next (base pool after : Pool α) (top id : StateId) (added : List StateId) (row : Row α)
    (h : Adds base pool top added) (hpool : pool.store.Settled [] [])
    (hgrows : pool.Grows after) (hrow : after.store.row? id = some row)
    (hnew : ∀ other, after.store.Live other → pool.store.Live other ∨ other = id)
    (hsucc : ∀ target ∈ row.successors, pool.store.Live target)
    (htop : added ≠ [] → top ∈ row.successors) :
    ∃ more, Adds base after id more ∧ more.length ≤ added.length + 1 := by
  have hlive : after.store.Live id := ⟨row, hrow⟩
  by_cases hold : pool.store.Live id
  · have hnone : added = [] := by
      by_contra hne
      rw [hgrows.row?_eq pool after id hold] at hrow
      exact h.lone hne id ⟨row, hrow, htop hne⟩
    subst hnone
    refine ⟨[], ⟨fun other => ?_, h.new, h.nodup, fun hne => absurd rfl hne⟩, Nat.zero_le _⟩
    rw [← h.live other]
    exact ⟨fun ho => (hnew other ho).elim (fun ho => ho) fun he => he ▸ hold,
      hgrows.live pool after other⟩
  · refine ⟨id :: added, ⟨fun other => ?_, ?_, ?_, fun _ above hleads => ?_⟩, Nat.le_refl _⟩
    · rw [List.mem_cons, or_left_comm, ← h.live other]
      exact ⟨fun ho => (hnew other ho).symm,
        fun ho => ho.elim (fun he => he ▸ hlive) (hgrows.live pool after other)⟩
    · intro other ho hbase
      rcases List.mem_cons.mp ho with rfl | ho
      · exact hold ((h.live _).mpr (.inl hbase))
      · exact h.new other ho hbase
    · exact List.nodup_cons.mpr ⟨fun hid => hold ((h.live id).mpr (.inr hid)), h.nodup⟩
    · obtain ⟨found, hfound, hmem⟩ := hleads
      rcases hnew above ⟨found, hfound⟩ with hin | rfl
      · rw [hgrows.row?_eq pool after above hin] at hfound
        exact hold (hpool.closed above id ⟨found, hfound, hmem⟩)
      · cases hrow.symm.trans hfound
        exact hold (hsucc _ hmem)

/-! ## Interning a row -/

section

variable (pool : Pool α) (store : Store α) (id : StateId) (row : Row α)
  (hdead : ¬ pool.store.Live id)
  (hget : ∀ other, store.row? other = if other = id then some row else pool.store.row? other)

include hdead hget

theorem row?_of_added (other : StateId) (ho : pool.store.Live other) :
    store.row? other = pool.store.row? other := by
  rw [hget other, if_neg fun he : other = id => hdead (he ▸ ho)]

omit hdead in
theorem live_of_added (other : StateId) (ho : store.Live other) :
    pool.store.Live other ∨ other = id := by
  obtain ⟨found, hfound⟩ := ho
  rw [hget other] at hfound
  split at hfound
  · next he => exact .inr he
  · exact .inl ⟨found, hfound⟩

/-- A pool grows by a canonical state that leads to canonical states. -/
theorem Grows.of_added (hsucc : ∀ target ∈ row.successors, target ∈ pool.canon.ids) :
    pool.Grows ⟨store, pool.canon.insert id row⟩ where
  rows other found hfound := by
    rw [pool.row?_of_added store id row hdead hget other ⟨found, hfound⟩]
    exact hfound
  canon other ho := (pool.canon.mem_insert id other row).mpr (.inr ho)
  old other ho := by
    rcases (pool.canon.mem_insert id other row).mp ho with rfl | ho
    · exact .inr hdead
    · exact .inl ho
  new other ho := by
    rcases pool.live_of_added store id row hget other ho with ho | rfl
    · exact .inl ho
    · exact .inr ((pool.canon.mem_insert _ _ row).mpr (.inl rfl))
  inEdges other ho hnot := by
    have hchange := Store.inEdges_change pool.store store id
      (fun other hne => by rw [hget other, if_neg hne]) other
    have hnone : pool.store.row? id = none :=
      Option.eq_none_iff_forall_ne_some.mpr fun found hfound => hdead ⟨found, hfound⟩
    have hzero : row.successors.count other = 0 :=
      List.count_eq_zero_of_not_mem fun hmem => hnot (hsucc other hmem)
    rw [hnone, hget id, if_pos rfl] at hchange
    simp only [Store.edgesTo, hzero] at hchange
    exact hchange

/-- It stays coherent if no canonical state had the row. -/
theorem Coherent.of_added (arity : Nat) (h : pool.Coherent arity) (hstore : store.Settled [] [])
    (harity : row.arity = arity) (hsucc : ∀ target ∈ row.successors, target ∈ pool.canon.ids)
    (hfree : ∀ other ∈ pool.canon.ids, pool.store.row? other ≠ some row) :
    Coherent ⟨store, pool.canon.insert id row⟩ arity := by
  have hold : ∀ other ∈ pool.canon.ids, store.row? other = pool.store.row? other := fun other ho =>
    pool.row?_of_added store id row hdead hget other (h.filed.live other ho)
  have hfiled := h.filed.congr pool.canon pool.store store hold
  refine ⟨hstore, ?_, fun other found hfound => ?_⟩
  · refine hfiled.insert pool.canon store id row (by rw [hget id, if_pos rfl]) hsucc
      fun other ho => ?_
    rw [hold other ho]
    exact hfree other ho
  · rw [hget other] at hfound
    split at hfound
    · cases hfound
      exact harity
    · exact h.arities other found hfound

end

variable [DecidableEq α]

/-- Interning a row whose edges lead to canonical states gives a canonical state with that row.
At most that state is new. -/
theorem intern_eq (pool : Pool α) (arity : Nat) (row : Row α) (h : pool.Coherent arity)
    (harity : row.arity = arity) (hsucc : ∀ target ∈ row.successors, target ∈ pool.canon.ids) :
    ∃ after id, pool.intern row = .ok (after, id) ∧ after.Coherent arity ∧ pool.Grows after ∧
      id ∈ after.canon.ids ∧ after.store.row? id = some row ∧
      ∀ other, after.store.Live other → pool.store.Live other ∨ other = id := by
  rcases Canon.find_cases pool.canon pool.store row h.filed.keyed with
    ⟨id, hmem, hrow, hfind⟩ | ⟨hfree, hfind⟩
  · refine ⟨pool, id, ?_, h, Grows.refl pool, hmem, hrow, fun other ho => .inl ho⟩
    rw [intern, hfind]
    rfl
  · obtain ⟨mid, id, store, halloc, hgain, hstore, hdead, hget⟩ := h.settled.add pool.store row
      fun target hmem => h.filed.live target (hsucc target hmem)
    have hcoherent :=
      Coherent.of_added pool store id row hdead hget arity h hstore harity hsucc hfree
    have hgrows := Grows.of_added pool store id row hdead hget hsucc
    have hrow : store.row? id = some row := by
      rw [hget, if_pos rfl]
    have hold : ∀ other ∈ pool.canon.ids, store.row? other = pool.store.row? other :=
      fun other ho => hgrows.row?_eq pool _ other (h.filed.live other ho)
    refine ⟨⟨store, pool.canon.insert id row⟩, id, ?_, hcoherent, hgrows,
      (pool.canon.mem_insert id id row).mpr (.inl rfl), hrow,
      pool.live_of_added store id row hget⟩
    rcases Canon.enroll_cases pool.canon store id row (h.filed.keyed.congr store hold) hrow with
      ⟨owner, hmem, howner, _⟩ | ⟨_, henroll⟩
    · exact absurd ((hold owner hmem).symm.trans howner) (hfree owner hmem)
    · simp only [intern, hfind, halloc, hgain, henroll, bind, Except.bind, if_true]
      rfl

end Pool

end TraceGraph
