import TraceGraph.Pool
import TraceGraph.Proofs.Filing
import TraceGraph.Proofs.Store.Settled

/-! # Releasing

Pending edges are dropped one at a time, and a state that loses its last edge goes at once, so that
its own edges are pending next.  What is gone in the end does not depend on the order: the states to
which nothing leads but states that are gone themselves.  The others keep their rows, and they count
the edges that are left. -/
namespace TraceGraph
set_option autoImplicit false

namespace Store

variable {α : Type}

/-! ## States that go -/

/-- The states that go with the edges `pending`.  Some edge leads or has led there, and each one
that does comes from a state that goes. -/
inductive Doomed (store : Store α) (pending : List StateId) : StateId → Prop
  | fall (id : StateId) (hheld : id ∈ pending ∨ ∃ above, store.Leads above id)
      (hall : ∀ above, store.Leads above id → Doomed store pending above) :
      Doomed store pending id

/-- `gone` has the state `id` if nothing leads there, and each state that one of its states leads to
if all edges there come from its states. -/
def Falls (store : Store α) (id : StateId) (gone : Set StateId) : Prop :=
  ((∀ above, ¬ store.Leads above id) → id ∈ gone) ∧
  ∀ above ∈ gone, ∀ target, store.Leads above target →
    (∀ other, store.Leads other target → other ∈ gone) → target ∈ gone

namespace Doomed

section

variable (store : Store α) (pending : List StateId)

/-- The states that go with an edge are the fewest that fall with it. -/
theorem isLeast (id : StateId) :
    IsLeast {gone | store.Falls id gone} {other | store.Doomed [id] other} := by
  refine ⟨⟨fun hlone => ?_, fun above _ target hleads hall => ?_⟩, ?_⟩
  · exact fall id (.inl List.mem_cons_self) fun above hleads => absurd hleads (hlone above)
  · exact fall target (.inr ⟨above, hleads⟩) hall
  · rintro gone ⟨hfirst, hnext⟩ other h
    induction h with
    | fall other hheld hall ih =>
      by_cases hleads : ∃ above, store.Leads above other
      · obtain ⟨above, ha⟩ := hleads
        exact hnext above (ih above ha) other ha ih
      · obtain rfl : other = id := List.mem_singleton.mp (hheld.resolve_right hleads)
        exact hfirst (not_exists.mp hleads)

theorem not_nil (id : StateId) : ¬ store.Doomed [] id := by
  intro h
  induction h with
  | fall id hheld hall ih =>
    obtain ⟨above, hleads⟩ := hheld.resolve_left List.not_mem_nil
    exact ih above hleads

theorem live (h : store.Owing pending) (id : StateId) (hid : store.Doomed pending id) :
    store.Live id := by
  cases hid with
  | fall _ hheld hall =>
    rcases hheld with hmem | ⟨above, hleads⟩
    · exact h.live id hmem
    · exact h.closed above id hleads

/-- Where every pending edge leads to a state with another edge, nothing goes. -/
theorem not_of_fed (hfed : ∀ id ∈ pending, 0 < store.inEdges id) (id : StateId) :
    ¬ store.Doomed pending id := by
  intro h
  induction h with
  | fall id hheld hall ih =>
    obtain ⟨above, hleads⟩ : ∃ above, store.Leads above id := by
      rcases hheld with hmem | hleads
      · exact (store.inEdges_pos_iff id).mp (hfed id hmem)
      · exact hleads
    exact ih above hleads

/-- A state goes alone if each state it leads to has an edge from elsewhere. -/
theorem eq_of_alone (first : StateId)
    (hsucc : ∀ target, store.Leads first target → ∃ other, other ≠ first ∧ store.Leads other target)
    (id : StateId) (h : store.Doomed [first] id) : id = first := by
  induction h with
  | fall id hheld hall ih =>
    rcases hheld with hmem | ⟨above, hleads⟩
    · exact List.mem_singleton.mp hmem
    · obtain ⟨other, hne, hother⟩ := hsucc id (ih above hleads ▸ hleads)
      exact absurd (ih other hother) hne

end

section

variable (store after : Store α) (id : StateId) (pending : List StateId)

/-- An edge to a state that keeps another one makes nothing go. -/
theorem cons_iff_of_kept (hrows : ∀ other, after.row? other = store.row? other)
    (hkept : store.inEdges id + pending.count id ≠ 0) (other : StateId) :
    store.Doomed (id :: pending) other ↔ after.Doomed pending other := by
  have hleads : ∀ above target, after.Leads above target ↔ store.Leads above target := by
    intro above target
    rw [Leads, Leads, hrows above]
  constructor
  · intro h
    induction h with
    | fall other hheld hall ih =>
      refine fall other ?_ fun above ha => ih above ((hleads above other).mp ha)
      rcases hheld with hmem | ⟨above, ha⟩
      · rcases List.mem_cons.mp hmem with rfl | hmem
        · by_cases hpending : other ∈ pending
          · exact .inl hpending
          · rw [List.count_eq_zero_of_not_mem hpending] at hkept
            obtain ⟨above, ha⟩ := (store.inEdges_pos_iff other).mp (Nat.pos_of_ne_zero hkept)
            exact .inr ⟨above, (hleads above other).mpr ha⟩
        · exact .inl hmem
      · exact .inr ⟨above, (hleads above other).mpr ha⟩
  · intro h
    induction h with
    | fall other hheld hall ih =>
      refine fall other ?_ fun above ha => ih above ((hleads above other).mpr ha)
      rcases hheld with hmem | ⟨above, ha⟩
      · exact .inl (List.mem_cons_of_mem id hmem)
      · exact .inr ⟨above, (hleads above other).mp ha⟩

/-- With a state to which nothing leads, the states go that go with its own edges. -/
theorem cons_iff_of_gone (row : Row α) (hrow : store.row? id = some row)
    (hrows : ∀ other, after.row? other = if other = id then none else store.row? other)
    (hzero : store.inEdges id = 0) (other : StateId) :
    store.Doomed (id :: pending) other ↔
      other = id ∨ after.Doomed (row.successors ++ pending) other := by
  have hleads : ∀ above target, store.Leads above target ↔
      (above = id ∧ target ∈ row.successors) ∨ after.Leads above target := by
    intro above target
    rw [Leads, Leads, hrows above]
    by_cases he : above = id
    · simp [he, hrow]
    · simp [he]
  have hself : store.Doomed (id :: pending) id := by
    refine fall id (.inl List.mem_cons_self) fun above ha => ?_
    have hpos := (store.inEdges_pos_iff id).mpr ⟨above, ha⟩
    omega
  constructor
  · intro h
    induction h with
    | fall other hheld hall ih =>
      by_cases he : other = id
      · exact .inl he
      · refine .inr (fall other ?_ fun above ha => ?_)
        · rcases hheld with hmem | ⟨above, ha⟩
          · exact .inl (List.mem_append_right _ ((List.mem_cons.mp hmem).resolve_left he))
          · rcases (hleads above other).mp ha with ⟨_, hmem⟩ | ha
            · exact .inl (List.mem_append_left _ hmem)
            · exact .inr ⟨above, ha⟩
        · refine (ih above ((hleads above other).mpr (.inr ha))).resolve_left fun hid => ?_
          -- the state that is gone leads nowhere any more
          obtain ⟨found, hfound, _⟩ := ha
          rw [hrows above, if_pos hid] at hfound
          cases hfound
  · rintro (rfl | h)
    · exact hself
    · induction h with
      | fall other hheld hall ih =>
        refine fall other ?_ fun above ha => ?_
        · rcases hheld with hmem | ⟨above, ha⟩
          · rcases List.mem_append.mp hmem with hmem | hmem
            · exact .inr ⟨id, (hleads id other).mpr (.inl ⟨rfl, hmem⟩)⟩
            · exact .inl (List.mem_cons_of_mem id hmem)
          · exact .inr ⟨above, (hleads above other).mpr (.inr ha)⟩
        · rcases (hleads above other).mp ha with ⟨rfl, _⟩ | ha
          · exact hself
          · exact ih above ha

end

end Doomed

end Store

namespace Pool

variable {α : Type}

/-! ## What is left -/

/-- `after` is the pool without the states `freed`, and with its counts in order. -/
structure Freed (pool after : Pool α) (freed : List StateId) : Prop where
  nodup : freed.Nodup
  owing : after.store.Owing []
  accounted : pool.store.Accounted → after.store.Accounted
  rows : ∀ id, after.store.row? id = if id ∈ freed then none else pool.store.row? id
  keys : ∀ id, after.canon.key? id = if id ∈ freed then none else pool.canon.key? id

namespace Freed

variable (pool after : Pool α) (freed : List StateId) (h : pool.Freed after freed)

include h

/-- The canon loses the freed states and no others. -/
theorem mem_canon (id : StateId) : id ∈ after.canon.ids ↔ id ∈ pool.canon.ids ∧ id ∉ freed := by
  rw [Canon.mem_ids, Canon.mem_ids, h.keys id]
  by_cases hid : id ∈ freed
  · simp [hid]
  · simp [hid]

/-- What is left on the canon keeps its row, so it stays under it. -/
theorem keyed (hkeyed : pool.canon.Keyed pool.store) : after.canon.Keyed after.store := by
  intro id row hkey
  rw [h.keys id] at hkey
  split at hkey
  · cases hkey
  · next hid =>
    rw [h.rows id, if_neg hid]
    exact hkeyed id row hkey

/-- Without freed states among the canonical ones the canon stays as it is. -/
theorem canon_eq (hnot : ∀ id ∈ freed, id ∉ pool.canon.ids) : after.canon = pool.canon := by
  refine Canon.ext_key? after.canon pool.canon fun id => ?_
  rw [h.keys id]
  split
  · next hid => rw [pool.canon.key?_eq_none id (hnot id hid)]
  · rfl

end Freed

/-! ## Rounds of a release -/

variable [DecidableEq α]

theorem release_kept (pool : Pool α) (id : StateId) (pending : List StateId) (store : Store α)
    (remaining : Nat) (h : pool.store.loseEdge id = .ok (store, remaining)) (hr : remaining ≠ 0) :
    pool.release (id :: pending) = release { pool with store } pending := by
  rw [release]
  split
  · next fault he =>
    rw [h] at he
    cases he
  · next found left he =>
    rw [h] at he
    cases he
    rw [if_pos hr]

theorem release_gone (pool rest : Pool α) (id : StateId) (pending : List StateId) (store : Store α)
    (state : State α) (h : pool.store.loseEdge id = .ok (store, 0))
    (hr : reclaim { pool with store } id = .ok (rest, state)) :
    pool.release (id :: pending) =
      (rest.release (state.row.successors ++ pending)).map fun (pool, events) =>
        (pool, .reclaimed id :: events) := by
  rw [release]
  split
  · next fault he =>
    rw [h] at he
    cases he
  · next found left he =>
    rw [h] at he
    cases he
    rw [if_neg (by simp)]
    split
    · next fault he =>
      rw [hr] at he
      cases he
    · next found state' he =>
      rw [hr] at he
      cases he
      rfl

/-- A state that has lost its last edge can be reclaimed. -/
theorem reclaim_eq (pool : Pool α) (id : StateId) (pending : List StateId) (store : Store α)
    (h : pool.store.Owing (id :: pending)) (hkeyed : pool.canon.Keyed pool.store)
    (hlose : pool.store.loseEdge id = .ok (store, 0)) :
    pool.store.inEdges id = 0 ∧ ∃ after state,
      reclaim { pool with store } id = .ok (after, state) ∧
      pool.store.row? id = some state.row ∧ after.canon = pool.canon.erase id ∧
      after.store.Owing (state.row.successors ++ pending) ∧
      after.canon.Keyed after.store ∧ (pool.store.Accounted → after.store.Accounted) ∧
      ∀ other, after.store.row? other = if other = id then none else pool.store.row? other := by
  obtain ⟨mid, hok, howing, hacc, hrows⟩ := h.loseEdge pool.store id pending
  obtain ⟨rfl, hnone⟩ := Prod.mk.inj (Except.ok.inj (hok.symm.trans hlose))
  obtain ⟨row, hrow⟩ := h.live id List.mem_cons_self
  have hzero : mid.inEdges id = 0 := by
    rw [Store.inEdges_congr pool.store mid hrows id]
    omega
  obtain ⟨after, state, hfree, rfl, hafter, hacc', hrows'⟩ := howing.free mid id row pending
    ((hrows id).trans hrow) hzero (List.count_eq_zero.mp (by omega))
  have hmid := hkeyed.congr mid fun other _ => hrows other
  refine ⟨by omega, ⟨after, pool.canon.erase id⟩, state, ?_, hrow, rfl, hafter, ?_,
    fun h => hacc' (hacc h), fun other => ?_⟩
  · rw [reclaim, Canon.withdraw_eq pool.canon mid id hmid ⟨_, (hrows id).trans hrow⟩]
    simp only [bind, Except.bind, hfree]
    rfl
  · refine (hmid.erase id).congr after fun other ho => ?_
    rw [hrows' other, if_neg ((pool.canon.mem_erase id other).mp ho).1]
  · rw [hrows' other]
    exact congrArg (ite _ _) (hrows other)

/-- Releasing the pending edges frees the states that go with them. -/
theorem release_eq (pool : Pool α) (pending : List StateId) (h : pool.store.Owing pending)
    (hkeyed : pool.canon.Keyed pool.store) :
    ∃ after freed, pool.release pending = .ok (after, freed.map Event.reclaimed) ∧
      (∀ id, id ∈ freed ↔ pool.store.Doomed pending id) ∧ pool.Freed after freed := by
  -- along the rounds of the release; a round settles one edge and may free one state
  fun_induction release pool pending with
  | case1 pool =>
    refine ⟨pool, [], rfl, fun id => iff_of_false List.not_mem_nil ?_,
      List.nodup_nil, h, fun hacc => hacc, fun id => rfl, fun id => rfl⟩
    exact Store.Doomed.not_nil pool.store id
  | case2 pool id pending fault hlose =>
    obtain ⟨_, hok, _⟩ := h.loseEdge pool.store id pending
    cases hok.symm.trans hlose
  | case3 pool id pending store remaining hlose hleft ih =>
    obtain ⟨_, hok, howing, hacc, hrows⟩ := h.loseEdge pool.store id pending
    cases hok.symm.trans hlose
    obtain ⟨after, freed, hrelease, hdoomed, hfreed⟩ :=
      ih howing (hkeyed.congr store fun other _ => hrows other)
    refine ⟨after, freed, hrelease, fun other => ?_, hfreed.nodup, hfreed.owing,
      fun h => hfreed.accounted (hacc h), fun other => ?_, hfreed.keys⟩
    · rw [hdoomed other]
      exact (Store.Doomed.cons_iff_of_kept pool.store store id pending hrows hleft other).symm
    · rw [hfreed.rows other]
      exact congrArg (ite _ _) (hrows other)
  | case4 pool id pending store remaining hlose hnone fault hreclaim =>
    obtain rfl : remaining = 0 := by omega
    obtain ⟨_, _, _, hok, _⟩ := pool.reclaim_eq id pending store h hkeyed hlose
    cases hok.symm.trans hreclaim
  | case5 pool id pending store remaining hlose hnone rest state hreclaim ih =>
    obtain rfl : remaining = 0 := by omega
    obtain ⟨hzero, _, _, hok, hrow, hcanon, howing, hrest, hacc, hrows⟩ :=
      pool.reclaim_eq id pending store h hkeyed hlose
    cases hok.symm.trans hreclaim
    obtain ⟨after, freed, hrelease, hdoomed, hfreed⟩ := ih howing hrest
    have hnot : id ∉ freed := by
      intro hmem
      obtain ⟨found, hfound⟩ := Store.Doomed.live rest.store _ howing id ((hdoomed id).mp hmem)
      rw [hrows id, if_pos rfl] at hfound
      cases hfound
    refine ⟨after, id :: freed, ?_, fun other => ?_, List.nodup_cons.mpr ⟨hnot, hfreed.nodup⟩,
      hfreed.owing, fun h => hfreed.accounted (hacc h), fun other => ?_, fun other => ?_⟩
    · rw [hrelease]
      rfl
    · rw [List.mem_cons, hdoomed other]
      exact (Store.Doomed.cons_iff_of_gone pool.store rest.store id pending state.row hrow hrows
        hzero other).symm
    · rw [hfreed.rows other, hrows other]
      by_cases he : other = id
      · simp [he]
      · simp [he]
    · rw [hfreed.keys other, hcanon, Canon.key?_erase]
      by_cases he : other = id
      · simp [he]
      · simp [he]

/-! ## Few states -/

/-- Where every pending edge leads to a state with another edge, dropping them reclaims nothing. -/
theorem release_none (pool : Pool α) (pending : List StateId)
    (h : pool.store.Settled [] pending) (hkeyed : pool.canon.Keyed pool.store)
    (hfed : ∀ id ∈ pending, 0 < pool.store.inEdges id) :
    ∃ store, pool.release pending = .ok ({ pool with store }, []) ∧ store.Settled [] [] ∧
      ∀ id, store.row? id = pool.store.row? id := by
  obtain ⟨hacc, howing⟩ := (Store.Settled.iff_owing pool.store pending).mp h
  obtain ⟨after, freed, hrelease, hdoomed, hfreed⟩ := pool.release_eq pending howing hkeyed
  obtain rfl : freed = [] := List.eq_nil_iff_forall_not_mem.mpr fun id hmem =>
    Store.Doomed.not_of_fed pool.store pending hfed id ((hdoomed id).mp hmem)
  have hcanon := hfreed.canon_eq pool after [] fun id hid => absurd hid List.not_mem_nil
  refine ⟨after.store, ?_, ?_, fun id => by simp [hfreed.rows id]⟩
  · rw [hrelease, ← hcanon]
    rfl
  · exact (Store.Settled.iff_owing after.store []).mpr ⟨hfreed.accounted hacc, hfreed.owing⟩

/-- A state that loses its last edge goes alone if each state it leads to has an edge from
elsewhere. -/
theorem release_one (pool : Pool α) (id : StateId) (row : Row α)
    (h : pool.store.Settled [] [id]) (hkeyed : pool.canon.Keyed pool.store)
    (hrow : pool.store.row? id = some row)
    (hzero : pool.store.inEdges id = 0) (hnot : id ∉ pool.canon.ids)
    (hsucc : ∀ target ∈ row.successors, ∃ other, other ≠ id ∧ pool.store.Leads other target) :
    ∃ store, pool.release [id] = .ok ({ pool with store }, [.reclaimed id]) ∧
      store.Settled [] [] ∧
      ∀ other, store.row? other = if other = id then none else pool.store.row? other := by
  obtain ⟨hacc, howing⟩ := (Store.Settled.iff_owing pool.store [id]).mp h
  obtain ⟨after, freed, hrelease, hdoomed, hfreed⟩ := pool.release_eq [id] howing hkeyed
  have hmem : ∀ other, other ∈ freed ↔ other = id := by
    intro other
    rw [hdoomed other]
    constructor
    · refine Store.Doomed.eq_of_alone pool.store id (fun target hleads => ?_) other
      obtain ⟨found, hfound, hmem⟩ := hleads
      cases hrow.symm.trans hfound
      exact hsucc target hmem
    · rintro rfl
      refine .fall _ (.inl List.mem_cons_self) fun above hleads => ?_
      have := (pool.store.inEdges_pos_iff _).mpr ⟨above, hleads⟩
      omega
  obtain rfl : freed = [id] := by
    refine List.perm_singleton.mp ((List.perm_ext_iff_of_nodup hfreed.nodup
      (List.nodup_singleton id)).mpr fun other => ?_)
    rw [hmem other, List.mem_singleton]
  have hcanon := hfreed.canon_eq pool after [id] fun other ho =>
    (List.mem_singleton.mp ho).symm ▸ hnot
  refine ⟨after.store, ?_, ?_, fun other => by simp [hfreed.rows other]⟩
  · rw [hrelease, ← hcanon]
    rfl
  · exact (Store.Settled.iff_owing after.store []).mpr ⟨hfreed.accounted hacc, hfreed.owing⟩

/-! ## One state and what falls with it -/

/-- Releasing a state from whose count one edge has still to be taken ends, and frees the fewest
states that fall with that edge.  The others keep their rows and lead to live states only, their
counts are exact, and the canon loses none of them and files each under its row as before. -/
theorem release_exact (pool : Pool α) (id : StateId) (h : pool.store.Owing [id])
    (hkeyed : pool.canon.Keyed pool.store) :
    ∃ (after : Pool α) (freed : List StateId),
      pool.release [id] = .ok (after, freed.map Event.reclaimed) ∧ freed.Nodup ∧
      (∀ other, other ∈ freed ↔ pool.store.Live other ∧ ¬ after.store.Live other) ∧
      IsLeast {gone | pool.store.Falls id gone} {other | other ∈ freed} ∧
      after.store.Owing [] ∧
      (∀ other, other ∈ after.canon.ids ↔ other ∈ pool.canon.ids ∧ other ∉ freed) ∧
      after.canon.Keyed after.store ∧
      ∀ other, other ∉ freed → after.store.row? other = pool.store.row? other := by
  obtain ⟨after, freed, hrelease, hdoomed, hfreed⟩ := pool.release_eq [id] h hkeyed
  refine ⟨after, freed, hrelease, hfreed.nodup, fun other => ?_, ?_, hfreed.owing,
    hfreed.mem_canon pool after freed, hfreed.keyed pool after freed hkeyed, fun other hnot => ?_⟩
  · rw [Store.Live, Store.Live, hfreed.rows other]
    constructor
    · intro hmem
      refine ⟨Store.Doomed.live pool.store [id] h other ((hdoomed other).mp hmem), ?_⟩
      simp [hmem]
    · rintro ⟨hlive, hgone⟩
      by_contra hnot
      rw [if_neg hnot] at hgone
      exact hgone hlive
  · simp only [hdoomed]
    exact Store.Doomed.isLeast pool.store id
  · rw [hfreed.rows other, if_neg hnot]

/-- The first state leads to the second by two edges and to the third by one, to which the fourth
leads as well. -/
def doubledEdge : Pool Char :=
  let first := (Row.blank 3).write 0 ⟨⟨1⟩, 'a'⟩ (by decide)
  let first := (first.write 1 ⟨⟨1⟩, 'b'⟩ (by decide)).write 2 ⟨⟨2⟩, 'c'⟩ (by decide)
  let last := (Row.blank 3).write 0 ⟨⟨2⟩, 'd'⟩ (by decide)
  ⟨⟨#[some ⟨first, 1⟩, some ⟨.blank 3, 2⟩, some ⟨.blank 3, 2⟩, some ⟨last, 0⟩], []⟩,
    ((Canon.empty.insert ⟨0⟩ first).insert ⟨1⟩ (.blank 3)).insert ⟨3⟩ last⟩

/-- With the first state goes the second, at the second of its edges; the third stays. -/
theorem falls_of_doubledEdge :
    doubledEdge.store.Owing [⟨0⟩] ∧ doubledEdge.canon.Keyed doubledEdge.store ∧
      (doubledEdge.release [⟨0⟩]).map Prod.snd = .ok [.reclaimed ⟨0⟩, .reclaimed ⟨1⟩] ∧
      IsLeast {gone | doubledEdge.store.Falls ⟨0⟩ gone} {⟨0⟩, ⟨1⟩} := by
  have howing : doubledEdge.store.Owing [⟨0⟩] := by decide +kernel
  have hkeyed : doubledEdge.canon.Keyed doubledEdge.store := by decide +kernel
  have hevents : (doubledEdge.release [⟨0⟩]).map Prod.snd =
      .ok [.reclaimed ⟨0⟩, .reclaimed ⟨1⟩] := by decide +kernel
  obtain ⟨after, freed, hrelease, _, _, hleast, _⟩ := release_exact doubledEdge ⟨0⟩ howing hkeyed
  rw [hrelease] at hevents
  have hfreed : freed = [⟨0⟩, ⟨1⟩] :=
    List.map_injective_iff.mpr (fun _ _ he => Event.reclaimed.inj he) (Except.ok.inj hevents)
  refine ⟨howing, hkeyed, by rw [hrelease]; exact hevents, ?_⟩
  have hset : {other | other ∈ freed} = ({⟨0⟩, ⟨1⟩} : Set StateId) := by
    ext other
    simp [hfreed]
  rw [← hset]
  exact hleast

end Pool

end TraceGraph
