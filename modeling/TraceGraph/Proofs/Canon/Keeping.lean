import TraceGraph.Proofs.Store.Padding

/-! # Kept canons

A canon is kept while live states are enrolled in it and withdrawn from it in any order, and the
store changes without touching a filed row.  Then every state it files has the row it is filed
under, and these rows differ, which is all that a search needs to be exact. -/
namespace TraceGraph
set_option autoImplicit false

/-! ## Rows of one arity under padding -/

theorem Store.Uniform.distinct_widen {α : Type} (store : Store α) (arity wide : Nat)
    (h : store.Uniform arity) (hdistinct : store.Distinct) : (store.widen wide).Distinct := by
  intro id hid other ho he
  have hlive : store.Live id := (store.live_widen wide id).mp hid
  have hother : store.Live other := (store.live_widen wide other).mp ho
  exact hdistinct hlive hother (store.row?_of_widen wide id other arity h hlive hother he)

/-- A row is that of a state exactly if it is so when both are padded. -/
theorem Store.Uniform.row?_widen_iff {α : Type} (store : Store α) (arity wide : Nat)
    (h : store.Uniform arity) (id : StateId) (row : Row α) (hrow : row.arity = arity) :
    (store.widen wide).row? id = some (row.widen wide) ↔ store.row? id = some row := by
  rw [Store.row?_widen, Option.map_eq_some_iff]
  constructor
  · rintro ⟨own, hown, he⟩
    rw [hown, own.widen_injective row wide ((h id own hown).trans hrow.symm) he]
  · intro hown
    exact ⟨row, hown, rfl⟩

namespace Canon

variable {α : Type} [DecidableEq α]

/-- The canons that come about when live states are enrolled and withdrawn, when all of them are
filed anew, and when the store changes but no filed row does.  A search leaves the canon alone. -/
inductive Kept : Store α → Canon α → Prop
  | start (store : Store α) : Kept store empty
  | change (store after : Store α) (canon : Canon α) (h : Kept store canon)
      (hsame : ∀ id ∈ canon.ids, after.row? id = store.row? id) : Kept after canon
  | enroll (store : Store α) (canon after : Canon α) (id owner : StateId) (h : Kept store canon)
      (hlive : store.Live id) (henroll : canon.enroll store id = .ok (after, owner)) :
      Kept store after
  | withdraw (store : Store α) (canon after : Canon α) (id : StateId) (filed : Bool)
      (h : Kept store canon) (hlive : store.Live id)
      (hwithdraw : canon.withdraw store id = .ok (after, filed)) : Kept store after
  | refile (store : Store α) (canon : Canon α) (hrefile : ofStore store = .ok canon) :
      Kept store canon

/-- What the operations of a canon come to, at every row and every live state. -/
structure Exact (canon : Canon α) (store : Store α) : Prop where
  keyed : canon.Keyed store
  live : ∀ id ∈ canon.ids, store.Live id
  distinct : ∀ id ∈ canon.ids, ∀ other ∈ canon.ids, store.row? id = store.row? other → id = other
  find : ∀ row, ∃ found, canon.find store row = .ok found ∧
    ∀ id, found = some id ↔ id ∈ canon.ids ∧ store.row? id = some row
  enroll_taken : ∀ id, store.Live id → ∀ owner ∈ canon.ids, store.row? owner = store.row? id →
    canon.enroll store id = .ok (canon, owner)
  enroll_free : ∀ id, store.Live id → (∀ other ∈ canon.ids, store.row? other ≠ store.row? id) →
    ∃ after, canon.enroll store id = .ok (after, id) ∧
      ∀ other, other ∈ after.ids ↔ other = id ∨ other ∈ canon.ids
  withdraw : ∀ id, store.Live id →
    ∃ after, canon.withdraw store id = .ok (after, decide (id ∈ canon.ids)) ∧
      ∀ other, other ∈ after.ids ↔ other ≠ id ∧ other ∈ canon.ids

/-- States that have the rows they are filed under, and no row twice, are all that the operations
need. -/
theorem exact_of_distinct (canon : Canon α) (store : Store α) (hkeyed : canon.Keyed store)
    (hdistinct : ∀ id ∈ canon.ids, ∀ other ∈ canon.ids, store.row? id = store.row? other →
      id = other) : canon.Exact store where
  keyed := hkeyed
  live := hkeyed.live
  distinct := hdistinct
  find row := by
    rcases find_cases canon store row hkeyed with ⟨owner, hmem, howner, hfind⟩ | ⟨hfree, hfind⟩
    · refine ⟨some owner, hfind, fun id => ?_⟩
      rw [Option.some.injEq]
      constructor
      · rintro rfl
        exact ⟨hmem, howner⟩
      · rintro ⟨hid, hrow⟩
        exact hdistinct owner hmem id hid (howner.trans hrow.symm)
    · exact ⟨none, hfind, fun id => ⟨nofun, fun h => absurd h.2 (hfree id h.1)⟩⟩
  enroll_taken id hid owner hmem howner := by
    obtain ⟨row, hrow⟩ := hid
    rcases enroll_cases canon store id row hkeyed hrow with
      ⟨found, hfound, hsame, henroll⟩ | ⟨hfree, _⟩
    · rw [henroll, hdistinct found hfound owner hmem (hsame.trans (howner.trans hrow).symm)]
    · exact absurd (howner.trans hrow) (hfree owner hmem)
  enroll_free id hid hfree := by
    obtain ⟨row, hrow⟩ := hid
    rcases enroll_cases canon store id row hkeyed hrow with
      ⟨owner, hmem, howner, _⟩ | ⟨_, henroll⟩
    · exact absurd (howner.trans hrow.symm) (hfree owner hmem)
    · exact ⟨canon.insert id row, henroll, fun other => canon.mem_insert id other row⟩
  withdraw id hid :=
    ⟨canon.erase id, withdraw_eq canon store id hkeyed hid, fun other => canon.mem_erase id other⟩

namespace Kept

/-- One operation keeps the filed states under their rows and these apart, hence so does every
run. -/
theorem exact (store : Store α) (canon : Canon α) (h : Kept store canon) : canon.Exact store := by
  induction h with
  | start store =>
    exact exact_of_distinct empty store (keyed_empty store)
      fun _ hid => absurd hid List.not_mem_nil
  | change store after canon _ hsame ih =>
    refine exact_of_distinct canon after (ih.keyed.congr after hsame) fun id hid other ho he => ?_
    rw [hsame id hid, hsame other ho] at he
    exact ih.distinct id hid other ho he
  | enroll store canon after id owner _ hlive henroll ih =>
    obtain ⟨row, hrow⟩ := hlive
    rcases enroll_cases canon store id row ih.keyed hrow with
      ⟨other, _, _, hother⟩ | ⟨hfree, hfiled⟩
    · cases henroll.symm.trans hother
      exact ih
    · cases henroll.symm.trans hfiled
      refine exact_of_distinct (canon.insert id row) store (ih.keyed.insert id row hrow)
        fun one h1 two h2 he => ?_
      rcases (canon.mem_insert id one row).mp h1 with rfl | hone
      · rcases (canon.mem_insert one two row).mp h2 with rfl | htwo
        · rfl
        · exact absurd (he.symm.trans hrow) (hfree two htwo)
      · rcases (canon.mem_insert id two row).mp h2 with rfl | htwo
        · exact absurd (he.trans hrow) (hfree one hone)
        · exact ih.distinct one hone two htwo he
  | withdraw store canon after id filed _ hlive hwithdraw ih =>
    cases hwithdraw.symm.trans (withdraw_eq canon store id ih.keyed hlive)
    have hmem : ∀ other ∈ (canon.erase id).ids, other ∈ canon.ids := fun other ho =>
      ((canon.mem_erase id other).mp ho).2
    exact exact_of_distinct (canon.erase id) store (ih.keyed.erase id)
      fun one h1 two h2 => ih.distinct one (hmem one h1) two (hmem two h2)
  | refile store canon hrefile =>
    obtain ⟨hdistinct, hkeys⟩ := (ofStore_eq_ok_iff store canon).mp hrefile
    have hkeyed : canon.Keyed store := fun id row hkey => (hkeys id).symm.trans hkey
    exact exact_of_distinct canon store hkeyed fun one h1 two h2 he =>
      hdistinct (hkeyed.live one h1) (hkeyed.live two h2) he

end Kept

/-- A kept canon answers exactly; and filing the live states anew succeeds exactly if their rows
differ, also after all rows have been padded from one arity to another. -/
theorem kept_exact (store : Store α) (canon : Canon α) (h : Kept store canon) :
    canon.Exact store ∧
      ((∃ filed, ofStore store = .ok filed) ↔ store.Distinct) ∧
      (∀ filed, ofStore store = .ok filed → ∀ id, id ∈ filed.ids ↔ store.Live id) ∧
      (∀ fault, ofStore store = .error fault ↔
        ∃ earlier later, fault = .twins earlier later ∧ store.FirstTwins earlier later) ∧
      ∀ arity wide, store.Uniform arity → store.Distinct →
        ∃ filed, ofStore (store.widen wide) = .ok filed ∧ (∀ id, id ∈ filed.ids ↔ store.Live id) ∧
          ∀ row, row.arity = arity →
            ∃ found, filed.find (store.widen wide) (row.widen wide) = .ok found ∧
              ∀ id, found = some id ↔ store.row? id = some row := by
  refine ⟨h.exact, exists_ofStore_iff store,
    fun filed hfiled => mem_ids_iff_live filed store ((ofStore_eq_ok_iff store filed).mp hfiled).2,
    ofStore_eq_error_iff store, fun arity wide huniform hdistinct => ?_⟩
  obtain ⟨filed, hfiled⟩ := (exists_ofStore_iff (store.widen wide)).mpr
    (huniform.distinct_widen store arity wide hdistinct)
  have hkeys := ((ofStore_eq_ok_iff (store.widen wide) filed).mp hfiled).2
  have hmem : ∀ id, id ∈ filed.ids ↔ store.Live id := fun id =>
    (mem_ids_iff_live filed (store.widen wide) hkeys id).trans (store.live_widen wide id)
  refine ⟨filed, hfiled, hmem, fun row hrow => ?_⟩
  obtain ⟨found, hfound, hexact⟩ := (Kept.refile (store.widen wide) filed hfiled).exact.find
    (row.widen wide)
  refine ⟨found, hfound, fun id => ?_⟩
  rw [hexact, huniform.row?_widen_iff store arity wide id row hrow, hmem]
  exact ⟨fun hid => hid.2, fun hown => ⟨⟨row, hown⟩, hown⟩⟩

/-- The first state and the third have the same row, and the second leads to the first. -/
def likeEnds : Store Char :=
  ⟨#[some ⟨.blank 2, 1⟩, some ⟨(Row.blank 2).write 0 ⟨⟨0⟩, 'x'⟩ (by decide), 0⟩,
    some ⟨.blank 2, 0⟩], []⟩

/-- The same states, but the first leads to the third. -/
def partedEnds : Store Char :=
  likeEnds.put ⟨0⟩ ⟨(Row.blank 2).write 1 ⟨⟨2⟩, 'y'⟩ (by decide), 1⟩

/-- The third state loses to the first until that is withdrawn, and filing anew fails at it.  When
the first has another row, all three can be filed, and the third is found by its padded row. -/
theorem kept_of_likeEnds :
    ∃ canon, Kept likeEnds canon ∧ canon.find likeEnds (.blank 2) = .ok (some ⟨2⟩) ∧
      likeEnds.FirstTwins ⟨0⟩ ⟨2⟩ ∧ Kept partedEnds canon ∧
      partedEnds.Uniform 2 ∧ partedEnds.Distinct ∧
      ∃ filed, ofStore (partedEnds.widen 5) = .ok filed ∧
        filed.find (partedEnds.widen 5) ((Row.blank 2).widen 5) = .ok (some ⟨2⟩) := by
  have hlive : ∀ id ∈ [⟨0⟩, ⟨1⟩, ⟨2⟩], likeEnds.Live id := by
    simp only [Store.live_iff, ← Option.isSome_iff_exists]
    decide +kernel
  have hfirst : Kept likeEnds (empty.insert ⟨0⟩ (.blank 2)) :=
    .enroll likeEnds empty _ ⟨0⟩ ⟨0⟩ (.start likeEnds) (hlive ⟨0⟩ (by decide)) rfl
  have hloses : Kept likeEnds (empty.insert ⟨0⟩ (.blank 2)) :=
    .enroll likeEnds (empty.insert ⟨0⟩ (.blank 2)) _ ⟨2⟩ ⟨0⟩ hfirst (hlive ⟨2⟩ (by decide)) (rfl)
  have hgone : Kept likeEnds empty :=
    .withdraw likeEnds (empty.insert ⟨0⟩ (.blank 2)) _ ⟨0⟩ true hloses (hlive ⟨0⟩ (by decide)) rfl
  have hkept : Kept likeEnds (empty.insert ⟨2⟩ (.blank 2)) :=
    .enroll likeEnds empty _ ⟨2⟩ ⟨2⟩ hgone (hlive ⟨2⟩ (by decide)) rfl
  have hparted : Kept partedEnds (empty.insert ⟨2⟩ (.blank 2)) :=
    .change likeEnds partedEnds _ hkept (by decide +kernel)
  have huniform : partedEnds.Uniform 2 := by
    have hall : ∀ entry ∈ partedEnds.live, entry.2.row.arity = 2 := by decide +kernel
    intro id row hrow
    obtain ⟨state, hstate, rfl⟩ := partedEnds.get?_of_row? id row hrow
    exact hall (id, state) ((partedEnds.mem_live id state).mpr hstate)
  have hexact := kept_exact likeEnds _ hkept
  have hrefiles := kept_exact partedEnds _ hparted
  have hdistinct : partedEnds.Distinct := hrefiles.2.1.mp ⟨_, rfl⟩
  refine ⟨_, hkept, ?_, ?_, hparted, huniform, hdistinct, ?_⟩
  · obtain ⟨found, hfind, hiff⟩ := hexact.1.find (.blank 2)
    rw [hfind, (hiff ⟨2⟩).mpr (by decide +kernel)]
  · have hfails : ofStore likeEnds = .error (.twins ⟨0⟩ ⟨2⟩) := rfl
    obtain ⟨earlier, later, htwins, hends⟩ := (hexact.2.2.2.1 _).mp hfails
    cases htwins
    exact hends
  · obtain ⟨filed, hfiled, _, hfind⟩ := hrefiles.2.2.2.2 2 5 huniform hdistinct
    obtain ⟨found, hfound, hiff⟩ := hfind (.blank 2) rfl
    exact ⟨filed, hfiled, by rw [hfound, (hiff ⟨2⟩).mpr (by decide +kernel)]⟩

end Canon

end TraceGraph
