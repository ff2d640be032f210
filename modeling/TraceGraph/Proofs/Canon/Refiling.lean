import TraceGraph.Proofs.Filing

/-! # Filing a store anew

All live states of a store are enrolled in slot order, each under a row that has to be free still.
This comes to a canon of all of them if their rows differ, and otherwise it stops at the first state
with the row of a state below it. -/
namespace TraceGraph
set_option autoImplicit false

namespace Store

variable {α : Type}

/-- No two live states have the same row. -/
def Distinct (store : Store α) : Prop := Set.InjOn store.row? {id | store.Live id}

/-- `later` is the first state with the row of a live state below it, and `earlier` is the only
state below it with that row. -/
structure FirstTwins (store : Store α) (earlier later : StateId) : Prop where
  live : store.Live later
  below : earlier < later
  same : store.row? earlier = store.row? later
  only : ∀ other, other < later → store.row? other = store.row? later → other = earlier
  first : ∀ other, other < later → store.Live other → ∀ id, id < other →
    store.row? id ≠ store.row? other

theorem FirstTwins.unique (store : Store α) (earlier later earlier' later' : StateId)
    (h : store.FirstTwins earlier later) (h' : store.FirstTwins earlier' later') :
    earlier = earlier' ∧ later = later' := by
  have hle : ¬ later < later' := fun hlt => h'.first later hlt h.live earlier h.below h.same
  have hge : ¬ later' < later := fun hlt => h.first later' hlt h'.live earlier' h'.below h'.same
  obtain rfl : later = later' := by
    simp only [StateId.lt_iff, StateId.ext_iff] at *
    omega
  exact ⟨h'.only earlier h.below h.same, rfl⟩

theorem FirstTwins.not_distinct (store : Store α) (earlier later : StateId)
    (h : store.FirstTwins earlier later) : ¬ store.Distinct := by
  intro hdistinct
  obtain ⟨row, hrow⟩ := h.live
  have hlive : store.Live earlier := ⟨row, h.same.trans hrow⟩
  have heq : earlier = later := hdistinct hlive h.live h.same
  have hbelow := h.below
  rw [heq, StateId.lt_iff] at hbelow
  omega

end Store

namespace Canon

variable {α : Type} [DecidableEq α]

/-- One after the other, live states are enrolled until the row of one of them is taken. -/
theorem enrollAll_cases (store : Store α) (ids : List StateId) (hlive : ∀ id ∈ ids, store.Live id)
    (hnodup : ids.Nodup) :
    (∃ canon, ids.foldlM (enrollNew store) empty = .ok canon ∧ canon.Keyed store ∧
        (∀ id, id ∈ canon.ids ↔ id ∈ ids) ∧ Set.InjOn store.row? {id | id ∈ ids}) ∨
      ∃ before earlier later after, ids = before ++ later :: after ∧
        ids.foldlM (enrollNew store) empty = .error (.twins earlier later) ∧
        Set.InjOn store.row? {id | id ∈ before} ∧ earlier ∈ before ∧
        store.row? earlier = store.row? later := by
  induction ids using List.reverseRecOn with
  | nil =>
    exact .inl ⟨empty, rfl, keyed_empty store, fun _ => Iff.rfl,
      fun _ hid => absurd hid List.not_mem_nil⟩
  | append_singleton ids id ih =>
    have hnot : id ∉ ids := fun hmem =>
      (List.nodup_append.mp hnodup).2.2 id hmem id (List.mem_singleton.mpr rfl) rfl
    have hbefore : ∀ other ∈ ids, store.Live other := fun other ho =>
      hlive other (List.mem_append_left [id] ho)
    obtain ⟨row, hrow⟩ := hlive id (List.mem_append_right ids (List.mem_singleton.mpr rfl))
    rw [List.foldlM_append]
    rcases ih hbefore (List.nodup_append.mp hnodup).1 with
      ⟨canon, hcanon, hkeyed, hmem, hinj⟩ |
        ⟨before, earlier, later, after, rfl, herror, hinj, hmem, hsame⟩
    · simp only [hcanon, List.foldlM_cons, List.foldlM_nil, bind, Except.bind, enrollNew]
      rcases enroll_cases canon store id row hkeyed hrow with
        ⟨owner, howner, hsame, henroll⟩ | ⟨hfree, henroll⟩
      · have hne : owner ≠ id := fun he => hnot ((hmem id).mp (he ▸ howner))
        refine .inr ⟨ids, owner, id, [], rfl, ?_, hinj, (hmem owner).mp howner,
          hsame.trans hrow.symm⟩
        simp [henroll, hne, throw, throwThe, MonadExceptOf.throw]
      · refine .inl ⟨canon.insert id row, ?_, hkeyed.insert id row hrow, fun other => ?_, ?_⟩
        · simp [henroll, pure, Except.pure]
        · rw [mem_insert, hmem, List.mem_append, List.mem_singleton, or_comm]
        · have hset : {other | other ∈ ids ++ [id]} = Insert.insert id {other | other ∈ ids} := by
            ext other
            simp [or_comm]
          rw [hset]
          refine (Set.injOn_insert (show id ∉ {other | other ∈ ids} from hnot)).mpr ⟨hinj, ?_⟩
          rintro ⟨other, ho, hsame⟩
          exact hfree other ((hmem other).mpr ho) (hsame.trans hrow)
    · refine .inr ⟨before, earlier, later, after ++ [id], by simp, ?_, hinj, hmem, hsame⟩
      rw [herror]
      rfl

theorem ofStore_cases (store : Store α) :
    (∃ canon, ofStore store = .ok canon ∧ (∀ id, canon.key? id = store.row? id) ∧
        store.Distinct) ∨
      ∃ earlier later, ofStore store = .error (.twins earlier later) ∧
        store.FirstTwins earlier later := by
  have hascending := store.live_ascending
  have hnodup : (store.live.map Prod.fst).Nodup := hascending.imp fun hlt he => by
    rw [he, StateId.lt_iff] at hlt
    omega
  rcases enrollAll_cases store (store.live.map Prod.fst)
      (fun id hid => (store.mem_live_map id).mp hid) hnodup with
    ⟨canon, hcanon, hkeyed, hmem, hinj⟩ |
      ⟨before, earlier, later, after, hlive, herror, hinj, hmem, hsame⟩
  · simp only [store.mem_live_map] at hmem hinj
    exact .inl ⟨canon, hcanon, hkeyed.eq_row? fun id hid => (hmem id).mpr hid, hinj⟩
  · rw [hlive] at hascending
    obtain ⟨_, hafter, hbelow⟩ := List.pairwise_append.mp hascending
    have hlater : store.Live later := (store.mem_live_map later).mp (by simp [hlive])
    -- in slot order the states before `later` are the live ones below it
    have hbefore : ∀ id, store.Live id → id < later → id ∈ before := by
      intro id hid hlt
      have hmem' := (store.mem_live_map id).mpr hid
      rw [hlive, List.mem_append, List.mem_cons] at hmem'
      rcases hmem' with hmem' | rfl | hmem'
      · exact hmem'
      · rw [StateId.lt_iff] at hlt
        omega
      · have hgt := (List.pairwise_cons.mp hafter).1 id hmem'
        rw [StateId.lt_iff] at hlt hgt
        omega
    have hlike : ∀ id other, store.Live other → store.row? id = store.row? other → store.Live id :=
      fun id other ⟨row, hrow⟩ he => ⟨row, he.trans hrow⟩
    refine .inr ⟨earlier, later, herror, hlater, hbelow earlier hmem later List.mem_cons_self,
      hsame, fun other hlt he => ?_, fun other hlt hother id hid he => ?_⟩
    · exact hinj (hbefore other (hlike other later hlater he) hlt) hmem (he.trans hsame.symm)
    · have hlt' : id < later := Nat.lt_trans hid hlt
      have hsame' : id = other :=
        hinj (hbefore id (hlike id other hother he) hlt') (hbefore other hother hlt) he
      rw [hsame', StateId.lt_iff] at hid
      omega

theorem ofStore_eq_ok_iff (store : Store α) (canon : Canon α) :
    ofStore store = .ok canon ↔ store.Distinct ∧ ∀ id, canon.key? id = store.row? id := by
  rcases ofStore_cases store with
    ⟨found, hfound, hkeys, hdistinct⟩ | ⟨earlier, later, herror, htwins⟩
  · rw [hfound, Except.ok.injEq]
    constructor
    · rintro rfl
      exact ⟨hdistinct, hkeys⟩
    · rintro ⟨_, hall⟩
      exact ext_key? found canon fun id => (hkeys id).trans (hall id).symm
  · rw [herror]
    exact ⟨nofun, fun h => absurd h.1 (htwins.not_distinct store earlier later)⟩

theorem ofStore_eq_error_iff (store : Store α) (fault : Fault) :
    ofStore store = .error fault ↔
      ∃ earlier later, fault = .twins earlier later ∧ store.FirstTwins earlier later := by
  rcases ofStore_cases store with ⟨canon, hcanon, _, hdistinct⟩ | ⟨earlier, later, herror, htwins⟩
  · rw [hcanon]
    refine ⟨nofun, ?_⟩
    rintro ⟨earlier, later, _, htwins⟩
    exact absurd hdistinct (htwins.not_distinct store earlier later)
  · rw [herror, Except.error.injEq]
    constructor
    · rintro rfl
      exact ⟨earlier, later, rfl, htwins⟩
    · rintro ⟨earlier', later', rfl, htwins'⟩
      obtain ⟨rfl, rfl⟩ := htwins.unique store earlier later earlier' later' htwins'
      rfl

theorem exists_ofStore_iff (store : Store α) :
    (∃ canon, ofStore store = .ok canon) ↔ store.Distinct := by
  rcases ofStore_cases store with ⟨canon, hcanon, _, hdistinct⟩ | ⟨earlier, later, herror, htwins⟩
  · exact ⟨fun _ => hdistinct, fun _ => ⟨canon, hcanon⟩⟩
  · rw [herror]
    exact ⟨nofun, fun h => absurd h (htwins.not_distinct store earlier later)⟩

end Canon

end TraceGraph
