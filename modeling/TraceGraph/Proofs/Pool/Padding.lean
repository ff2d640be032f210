import TraceGraph.Proofs.Store.Padding

/-! # Padded pools

Padding a pool widens its rows, those in the store and those in the canon.  Since rows of one arity
are equal when their padded forms are, every search in the padded pool ends at the same state as in
the pool itself; so each operation makes the same decisions, takes the same slots, and leaves the
padded result. -/
namespace TraceGraph
set_option autoImplicit false

namespace Pool

variable {α : Type}

def pad (pool : Pool α) (wide : Nat) : Pool α := ⟨pool.store.widen wide, pool.canon.widen wide⟩

/-- All rows have the arity `arity`. -/
structure Uniform (pool : Pool α) (arity : Nat) : Prop where
  store : pool.store.Uniform arity
  canon : pool.canon.Uniform arity

theorem Coherent.uniform (pool : Pool α) (arity : Nat) (h : pool.Coherent arity) :
    pool.Uniform arity where
  store := h.arities
  canon id row hkey := h.arities id row (h.filed.keyed id row hkey)

variable [DecidableEq α] (pool after : Pool α) (arity wide : Nat)

/-! ## Releasing and hiding -/

theorem reclaim_pad (h : pool.Uniform arity) (id : StateId) : (pool.pad wide).reclaim id =
    (pool.reclaim id).map fun freed => (freed.1.pad wide, freed.2.widen wide) := by
  unfold reclaim pad
  simp only [pool.canon.withdraw_widen pool.store arity wide h.canon h.store, Store.free_widen]
  cases pool.canon.withdraw pool.store id with
  | error fault => rfl
  | ok withdrawn =>
    simp only [Except.map, bind, Except.bind]
    cases pool.store.free id with
    | error fault => rfl
    | ok freed => rfl

theorem uniform_reclaim (h : pool.Uniform arity) (id : StateId) (state : State α)
    (hreclaim : pool.reclaim id = .ok (after, state)) : after.Uniform arity := by
  obtain ⟨⟨canon, filed⟩, hwithdraw, hreclaim⟩ := exists_ok_of_bind hreclaim
  obtain ⟨⟨store, found⟩, hfree, hreclaim⟩ := exists_ok_of_bind hreclaim
  cases hreclaim
  exact ⟨h.store.free id store state hfree,
    pool.canon.uniform_withdraw canon pool.store arity h.canon id filed hwithdraw⟩

theorem release_pad (h : pool.Uniform arity) (pending : List StateId) (events : List Event)
    (hrelease : pool.release pending = .ok (after, events)) :
    (pool.pad wide).release pending = .ok (after.pad wide, events) ∧ after.Uniform arity := by
  -- along the rounds of the release; each drops the same edge in both pools
  fun_induction release pool pending generalizing after events with
  | case1 pool =>
    cases hrelease
    exact ⟨by rw [release], h⟩
  | case2 pool id pending fault hlose => cases hrelease
  | case3 pool id pending store remaining hlose hleft ih =>
    obtain ⟨hpad, huniform⟩ :=
      ih after ⟨h.store.loseEdge id store remaining hlose, h.canon⟩ events hrelease
    have hlose' : (pool.pad wide).store.loseEdge id = .ok (store.widen wide, remaining) := by
      simp [pad, hlose, Except.map]
    exact ⟨(release_kept _ id pending _ remaining hlose' hleft).trans hpad, huniform⟩
  | case4 pool id pending store remaining hlose hnone fault hreclaim => cases hrelease
  | case5 pool id pending store remaining hlose hnone rest state hreclaim ih =>
    obtain rfl : remaining = 0 := by omega
    cases hrest : rest.release (state.row.successors ++ pending) with
    | error fault =>
      rw [hrest] at hrelease
      cases hrelease
    | ok found =>
      rw [hrest] at hrelease
      cases hrelease
      have hlost : Uniform { pool with store } arity :=
        ⟨h.store.loseEdge id store 0 hlose, h.canon⟩
      have hmid := uniform_reclaim _ rest arity hlost id state hreclaim
      obtain ⟨hpad, huniform⟩ := ih found.1 hmid found.2 hrest
      have hlose' : (pool.pad wide).store.loseEdge id = .ok (store.widen wide, 0) := by
        simp [pad, hlose, Except.map]
      have hreclaim' : reclaim { pool.pad wide with store := store.widen wide } id =
          .ok (rest.pad wide, state.widen wide) :=
        (reclaim_pad { pool with store } arity wide hlost id).trans
          (congrArg (Except.map _) hreclaim)
      refine ⟨?_, huniform⟩
      rw [release_gone _ _ id pending _ _ hlose' hreclaim']
      exact congrArg (Except.map _) hpad

theorem hide_pad (h : pool.Uniform arity) (ids : List StateId)
    (hhide : pool.hide ids = .ok after) :
    (pool.pad wide).hide ids = .ok (after.pad wide) ∧ after.Uniform arity := by
  induction ids generalizing pool with
  | nil =>
    cases hhide
    exact ⟨rfl, h⟩
  | cons id ids ih =>
    obtain ⟨⟨canon, canonical⟩, hwithdraw, hhide⟩ := exists_ok_of_bind hhide
    have hcanon :=
      pool.canon.uniform_withdraw canon pool.store arity h.canon id canonical hwithdraw
    have hwithdraw' : (pool.pad wide).canon.withdraw (pool.pad wide).store id =
        .ok (canon.widen wide, canonical) :=
      (pool.canon.withdraw_widen pool.store arity wide h.canon h.store id).trans
        (congrArg (Except.map _) hwithdraw)
    cases canonical with
    | true =>
      obtain ⟨hpad, huniform⟩ := ih { pool with canon } ⟨h.store, hcanon⟩ hhide
      refine ⟨?_, huniform⟩
      unfold hide
      simp only [hwithdraw', bind, Except.bind, if_true]
      exact hpad
    | false => cases hhide

/-! ## Interning -/

section

variable (h : pool.Uniform arity)

include h

theorem intern_pad (row : Row α) (hrow : row.arity = arity) (id : StateId)
    (hintern : pool.intern row = .ok (after, id)) :
    (pool.pad wide).intern (row.widen wide) = .ok (after.pad wide, id) ∧
      after.Uniform arity := by
  -- rows of one arity are equal when their padded forms are, so the search ends alike
  obtain ⟨found, hfind, hintern⟩ := exists_ok_of_bind hintern
  have hfind' : (pool.pad wide).canon.find (pool.pad wide).store (row.widen wide) = .ok found :=
    (pool.canon.find_widen pool.store arity wide h.canon h.store row hrow).trans hfind
  cases found with
  | some owner =>
    cases hintern
    refine ⟨?_, h⟩
    rw [intern, hfind']
    rfl
  | none =>
    obtain ⟨⟨grown, made⟩, halloc, hintern⟩ := exists_ok_of_bind hintern
    obtain ⟨store, hgain, hintern⟩ := exists_ok_of_bind hintern
    obtain ⟨⟨canon, owner⟩, henroll, hintern⟩ := exists_ok_of_bind hintern
    have hmid := h.store.alloc made grown (.fresh row) hrow halloc
    have hstore := Store.Uniform.gainEdges grown store hmid row.successors hgain
    have halloc' : (pool.pad wide).store.alloc (.fresh (row.widen wide)) =
        .ok (grown.widen wide, made) :=
      (pool.store.alloc_widen wide (.fresh row)).trans (congrArg (Except.map _) halloc)
    have hgain' : (grown.widen wide).gainEdges (row.widen wide).successors =
        .ok (store.widen wide) :=
      (grown.gainEdges_widen wide row.successors).trans (congrArg (Except.map _) hgain)
    have henroll' : (pool.pad wide).canon.enroll (store.widen wide) made =
        .ok (canon.widen wide, owner) :=
      (pool.canon.enroll_widen store arity wide h.canon hstore made).trans
        (congrArg (Except.map _) henroll)
    have hcanon := pool.canon.uniform_enroll canon store arity h.canon hstore made owner henroll
    dsimp only at hintern
    split at hintern
    · next howner =>
      cases hintern
      refine ⟨?_, hstore, hcanon⟩
      unfold intern
      simp only [hfind', halloc', hgain', henroll', bind, Except.bind, if_pos howner]
      rfl
    · cases hintern

theorem internTrace_pad (hle : arity ≤ wide) (trace : List (Nat × α)) (id : StateId)
    (hintern : pool.internTrace arity trace = .ok (after, id)) :
    (pool.pad wide).internTrace wide trace = .ok (after.pad wide, id) ∧
      after.Uniform arity := by
  induction trace generalizing after id with
  | nil =>
    obtain ⟨hpad, huniform⟩ := pool.intern_pad after arity wide h (.blank arity) rfl id hintern
    rw [Row.blank_widen arity wide hle] at hpad
    exact ⟨hpad, huniform⟩
  | cons entry trace ih =>
    obtain ⟨symbol, output⟩ := entry
    obtain ⟨⟨mid, child⟩, hrest, hintern⟩ := exists_ok_of_bind hintern
    obtain ⟨⟨row, displaced⟩, hedit, hintern⟩ := exists_ok_of_bind hintern
    obtain ⟨hrest', hmid⟩ := ih mid child hrest
    have harity := Row.arity_edit _ row _ displaced hedit
    have hedit' := Row.edit_widen _ row wide _ displaced hedit
    obtain ⟨hpad, huniform⟩ := mid.intern_pad after arity wide hmid row harity id hintern
    rw [Row.blank_widen arity wide hle] at hedit'
    refine ⟨?_, huniform⟩
    unfold internTrace
    simp only [hrest', hedit', bind, Except.bind]
    exact hpad

/-! ## Changing a path -/

theorem copy_pad (step : Step α) (child made : StateId)
    (hcopy : pool.copy step child = .ok (after, made)) :
    (pool.pad wide).copy step child = .ok (after.pad wide, made) ∧ after.Uniform arity := by
  obtain ⟨state, hfetch, hcopy⟩ := exists_ok_of_bind hcopy
  obtain ⟨⟨row, displaced⟩, hedit, hintern⟩ := exists_ok_of_bind hcopy
  have harity := (Row.arity_edit _ row _ displaced hedit).trans (h.store.of_fetch _ state hfetch)
  obtain ⟨hpad, huniform⟩ := pool.intern_pad after arity wide h row harity made hintern
  have hfetch' : (pool.pad wide).store.fetch step.state = .ok (state.widen wide) :=
    (pool.store.fetch_widen wide step.state).trans (congrArg (Except.map _) hfetch)
  have hedit' := Row.edit_widen _ row wide _ displaced hedit
  refine ⟨?_, huniform⟩
  unfold copy
  simp only [hfetch', bind, Except.bind, State.widen, hedit']
  exact hpad

theorem copyAll_pad (child top : StateId) (steps : List (Step α)) (events : List Event)
    (hcopy : pool.copyAll child steps = .ok (after, top, events)) :
    (pool.pad wide).copyAll child steps = .ok (after.pad wide, top, events) ∧
      after.Uniform arity := by
  induction steps generalizing pool child events with
  | nil =>
    cases hcopy
    exact ⟨rfl, h⟩
  | cons step steps ih =>
    obtain ⟨⟨mid, made⟩, hstep, hcopy⟩ := exists_ok_of_bind hcopy
    obtain ⟨⟨last, found, later⟩, hrest, hcopy⟩ := exists_ok_of_bind hcopy
    cases hcopy
    obtain ⟨hstep', hmid⟩ := pool.copy_pad mid arity wide h step child made hstep
    obtain ⟨hrest', huniform⟩ := ih mid hmid made later hrest
    refine ⟨?_, huniform⟩
    unfold copyAll
    simp only [hstep', hrest', bind, Except.bind]
    rfl

theorem lead_pad (step : Step α) (child : StateId) (events : List Event)
    (hlead : pool.lead step child = .ok (after, events)) :
    (pool.pad wide).lead step child = .ok (after.pad wide, events) ∧
      after.Uniform arity := by
  obtain ⟨⟨store, displaced⟩, hedit, hlead⟩ := exists_ok_of_bind hlead
  have hstore := h.store.edit step.state store (step.edit child) displaced hedit
  have hedit' : (pool.pad wide).store.edit step.state (step.edit child) =
      .ok (store.widen wide, displaced) :=
    pool.store.edit_widen wide step.state store (step.edit child) displaced hedit
  unfold lead
  dsimp only at hlead
  by_cases hsame : displaced = some child
  · rw [if_pos hsame] at hlead
    cases hlead
    refine ⟨?_, hstore, h.canon⟩
    simp only [hedit', bind, Except.bind, if_pos hsame]
    rfl
  · rw [if_neg hsame] at hlead
    obtain ⟨mid, hgain, hrelease⟩ := exists_ok_of_bind hlead
    have hgain' : (store.widen wide).gainEdge child = .ok (mid.widen wide) :=
      (store.gainEdge_widen wide child).trans (congrArg (Except.map _) hgain)
    obtain ⟨hpad, huniform⟩ := release_pad { pool with store := mid } after arity wide
      ⟨hstore.gainEdge child mid hgain, h.canon⟩ displaced.toList events hrelease
    refine ⟨?_, huniform⟩
    simp only [hedit', hgain', bind, Except.bind, if_neg hsame]
    exact hpad

theorem amend_pad (step : Step α) (child made : StateId) (events : List Event)
    (hamend : pool.amend step child = .ok (after, made, events)) :
    (pool.pad wide).amend step child = .ok (after.pad wide, made, events) ∧
      after.Uniform arity := by
  rw [amend_eq_lead] at hamend ⊢
  obtain ⟨⟨led, reclaimed⟩, hlead, hamend⟩ := exists_ok_of_bind hamend
  obtain ⟨⟨canon, owner⟩, henroll, hamend⟩ := exists_ok_of_bind hamend
  cases hamend
  obtain ⟨hlead', huniform⟩ := pool.lead_pad led arity wide h step child reclaimed hlead
  have henroll' : (led.pad wide).canon.enroll (led.pad wide).store step.state =
      .ok (canon.widen wide, made) :=
    (led.canon.enroll_widen led.store arity wide huniform.canon huniform.store step.state).trans
      (congrArg (Except.map _) henroll)
  refine ⟨?_, huniform.store, led.canon.uniform_enroll canon led.store arity huniform.canon
    huniform.store step.state made henroll⟩
  simp only [hlead', henroll', bind, Except.bind]
  rfl

theorem amendAll_pad (child top : StateId) (steps : List (Step α)) (events : List Event)
    (hamend : pool.amendAll child steps = .ok (after, top, events)) :
    (pool.pad wide).amendAll child steps = .ok (after.pad wide, top, events) ∧
      after.Uniform arity := by
  induction steps generalizing pool child events with
  | nil =>
    cases hamend
    exact ⟨rfl, h⟩
  | cons step steps ih =>
    obtain ⟨⟨mid, made, first⟩, hstep, hamend⟩ := exists_ok_of_bind hamend
    obtain ⟨⟨last, found, later⟩, hrest, hamend⟩ := exists_ok_of_bind hamend
    cases hamend
    obtain ⟨hstep', hmid⟩ := pool.amend_pad mid arity wide h step child made first hstep
    obtain ⟨hrest', huniform⟩ := ih mid hmid made later hrest
    refine ⟨?_, huniform⟩
    unfold amendAll
    simp only [hstep', hrest', bind, Except.bind]
    rfl

end

end Pool

end TraceGraph
