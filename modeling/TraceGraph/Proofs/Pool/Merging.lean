import TraceGraph.Proofs.Pool.Amending

/-! # Merging

Amending goes up a path, and merging goes with it for a while.  A state that is merged turns the
step above it to another state, so the row above changes as well.  The first state that keeps its
own number ends this: the step above leads there already, and no canonical state does, so the row
above is as it was and nothing can have it.  One state thus has a new row, those below it on the
path are gone, each right after it was merged, and all others have the rows that they had. -/
namespace TraceGraph
set_option autoImplicit false

/-- The report on states that were merged, each with the state it was merged into. -/
def mergers (merged : List (StateId × StateId)) : List Event :=
  merged.flatMap fun entry => [.merged entry.1 entry.2, .reclaimed entry.1]

theorem merged_mem_mergers (merged : List (StateId × StateId)) (id into : StateId) :
    Event.merged id into ∈ mergers merged ↔ (id, into) ∈ merged := by
  rw [mergers, List.mem_flatMap]
  constructor
  · rintro ⟨entry, hentry, hmem⟩
    rcases List.mem_cons.mp hmem with he | hmem
    · cases he
      exact hentry
    · cases List.mem_singleton.mp hmem
  · exact fun hentry => ⟨_, hentry, List.mem_cons_self⟩

theorem count_reclaimed_mergers (merged : List (StateId × StateId)) (id : StateId) :
    (mergers merged).count (.reclaimed id) = (merged.map Prod.fst).count id := by
  induction merged with
  | nil => rfl
  | cons entry merged ih =>
    have hcons : mergers (entry :: merged) =
        .merged entry.1 entry.2 :: .reclaimed entry.1 :: mergers merged := rfl
    have hother : Event.merged entry.1 entry.2 ≠ .reclaimed id := nofun
    rw [hcons, List.count_cons_of_ne hother, List.count_cons, ih, List.map_cons, List.count_cons]
    simp only [beq_iff_eq, Event.reclaimed.injEq]

theorem reclaimed_mem_mergers (merged : List (StateId × StateId)) (id : StateId) :
    Event.reclaimed id ∈ mergers merged ↔ id ∈ merged.map Prod.fst := by
  rw [← List.count_pos_iff, count_reclaimed_mergers, List.count_pos_iff]

/-- The state of the step has a new row, in which the step leads elsewhere. -/
def Step.Turns {α : Type} (store after : Store α) (step : Step α) : Prop :=
  ∃ child old new, store.row? step.state = some old ∧
    old.edit (step.edit child) = .ok (new, step.target? store) ∧
    step.target? store ≠ some child ∧ after.row? step.state = some new

namespace Pool

variable {α : Type}

/-- The states `merged` and the stale one are gone, the step `kept` turns, and no other row has
changed. -/
structure Turned (store : Store α) (pool after : Pool α) (stale : Option StateId)
    (merged : List (StateId × StateId)) (kept : Step α) : Prop where
  turns : kept.Turns store after.store
  gone : ∀ id, stale = some id ∨ id ∈ merged.map Prod.fst → after.store.row? id = none
  same : ∀ id, id ≠ kept.state → stale ≠ some id → id ∉ merged.map Prod.fst →
    after.store.row? id = pool.store.row? id

namespace Turned

variable (store : Store α) (pool mid after : Pool α) (stale : Option StateId)
  (merged : List (StateId × StateId)) (kept step : Step α) (owner : StateId) (new : Row α)

/-- The step whose state keeps its number is the turned one. -/
theorem stop (hrows : ∀ id, after.store.row? id = if id = step.state then some new
      else if stale = some id then none else pool.store.row? id)
    (hstale : stale ≠ some step.state) (hturns : step.Turns store after.store) :
    Turned store pool after stale [] step := by
  refine ⟨hturns, fun id hid => ?_, fun id hne hs _ => ?_⟩
  · have hs : stale = some id := hid.resolve_right List.not_mem_nil
    have hne : id ≠ step.state := fun he => hstale (he ▸ hs)
    rw [hrows id, if_neg hne, if_pos hs]
  · rw [hrows id, if_neg hne, if_neg hs]

/-- A step whose state is merged leaves it stale for the steps above. -/
theorem merge (h : Turned store mid after (some step.state) merged kept)
    (hrows : ∀ id, mid.store.row? id = if id = step.state then some new
      else if stale = some id then none else pool.store.row? id)
    (hstale : stale ≠ some kept.state) :
    Turned store pool after stale ((step.state, owner) :: merged) kept := by
  refine ⟨h.turns, fun id hid => ?_, fun id hne hs hmem => ?_⟩
  · by_cases hlater : some step.state = some id ∨ id ∈ merged.map Prod.fst
    · exact h.gone id hlater
    · obtain ⟨hself, hmem⟩ := not_or.mp hlater
      have hs : stale = some id := hid.resolve_right fun hin =>
        (List.mem_cons.mp hin).elim (fun he => hself (congrArg some he.symm)) hmem
      rw [h.same id (fun he => hstale (he ▸ hs)) hself hmem, hrows id,
        if_neg fun he => hself (congrArg some he.symm), if_pos hs]
  · obtain ⟨hself, hrest⟩ := not_or.mp (mt List.mem_cons.mpr hmem)
    rw [h.same id hne (fun he => hself (Option.some.inj he).symm) hrest, hrows id, if_neg hself,
      if_neg hs]

end Turned

namespace Amending

variable (store : Store α) (pool : Pool α) (arity : Nat) (root child : StateId) (step : Step α)
  (steps : List (Step α)) (stale : Option StateId)
  (h : Amending store pool arity root child (step :: steps) stale)

include h

/-- Where no canonical state leads to `child`, none has the row of a state that does. -/
theorem owner_eq_of_lone (after : Pool α) (new : Row α) (owner : StateId)
    (hchild : child ∈ new.successors) (ha : pool.Amended after arity step new stale owner)
    (hlone : ∀ id ∈ pool.canon.ids, ¬ pool.store.Leads id child) : owner = step.state := by
  rcases ha.owner_cases with he | hmem
  · exact he
  · refine absurd ⟨new, ?_, hchild⟩ (hlone owner hmem)
    rw [← row?_kept store pool arity root child step steps stale h new after.store ha.ledOn owner
      hmem]
    exact ha.owner_row

section

variable (after : Pool α) (new : Row α) (owner : StateId) (hchild : child ∈ new.successors)
  (ha : pool.Amended after arity step new stale owner)

include hchild ha

/-- Only the step above leads to the state just amended, and that step is hidden still. -/
theorem lone_after (upper : Step α) (rest : List (Step α)) (hsteps : steps = upper :: rest) :
    ∀ id ∈ after.canon.ids, ¬ after.store.Leads id step.state := by
  intro id hid hleads
  obtain ⟨edge, hedge, htarget⟩ := edge_above store pool arity root child step steps stale h after
    new owner ha upper rest hsteps
  obtain ⟨symbol, other, hother, hsame⟩ := (after.store.leads_iff id step.state).mp hleads
  have hone := once_after store pool arity root child step steps stale h after new owner ha upper
    rest hsteps
  have harrow := after.store.arrow_unique step.state hone.le (upper.state, upper.symbol)
    (id, symbol) ⟨edge, hedge, htarget⟩ ⟨other, hother, hsame⟩
  have hhidden := (next store pool arity root child step steps stale h after new owner hchild ha
    upper rest hsteps).hidden upper (hsteps ▸ List.mem_cons_self)
  have hself : upper.state = id := congrArg Prod.fst harrow
  exact hhidden (hself ▸ hid)

end

/-- Above a state that keeps its number no row changes. -/
theorem amendAll_above [DecidableEq α] (after : Pool α) (new : Row α)
    (hchild : child ∈ new.successors) (ha : pool.Amended after arity step new stale step.state) :
    ∃ last, after.amendAll step.state steps = .ok (last, root, []) ∧
      ∀ id, last.store.row? id = after.store.row? id := by
  induction steps generalizing pool child step stale after new with
  | nil =>
    obtain ⟨hroot, _⟩ := h.last store pool arity root child step [] stale after new _ hchild ha rfl
    exact ⟨after, by rw [amendAll, hroot]; rfl, fun _ => rfl⟩
  | cons upper rest ih =>
    have hnext := h.next store pool arity root child step _ stale after new _ hchild ha upper rest
      rfl
    have hlone := h.lone_after store pool arity root child step _ stale after new _ hchild ha upper
      rest rfl
    rw [if_pos rfl] at hnext
    obtain ⟨mid, owner, old, row, hamend, hold, hedit, hsucc, hmid⟩ := hnext.amend_eq
    obtain rfl := hnext.owner_eq_of_lone store after arity root step.state upper rest none mid row
      owner hsucc hmid hlone
    -- the step above leads to the state already, so its edit changes nothing
    have htarget := Step.Above.target?_eq store step upper (List.isChain_cons_cons.mp h.chain).1
    have hsame : row = old := by
      refine Row.edit_eq_self old row _ _ hedit (htarget.trans ?_)
      rw [Step.target_edit]
    have hrows : ∀ id, mid.store.row? id = after.store.row? id := by
      intro id
      rw [hmid.ledOn.rows id]
      split
      · next he =>
        rw [he, hsame, hnext.rows upper List.mem_cons_self, hold]
      · simp
    obtain ⟨last, hall, hlast⟩ := ih after step.state upper none hnext mid row hsucc hmid
    refine ⟨last, ?_, fun id => (hlast id).trans (hrows id)⟩
    rw [amendAll, hamend]
    simp only [bind, Except.bind, hall]
    simp [Step.report, pure, Except.pure]

end Amending

/-- Amending merges the lowest states of the steps, if any, and gives a new row to the next one.  If
no canonical state leads to `child`, the lowest state itself is that one. -/
theorem amendAll_turned [DecidableEq α] (store : Store α) (pool : Pool α) (arity : Nat)
    (root child : StateId) (steps : List (Step α)) (stale : Option StateId)
    (h : Amending store pool arity root child steps stale)
    (hturn : ∀ step, steps.head? = some step → step.target? store ≠ some child) :
    ∃ after merged below kept above,
      pool.amendAll child steps =
        .ok (after, root, stale.toList.map Event.reclaimed ++ mergers merged) ∧
      steps = below ++ kept :: above ∧ merged.map Prod.fst = below.map Step.state ∧
      Turned store pool after stale merged kept ∧
      ((∀ id ∈ pool.canon.ids, ¬ pool.store.Leads id child) → merged = []) := by
  induction steps generalizing pool child stale with
  | nil => cases h.ends
  | cons step steps ih =>
    obtain ⟨mid, owner, old, new, hamend, hold, hedit, hchild, ha⟩ := h.amend_eq
    by_cases ho : owner = step.state
    · subst ho
      obtain ⟨after, hall, hrows⟩ :=
        h.amendAll_above store pool arity root child step steps stale mid new hchild ha
      refine ⟨after, [], [], step, steps, ?_, rfl, rfl, ?_, fun _ => rfl⟩
      · rw [amendAll, hamend]
        simp only [bind, Except.bind, hall]
        simp [Step.report, mergers, pure, Except.pure]
      · exact Turned.stop store pool after stale step new
          (fun id => (hrows id).trans (ha.ledOn.rows id))
          (fun hs => (h.stale_hidden _ hs).2 List.mem_cons_self)
          ⟨child, old, new, hold, hedit, hturn step rfl, (hrows _).trans ha.owner_row⟩
    · cases steps with
      | nil =>
        obtain ⟨hroot, _⟩ :=
          h.last store pool arity root child step [] stale mid new owner hchild ha rfl
        exact absurd (hroot.trans (Option.some.inj h.ends).symm) ho
      | cons upper rest =>
        have hnext := h.next store pool arity root child step _ stale mid new owner hchild ha upper
          rest rfl
        have htarget := Step.Above.target?_eq store step upper (List.isChain_cons_cons.mp h.chain).1
        rw [if_neg ho] at hnext
        obtain ⟨after, merged, below, kept, above, hall, hsteps, hfst, hturned, _⟩ :=
          ih mid owner (some step.state) hnext fun other hother => by
            cases hother
            exact fun he => ho (Option.some.inj (he.symm.trans htarget))
        have hkept : kept.state ∈ (step :: upper :: rest).map Step.state := by
          rw [hsteps]
          simp
        refine ⟨after, (step.state, owner) :: merged, step :: below, kept, above, ?_, ?_, ?_, ?_,
          fun hlone => absurd ?_ ho⟩
        · rw [amendAll, hamend]
          simp only [bind, Except.bind, hall]
          simp [Step.report, mergers, ho, pure, Except.pure]
        · rw [hsteps]
          rfl
        · rw [List.map_cons, List.map_cons, hfst]
        · exact hturned.merge store pool mid after stale merged kept step owner new ha.ledOn.rows
            fun hs => (h.stale_hidden _ hs).2 hkept
        · exact h.owner_eq_of_lone store pool arity root child step _ stale mid new owner hchild ha
            hlone

end Pool

end TraceGraph
