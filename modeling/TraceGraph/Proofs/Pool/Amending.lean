import TraceGraph.Proofs.Pool.Copying
import TraceGraph.Proofs.Pool.Leading

/-! # Amending

The steps above the shared part of a course are amended from the last one up.  Their states are
hidden meanwhile; each serves its course only, so the one above it is the only one that leads to it.
An amended state is filed again, unless a filed one has its row by now; then it waits, off the
canon, until the step above leads past it.  The root always comes back, since a state with its row
would stand both below and above the highest of the filed states. -/
namespace TraceGraph
set_option autoImplicit false

/-- What the amendment of a step reports: the stale state is gone, and the step's own state is
merged if another one owns its new row. -/
def Step.report {α : Type} (step : Step α) (stale : Option StateId) (owner : StateId) :
    List Event :=
  stale.toList.map Event.reclaimed ++
    if owner = step.state then [] else [Event.merged step.state owner]

namespace Pool

variable {α : Type}

/-- Every live state is canonical, and the root is the only one that nothing leads to. -/
structure Rooted (pool : Pool α) (root : StateId) (arity : Nat) : Prop where
  coherent : pool.Coherent arity
  complete : ∀ id, pool.store.Live id → id ∈ pool.canon.ids
  root_mem : root ∈ pool.canon.ids
  root_free : pool.store.inEdges root = 0
  fed : pool.store.Fed [root]

/-- What holds before the steps `steps` of a course in `store` are amended, the first of them led on
to `child`.  The states of the steps are hidden, and so is the stale one. -/
structure Amending (store : Store α) (pool : Pool α) (arity : Nat) (root child : StateId)
    (steps : List (Step α)) (stale : Option StateId) : Prop where
  coherent : pool.Coherent arity
  child_mem : child ∈ pool.canon.ids
  rows : ∀ step ∈ steps, pool.store.row? step.state = store.row? step.state
  fits : ∀ step ∈ steps, step.Fits store
  hidden : ∀ step ∈ steps, step.state ∉ pool.canon.ids
  beside : ∀ step ∈ steps, ∀ symbol edge, store.edge? step.state symbol = some edge →
    symbol ≠ step.symbol → edge.target ∈ pool.canon.ids
  distinct : (steps.map Step.state).Nodup
  chain : steps.IsChain (Step.Above store)
  once : ∀ step ∈ steps, step.state ≠ root → pool.store.inEdges step.state = 1
  ends : (steps.map Step.state).getLast? = some root
  live : ∀ id, pool.store.Live id →
    id ∈ pool.canon.ids ∨ id ∈ steps.map Step.state ∨ stale = some id
  stale_hidden : ∀ id, stale = some id → id ∉ pool.canon.ids ∧ id ∉ steps.map Step.state
  root_free : pool.store.inEdges root = 0
  fed : pool.store.Fed [root, child]
  due : ∀ step, steps.head? = some step → pool.Due child step stale

/-- What the amendment of a step comes to: its state has the row `new`, the stale state is gone,
and `owner` is canonical with that row, be it the step's state or another one. -/
structure Amended (pool after : Pool α) (arity : Nat) (step : Step α) (new : Row α)
    (stale : Option StateId) (owner : StateId) : Prop where
  coherent : after.Coherent arity
  ledOn : pool.LedOn step new stale after.store
  owner_row : after.store.row? owner = some new
  canon : ∀ id, id ∈ after.canon.ids ↔ id ∈ pool.canon.ids ∨ id = owner
  owner_cases : owner = step.state ∨ owner ∈ pool.canon.ids

namespace Amending

variable (store : Store α) (pool : Pool α) (arity : Nat) (root child : StateId) (step : Step α)
  (steps : List (Step α)) (stale : Option StateId)
  (h : Amending store pool arity root child (step :: steps) stale)

include h

/-! ## One step -/

/-- The row that the step makes leads to canonical states only, `child` among them. -/
theorem new_row : ∃ row new, store.row? step.state = some row ∧
    pool.store.row? step.state = some row ∧
    row.edit (step.edit child) = .ok (new, step.target? store) ∧ new.arity = arity ∧
    child ∈ new.successors ∧ ∀ target ∈ new.successors, target ∈ pool.canon.ids := by
  obtain ⟨row, new, hrow, hedit⟩ := (h.fits step List.mem_cons_self).edit store step child
  have hpool := (h.rows step List.mem_cons_self).trans hrow
  have hchild := Row.target_mem_edit row new _ _ hedit
  rw [Step.target_edit] at hchild
  refine ⟨row, new, hrow, hpool, hedit, ?_, hchild, fun target hmem => ?_⟩
  · rw [Row.arity_edit row new _ _ hedit]
    exact h.coherent.arities step.state row hpool
  · obtain ⟨output, _, hedges⟩ := Row.edge?_edit row new _ _ hedit
    obtain ⟨symbol, edge, hedge, rfl⟩ := (new.mem_successors target).mp hmem
    rw [hedges symbol, Step.symbol_edit, Step.target_edit] at hedge
    split at hedge
    · cases hedge
      exact h.child_mem
    · next hne =>
      exact h.beside step List.mem_cons_self symbol edge
        ((store.edge?_of_row? step.state row symbol hrow).trans hedge) hne

theorem row?_kept (new : Row α) (after : Store α) (hled : pool.LedOn step new stale after)
    (id : StateId) (hid : id ∈ pool.canon.ids) : after.row? id = pool.store.row? id := by
  have hne : id ≠ step.state := fun he => h.hidden step List.mem_cons_self (he ▸ hid)
  have hstale : stale ≠ some id := fun he => (h.stale_hidden id he).1 hid
  rw [hled.rows id, if_neg hne, if_neg hstale]

/-- A step can be amended, to its own state or to the canonical one with its new row. -/
theorem amend_eq [DecidableEq α] : ∃ after owner row new,
    pool.amend step child = .ok (after, owner, step.report stale owner) ∧
    store.row? step.state = some row ∧
    row.edit (step.edit child) = .ok (new, step.target? store) ∧ child ∈ new.successors ∧
    pool.Amended after arity step new stale owner := by
  obtain ⟨row, new, hrow, hpool, hedit, harity, hchild, hsucc⟩ := h.new_row
  obtain ⟨mid, hlead, hled⟩ := pool.lead_eq arity child step row new _ h.coherent hpool hedit
    h.child_mem (h.hidden step List.mem_cons_self) stale (h.due step rfl)
  have hfiled : pool.canon.Filed mid := h.coherent.filed.congr pool.canon pool.store mid
    fun id hid => row?_kept store pool arity root child step steps stale h new mid hled id hid
  have hown : mid.row? step.state = some new := by rw [hled.rows step.state, if_pos rfl]
  have harities : ∀ id row, mid.row? id = some row → row.arity = arity := by
    intro id found hfound
    rw [hled.rows id] at hfound
    split at hfound
    · cases hfound
      exact harity
    · split at hfound
      · cases hfound
      · exact h.coherent.arities id found hfound
  have hamend : ∀ canon owner, pool.canon.enroll mid step.state = .ok (canon, owner) →
      pool.amend step child = .ok (⟨mid, canon⟩, owner, step.report stale owner) := by
    intro canon owner henroll
    rw [amend_eq_lead, hlead]
    simp only [bind, Except.bind, henroll]
    rfl
  rcases Canon.enroll_cases pool.canon mid step.state new hfiled.keyed hown with
    ⟨owner, hmem, howner, henroll⟩ | ⟨hfree, henroll⟩
  · have hcanon : ∀ id, id ∈ pool.canon.ids ↔ id ∈ pool.canon.ids ∨ id = owner := fun id =>
      ⟨.inl, fun hid => hid.elim (fun hin => hin) fun he => he ▸ hmem⟩
    exact ⟨⟨mid, pool.canon⟩, owner, row, new, hamend _ owner henroll, hrow, hedit, hchild,
      ⟨hled.settled, hfiled, harities⟩, hled, howner, hcanon, .inr hmem⟩
  · have hcanon : ∀ id, id ∈ (pool.canon.insert step.state new).ids ↔
        id ∈ pool.canon.ids ∨ id = step.state := fun id => by rw [Canon.mem_insert, or_comm]
    have hfiled' := hfiled.insert pool.canon mid step.state new hown hsucc hfree
    exact ⟨⟨mid, pool.canon.insert step.state new⟩, step.state, row, new,
      hamend _ step.state henroll, hrow, hedit, hchild, ⟨hled.settled, hfiled', harities⟩, hled,
      hown, hcanon, .inl rfl⟩

variable (after : Pool α) (new : Row α) (owner : StateId) (hchild : child ∈ new.successors)
  (ha : pool.Amended after arity step new stale owner)

include ha

theorem keeps : pool.Keeps after where
  canon id hid := (ha.canon id).mpr (.inl hid)
  rows id hid := row?_kept store pool arity root child step steps stale h new after.store ha.ledOn
    id hid

theorem live_before (id : StateId) (hlive : after.store.Live id) :
    pool.store.Live id ∧ stale ≠ some id := by
  obtain ⟨row, _, _, hrow, _⟩ := h.new_row
  obtain ⟨found, hfound⟩ := hlive
  rw [ha.ledOn.rows id] at hfound
  split at hfound
  · next he =>
    refine ⟨he ▸ ⟨row, hrow⟩, fun hs => (h.stale_hidden id hs).2 ?_⟩
    rw [List.map_cons, he]
    exact List.mem_cons_self
  · split at hfound
    · cases hfound
    · next hs => exact ⟨⟨found, hfound⟩, hs⟩

include hchild in
/-- Only the root and the step's own state may lack an incoming edge then. -/
theorem fed_after (id : StateId) (hlive : after.store.Live id) :
    id = root ∨ id = step.state ∨ 0 < after.store.inEdges id := by
  by_cases hroot : id = root
  · exact .inl hroot
  · by_cases hself : id = step.state
    · exact .inr (.inl hself)
    · refine .inr (.inr ?_)
      have hold := live_before store pool arity root child step steps stale h after new owner ha id
        hlive
      rcases h.fed id hold.1 with hmem | hpos
      · obtain rfl : id = child :=
          List.mem_singleton.mp ((List.mem_cons.mp hmem).resolve_left hroot)
        refine (after.store.inEdges_pos_iff id).mpr ⟨step.state, new, ?_, hchild⟩
        rw [ha.ledOn.rows step.state, if_pos rfl]
      · exact ha.ledOn.fed id hlive hpos

theorem inEdges_kept (id : StateId) (hid : id ∈ (step :: steps).map Step.state) :
    after.store.inEdges id = pool.store.inEdges id := by
  obtain ⟨other, hother, rfl⟩ := List.mem_map.mp hid
  exact ha.ledOn.hidden other.state (h.hidden other hother)
    fun hs => (h.stale_hidden other.state hs).2 hid

/-! ## The next step -/

theorem rows_after (other : Step α) (ho : other ∈ steps) :
    after.store.row? other.state = store.row? other.state := by
  have hne : other.state ≠ step.state := fun he =>
    (List.nodup_cons.mp h.distinct).1 (he ▸ List.mem_map_of_mem ho)
  have hs : stale ≠ some other.state := fun hs => (h.stale_hidden other.state hs).2
    (List.mem_map_of_mem (List.mem_cons_of_mem step ho))
  rw [ha.ledOn.rows other.state, if_neg hne, if_neg hs]
  exact h.rows other (List.mem_cons_of_mem step ho)

/-- A hidden state is canonical afterwards only if it owns the new row. -/
theorem hidden_after (other : Step α) (ho : other ∈ step :: steps) (hne : owner ≠ other.state) :
    other.state ∉ after.canon.ids := by
  intro hmem
  rcases (ha.canon other.state).mp hmem with hold | he
  · exact h.hidden other ho hold
  · exact hne he.symm

theorem owner_ne (other : Step α) (ho : other ∈ steps) : owner ≠ other.state := by
  intro he
  rcases ha.owner_cases with hself | hmem
  · refine (List.nodup_cons.mp h.distinct).1 ?_
    rw [← hself, he]
    exact List.mem_map_of_mem ho
  · exact h.hidden other (List.mem_cons_of_mem step ho) (he ▸ hmem)

theorem live_after (id : StateId) (hlive : after.store.Live id) :
    id ∈ after.canon.ids ∨ id ∈ steps.map Step.state ∨
      (if owner = step.state then none else some step.state) = some id := by
  obtain ⟨hold, hs⟩ := live_before store pool arity root child step steps stale h after new owner
    ha id hlive
  rcases h.live id hold with hmem | hmem | he
  · exact .inl ((ha.canon id).mpr (.inl hmem))
  · rcases List.mem_cons.mp hmem with rfl | hmem
    · by_cases ho : owner = step.state
      · exact .inl ((ha.canon _).mpr (.inr ho.symm))
      · exact .inr (.inr (if_neg ho))
    · exact .inr (.inl hmem)
  · exact absurd he hs

section

variable (upper : Step α) (rest : List (Step α)) (hsteps : steps = upper :: rest)

include hsteps

/-- The step above still has its edge to the state just amended. -/
theorem edge_above : ∃ edge, after.store.edge? upper.state upper.symbol = some edge ∧
    edge.target = step.state := by
  subst hsteps
  obtain ⟨_, edge, hedge, htarget⟩ := (List.isChain_cons_cons.mp h.chain).1
  refine ⟨edge, ?_, htarget⟩
  rw [Store.edge?, rows_after store pool arity root child step _ stale h after new owner ha upper
    List.mem_cons_self]
  exact hedge

omit ha in
theorem ends_after : (steps.map Step.state).getLast? = some root := by
  subst hsteps
  have hends := h.ends
  rw [List.map_cons, List.map_cons, List.getLast?_cons_cons] at hends
  exact hends

/-- And no other edge leads there. -/
theorem once_after : after.store.inEdges step.state = 1 := by
  have hends := ends_after store pool arity root child step steps stale h upper rest hsteps
  rw [inEdges_kept store pool arity root child step steps stale h after new owner ha step.state
    List.mem_cons_self]
  refine h.once step List.mem_cons_self fun hroot => (List.nodup_cons.mp h.distinct).1 ?_
  exact hroot ▸ List.mem_of_getLast? hends

/-- The step above has its edge to the state just amended, which is stale if another one owns the
new row. -/
theorem due_after : after.Due owner upper (if owner = step.state then none else some step.state) := by
  obtain ⟨edge, hedge, htarget⟩ := edge_above store pool arity root child step steps stale h after
    new owner ha upper rest hsteps
  have hone := once_after store pool arity root child step steps stale h after new owner ha upper
    rest hsteps
  by_cases ho : owner = step.state
  · rw [if_pos ho]
    exact Due.same edge hedge (htarget.trans ho.symm)
  · rw [if_neg ho, ← htarget]
    refine Due.merged edge hedge ?_ ?_ (htarget.symm ▸ hone)
    · rw [htarget, ha.owner_row, ha.ledOn.rows step.state, if_pos rfl]
    · rw [htarget]
      exact hidden_after store pool arity root child step _ stale h after new owner ha step
        List.mem_cons_self ho

include hchild in
/-- After one step the next one can be amended. -/
theorem next : Amending store after arity root owner steps
    (if owner = step.state then none else some step.state) := by
  obtain ⟨hnot, hdistinct⟩ := List.nodup_cons.mp h.distinct
  have hends := ends_after store pool arity root child step steps stale h upper rest hsteps
  have hone := once_after store pool arity root child step steps stale h after new owner ha upper
    rest hsteps
  have hin := inEdges_kept store pool arity root child step steps stale h after new owner ha
  have hne := owner_ne store pool arity root child step steps stale h after new owner ha
  refine ⟨ha.coherent, (ha.canon owner).mpr (.inr rfl),
    rows_after store pool arity root child step steps stale h after new owner ha,
    fun other ho => h.fits other (List.mem_cons_of_mem step ho),
    fun other ho => hidden_after store pool arity root child step steps stale h after new owner ha
      other (List.mem_cons_of_mem step ho) (hne other ho), ?_, hdistinct, ?_, ?_, hends,
    live_after store pool arity root child step steps stale h after new owner ha, ?_, ?_, ?_, ?_⟩
  · intro other ho symbol edge hedge hsymbol
    exact (ha.canon _).mpr
      (.inl (h.beside other (List.mem_cons_of_mem step ho) symbol edge hedge hsymbol))
  · have := h.chain
    rw [hsteps] at this ⊢
    exact (List.isChain_cons_cons.mp this).2
  · intro other ho hroot
    rw [hin other.state (List.mem_map_of_mem (List.mem_cons_of_mem step ho))]
    exact h.once other (List.mem_cons_of_mem step ho) hroot
  · intro id hs
    split at hs
    · cases hs
    · next ho =>
      cases hs
      exact ⟨hidden_after store pool arity root child step steps stale h after new owner ha step
        List.mem_cons_self ho, hnot⟩
  · rw [hin root (List.mem_cons_of_mem _ (List.mem_of_getLast? hends))]
    exact h.root_free
  · intro id hlive
    rcases fed_after store pool arity root child step steps stale h after new owner hchild ha id
      hlive with rfl | rfl | hpos
    · exact .inl List.mem_cons_self
    · exact .inr (by omega)
    · exact .inr hpos
  · intro other hother
    have hdue := due_after store pool arity root child step steps stale h after new owner ha upper
      rest hsteps
    rw [hsteps] at hother
    cases hother
    exact hdue

end

/-! ## The root -/

include hchild in
/-- The last step amends the root, and its row is still free. -/
theorem last (hsteps : steps = []) : owner = root ∧ after.Rooted root arity := by
  have hroot : step.state = root := by
    have := h.ends
    rw [hsteps] at this
    exact Option.some.inj this
  have hfed : ∀ id, after.store.Live id → id = root ∨ 0 < after.store.inEdges id := by
    intro id hlive
    rcases fed_after store pool arity root child step steps stale h after new owner hchild ha id
      hlive with he | he | hpos
    · exact .inl he
    · exact .inl (he.trans hroot)
    · exact .inr hpos
  have hlive : ∀ id, after.store.Live id → id = root ∨ id ∈ pool.canon.ids := by
    intro id hid
    obtain ⟨hold, hs⟩ := live_before store pool arity root child step steps stale h after new owner
      ha id hid
    rcases h.live id hold with hmem | hmem | he
    · exact .inr hmem
    · rw [hsteps] at hmem
      exact .inl ((List.mem_singleton.mp hmem).trans hroot)
    · exact absurd he hs
  have hself := h.hidden step List.mem_cons_self
  have howner : owner = root := by
    by_contra hne
    have hmem : owner ∈ pool.canon.ids :=
      ha.owner_cases.resolve_left fun he => hne (he.trans hroot)
    have hcanon : ∀ id ∈ pool.canon.ids, id ∈ after.canon.ids := fun id hid =>
      (ha.canon id).mpr (.inl hid)
    refine ha.coherent.filed.no_twin after.canon after.store pool.canon.ids hcanon root
      (fun id hid => ?_) owner hmem ?_
    · have hne : id ≠ root := fun he => hself (hroot.trans he.symm ▸ hid)
      have hpos := (hfed id (ha.coherent.filed.live id (hcanon id hid))).resolve_left hne
      obtain ⟨above, hleads⟩ := (after.store.inEdges_pos_iff id).mp hpos
      exact ⟨above, hleads, hlive above hleads.live⟩
    · rw [ha.owner_row, ha.ledOn.rows root, if_pos hroot.symm]
  refine ⟨howner, ha.coherent, fun id hid => ?_, (ha.canon root).mpr (.inr howner.symm), ?_, ?_⟩
  · rcases hlive id hid with he | hmem
    · exact (ha.canon id).mpr (.inr (he.trans howner.symm))
    · exact (ha.canon id).mpr (.inl hmem)
  · rw [inEdges_kept store pool arity root child step steps stale h after new owner ha root
      (by rw [List.map_cons, hroot]; exact List.mem_cons_self)]
    exact h.root_free
  · exact fun id hid => (hfed id hid).imp_left List.mem_singleton.mpr

end Amending

/-! ## All steps -/

/-- Amending all steps brings the root back, and every live state is canonical then. -/
theorem amendAll_eq [DecidableEq α] (store : Store α) (pool : Pool α) (arity : Nat)
    (root child : StateId) (steps : List (Step α)) (stale : Option StateId)
    (h : Amending store pool arity root child steps stale) :
    ∃ after events, pool.amendAll child steps = .ok (after, root, events) ∧
      after.Rooted root arity ∧ pool.Keeps after ∧
      Relaid store after.store child steps root := by
  -- amending a step leaves what the step above needs, and amending the last gives back the root
  induction steps generalizing pool child stale with
  | nil => cases h.ends
  | cons step steps ih =>
    obtain ⟨mid, owner, row, new, hamend, hrow, hedit, hchild, ha⟩ := h.amend_eq
    have hkeeps := h.keeps store pool arity root child step steps stale mid new owner ha
    cases steps with
    | nil =>
      obtain ⟨rfl, hrooted⟩ :=
        h.last store pool arity root child step [] stale mid new owner hchild ha rfl
      refine ⟨mid, step.report stale owner ++ [], ?_, hrooted, hkeeps, ?_⟩
      · rw [amendAll, hamend]
        rfl
      · exact Relaid.lead child owner owner step [] row new _ hrow hedit ha.owner_row
          (Relaid.done owner)
    | cons upper rest =>
      obtain ⟨after, later, hall, hrooted, hkeeps', hrelaid⟩ := ih mid owner _
        (h.next store pool arity root child step _ stale mid new owner hchild ha upper rest rfl)
      refine ⟨after, step.report stale owner ++ later, ?_, hrooted,
        hkeeps.trans pool mid after hkeeps', ?_⟩
      · rw [amendAll, hamend]
        simp only [bind, Except.bind, hall]
        rfl
      · refine Relaid.lead child owner root step _ row new _ hrow hedit ?_ hrelaid
        rw [hkeeps'.rows owner ((ha.canon owner).mpr (.inr rfl)), ha.owner_row]

/-! ## Filed states -/

end Pool

end TraceGraph
