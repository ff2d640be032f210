import TraceGraph.Proofs.Pool.Merging

/-! # Folding

Where an amended state is folded into another one, that one stands apart from it.  It is canonical
and the amended state is not, so it does not lead there.  It has the row of the amended state, so it
leads to whatever that state leads to now, and reads whatever that state read before.  And it is no
new state: as long as all steps below were merged, nothing canonical was added, and after the first
one that was not, no canonical state leads to the state below. -/
namespace TraceGraph
set_option autoImplicit false

variable {α : Type}

/-- No chain of edges leads from one of the states to the other. -/
def Store.Unrelated (store : Store α) (id other : StateId) : Prop :=
  ¬ Relation.TransGen store.Leads id other ∧ ¬ Relation.TransGen store.Leads other id

/-- The state is none of `ids` and leads to none of them. -/
def Store.Avoids (store : Store α) (id : StateId) (ids : List StateId) : Prop :=
  id ∉ ids ∧ ∀ target ∈ ids, ¬ store.Leads id target

namespace Pool

/-- Canonical states avoid what was hidden before. -/
theorem Grows.avoids (hidden stage : Pool α) (h : hidden.Grows stage)
    (hstage : stage.canon.Filed stage.store) (ids : List StateId)
    (hlive : ∀ id ∈ ids, hidden.store.Live id) (hhidden : ∀ id ∈ ids, id ∉ hidden.canon.ids)
    (id : StateId) (hid : id ∈ stage.canon.ids) : stage.store.Avoids id ids := by
  have hout : ∀ other ∈ ids, other ∉ stage.canon.ids := fun other ho =>
    h.not_canon hidden stage other (hlive other ho) (hhidden other ho)
  exact ⟨fun hmem => hout id hmem hid,
    fun target htarget hleads => hout target htarget (hstage.closed id hid target hleads)⟩

/-! ## Old owners -/

/-- A new owner of a row that leads to `child` can only be among the states of `base`: all canonical
states are, or none of them leads to `child`. -/
def OwnsOld (pool : Pool α) (base : Canon α) (child : StateId) : Prop :=
  (∀ id ∈ pool.canon.ids, id ∈ base.ids) ∨ ∀ id ∈ pool.canon.ids, ¬ pool.store.Leads id child

namespace Amending

variable {store : Store α} {pool after : Pool α} {arity : Nat} {root child owner : StateId}
  {step : Step α} {steps : List (Step α)} {stale : Option StateId} {new : Row α}
  (h : Amending store pool arity root child (step :: steps) stale)
  (hchild : child ∈ new.successors) (ha : pool.Amended after arity step new stale owner)

include h hchild ha

theorem canon_old (base : Canon α) (hold : pool.OwnsOld base child) (hne : owner ≠ step.state) :
    ∀ id ∈ pool.canon.ids, id ∈ base.ids :=
  hold.resolve_right fun hlone => hne (h.owner_eq_of_lone store pool arity root child step steps
    stale after new owner hchild ha hlone)

theorem ownsOld_after (base : Canon α) (hold : pool.OwnsOld base child) (upper : Step α)
    (rest : List (Step α)) (hsteps : steps = upper :: rest) : after.OwnsOld base owner := by
  by_cases ho : owner = step.state
  · subst ho
    exact .inr (h.lone_after store pool arity root child step steps stale after new _ hchild ha
      upper rest hsteps)
  · have hcanon := h.canon_old hchild ha base hold ho
    refine .inl fun id hid => hcanon id ?_
    rcases (ha.canon id).mp hid with hmem | rfl
    · exact hmem
    · exact ha.owner_cases.resolve_left ho

end Amending

/-- Amending the lower steps leaves what the next one needs, with the course led on so far. -/
theorem amendAll_lower [DecidableEq α] (base : Canon α) (store : Store α) (pool : Pool α)
    (arity : Nat) (root child : StateId) (lower upper : List (Step α)) (step : Step α)
    (stale : Option StateId)
    (h : Amending store pool arity root child (lower ++ step :: upper) stale)
    (hold : pool.OwnsOld base child) :
    ∃ before below events stale', pool.amendAll child lower = .ok (before, below, events) ∧
      Amending store before arity root below (step :: upper) stale' ∧ pool.Keeps before ∧
      Relaid store before.store child lower below ∧ before.OwnsOld base below := by
  induction lower generalizing pool child stale with
  | nil => exact ⟨pool, child, [], stale, rfl, h, Keeps.refl pool, Relaid.done child, hold⟩
  | cons first lower ih =>
    obtain ⟨mid, owner, row, new, hamend, hrow, hedit, hchild, ha⟩ := h.amend_eq
    have hkeeps := h.keeps store pool arity root child first _ stale mid new owner ha
    obtain ⟨next, rest, hrest⟩ : ∃ next rest, lower ++ step :: upper = next :: rest :=
      List.exists_cons_of_ne_nil (List.append_ne_nil_of_right_ne_nil lower (List.cons_ne_nil _ _))
    obtain ⟨before, below, events, stale', hall, hbefore, hkeeps', hrelaid, hold'⟩ := ih mid owner _
      (h.next store pool arity root child first _ stale mid new owner hchild ha next rest hrest)
      (h.ownsOld_after hchild ha base hold next rest hrest)
    refine ⟨before, below, first.report stale owner ++ events, stale', ?_, hbefore,
      hkeeps.trans pool mid before hkeeps', ?_, hold'⟩
    · rw [amendAll, hamend]
      simp only [bind, Except.bind, hall]
      rfl
    · refine Relaid.lead child owner below first lower row new _ hrow hedit ?_ hrelaid
      rw [hkeeps'.rows owner ((ha.canon owner).mpr (.inr rfl)), ha.owner_row]

/-! ## Unrelated owners -/

/-- A chain from a state that has been canonical from before is as old. -/
theorem Keeps.chain_before (pool after : Pool α) (h : pool.Keeps after)
    (hfiled : pool.canon.Filed pool.store) (id last : StateId) (hid : id ∈ pool.canon.ids)
    (hchain : Relation.ReflTransGen after.store.Leads id last) :
    Relation.ReflTransGen pool.store.Leads id last := by
  induction hchain using Relation.ReflTransGen.head_induction_on with
  | refl => exact .refl
  | head hleads _ ih =>
    obtain ⟨row, hrow, hmem⟩ := hleads
    rw [h.rows _ hid] at hrow
    have hbefore : pool.store.Leads _ _ := ⟨row, hrow, hmem⟩
    exact .head hbefore (ih (hfiled.closed _ hid _ hbefore))

namespace Amending

variable {store : Store α} {pool after : Pool α} {arity : Nat} {root child owner : StateId}
  {step : Step α} {steps : List (Step α)} {stale : Option StateId} {new : Row α}
  (h : Amending store pool arity root child (step :: steps) stale)
  (hchild : child ∈ new.successors) (ha : pool.Amended after arity step new stale owner)
  (hne : owner ≠ step.state)

include h ha hne

theorem owner_row_before : pool.store.row? owner = some new := by
  rw [← row?_kept store pool arity root child step steps stale h new after.store ha.ledOn owner
    (ha.owner_cases.resolve_left hne)]
  exact ha.owner_row

/-- After the step its state has the row of the owner, and a chain from the one to the other would
give one from the owner back to itself. -/
theorem unrelated_after : after.store.Unrelated owner step.state := by
  have hfiled := ha.coherent.filed
  have howner : owner ∈ after.canon.ids := (ha.canon owner).mpr (.inr rfl)
  refine ⟨fun hchain => ?_, fun hchain => ?_⟩
  · exact hidden_after store pool arity root child step steps stale h after new owner ha step
      List.mem_cons_self hne (hfiled.mem_of_chain _ _ owner step.state howner hchain)
  · obtain ⟨next, ⟨row, hrow, hnext⟩, hrest⟩ := Relation.TransGen.head'_iff.mp hchain
    rw [ha.ledOn.rows step.state, if_pos rfl] at hrow
    cases hrow
    exact hfiled.not_chain_self _ _ owner howner
      (.head' ⟨new, ha.owner_row, hnext⟩ hrest)

include hchild in
/-- Before the step, a chain that goes on along the step's edge to a stale state goes on to what the
state below leads to, hence comes from the owner.  Any other chain was there from the beginning. -/
theorem unrelated_before (base : Canon α) (hbase : base.Filed store)
    (hkeeps : Keeps ⟨store, base⟩ pool) (hold : ∀ id ∈ pool.canon.ids, id ∈ base.ids)
    (hapart : ¬ Relation.TransGen store.Leads step.state owner) :
    pool.store.Unrelated owner step.state := by
  have hfiled := h.coherent.filed
  have howner : owner ∈ pool.canon.ids := ha.owner_cases.resolve_left hne
  have hrow := h.owner_row_before ha hne
  have hself := h.rows step List.mem_cons_self
  refine ⟨fun hchain => ?_, fun hchain => ?_⟩
  · exact h.hidden step List.mem_cons_self
      (hfiled.mem_of_chain _ _ owner step.state howner hchain)
  · obtain ⟨next, hleads, hrest⟩ := Relation.TransGen.head'_iff.mp hchain
    by_cases hmem : next ∈ pool.canon.ids
    · have hfirst : store.Leads step.state next := by
        obtain ⟨row, hown, hnext⟩ := hleads
        exact ⟨row, hself ▸ hown, hnext⟩
      exact hapart (.head' hfirst
        (hkeeps.chain_before _ pool hbase next owner (hold next hmem) hrest))
    · obtain ⟨symbol, edge, hedge, rfl⟩ := (pool.store.leads_iff step.state next).mp hleads
      obtain rfl : symbol = step.symbol := by
        by_contra hs
        refine hmem (h.beside step List.mem_cons_self symbol edge ?_ hs)
        rw [Store.edge?, ← hself]
        exact hedge
      cases h.due step rfl with
      | absent hnone => cases hnone.symm.trans hedge
      | same other hother htarget =>
        cases hother.symm.trans hedge
        exact hmem (htarget ▸ h.child_mem)
      | shared other hother _ hshared _ =>
        cases hother.symm.trans hedge
        exact hmem hshared
      | merged other hother hsame _ _ =>
        cases hother.symm.trans hedge
        rcases Relation.ReflTransGen.cases_head hrest with he | ⟨below, ⟨row, hbelow, hlast⟩, hlow⟩
        · exact hmem (he ▸ howner)
        · exact hfiled.not_chain_self _ _ owner howner
            (.head ⟨new, hrow, hchild⟩ (.head' ⟨row, hsame ▸ hbelow, hlast⟩ hlow))

end Amending

end Pool

end TraceGraph
