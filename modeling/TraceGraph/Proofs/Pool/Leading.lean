import TraceGraph.Proofs.Course
import TraceGraph.Proofs.Pool.Interning
import TraceGraph.Proofs.Pool.Releasing

/-! # Leading a step on

The first half of an amendment: the step's edge is set to the state below, and the edge that it
displaces is dropped.  There are four ways for the old edge to stand: there is none yet, it leads to
the right state already, it leads to a shared state, or it leads to a state that was merged away and
has no other edge.  Only in the last case a state is reclaimed, and it goes alone. -/
namespace TraceGraph
set_option autoImplicit false

namespace Pool

variable {α : Type}

/-- How the edge of a step stands before it is led on to `child`, and the state that goes then. -/
inductive Due (pool : Pool α) (child : StateId) (step : Step α) : Option StateId → Prop
  | absent (hedge : pool.store.edge? step.state step.symbol = none) : Due pool child step none
  | same (edge : Edge α) (hedge : pool.store.edge? step.state step.symbol = some edge)
      (htarget : edge.target = child) : Due pool child step none
  | shared (edge : Edge α) (hedge : pool.store.edge? step.state step.symbol = some edge)
      (hne : edge.target ≠ child) (hmem : edge.target ∈ pool.canon.ids)
      (htwo : 2 ≤ pool.store.inEdges edge.target) : Due pool child step none
  | merged (edge : Edge α) (hedge : pool.store.edge? step.state step.symbol = some edge)
      (hrow : pool.store.row? edge.target = pool.store.row? child)
      (hnot : edge.target ∉ pool.canon.ids) (hone : pool.store.inEdges edge.target = 1) :
      Due pool child step (some edge.target)

def lead [DecidableEq α] (pool : Pool α) (step : Step α) (child : StateId) :
    Except Fault (Pool α × List Event) := do
  let (store, displaced) ← pool.store.edit step.state (step.edit child)
  if displaced = some child then pure ({ pool with store }, [])
  else do
    let store ← store.gainEdge child
    release { pool with store } displaced.toList

theorem amend_eq_lead [DecidableEq α] (pool : Pool α) (step : Step α) (child : StateId) :
    pool.amend step child = (do
      let (pool, reclaimed) ← pool.lead step child
      let (canon, owner) ← pool.canon.enroll pool.store step.state
      let merged := if owner = step.state then [] else [Event.merged step.state owner]
      return ({ pool with canon }, owner, reclaimed ++ merged)) := by
  unfold amend lead
  cases pool.store.edit step.state (step.edit child) with
  | error fault => rfl
  | ok edited =>
    obtain ⟨store, displaced⟩ := edited
    by_cases hd : displaced = some child
    · simp only [bind, Except.bind, if_pos hd, pure, Except.pure]
    · simp only [bind, Except.bind, if_neg hd, pure, Except.pure]
      cases store.gainEdge child with
      | error fault => rfl
      | ok store => rfl

/-- `store` is the pool's store with the row `new` for the step and without the stale state.  No
live state has lost its last edge, and the hidden states have kept theirs. -/
structure LedOn (pool : Pool α) (step : Step α) (new : Row α) (stale : Option StateId)
    (store : Store α) : Prop where
  settled : store.Settled [] []
  rows : ∀ id, store.row? id = if id = step.state then some new
    else if stale = some id then none else pool.store.row? id
  fed : ∀ id, store.Live id → 0 < pool.store.inEdges id → 0 < store.inEdges id
  hidden : ∀ id, id ∉ pool.canon.ids → stale ≠ some id →
    store.inEdges id = pool.store.inEdges id

theorem displaced_eq (pool : Pool α) (step : Step α) (child : StateId) (row new : Row α)
    (displaced : Option StateId) (hrow : pool.store.row? step.state = some row)
    (hedit : row.edit (step.edit child) = .ok (new, displaced)) :
    displaced = (pool.store.edge? step.state step.symbol).map Edge.target := by
  rw [Row.displaced_edit row new _ displaced hedit, Step.symbol_edit,
    pool.store.edge?_of_row? step.state row step.symbol hrow]

theorem count_singleton_of_not_mem (pool : Pool α) (id other : StateId)
    (hother : other ∈ pool.canon.ids) (hid : id ∉ pool.canon.ids) : [other].count id = 0 :=
  List.count_eq_zero_of_not_mem fun hmem => hid ((List.mem_singleton.mp hmem).symm ▸ hother)

section

variable (pool : Pool α) (arity : Nat) (child : StateId) (step : Step α) (row new : Row α)
  (displaced : Option StateId) (h : pool.Coherent arity)
  (hrow : pool.store.row? step.state = some row)
  (hedit : row.edit (step.edit child) = .ok (new, displaced))

include h hrow hedit

theorem edit_step (hchild : pool.store.Live child) :
    ∃ store, pool.store.edit step.state (step.edit child) = .ok (store, displaced) ∧
      store.Settled [child] displaced.toList ∧
      (∀ id, store.row? id = if id = step.state then some new else pool.store.row? id) ∧
      ∀ id, store.inEdges id + displaced.toList.count id =
        pool.store.inEdges id + [child].count id := by
  obtain ⟨store, hstore, hsettled, hrows⟩ := Store.Settled.edit pool.store step.state row new
    (step.edit child) displaced h.settled hrow hedit (by rw [Step.target_edit]; exact hchild)
  rw [Step.target_edit] at hsettled
  refine ⟨store, hstore, hsettled, hrows, fun id => ?_⟩
  have hchange := Store.inEdges_change pool.store store step.state
    (fun other hne => by rw [hrows other, if_neg hne]) id
  have hcount := Row.count_edit row new _ displaced hedit id
  rw [hrows step.state, if_pos rfl, hrow] at hchange
  rw [Step.target_edit] at hcount
  simp only [Store.edgesTo] at hchange
  omega

omit hrow hedit in
/-- An edit of a hidden state leaves the canonical ones under their rows. -/
theorem keyed_edited (hhidden : step.state ∉ pool.canon.ids) (store : Store α)
    (hrows : ∀ id, store.row? id = if id = step.state then some new else pool.store.row? id) :
    pool.canon.Keyed store :=
  h.filed.keyed.congr store fun id hid => by
    rw [hrows id, if_neg fun he : id = step.state => hhidden (he ▸ hid)]

variable [DecidableEq α]

theorem lead_of_ne (hchild : pool.store.Live child) (hne : displaced ≠ some child) :
    ∃ store, pool.lead step child = release { pool with store } displaced.toList ∧
      store.Settled [] displaced.toList ∧
      (∀ id, store.row? id = if id = step.state then some new else pool.store.row? id) ∧
      ∀ id, store.inEdges id + displaced.toList.count id =
        pool.store.inEdges id + [child].count id := by
  obtain ⟨mid, hmid, hsettled, hrows, hcount⟩ :=
    pool.edit_step arity child step row new displaced h hrow hedit hchild
  obtain ⟨store, hgain, hstore, hsame⟩ :=
    Store.Settled.gainEdge mid child [] displaced.toList hsettled
  refine ⟨store, ?_, hstore, fun id => (hsame id).trans (hrows id), fun id => ?_⟩
  · rw [lead, hmid]
    simp only [bind, Except.bind, if_neg hne, hgain]
  · rw [Store.inEdges_congr mid store hsame id]
    exact hcount id

variable (hchild : child ∈ pool.canon.ids) (hhidden : step.state ∉ pool.canon.ids)

include hchild

/-! ### The four ways -/

theorem lead_absent (hedge : pool.store.edge? step.state step.symbol = none) :
    ∃ store, pool.lead step child = .ok ({ pool with store }, []) ∧
      pool.LedOn step new none store := by
  obtain rfl : displaced = none := by
    rw [pool.displaced_eq step child row new displaced hrow hedit, hedge]
    rfl
  obtain ⟨store, hlead, hstore, hrows, hcount⟩ := pool.lead_of_ne arity child step row new none h
    hrow hedit (h.filed.live child hchild) (Option.some_ne_none child).symm
  simp only [Option.toList_none, List.count_nil] at hlead hcount
  refine ⟨store, by rw [hlead, release], hstore, by simpa using hrows, ?_, ?_⟩
  · intro id _ hpos
    have := hcount id
    omega
  · intro id hnot _
    rw [← Nat.add_zero (store.inEdges id), hcount id,
      count_singleton_of_not_mem pool id child hchild hnot]
    rfl

theorem lead_same (edge : Edge α) (hedge : pool.store.edge? step.state step.symbol = some edge)
    (htarget : edge.target = child) :
    ∃ store, pool.lead step child = .ok ({ pool with store }, []) ∧
      pool.LedOn step new none store := by
  obtain rfl : displaced = some child := by
    rw [pool.displaced_eq step child row new displaced hrow hedit, hedge, Option.map_some, htarget]
  obtain ⟨store, hstore, hsettled, hrows, hcount⟩ := pool.edit_step arity child step row new _ h
    hrow hedit (h.filed.live child hchild)
  simp only [Option.toList_some, Nat.add_right_cancel_iff] at hcount
  refine ⟨store, ?_, Store.Settled.cancel store child [] [] hsettled, by simpa using hrows, ?_, ?_⟩
  · rw [lead, hstore]
    simp only [bind, Except.bind, if_true]
    rfl
  · intro id _ hpos
    rw [hcount id]
    exact hpos
  · exact fun id _ _ => hcount id

include hhidden in
theorem lead_shared (edge : Edge α) (hedge : pool.store.edge? step.state step.symbol = some edge)
    (hne : edge.target ≠ child) (hmem : edge.target ∈ pool.canon.ids)
    (htwo : 2 ≤ pool.store.inEdges edge.target) :
    ∃ store, pool.lead step child = .ok ({ pool with store }, []) ∧
      pool.LedOn step new none store := by
  obtain rfl : displaced = some edge.target := by
    rw [pool.displaced_eq step child row new displaced hrow hedit, hedge]
    rfl
  obtain ⟨mid, hlead, hmid, hrows, hcount⟩ := pool.lead_of_ne arity child step row new _ h
    hrow hedit (h.filed.live child hchild) fun he => hne (Option.some.inj he)
  simp only [Option.toList_some] at hlead hmid hcount
  have hleft : 0 < mid.inEdges edge.target := by
    have := hcount edge.target
    rw [List.count_singleton_self, List.count_singleton, if_neg (by simpa using hne.symm)] at this
    omega
  obtain ⟨store, hrelease, hstore, hsame⟩ :=
    release_none { pool with store := mid } [edge.target] hmid
      (pool.keyed_edited arity step new h hhidden mid hrows)
      fun id hid => List.mem_singleton.mp hid ▸ hleft
  have hin := Store.inEdges_congr mid store hsame
  refine ⟨store, hlead.trans hrelease, hstore, fun id => ?_, fun id _ hpos => ?_,
    fun id hnot _ => ?_⟩
  · rw [hsame id]
    simpa using hrows id
  · rw [hin id]
    by_cases he : id = edge.target
    · exact he ▸ hleft
    · have := hcount id
      rw [List.count_singleton, if_neg (by simpa using Ne.symm he)] at this
      omega
  · have := hcount id
    rw [count_singleton_of_not_mem pool id child hchild hnot,
      count_singleton_of_not_mem pool id edge.target hmem hnot] at this
    rw [hin id]
    exact this

omit hrow hedit [DecidableEq α] in
/-- The merged state has the row of a canonical state, so it leads to canonical states only and is
not the step's own state. -/
theorem row_of_merged (edge : Edge α) (hedge : pool.store.edge? step.state step.symbol = some edge)
    (hsame : pool.store.row? edge.target = pool.store.row? child)
    (hnot : edge.target ∉ pool.canon.ids) :
    ∃ low, pool.store.row? child = some low ∧
      (∀ target ∈ low.successors, target ∈ pool.canon.ids) ∧ edge.target ≠ step.state := by
  obtain ⟨low, hlow⟩ := h.filed.live child hchild
  have hbelow : ∀ target ∈ low.successors, target ∈ pool.canon.ids := fun target hmem =>
    h.filed.closed child hchild target ⟨low, hlow, hmem⟩
  refine ⟨low, hlow, hbelow, fun he => ?_⟩
  obtain ⟨found, hfound, hmem⟩ := pool.store.leads_of_edge? step.state step.symbol edge hedge
  rw [← he, hsame, hlow] at hfound
  cases hfound
  exact hnot (hbelow _ hmem)

include hhidden in
theorem lead_merged (edge : Edge α)
    (hedge : pool.store.edge? step.state step.symbol = some edge)
    (hsame : pool.store.row? edge.target = pool.store.row? child)
    (hnot : edge.target ∉ pool.canon.ids) (hone : pool.store.inEdges edge.target = 1) :
    ∃ store, pool.lead step child = .ok ({ pool with store }, [.reclaimed edge.target]) ∧
      pool.LedOn step new (some edge.target) store := by
  obtain rfl : displaced = some edge.target := by
    rw [pool.displaced_eq step child row new displaced hrow hedit, hedge]
    rfl
  have hne : edge.target ≠ child := fun he => hnot (he ▸ hchild)
  have hne' : child ≠ step.state := fun he => hhidden (he ▸ hchild)
  obtain ⟨mid, hlead, hmid, hrows, hcount⟩ := pool.lead_of_ne arity child step row new _ h
    hrow hedit (h.filed.live child hchild) fun he => hne (Option.some.inj he)
  simp only [Option.toList_some] at hlead hmid hcount
  obtain ⟨low, hlow, hbelow, hself⟩ :=
    pool.row_of_merged arity child step h hchild edge hedge hsame hnot
  have hold : mid.row? edge.target = some low := by
    rw [hrows edge.target, if_neg hself, hsame, hlow]
  have hkept : mid.row? child = some low := by
    rw [hrows child, if_neg hne', hlow]
  have hzero : mid.inEdges edge.target = 0 := by
    have := hcount edge.target
    rw [List.count_singleton_self, count_singleton_of_not_mem pool edge.target child hchild hnot]
      at this
    omega
  obtain ⟨store, hrelease, hstore, hgone⟩ :=
    release_one { pool with store := mid } edge.target low hmid
      (pool.keyed_edited arity step new h hhidden mid hrows) hold hzero hnot
      fun target hmem => ⟨child, hne.symm, low, hkept, hmem⟩
  have hchange := Store.inEdges_change mid store edge.target
    fun other ho => (hgone other).trans (if_neg ho)
  rw [hgone edge.target, if_pos rfl, hold] at hchange
  simp only [Store.edgesTo] at hchange
  refine ⟨store, hlead.trans hrelease, hstore, fun id => ?_, fun id hlive hpos => ?_,
    fun id hid hstale => ?_⟩
  · rw [hgone id]
    by_cases he : id = edge.target
    · rw [if_pos he, if_neg (he ▸ hself), if_pos (he ▸ rfl)]
    · rw [if_neg he, if_neg fun hs => he (Option.some.inj hs).symm]
      exact hrows id
  · by_cases hmem : id ∈ low.successors
    · refine (store.inEdges_pos_iff id).mpr ⟨child, low, ?_, hmem⟩
      rw [hgone child, if_neg hne.symm]
      exact hkept
    · have hid : id ≠ edge.target := by
        intro he
        obtain ⟨found, hfound⟩ := hlive
        rw [hgone id, if_pos he] at hfound
        cases hfound
      have hc := hchange id
      have hd := hcount id
      rw [List.count_eq_zero_of_not_mem hmem] at hc
      rw [List.count_singleton, if_neg (by simpa using hid.symm)] at hd
      omega
  · have hc := hchange id
    have hd := hcount id
    rw [List.count_eq_zero_of_not_mem fun hmem => hid (hbelow id hmem)] at hc
    rw [count_singleton_of_not_mem pool id child hchild hid,
      List.count_eq_zero_of_not_mem fun hmem : id ∈ [edge.target] =>
        hstale (congrArg some (List.mem_singleton.mp hmem).symm)] at hd
    omega

include hhidden in
/-- Leading a step on changes its row, takes away the stale state and nothing else. -/
theorem lead_eq (stale : Option StateId)
    (hdue : pool.Due child step stale) :
    ∃ store, pool.lead step child = .ok ({ pool with store }, stale.toList.map Event.reclaimed) ∧
      pool.LedOn step new stale store := by
  cases hdue with
  | absent hedge =>
    exact pool.lead_absent arity child step row new displaced h hrow hedit hchild hedge
  | same edge hedge htarget =>
    exact pool.lead_same arity child step row new displaced h hrow hedit hchild edge hedge htarget
  | shared edge hedge hne hmem htwo =>
    exact pool.lead_shared arity child step row new displaced h hrow hedit hchild hhidden edge
      hedge hne hmem htwo
  | merged edge hedge hsame hnot hone =>
    exact pool.lead_merged arity child step row new displaced h hrow hedit hchild hhidden edge
      hedge hsame hnot hone

end

end Pool

end TraceGraph
