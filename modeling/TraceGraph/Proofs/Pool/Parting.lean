import TraceGraph.Proofs.Pool.Amending

/-! # Parting a course

The course of a new trace parts at its first shared state.  Every edge to a state above is on the
course itself, so these states can be hidden, and their other edges lead to none of them.  With the
rest of the trace in place and the shared part copied, the own part is ready to be amended. -/
namespace TraceGraph
set_option autoImplicit false

variable {α : Type}

theorem Store.isShared_iff (store : Store α) (id : StateId) (h : store.Settled [] [])
    (hid : store.Live id) : store.isShared id = true ↔ 2 ≤ store.inEdges id := by
  obtain ⟨state, hstate⟩ := (store.live_iff id).mp hid
  rw [Store.isShared, hstate, Option.any_some, State.isShared, h.incoming_eq store id state hstate,
    decide_eq_true_eq]
  exact Iff.rfl

theorem exists_before_of_isChain {β : Type} (r : β → β → Prop) (l : List β) (h : l.IsChain r)
    (b : β) (hb : b ∈ l) : l.head? = some b ∨ ∃ a ∈ l, r a b := by
  induction l with
  | nil => exact absurd hb List.not_mem_nil
  | cons first rest ih =>
    rcases List.mem_cons.mp hb with rfl | hb
    · exact .inl rfl
    · cases rest with
      | nil => exact absurd hb List.not_mem_nil
      | cons second rest =>
        obtain ⟨hr, hrest⟩ := List.isChain_cons_cons.mp h
        rcases ih hrest hb with hhead | ⟨a, ha, hab⟩
        · cases hhead
          exact .inr ⟨first, List.mem_cons_self, hr⟩
        · exact .inr ⟨a, List.mem_cons_of_mem first ha, hab⟩

namespace Course

theorem edge?_last (store : Store α) (start : StateId) (input : List Nat) (output : List α)
    (steps : List (Step α)) (h : Course store start input output steps) (step : Step α)
    (hlast : steps.getLast? = some step) : store.edge? step.state step.symbol = none := by
  induction h with
  | leave start symbol input out output row hrow hlt hslot =>
    cases hlast
    exact (store.edge?_of_row? start row symbol hrow).trans hslot
  | pass start symbol input output edge steps hedge hrest ih =>
    obtain ⟨next, rest, rfl, _⟩ := hrest.head_state
    rw [List.getLast?_cons_cons] at hlast
    exact ih hlast

theorem target?_last (store : Store α) (start : StateId) (input : List Nat) (output : List α)
    (steps : List (Step α)) (h : Course store start input output steps) (step : Step α)
    (hlast : steps.getLast? = some step) : step.target? store = none := by
  rw [Step.target?, h.edge?_last store start input output steps step hlast]
  rfl

/-- Where a course is parted, the step above does not lead to `child` yet unless the one below is
there. -/
theorem target?_parted (store : Store α) (start : StateId) (input : List Nat) (output : List α)
    (own shared : List (Step α)) (h : Course store start input output (own ++ shared))
    (child : StateId) (hapart : ∀ step, shared.head? = some step → step.state ≠ child)
    (step : Step α) (hlast : own.getLast? = some step) : step.target? store ≠ some child := by
  cases shared with
  | nil =>
    rw [List.append_nil] at h
    rw [h.target?_last store start input output own step hlast]
    exact (Option.some_ne_none child).symm
  | cons lower rest =>
    have habove := (List.isChain_append.mp (h.isChain store start input output _)).2.2 step hlast
      lower rfl
    rw [Step.Above.target?_eq store lower step habove]
    exact fun he => hapart lower rfl (Option.some.inj he)

end Course

namespace Pool

/-- Up to the first shared state each state of a course has at most one incoming edge, the root is
among these, and the state after them has more. -/
theorem parting (pool : Pool α) (root : StateId) (arity : Nat) (h : pool.Rooted root arity)
    (input : List Nat) (output : List α) (steps : List (Step α))
    (hcourse : Course pool.store root input output steps) (own : Nat)
    (hown : own = (steps.map Step.state).findIdx pool.store.isShared) :
    (∀ step ∈ steps.take own, pool.store.inEdges step.state ≤ 1) ∧
      ((steps.take own).map Step.state).head? = some root ∧
      ∀ step, (steps.drop own).head? = some step → 2 ≤ pool.store.inEdges step.state := by
  have hshared : ∀ step ∈ steps, pool.store.isShared step.state = true ↔
      2 ≤ pool.store.inEdges step.state := by
    intro step hs
    obtain ⟨row, hrow, _⟩ := hcourse.fits pool.store root input output steps step hs
    exact pool.store.isShared_iff step.state h.coherent.settled ⟨row, hrow⟩
  refine ⟨fun step hs => ?_, ?_, fun step hs => ?_⟩
  · have hid : step.state ∈ (steps.map Step.state).take own := by
      rw [← List.map_take]
      exact List.mem_map_of_mem hs
    obtain ⟨i, hi, he⟩ := List.mem_take_iff_getElem.mp hid
    have hfalse := List.not_of_lt_findIdx (hown ▸ Nat.lt_of_lt_of_le hi (Nat.min_le_left _ _))
    have hnot := (hshared step (List.mem_of_mem_take hs)).not.mp
      (by rw [← he, hfalse]; exact Bool.false_ne_true)
    omega
  · obtain ⟨first, rest, rfl, hfirst⟩ := hcourse.head_state
    have hnot := (hshared first List.mem_cons_self).not.mpr (by rw [hfirst, h.root_free]; omega)
    rw [List.map_cons, List.findIdx_cons, Bool.eq_false_iff.mpr hnot, cond_false] at hown
    rw [hown, List.take_succ_cons, List.map_cons, hfirst]
    rfl
  · rw [List.head?_drop] at hs
    refine (hshared step (List.mem_of_getElem? hs)).mp ?_
    have hget : (steps.map Step.state)[(steps.map Step.state).findIdx pool.store.isShared]? =
        some step.state := by
      rw [← hown, List.getElem?_map, hs]
      rfl
    exact List.findIdx_of_getElem?_eq_some hget

section

variable (pool : Pool α) (root : StateId) (arity : Nat) (h : pool.Rooted root arity)
  (input : List Nat) (output : List α) (own shared : List (Step α))
  (hcourse : Course pool.store root input output (own ++ shared))

include h hcourse

/-! ## The own part of a course -/

theorem canonical_of_course :
    ((own ++ shared).map Step.state).Nodup ∧
      ∀ step ∈ own ++ shared, step.state ∈ pool.canon.ids := by
  obtain ⟨rank, hrank⟩ := h.coherent.filed.ranked
  obtain ⟨hpair, hall⟩ := hcourse.descends pool.store root input output (own ++ shared) pool.canon
    rank h.coherent.filed hrank h.root_mem
  refine ⟨hpair.imp fun hlt he => ?_, fun step hmem => (hall step hmem).1⟩
  rw [he] at hlt
  omega

theorem shared_not_own (step : Step α) (hstep : step ∈ shared) :
    step.state ∉ own.map Step.state := by
  have hnodup := (pool.canonical_of_course root arity h input output own shared hcourse).1
  rw [List.map_append] at hnodup
  exact fun hown => (List.nodup_append.mp hnodup).2.2 step.state hown step.state
    (List.mem_map_of_mem hstep) rfl

variable (hone : ∀ step ∈ own, pool.store.inEdges step.state ≤ 1)

include hone

theorem edge_on_course (id : StateId) (symbol : Nat) (edge : Edge α)
    (hedge : pool.store.edge? id symbol = some edge)
    (htarget : edge.target ∈ own.map Step.state) :
    ∃ step ∈ own, step.state = id ∧ step.symbol = symbol := by
  obtain ⟨lower, hlower, he⟩ := List.mem_map.mp htarget
  have hchain := (List.isChain_append.mp (hcourse.isChain pool.store root input output _)).1
  rcases exists_before_of_isChain _ own hchain lower hlower with
    hhead | ⟨upper, hupper, _, edge', hedge', htarget'⟩
  · -- the root has no incoming edge
    obtain ⟨first, rest, hfirst, hstart⟩ := hcourse.head_state
    have hroot : lower.state = root := by
      obtain ⟨own', rfl⟩ : ∃ own', own = lower :: own' :=
        ⟨own.tail, List.eq_cons_of_mem_head? hhead⟩
      cases hfirst
      exact hstart
    have hpos := (pool.store.inEdges_pos_iff root).mpr
      ⟨id, hroot ▸ he ▸ pool.store.leads_of_edge? id symbol edge hedge⟩
    have := h.root_free
    omega
  · have harrow := pool.store.arrow_unique lower.state (hone lower hlower)
      (upper.state, upper.symbol) (id, symbol) ⟨edge', hedge', htarget'⟩ ⟨edge, hedge, he.symm⟩
    exact ⟨upper, hupper, congrArg Prod.fst harrow, congrArg Prod.snd harrow⟩

theorem target_not_own (id : StateId) (symbol : Nat) (edge : Edge α)
    (hedge : pool.store.edge? id symbol = some edge)
    (hoff : ∀ step ∈ own, step.state = id → symbol ≠ step.symbol) :
    edge.target ∉ own.map Step.state := by
  intro htarget
  obtain ⟨step, hmem, hstate, hsymbol⟩ := pool.edge_on_course root arity h input output own shared
    hcourse hone id symbol edge hedge htarget
  exact hoff step hmem hstate hsymbol.symm

/-! ## Hiding and extending -/

variable (canon : Canon α)
  (hcanon : ∀ id, id ∈ canon.ids ↔ id ∉ own.map Step.state ∧ id ∈ pool.canon.ids)

include hcanon

theorem closed_hidden (id : StateId) (hid : id ∈ canon.ids) (target : StateId)
    (hleads : pool.store.Leads id target) : target ∈ canon.ids := by
  obtain ⟨hnot, hmem⟩ := (hcanon id).mp hid
  refine (hcanon target).mpr ⟨?_, h.coherent.filed.closed id hmem target hleads⟩
  obtain ⟨symbol, edge, hedge, rfl⟩ := (pool.store.leads_iff id target).mp hleads
  exact pool.target_not_own root arity h input output own shared hcourse hone id symbol edge hedge
    fun step hstep hstate => absurd (hstate ▸ List.mem_map_of_mem hstep) hnot

omit hcanon in
theorem hide_own [DecidableEq α] : ∃ canon, pool.hide (own.map Step.state) = .ok ⟨pool.store, canon⟩ ∧
    (∀ id, id ∈ canon.ids ↔ id ∉ own.map Step.state ∧ id ∈ pool.canon.ids) ∧
    Coherent ⟨pool.store, canon⟩ arity := by
  obtain ⟨hnodup, hmem⟩ := pool.canonical_of_course root arity h input output own shared hcourse
  have hown : ∀ id ∈ own.map Step.state, id ∈ pool.canon.ids := by
    intro id hid
    obtain ⟨step, hs, rfl⟩ := List.mem_map.mp hid
    exact hmem step (List.mem_append_left shared hs)
  obtain ⟨canon, hhide, hkeyed, hcanon⟩ := pool.hide_eq (own.map Step.state)
    (hnodup.sublist ((List.sublist_append_left own shared).map Step.state))
    h.coherent.filed.keyed hown
  exact ⟨canon, hhide, hcanon, h.coherent.hide pool arity canon hkeyed
    (fun id hid => ((hcanon id).mp hid).2)
    (pool.closed_hidden root arity h input output own shared hcourse hone canon hcanon)⟩

/-- The states beside the own part of a course stay on the canon. -/
theorem beside_hidden (step : Step α) (hstep : step ∈ own) (symbol : Nat) (edge : Edge α)
    (hedge : pool.store.edge? step.state symbol = some edge) (hne : symbol ≠ step.symbol) :
    edge.target ∈ canon.ids := by
  obtain ⟨hnodup, hmem⟩ := pool.canonical_of_course root arity h input output own shared hcourse
  have hleads := pool.store.leads_of_edge? step.state symbol edge hedge
  refine (hcanon _).mpr ⟨?_, h.coherent.filed.closed step.state
    (hmem step (List.mem_append_left shared hstep)) _ hleads⟩
  refine pool.target_not_own root arity h input output own shared hcourse hone step.state symbol
    edge hedge fun other hother hstate => ?_
  have hinj := List.inj_on_of_nodup_map hnodup (List.mem_append_left shared hother)
    (List.mem_append_left shared hstep) hstate
  rw [hinj]
  exact hne

/-- The shared part of a course leads to states that stay on the canon. -/
theorem below_shared (step : Step α) (hstep : step ∈ shared) (target : StateId)
    (hleads : pool.store.Leads step.state target) : target ∈ canon.ids := by
  have hmem := (pool.canonical_of_course root arity h input output own shared hcourse).2
  refine pool.closed_hidden root arity h input output own shared hcourse hone canon hcanon
    step.state ((hcanon step.state).mpr ⟨?_, hmem step (List.mem_append_right own hstep)⟩) target
    hleads
  exact pool.shared_not_own root arity h input output own shared hcourse step hstep

omit hone in
/-- The lowest own step either adds an edge or redirects the one to the first shared state, which
has been copied and keeps another edge. -/
theorem due_own (after : Pool α) (child : StateId) (hgrows : Grows ⟨pool.store, canon⟩ after)
    (htwo : ∀ step, shared.head? = some step → 2 ≤ pool.store.inEdges step.state)
    (hapart : ∀ step, shared.head? = some step → step.state ≠ child) (step : Step α)
    (hlast : own.getLast? = some step) : after.Due child step none := by
  have hmem := (pool.canonical_of_course root arity h input output own shared hcourse).2
  have hstep := List.mem_of_getLast? hlast
  have hrow := hgrows.row?_eq _ after step.state
    (h.coherent.filed.live step.state (hmem step (List.mem_append_left shared hstep)))
  have hedge : after.store.edge? step.state step.symbol =
      pool.store.edge? step.state step.symbol := by
    rw [Store.edge?, Store.edge?, hrow]
  cases shared with
  | nil =>
    rw [List.append_nil] at hcourse
    exact Due.absent (hedge.trans (hcourse.edge?_last pool.store root input output own step hlast))
  | cons lower rest =>
    have hlower : lower ∈ lower :: rest := List.mem_cons_self
    have hchain := hcourse.isChain pool.store root input output _
    obtain ⟨_, edge, he, htarget⟩ := (List.isChain_append.mp hchain).2.2 step hlast lower rfl
    have hcopied : edge.target ∈ canon.ids := by
      rw [htarget]
      exact (hcanon lower.state).mpr
        ⟨pool.shared_not_own root arity h input output own _ hcourse lower hlower,
          hmem lower (List.mem_append_right own hlower)⟩
    refine Due.shared edge (hedge.trans he) (htarget ▸ hapart lower rfl)
      (hgrows.canon _ hcopied) ?_
    have hmono := Store.inEdges_mono pool.store after.store hgrows.rows edge.target
    have hshared := htwo lower rfl
    rw [← htarget] at hshared
    omega

/-- Once the shared part is copied up to `child`, the own part can be amended. -/
theorem amending_own (after : Pool α) (child : StateId) (hgrows : Grows ⟨pool.store, canon⟩ after)
    (hafter : after.Coherent arity) (hchild : child ∈ after.canon.ids)
    (hfed : after.store.Fed [root, child]) (hstart : (own.map Step.state).head? = some root)
    (htwo : ∀ step, shared.head? = some step → 2 ≤ pool.store.inEdges step.state)
    (hapart : ∀ step, shared.head? = some step → step.state ≠ child) :
    Amending pool.store after arity root child own.reverse none := by
  obtain ⟨hnodup, hmem⟩ := pool.canonical_of_course root arity h input output own shared hcourse
  have hown : ∀ step ∈ own.reverse, step ∈ own := fun step hs => List.mem_reverse.mp hs
  have hlive : ∀ step ∈ own ++ shared, pool.store.Live step.state := fun step hs =>
    h.coherent.filed.live step.state (hmem step hs)
  have hnot : ∀ step ∈ own, step.state ∉ canon.ids := fun step hs hid =>
    ((hcanon step.state).mp hid).1 (List.mem_map_of_mem hs)
  have hrow : ∀ step ∈ own, after.store.row? step.state = pool.store.row? step.state :=
    fun step hs => hgrows.row?_eq _ after step.state (hlive step (List.mem_append_left shared hs))
  have hin : ∀ step ∈ own, after.store.inEdges step.state = pool.store.inEdges step.state :=
    fun step hs => hgrows.inEdges step.state (hlive step (List.mem_append_left shared hs))
      (hnot step hs)
  have hchain := hcourse.isChain pool.store root input output (own ++ shared)
  refine ⟨hafter, hchild, fun step hs => hrow step (hown step hs),
    fun step hs => hcourse.fits pool.store root input output _ step
      (List.mem_append_left shared (hown step hs)), ?_, ?_, ?_, ?_, ?_, ?_, ?_,
    fun id hs => absurd hs.symm (Option.some_ne_none id), ?_, hfed, ?_⟩
  · intro step hs
    exact hgrows.not_canon _ after step.state
      (hlive step (List.mem_append_left shared (hown step hs))) (hnot step (hown step hs))
  · intro step hs symbol edge hedge hne
    exact hgrows.canon _ (pool.beside_hidden root arity h input output own shared hcourse hone canon
      hcanon step (hown step hs) symbol edge hedge hne)
  · rw [List.map_reverse, List.nodup_reverse]
    rw [List.map_append] at hnodup
    exact (List.nodup_append.mp hnodup).1
  · exact List.isChain_reverse.mpr (List.isChain_append.mp hchain).1
  · intro step hs hroot
    rw [hin step (hown step hs)]
    have hle := hone step (hown step hs)
    have hpos := (h.fed step.state (hlive step (List.mem_append_left shared (hown step hs))))
      |>.resolve_left fun he => hroot (List.mem_singleton.mp he)
    omega
  · rw [List.map_reverse, List.getLast?_reverse]
    exact hstart
  · intro id hid
    rcases hgrows.new id hid with hold | hnew
    · by_cases ho : id ∈ own.map Step.state
      · exact .inr (.inl (by rw [List.map_reverse, List.mem_reverse]; exact ho))
      · exact .inl (hgrows.canon id ((hcanon id).mpr ⟨ho, h.complete id hold⟩))
    · exact .inl hnew
  · obtain ⟨step, hs, rfl⟩ := List.mem_map.mp (List.mem_of_head? hstart)
    rw [hin step hs]
    exact h.root_free
  · intro step hs
    rw [List.head?_reverse] at hs
    exact pool.due_own root arity h input output own shared hcourse canon hcanon after child
      hgrows htwo hapart step hs

end

end Pool

end TraceGraph
