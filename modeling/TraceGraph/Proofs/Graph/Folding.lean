import TraceGraph.Proofs.Graph.Accessing
import TraceGraph.Proofs.Graph.Reporting
import TraceGraph.Proofs.Pool.Folding

/-! # What insertions fold

An insertion never hangs a new end or a copy under a state that it is about to amend, since those
are hidden and no canonical state leads to them.  And where it folds an amended state into another
one, that one was there before, off the trail of the word, and no chain of edges leads from the one
to the other or back; so no chain comes to close on itself. -/
namespace TraceGraph
set_option autoImplicit false

variable {α : Type}

/-- Each step of a course leads on to all steps below it. -/
theorem Step.chain_below (store : Store α) (step : Step α) (lower : List (Step α))
    (h : (step :: lower).IsChain fun upper lower => Step.Above store lower upper) (other : Step α)
    (hother : other ∈ lower) : Relation.TransGen store.Leads step.state other.state := by
  induction lower generalizing step with
  | nil => exact absurd hother List.not_mem_nil
  | cons next lower ih =>
    obtain ⟨⟨_, edge, hedge, htarget⟩, hrest⟩ := List.isChain_cons_cons.mp h
    have hleads : store.Leads step.state next.state :=
      htarget ▸ store.leads_of_edge? step.state step.symbol edge hedge
    rcases List.mem_cons.mp hother with rfl | hmem
    · exact .single hleads
    · exact .head hleads (ih next hrest hmem)

/-! ## The stages of an extension -/

namespace Pool.Readied

variable [DecidableEq α] {pool : Pool α} {root : StateId} {arity : Nat} {input : List Nat}
  {output : List α} {own shared : List (Step α)} {canon : Canon α} {made copied : Pool α}
  {child top : StateId} {copies : List (StateId × StateId)} {added : List StateId}
  (hready : pool.Readied root arity input output own shared canon made copied child top copies
    added) (h : pool.Rooted root arity)
  (hcourse : Course pool.store root input output (own ++ shared))
  (hone : ∀ step ∈ own, pool.store.inEdges step.state ≤ 1)

include hready

/-- If anything was added, then `top` was added last and nothing leads to it. -/
theorem ownsOld : copied.OwnsOld canon top := by
  obtain ⟨more, hmore, _⟩ := hready.copied_all.adds _ added hready.adds
  by_cases hnone : more = []
  · refine .inl fun id hid => ?_
    have hgrown := hready.grows.trans _ made copied hready.copied_all.grows
    refine (hgrown.old id hid).resolve_right fun hdead => hdead ?_
    have hlive := hready.copied_all.coherent.filed.live id hid
    rw [hmore.live, hnone] at hlive
    exact hlive.resolve_right List.not_mem_nil
  · exact .inr fun id _ => hmore.lone hnone id

include h hcourse

theorem avoids_own (stage : Pool α) (hgrows : Grows ⟨pool.store, canon⟩ stage)
    (hstage : stage.Coherent arity) (id : StateId) (hid : id ∈ stage.canon.ids) :
    stage.store.Avoids id (own.map Step.state) := by
  have hmem := (pool.canonical_of_course root arity h input output own shared hcourse).2
  refine hgrows.avoids _ stage hstage.filed _ (fun other ho => ?_)
    (fun other ho hin => ((hready.mem_canon other).mp hin).1 ho) id hid
  obtain ⟨step, hs, rfl⟩ := List.mem_map.mp ho
  exact h.coherent.filed.live step.state (hmem step (List.mem_append_left shared hs))

/-- Each interned end of the trace avoids the own states. -/
theorem interned (hsym : ∀ symbol ∈ input, symbol < arity) (ending : List (Nat × α))
    (hending : ending <:+ (input.zip output).drop (own ++ shared).length) :
    ∃ stage id, internTrace ⟨pool.store, canon⟩ arity ending = .ok (stage, id) ∧
      stage.store.Avoids id (own.map Step.state) := by
  obtain ⟨stage, id, htrace, hstage, hgrows, hid, _⟩ :=
    internTrace_eq ⟨pool.store, canon⟩ arity root hready.hidden h.fed ending fun entry hentry =>
      hsym entry.1 (List.of_mem_zip (List.mem_of_mem_drop (hending.subset hentry))).1
  exact ⟨stage, id, htrace, hready.avoids_own h hcourse stage hgrows hstage id hid⟩

include hone

/-- So does each copy. -/
theorem copied_avoids (steps : List (Step α)) (hsteps : steps <+: shared.reverse) :
    ∃ stage id events, made.copyAll child steps = .ok (stage, id, events) ∧
      stage.store.Avoids id (own.map Step.state) := by
  obtain ⟨stage, id, _, hcopy, hcopied⟩ := pool.copy_shared root arity h input output own shared
    hcourse hone canon hready.mem_canon made child hready.made_coherent hready.grows
    hready.child_mem hready.fed steps hsteps
  exact ⟨stage, id, _, hcopy, hready.avoids_own h hcourse stage
    (hready.grows.trans _ made stage hcopied.grows) hcopied.coherent id hcopied.top_mem⟩

section

variable {lower upper : List (Step α)} {step : Step α}
  (hsplit : own.reverse = lower ++ step :: upper)

include hsplit

/-- A state from before that the step is led on to reads all that the step's state read, so it does
not lie below. -/
theorem not_chain (hlen : input.length = output.length) (before : Pool α)
    (hkeeps : copied.Keeps before) (owner : StateId) (howner : owner ∈ canon.ids)
    (hrelaid : Relaid pool.store before.store top (lower ++ [step]) owner) :
    ¬ Relation.TransGen pool.store.Leads step.state owner := by
  have hown : own = upper.reverse ++ step :: lower.reverse := by
    simpa using List.reverse_eq_iff.mp hsplit
  have hparts : own ++ shared = upper.reverse ++ (step :: lower.reverse ++ shared) := by
    rw [hown, List.append_assoc]
  obtain ⟨start, hpart⟩ := hcourse.drop pool.store root input output _ upper.length
    (by rw [hparts]; simp)
  rw [hparts, ← List.length_reverse, List.drop_left] at hpart
  obtain ⟨first, _, hcons, hstart⟩ := hpart.head_state
  cases hcons
  subst hstart
  have hreads := hready.residual_eq_overlay h hcourse hone hlen before hkeeps upper.reverse.length
    step.state owner (step :: lower.reverse)
    (fun other ho => by rw [hown]; exact List.mem_append_right _ ho) (by rw [hparts]; simp) hpart
    (by simpa using hrelaid)
  have hkept := hready.keeps before hkeeps
  refine hready.hidden.filed.not_chain_of_reads canon pool.store step.state owner howner
    fun word hword => ?_
  rw [← pool.store.isSome_residual] at hword ⊢
  rw [← hkept.residual_eq _ before hready.hidden.filed owner howner word, hreads word, overlay]
  split
  · rfl
  · exact hword

/-- What a step is folded into was there before, off the course, and is unrelated to the step's
state. -/
theorem amended (hlen : input.length = output.length) :
    ∃ before below events after owner report,
      copied.amendAll top lower = .ok (before, below, events) ∧
      before.amend step below = .ok (after, owner, report) ∧
      (owner ≠ step.state → pool.store.Live owner ∧ owner ∉ (own ++ shared).map Step.state ∧
        ∀ store ∈ [pool.store, before.store, after.store], store.Unrelated owner step.state) := by
  have hamending := hready.amending
  rw [hsplit] at hamending
  obtain ⟨before, below, events, stale, hall, hbefore, hkeeps, hrelaid, hold⟩ :=
    copied.amendAll_lower canon pool.store arity root top lower upper step none hamending
      hready.ownsOld
  obtain ⟨after, owner, row, new, hamend, hrow, hedit, hchild, ha⟩ := hbefore.amend_eq
  refine ⟨before, below, events, after, owner, _, hall, hamend, fun hne => ?_⟩
  have hcanon := hbefore.canon_old hchild ha canon hold hne
  have howner : owner ∈ canon.ids := hcanon owner (ha.owner_cases.resolve_left hne)
  have hstep : step ∈ own := List.mem_reverse.mp (hsplit ▸ by simp)
  have hnew := hbefore.owner_row_before ha hne
  have hapart := hready.not_chain h hcourse hone hsplit hlen before hkeeps owner howner
    (hrelaid.append pool.store before.store top below owner lower [step]
      (Relaid.lead below owner owner step [] row new _ hrow hedit hnew (Relaid.done owner)))
  have hkept := hready.keeps before hkeeps
  refine ⟨hready.hidden.filed.live owner howner, fun htrail => ?_, ?_⟩
  · obtain ⟨other, hother, rfl⟩ := List.mem_map.mp htrail
    rcases List.mem_append.mp hother with hmem | hmem
    · exact ((hready.mem_canon other.state).mp howner).1 (List.mem_map_of_mem hmem)
    · have hchain := hcourse.isChain pool.store root input output _
      rw [List.reverse_eq_iff.mp hsplit, List.reverse_append, List.reverse_cons, List.append_assoc,
        List.append_assoc] at hchain
      exact hapart (step.chain_below pool.store (lower.reverse ++ shared)
        (List.isChain_append.mp hchain).2.1 other (List.mem_append_right _ hmem))
  · have hbase : pool.store.Unrelated owner step.state := by
      refine ⟨fun hchain => ?_, hapart⟩
      have hin := hready.hidden.filed.mem_of_chain canon pool.store owner step.state howner hchain
      exact ((hready.mem_canon step.state).mp hin).1 (List.mem_map_of_mem hstep)
    have hthen := hbefore.unrelated_before hchild ha hne canon hready.hidden.filed hkept hcanon
      hapart
    have hnow := hbefore.unrelated_after ha hne
    simp [hbase, hthen, hnow]

end

end Pool.Readied

/-! ## Insertions -/

namespace Graph

/-- The states of the trail that an insertion of `word` hides and amends. -/
def ownTrail (graph : Graph α) (word : List Nat) : List StateId :=
  (graph.trail word).take (graph.confluence word)

/-- The steps that an insertion amends, the root first. -/
def ownSteps (graph : Graph α) (input : List Nat) (output : List α) : List (Step α) :=
  (Step.along (graph.trail input) input output).take (graph.confluence input)

/-- The steps that it copies. -/
def sharedSteps (graph : Graph α) (input : List Nat) (output : List α) : List (Step α) :=
  (Step.along (graph.trail input) input output).drop (graph.confluence input)

/-- What of the trace it interns. -/
def newEnd (graph : Graph α) (input : List Nat) (output : List α) : List (Nat × α) :=
  (input.zip output).drop (graph.trail input).length

variable [DecidableEq α]

/-- How an insertion that ends in the pool `final` goes through its stages, and what these fold.  It
hides its own states, interns the new end up to `child`, copies the shared steps up to `top`, and
amends its own steps.  No state that it interns or copies is one of its own or leads to one; and
where a step is folded into another state, that state was live before, off the trail, and unrelated
to the step's state before the insertion, before the step and after it. -/
structure FoldsApart (graph : Graph α) (input : List Nat) (output : List α)
    (final hidden made copied : Pool α) (child top : StateId) : Prop where
  own_states : (graph.ownSteps input output).map Step.state = graph.ownTrail input
  shared_states : (graph.sharedSteps input output).map Step.state =
    (graph.trail input).drop (graph.confluence input)
  hide : graph.pool.hide (graph.ownTrail input) = .ok hidden
  trace : hidden.internTrace graph.arity (graph.newEnd input output) = .ok (made, child)
  copy : ∃ events, made.copyAll child (graph.sharedSteps input output).reverse =
    .ok (copied, top, events)
  amend : ∃ events, copied.amendAll top (graph.ownSteps input output).reverse =
    .ok (final, graph.root, events)
  interned : ∀ ending, ending <:+ graph.newEnd input output →
    ∃ stage id, hidden.internTrace graph.arity ending = .ok (stage, id) ∧
      stage.store.Avoids id (graph.ownTrail input)
  copies : ∀ steps, steps <+: (graph.sharedSteps input output).reverse →
    ∃ stage id events, made.copyAll child steps = .ok (stage, id, events) ∧
      stage.store.Avoids id (graph.ownTrail input)
  amended : ∀ lower step upper, (graph.ownSteps input output).reverse = lower ++ step :: upper →
    ∃ before below events after owner report,
      copied.amendAll top lower = .ok (before, below, events) ∧
      before.amend step below = .ok (after, owner, report) ∧
      (owner ≠ step.state → graph.pool.store.Live owner ∧ owner ∉ graph.trail input ∧
        ∀ store ∈ [graph.pool.store, before.store, after.store], store.Unrelated owner step.state)

theorem foldsApart_insert (graph : Graph α) (h : graph.Sound) (input : List Nat) (output : List α)
    (hok : (graph.insert input output).result = .ok true) :
    ∃ hidden made copied child top, graph.FoldsApart input output
      (graph.insert input output).graph.pool hidden made copied child top := by
  obtain ⟨path, hpath, _, _, hlen, hsym, _⟩ := graph.exists_course h input output hok
  obtain ⟨canon, made, copied, after, child, top, steps, kept, copies, merged, first, added, hsteps,
    hcourse, hstates, hready, hamend, hinsert, _⟩ := graph.insert_readied h input output hok
  obtain ⟨hone, _⟩ := graph.pool.parting graph.root graph.arity h input output steps hcourse
    (graph.confluence input) (by rw [hstates, confluence])
  rw [← List.take_append_drop (graph.confluence input) steps] at hcourse
  have hown : (steps.take (graph.confluence input)).map Step.state = graph.ownTrail input := by
    rw [List.map_take, hstates, ownTrail]
  have hend : (input.zip output).drop
      (steps.take (graph.confluence input) ++ steps.drop (graph.confluence input)).length =
        graph.newEnd input output := by
    rw [List.take_append_drop, ← List.length_map Step.state, hstates, newEnd]
  have htrail : (steps.take (graph.confluence input) ++ steps.drop (graph.confluence input)).map
      Step.state = graph.trail input := by
    rw [List.take_append_drop, hstates]
  have hinterned := hready.interned h hcourse hsym
  have hcopied := hready.copied_avoids h hcourse hone
  have hhide := hready.hide
  have htrace := hready.trace
  rw [hend] at hinterned htrace
  rw [hown] at hinterned hcopied hhide
  rw [hinsert]
  refine ⟨_, made, copied, child, top, ?_, ?_, hhide, htrace, ⟨copyings copies, ?_⟩,
    ⟨mergers merged, ?_⟩, hinterned, ?_, ?_⟩
  · rw [ownSteps, hsteps, hown]
  · rw [sharedSteps, hsteps, List.map_drop, hstates]
  · rw [sharedSteps, hsteps]
    exact hready.copy
  · rw [ownSteps, hsteps]
    exact hamend
  · rw [sharedSteps, hsteps]
    exact hcopied
  · rw [ownSteps, hsteps]
    intro lower step upper hsplit
    rw [← htrail]
    exact hready.amended h hcourse hone hsplit hlen

/-- Every insertion that records something new folds apart, be it from the root or after an access
word. -/
theorem folds_apart (graph : Graph α) (h : graph.Reachable) :
    (∀ input output, (graph.insert input output).result = .ok true →
      ∃ hidden made copied child top, graph.FoldsApart input output
        (graph.insert input output).graph.pool hidden made copied child top) ∧
    ∀ access input output, (graph.insertAfter access input output).result = .ok true →
      ∃ outputs hidden made copied child top, graph.replay access = .ok (some outputs) ∧
        graph.FoldsApart (access ++ input) (outputs ++ output)
          (graph.insertAfter access input output).graph.pool hidden made copied child top := by
  have hsound := h.sound
  refine ⟨fun input output hok => graph.foldsApart_insert hsound input output hok,
    fun access input output hok => ?_⟩
  obtain ⟨outputs, hreplay, he⟩ := graph.insertAfter_of_ok hsound access input output true hok
  rw [he] at hok ⊢
  obtain ⟨hidden, made, copied, child, top, hfolds⟩ := graph.foldsApart_insert hsound _ _ hok
  exact ⟨outputs, hidden, made, copied, child, top, hreplay, hfolds⟩

/-- The owner that the lowest step of an insertion is folded into. -/
def lowestOwner (graph : Graph α) (input : List Nat) (output : List α) (step : Step α) :
    Except Fault StateId := do
  let hidden ← graph.pool.hide (graph.ownTrail input)
  let (made, child) ← hidden.internTrace graph.arity (graph.newEnd input output)
  let (copied, top, _) ← made.copyAll child (graph.sharedSteps input output).reverse
  let (_, owner, _) ← copied.amend step top
  return owner

/-- With the trace that makes them alike, the state after one symbol is folded into the one after
the other, which is off the trail and unrelated to it. -/
theorem folds_of_apartSteps :
    apartSteps.Reachable ∧ (apartSteps.insert [1, 0] ['y', 'x']).result = .ok true ∧
      (apartSteps.insertAfter [1] [0] ['x']).result = .ok true ∧
      apartSteps.lowestOwner [1, 0] ['y', 'x'] ⟨⟨3⟩, 0, some 'x'⟩ = .ok ⟨2⟩ ∧
      ⟨2⟩ ∉ apartSteps.trail [1, 0] ∧ apartSteps.pool.store.Unrelated ⟨2⟩ ⟨3⟩ ∧
      ∃ outputs hidden made copied child top, apartSteps.replay [1] = .ok (some outputs) ∧
        apartSteps.FoldsApart ([1] ++ [0]) (outputs ++ ['x'])
          (apartSteps.insertAfter [1] [0] ['x']).graph.pool hidden made copied child top := by
  have hreach : apartSteps.Reachable := ⟨2, _, rfl⟩
  have hok : (apartSteps.insert [1, 0] ['y', 'x']).result = .ok true := by cbv
  have hok' : (apartSteps.insertAfter [1] [0] ['x']).result = .ok true := by cbv
  have hlowest : apartSteps.lowestOwner [1, 0] ['y', 'x'] ⟨⟨3⟩, 0, some 'x'⟩ = .ok ⟨2⟩ := by cbv
  have hsplit : (apartSteps.ownSteps [1, 0] ['y', 'x']).reverse =
      [] ++ ⟨⟨3⟩, 0, some 'x'⟩ :: [⟨⟨0⟩, 1, none⟩] := by cbv
  obtain ⟨hinsert, hafter⟩ := folds_apart apartSteps hreach
  obtain ⟨hidden, made, copied, child, top, hfolds⟩ := hinsert [1, 0] ['y', 'x'] hok
  obtain ⟨before, below, _, _, owner, _, hall, hamend, hfolded⟩ := hfolds.amended _ _ _ hsplit
  cases hall
  obtain ⟨_, hcopy⟩ := hfolds.copy
  have howner : owner = ⟨2⟩ := by
    have hrun := hlowest
    simp only [lowestOwner, hfolds.hide, hfolds.trace, hcopy, hamend, bind, Except.bind] at hrun
    exact Except.ok.inj hrun
  subst howner
  obtain ⟨_, htrail, hunrelated⟩ := hfolded (by decide)
  exact ⟨hreach, hok, hok', hlowest, htrail, hunrelated _ List.mem_cons_self,
    hafter [1] [0] ['x'] hok'⟩

end Graph

end TraceGraph
