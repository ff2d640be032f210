import Mathlib
import TraceGraph.Proofs.Graph.Edges
import TraceGraph.Proofs.Graph.Reporting

/-! # Confluence

Whether other words lead to the state after a word shows in the counts along the word itself.  Where
no state below the root is shared, each has one way in, and going back along any word to the last of
them gives the word.  Where one is shared, its other edge comes from a state that some word leads
to, and that word goes on like the first.  So an insertion amends the states that serve its trace
alone, and copies those that serve others. -/
namespace TraceGraph
set_option autoImplicit false

variable {α : Type}

namespace Pool.Rooted

/-! ## Words to one state -/

section

variable (pool : Pool α) (root : StateId) (arity : Nat) (h : pool.Rooted root arity)

include h

/-- No edge leads back to the root. -/
theorem eq_nil_of_reach (word : List Nat) (hword : pool.store.reach root word = some root) :
    word = [] := by
  rcases List.eq_nil_or_concat word with rfl | ⟨front, symbol, rfl⟩
  · rfl
  · rw [List.concat_eq_append] at hword
    obtain ⟨mid, edge, _, hedge, htarget⟩ :=
      (pool.store.reach_concat root root front symbol).mp hword
    have hpos := (pool.store.inEdges_pos_iff root).mpr
      ⟨mid, htarget ▸ pool.store.leads_of_edge? mid symbol edge hedge⟩
    have hfree := h.root_free
    omega

/-- Past states with one way in, only one word leads.  Going back from the end, both words take the
one arrow into each state, down to the root. -/
theorem eq_of_reach (word other : List Nat) (id : StateId)
    (hword : pool.store.reach root word = some id) (hother : pool.store.reach root other = some id)
    (hone : ∀ i mid, 1 ≤ i → i ≤ word.length → pool.store.reach root (word.take i) = some mid →
      pool.store.inEdges mid ≤ 1) : other = word := by
  induction word using List.reverseRecOn generalizing other id with
  | nil =>
    cases hword
    exact h.eq_nil_of_reach pool root arity other hother
  | append_singleton front symbol ih =>
    obtain ⟨mid, edge, hmid, hedge, rfl⟩ := (pool.store.reach_concat root id front symbol).mp hword
    rcases List.eq_nil_or_concat other with rfl | ⟨front', symbol', rfl⟩
    · have hroot : root = edge.target := Option.some.inj hother
      exact (h.eq_nil_of_reach pool root arity _ (hroot ▸ hword)).symm
    · rw [List.concat_eq_append] at hother ⊢
      obtain ⟨mid', edge', hmid', hedge', htarget⟩ :=
        (pool.store.reach_concat root edge.target front' symbol').mp hother
      have hlast := hone (front ++ [symbol]).length edge.target (by simp) (Nat.le_refl _)
        (by rw [List.take_length]; exact hword)
      have harrow := pool.store.arrow_unique edge.target hlast (mid', symbol') (mid, symbol)
        ⟨edge', hedge', htarget⟩ ⟨edge, hedge, rfl⟩
      obtain ⟨rfl, rfl⟩ := Prod.mk.inj harrow
      rw [ih front' mid' hmid hmid' fun i below hpos hle hbelow => hone i below hpos
        (by rw [List.length_append]; omega)
        (by rw [List.take_append_of_le_length hle]; exact hbelow)]

/-- A state with another way in is reached by another word, and so are the states after it. -/
theorem exists_ne_of_reach (word : List Nat) (id mid : StateId) (i : Nat) (hpos : 1 ≤ i)
    (hle : i ≤ word.length) (hword : pool.store.reach root word = some id)
    (hmid : pool.store.reach root (word.take i) = some mid) (htwo : 2 ≤ pool.store.inEdges mid) :
    ∃ other, other ≠ word ∧ pool.store.reach root other = some id := by
  obtain ⟨front, symbol, hfront⟩ : ∃ front symbol, word.take i = front ++ [symbol] := by
    rcases List.eq_nil_or_concat (word.take i) with hnil | ⟨front, symbol, hcons⟩
    · have hlen := congrArg List.length hnil
      rw [List.length_take, List.length_nil] at hlen
      omega
    · exact ⟨front, symbol, hcons.trans List.concat_eq_append⟩
  rw [hfront] at hmid
  obtain ⟨parent, edge, hparent, hedge, rfl⟩ :=
    (pool.store.reach_concat root mid front symbol).mp hmid
  -- beside the arrow on the word there is another one
  rw [pool.store.inEdges_eq_ncard] at htwo
  obtain ⟨⟨above, other⟩, ⟨edge', hedge', htarget⟩, hne⟩ :=
    Set.exists_ne_of_one_lt_ncard htwo (parent, symbol)
  have hlive : pool.store.Live above :=
    (pool.store.leads_of_edge? above other edge' hedge').live pool.store
  obtain ⟨way, hway⟩ := h.exists_reach pool root arity above (h.complete above hlive)
  have hjoin : pool.store.reach root (way ++ [other]) = some edge.target :=
    (pool.store.reach_concat root edge.target way other).mpr ⟨above, edge', hway, hedge', htarget⟩
  refine ⟨way ++ [other] ++ word.drop i, fun he => hne ?_, ?_⟩
  · have hsame : way ++ [other] ++ word.drop i = front ++ [symbol] ++ word.drop i := by
      rw [he, ← hfront, List.take_append_drop]
    obtain ⟨rfl, hlast⟩ := List.append_inj' (List.append_cancel_right hsame) rfl
    rw [hparent] at hway
    rw [← Option.some.inj hway, List.singleton_inj.mp hlast]
  · rw [pool.store.reach_append root edge.target _ _ hjoin,
      ← pool.store.reach_append root edge.target _ _ hmid, ← hfront, List.take_append_drop]
    exact hword

end

end Pool.Rooted

namespace Graph

/-- How the states of `word` stand to the place `shared`, where `recorded` symbols of the word are
recorded.  A state above that place is reached by one word and has no states above it but those on
the way; any other one is reached by two words. -/
structure PartsAt (graph : Graph α) (word : List Nat) (recorded shared : Nat) : Prop where
  reached : ∀ i ≤ recorded, ∃ id, graph.stateAfter (word.take i) = .ok (some id)
  own : ∀ i id, i ≤ recorded → i < shared → graph.stateAfter (word.take i) = .ok (some id) →
    (∀ other, graph.stateAfter other = .ok (some id) ↔ other = word.take i) ∧
    ∀ above, Relation.TransGen graph.Leads above id ↔
      ∃ j < i, graph.stateAfter (word.take j) = .ok (some above)
  shared : ∀ i id, i ≤ recorded → shared ≤ i → graph.stateAfter (word.take i) = .ok (some id) →
    ∃ other, other ≠ word.take i ∧ graph.stateAfter other = .ok (some id)

section

variable (graph : Graph α)

theorem exists_stateAfter (word : List Nat) (i : Nat) (hi : i ≤ graph.recordedLength word) :
    ∃ id, (graph.trail word)[i]? = some id ∧ i ≤ word.length ∧
      graph.pool.store.reach graph.root (word.take i) = some id := by
  have hlt : i < (graph.trail word).length := by
    rw [graph.length_trail]
    omega
  have hplace := (graph.getElem?_trail word i _).mp (List.getElem?_eq_getElem hlt)
  exact ⟨_, List.getElem?_eq_getElem hlt, hplace.1,
    (graph.stateAfter_eq_some_iff _ _).mp hplace.2⟩

variable (h : graph.Sound)

include h

/-- Another word leads to the state after `word` exactly if a state below the root on the way is
shared. -/
theorem exists_ne_iff (word : List Nat) (id : StateId)
    (hword : graph.pool.store.reach graph.root word = some id) :
    (∃ other, other ≠ word ∧ graph.pool.store.reach graph.root other = some id) ↔
      ∃ i mid, 1 ≤ i ∧ i ≤ word.length ∧
        graph.pool.store.reach graph.root (word.take i) = some mid ∧
        2 ≤ graph.pool.store.inEdges mid := by
  constructor
  · rintro ⟨other, hne, hother⟩
    by_contra hnone
    push Not at hnone
    refine hne (h.eq_of_reach graph.pool graph.root graph.arity word other id hword hother
      fun i mid hpos hle hmid => ?_)
    exact Nat.le_of_lt_succ (hnone i mid hpos hle hmid)
  · rintro ⟨i, mid, hpos, hle, hmid, htwo⟩
    exact h.exists_ne_of_reach graph.pool graph.root graph.arity word id mid i hpos hle hword hmid
      htwo

/-- Where one word leads to a state, the states above it are those on the way. -/
theorem chain_iff_of_alone (word : List Nat) (id : StateId)
    (hword : graph.pool.store.reach graph.root word = some id)
    (halone : ∀ other, graph.pool.store.reach graph.root other = some id → other = word)
    (above : StateId) : Relation.TransGen graph.Leads above id ↔
      ∃ j < word.length, graph.pool.store.reach graph.root (word.take j) = some above := by
  constructor
  · intro hchain
    obtain ⟨rest, hne, hrest⟩ :=
      graph.pool.store.exists_reach_of_chain above id
        (Relation.TransGen.mono graph.store_leads _ _ hchain)
    have hlive : graph.pool.store.Live above := by
      obtain ⟨mid, hleads, _⟩ := Relation.TransGen.head'_iff.mp hchain
      exact (graph.store_leads above mid hleads).live graph.pool.store
    obtain ⟨front, hfront⟩ := h.exists_reach graph.pool graph.root graph.arity above
      (h.complete above hlive)
    have hall := halone (front ++ rest)
      ((graph.pool.store.reach_append graph.root above front rest hfront).trans hrest)
    refine ⟨front.length, ?_, by rw [← hall, List.take_left]; exact hfront⟩
    rw [← hall, List.length_append]
    exact Nat.lt_add_of_pos_right (List.length_pos_iff.mpr hne)
  · rintro ⟨j, hlt, habove⟩
    refine graph.chain_of_reach above id (word.drop j) ?_ ?_
    · exact List.ne_nil_of_length_pos (by rw [List.length_drop]; omega)
    · rw [← graph.pool.store.reach_append graph.root above _ _ habove, List.take_append_drop]
      exact hword

/-! ## The place where a word is shared -/

theorem isShared_reached (word : List Nat) (id : StateId)
    (hword : graph.pool.store.reach graph.root word = some id) :
    graph.pool.store.isShared id = true ↔ 2 ≤ graph.pool.store.inEdges id :=
  graph.pool.store.isShared_iff id h.coherent.settled
    (graph.pool.store.live_reach h.coherent.settled.closed graph.root id word (graph.root_live h)
      hword)

/-- Above the confluence of a word each state on its way has one way in. -/
theorem alone_of_lt_confluence (word : List Nat) (i : Nat) (id : StateId)
    (hle : i ≤ graph.recordedLength word) (hlt : i < graph.confluence word)
    (hid : graph.pool.store.reach graph.root (word.take i) = some id) (other : List Nat)
    (hother : graph.pool.store.reach graph.root other = some id) : other = word.take i := by
  refine h.eq_of_reach graph.pool graph.root graph.arity (word.take i) other id hid hother
    fun j mid _ hj hmid => ?_
  rw [List.length_take] at hj
  rw [List.take_take, Nat.min_eq_left (by omega)] at hmid
  obtain ⟨found, hget, _, hfound⟩ := graph.exists_stateAfter word j (by omega)
  obtain rfl : found = mid := Option.some.inj (hfound.symm.trans hmid)
  obtain ⟨hj, rfl⟩ := List.getElem?_eq_some_iff.mp hget
  have hbefore : j < (graph.trail word).findIdx graph.pool.store.isShared := by
    rw [← confluence]
    omega
  have hnot := List.not_of_lt_findIdx hbefore
  have hshared := graph.isShared_reached h _ _ hmid
  rw [hnot] at hshared
  exact Nat.le_of_lt_succ (Nat.lt_of_not_le fun htwo => Bool.false_ne_true (hshared.mpr htwo))

/-- The state at the confluence of a word is shared, and it is not the root. -/
theorem shared_at_confluence (word : List Nat)
    (hle : graph.confluence word ≤ graph.recordedLength word) :
    1 ≤ graph.confluence word ∧ ∃ mid, graph.confluence word ≤ word.length ∧
      graph.pool.store.reach graph.root (word.take (graph.confluence word)) = some mid ∧
      2 ≤ graph.pool.store.inEdges mid := by
  obtain ⟨mid, hget, hlen, hmid⟩ := graph.exists_stateAfter word _ hle
  have htwo := (graph.isShared_reached h _ mid hmid).mp
    (List.findIdx_of_getElem?_eq_some (p := graph.pool.store.isShared) hget)
  refine ⟨Nat.pos_of_ne_zero fun hzero => ?_, mid, hlen, hmid, htwo⟩
  rw [hzero] at hmid
  obtain rfl : graph.root = mid := Option.some.inj hmid
  have hfree := h.root_free
  omega

/-- Every word parts at its confluence. -/
theorem partsAt_confluence (word : List Nat) :
    graph.PartsAt word (graph.recordedLength word) (graph.confluence word) where
  reached i hi := by
    obtain ⟨id, _, _, hid⟩ := graph.exists_stateAfter word i hi
    exact ⟨id, (graph.stateAfter_eq_some_iff _ id).mpr hid⟩
  own i id hle hlt hid := by
    rw [stateAfter_eq_some_iff] at hid
    obtain ⟨_, _, hlen, _⟩ := graph.exists_stateAfter word i hle
    have halone := graph.alone_of_lt_confluence h word i id hle hlt hid
    refine ⟨fun other => ⟨fun hother => ?_, ?_⟩, fun above => ?_⟩
    · exact halone other ((graph.stateAfter_eq_some_iff other id).mp hother)
    · rintro rfl
      exact (graph.stateAfter_eq_some_iff _ id).mpr hid
    · rw [graph.chain_iff_of_alone h _ id hid halone above, List.length_take,
        Nat.min_eq_left hlen]
      refine exists_congr fun j => and_congr_right fun hj => ?_
      rw [stateAfter_eq_some_iff, List.take_take, Nat.min_eq_left hj.le]
  shared i id hle hge hid := by
    rw [stateAfter_eq_some_iff] at hid
    obtain ⟨hpos, mid, hlen, hmid, htwo⟩ := graph.shared_at_confluence h word (hge.trans hle)
    obtain ⟨other, hne, hother⟩ := h.exists_ne_of_reach graph.pool graph.root graph.arity
      (word.take i) id mid (graph.confluence word) hpos
      (by rw [List.length_take]; exact Nat.le_min.mpr ⟨hge, hlen⟩) hid
      (by rw [List.take_take, Nat.min_eq_left hge]; exact hmid) htwo
    exact ⟨other, hne, (graph.stateAfter_eq_some_iff other id).mpr hother⟩

end

/-! ## The place where an insertion parts its trace -/

section

variable [DecidableEq α] (graph : Graph α) (h : graph.Sound)

include h

/-- An insertion that begins a change reports the confluence of its word. -/
theorem inserting_of_mem (input : List Nat) (output : List α) (recorded shared missing : Nat)
    (hmem : .inserting recorded shared missing ∈ (graph.insert input output).events) :
    recorded = graph.recordedLength input ∧ shared = graph.confluence input := by
  have hok : (graph.insert input output).result = .ok true := by
    rcases graph.recordedPath_cases h input output with ⟨refusal, hpath⟩ |
      ⟨path, hpath, _, _, ⟨hfull, _⟩ | ⟨hlt, _⟩⟩
    · rw [insert, hpath] at hmem
      exact absurd hmem List.not_mem_nil
    · simp only [insert, hpath, if_pos hfull] at hmem
      cases List.mem_singleton.mp hmem
    · rw [graph.insert_of_path h input output path hpath]
      simp [Nat.ne_of_lt hlt]
  obtain ⟨_, _, _, copies, merged, _, hinsert, _⟩ := graph.insert_revised h input output hok
  rw [hinsert] at hmem
  rcases List.mem_append.mp hmem with hmem | hmem
  · rcases opening_cases _ _ _ copies _ hmem with he | ⟨_, _, he⟩
    · cases he
      exact ⟨rfl, rfl⟩
    · cases he
  · obtain ⟨entry, _, hentry⟩ := List.mem_flatMap.mp hmem
    simp at hentry

end

/-- A recorded word is the only one to its state unless a state below the root on its way counts
more than one edge.  Where an insertion says that its trace is shared, the trace parts: the states
above serve it alone, and each one from there on serves another word too. -/
theorem confluence_exact [DecidableEq α] (graph : Graph α) (h : graph.Reachable) :
    (∀ word, graph.Recorded word →
      ((∃ other, other ≠ word ∧ graph.Recorded other ∧
          graph.stateAfter other = graph.stateAfter word) ↔
        ∃ i id state, 1 ≤ i ∧ i ≤ word.length ∧ graph.stateAfter (word.take i) = .ok (some id) ∧
          graph.state? id = some state ∧ 1 < state.incoming)) ∧
    (∀ input output recorded shared missing,
      .inserting recorded shared missing ∈ (graph.insert input output).events →
      graph.PartsAt input recorded shared) ∧
    ∀ access input output recorded shared missing,
      .inserting recorded shared missing ∈ (graph.insertAfter access input output).events →
      graph.PartsAt (access ++ input) recorded shared := by
  have hsound := h.sound
  have hcount := hsound.coherent.settled.incoming_eq graph.pool.store
  refine ⟨fun word hrec => ?_, fun input output recorded shared missing hmem => ?_,
    fun access input output recorded shared missing hmem => ?_⟩
  · obtain ⟨id, hword⟩ := (graph.recorded_iff hsound word).mp hrec
    have hleft : (∃ other, other ≠ word ∧ graph.Recorded other ∧
        graph.stateAfter other = graph.stateAfter word) ↔
          ∃ other, other ≠ word ∧ graph.pool.store.reach graph.root other = some id := by
      rw [(graph.stateAfter_eq_some_iff word id).mpr hword]
      refine exists_congr fun other => and_congr_right fun _ => ?_
      rw [stateAfter_eq_some_iff, graph.recorded_iff hsound]
      exact ⟨And.right, fun hother => ⟨⟨id, hother⟩, hother⟩⟩
    rw [hleft, graph.exists_ne_iff hsound word id hword]
    constructor
    · rintro ⟨i, mid, hpos, hle, hmid, htwo⟩
      have hlive := graph.pool.store.live_reach hsound.coherent.settled.closed graph.root mid _
        (graph.root_live hsound) hmid
      obtain ⟨state, hstate⟩ := (graph.pool.store.live_iff mid).mp hlive
      refine ⟨i, mid, state, hpos, hle, (graph.stateAfter_eq_some_iff _ mid).mpr hmid, hstate, ?_⟩
      rw [hcount mid state hstate]
      exact htwo
    · rintro ⟨i, mid, state, hpos, hle, hmid, hstate, htwo⟩
      rw [hcount mid state hstate] at htwo
      exact ⟨i, mid, hpos, hle, (graph.stateAfter_eq_some_iff _ mid).mp hmid, htwo⟩
  · obtain ⟨rfl, rfl⟩ := graph.inserting_of_mem hsound input output recorded shared missing hmem
    exact graph.partsAt_confluence hsound input
  · rcases graph.insertAfter_cases hsound access input output with ⟨refusal, he⟩ | ⟨outputs, he⟩
    · rw [he] at hmem
      exact absurd hmem List.not_mem_nil
    · rw [he] at hmem
      obtain ⟨rfl, rfl⟩ := graph.inserting_of_mem hsound _ _ recorded shared missing hmem
      exact graph.partsAt_confluence hsound (access ++ input)

/-- Two words lead to the state after the first step, so a trace that goes on from there parts at
that state. -/
theorem confluence_of_sharedStep :
    sharedStep.Reachable ∧ sharedStep.Recorded [0] ∧
      (∃ other, other ≠ [0] ∧ sharedStep.Recorded other ∧
        sharedStep.stateAfter other = sharedStep.stateAfter [0]) ∧
      .inserting 1 1 1 ∈ (sharedStep.insert [0, 1] ['a', 'd']).events ∧
      sharedStep.PartsAt [0, 1] 1 1 ∧
      .inserting 1 1 1 ∈ (sharedStep.insertAfter [0] [1] ['d']).events ∧
      sharedStep.PartsAt ([0] ++ [1]) 1 1 := by
  have hreach : sharedStep.Reachable := ⟨2, _, rfl⟩
  have hrec : sharedStep.Recorded [0] := ⟨['a'], by cbv⟩
  have hincoming : (sharedStep.state? ⟨2⟩).map State.incoming = some 2 := by cbv
  obtain ⟨state, hstate, htwo⟩ := Option.map_eq_some_iff.mp hincoming
  have hmem : .inserting 1 1 1 ∈ (sharedStep.insert [0, 1] ['a', 'd']).events :=
    List.mem_of_getElem? (i := 0) (by cbv)
  have hmem' : .inserting 1 1 1 ∈ (sharedStep.insertAfter [0] [1] ['d']).events :=
    List.mem_of_getElem? (i := 0) (by cbv)
  obtain ⟨hother, hinsert, hafter⟩ := confluence_exact sharedStep hreach
  refine ⟨hreach, hrec, (hother [0] hrec).mpr ?_, hmem, hinsert [0, 1] ['a', 'd'] 1 1 1 hmem, hmem',
    hafter [0] [1] ['d'] 1 1 1 hmem'⟩
  exact ⟨1, ⟨2⟩, state, Nat.le_refl 1, Nat.le_refl 1, by cbv, hstate, by omega⟩

end Graph

end TraceGraph
