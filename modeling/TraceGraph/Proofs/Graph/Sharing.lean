import Mathlib
import TraceGraph.Proofs.Graph.Sound
import TraceGraph.Proofs.Store.Size

/-! # Sharing

A state is known by what it reads.  In a sound graph every live state is reached from the root by a
recorded word, and what may follow that word is what the state reads; states that read the same are
one state.  So there are as many states as there are continuations of recorded words, and no graph
with fewer states could tell these apart. -/
namespace TraceGraph
set_option autoImplicit false

variable {α : Type}

/-! ## Reaching every state -/

theorem Store.lt_arity_of_reach (store : Store α) (arity : Nat)
    (harity : ∀ id row, store.row? id = some row → row.arity = arity) (id last : StateId)
    (word : List Nat) (h : store.reach id word = some last) : ∀ symbol ∈ word, symbol < arity := by
  intro symbol hmem
  by_contra hge
  have hsome := store.isSome_residual id word
  rw [store.residual_eq_none arity harity id word ⟨symbol, hmem, Nat.le_of_not_lt hge⟩, h] at hsome
  cases hsome

/-- Some word leads from the root to each canonical state.  Going up from the state, every state but
the root is entered from one of higher rank, and the ranks are bounded. -/
theorem Pool.Rooted.exists_reach (pool : Pool α) (root : StateId) (arity : Nat)
    (h : pool.Rooted root arity) (id : StateId) (hid : id ∈ pool.canon.ids) :
    ∃ word, pool.store.reach root word = some id := by
  obtain ⟨rank, hrank⟩ := h.coherent.filed.ranked
  have key : ∀ n id, id ∈ pool.canon.ids → (pool.canon.ids.map rank).sum < rank id + n →
      ∃ word, pool.store.reach root word = some id := by
    intro n
    induction n with
    | zero =>
      intro id hid hlt
      have := List.le_sum_of_mem (List.mem_map_of_mem (f := rank) hid)
      omega
    | succ n ih =>
      intro id hid hlt
      rcases h.fed id (h.coherent.filed.live id hid) with hroot | hpos
      · exact ⟨[], congrArg some (List.mem_singleton.mp hroot).symm⟩
      · obtain ⟨parent, hleads⟩ := (pool.store.inEdges_pos_iff id).mp hpos
        have hparent := h.complete parent (hleads.live pool.store parent id)
        have habove := hrank parent hparent id hleads
        obtain ⟨word, hword⟩ := ih parent hparent (by omega)
        obtain ⟨symbol, edge, hedge, rfl⟩ := (pool.store.leads_iff parent id).mp hleads
        refine ⟨word ++ [symbol], ?_⟩
        rw [pool.store.reach_append root parent word [symbol] hword,
          pool.store.reach_of_edge? parent symbol edge [] hedge]
        rfl
  exact key ((pool.canon.ids.map rank).sum + 1) id hid (by omega)

namespace Graph

/-! ## Continuations -/

/-- All of `word` is recorded. -/
def Recorded (graph : Graph α) (word : List Nat) : Prop :=
  ∃ outputs, graph.replay word = .ok (some outputs)

/-- What `rest` adds to the outputs of `word`, if `word` with `rest` after it is recorded. -/
def continuation (graph : Graph α) (word rest : List Nat) : Option (List α) :=
  match graph.replay word, graph.replay (word ++ rest) with
  | .ok (some outputs), .ok (some all) => some (all.drop outputs.length)
  | _, _ => none

section

variable (graph : Graph α) (h : graph.Sound)

include h

theorem replay_eq_of_reach (word : List Nat) (last : StateId)
    (hreach : graph.pool.store.reach graph.root word = some last) :
    ∃ outputs, graph.reading word = some outputs ∧
      graph.replay word = .ok (some outputs) := by
  have hword := graph.pool.store.lt_arity_of_reach graph.arity h.coherent.arities graph.root last
    word hreach
  have hsome := graph.pool.store.isSome_residual graph.root word
  rw [hreach, Option.isSome_some] at hsome
  obtain ⟨outputs, hres⟩ := Option.isSome_iff_exists.mp hsome
  exact ⟨outputs, hres, by rw [graph.replay_eq h word hword, reading, hres]⟩

theorem lt_arity_of_reading (word : List Nat) (outputs : List α)
    (hread : graph.reading word = some outputs) : ∀ symbol ∈ word, symbol < graph.arity := by
  obtain ⟨last, hreach⟩ := graph.pool.store.exists_reach_of_residual graph.root word outputs hread
  exact graph.pool.store.lt_arity_of_reach graph.arity h.coherent.arities graph.root last word
    hreach

theorem recorded_iff (word : List Nat) :
    graph.Recorded word ↔ ∃ last, graph.pool.store.reach graph.root word = some last := by
  constructor
  · rintro ⟨outputs, hreplay⟩
    rcases graph.replayFrom_cases h word graph.root with ⟨_, _, he⟩ | ⟨hdead, _⟩ | ⟨_, _, _, he⟩
    · rw [← replay, hreplay] at he
      have hread := (Except.ok.inj he).symm
      exact graph.pool.store.exists_reach_of_residual graph.root word outputs hread
    · exact absurd (graph.root_live h) hdead
    · rw [← replay, hreplay] at he
      cases he
  · rintro ⟨last, hreach⟩
    obtain ⟨outputs, _, hreplay⟩ := graph.replay_eq_of_reach h word last hreach
    exact ⟨outputs, hreplay⟩

/-- A word that leads to a state is answered up to there, and that state answers the rest. -/
theorem replay_append (word : List Nat) (hword : ∀ symbol ∈ word, symbol < graph.arity)
    (id : StateId) (hstate : graph.stateAfter word = .ok (some id)) (rest : List Nat)
    (hrest : ∀ symbol ∈ rest, symbol < graph.arity) :
    ∃ front back?, graph.replay word = .ok (some front) ∧ front.length = word.length ∧
      graph.replayFrom id rest = .ok back? ∧
      graph.replay (word ++ rest) = .ok (back?.map fun back => front ++ back) := by
  have hclosed := h.coherent.settled.closed
  have hreach : graph.pool.store.reach graph.root word = some id :=
    Except.ok.inj ((graph.stateAfter_eq h word hword).symm.trans hstate)
  obtain ⟨front, hfront, hreplay⟩ := graph.replay_eq_of_reach h word id hreach
  have hlive := graph.pool.store.live_reach hclosed graph.root id word (graph.root_live h) hreach
  refine ⟨front, graph.pool.store.residual id rest, hreplay,
    graph.pool.store.length_residual graph.root word front hfront,
    graph.replayFrom_eq hclosed id rest hrest hlive, ?_⟩
  rw [graph.replay_eq h _ (List.forall_mem_append.mpr ⟨hword, hrest⟩), reading,
    graph.pool.store.residual_append graph.root id word rest front hreach hfront]

theorem replay_append_iff (word : List Nat) (hword : ∀ symbol ∈ word, symbol < graph.arity)
    (id : StateId) (hstate : graph.stateAfter word = .ok (some id)) (rest : List Nat)
    (hrest : ∀ symbol ∈ rest, symbol < graph.arity) (front back : List α)
    (hlen : front.length = word.length) :
    graph.replay (word ++ rest) = .ok (some (front ++ back)) ↔
      graph.replay word = .ok (some front) ∧ graph.replayFrom id rest = .ok (some back) := by
  obtain ⟨first, back?, hreplay, hfirst, hfrom, hall⟩ :=
    graph.replay_append h word hword id hstate rest hrest
  rw [hall, hreplay, hfrom, Except.ok.injEq, Except.ok.injEq, Except.ok.injEq, Option.some.injEq,
    Option.map_eq_some_iff]
  constructor
  · rintro ⟨last, rfl, happend⟩
    obtain ⟨rfl, rfl⟩ := List.append_inj happend (hfirst.trans hlen.symm)
    exact ⟨rfl, rfl⟩
  · rintro ⟨rfl, rfl⟩
    exact ⟨back, rfl, rfl⟩

/-- What may follow a recorded word is what the state at its end reads. -/
theorem continuation_eq (word : List Nat) (last : StateId)
    (hreach : graph.pool.store.reach graph.root word = some last) :
    graph.continuation word = graph.pool.store.residual last := by
  funext rest
  obtain ⟨outputs, hres, hreplay⟩ := graph.replay_eq_of_reach h word last hreach
  have happend := graph.pool.store.residual_append graph.root last word rest outputs hreach hres
  have hrest : graph.replay (word ++ rest) =
      .ok (graph.pool.store.residual graph.root (word ++ rest)) ∨
        (∃ refusal, graph.replay (word ++ rest) = .error refusal) ∧
          graph.pool.store.residual graph.root (word ++ rest) = none := by
    rcases graph.replayFrom_cases h (word ++ rest) graph.root with ⟨_, _, he⟩ | ⟨hdead, _⟩ |
      ⟨symbol, hmem, hle, he⟩
    · exact .inl he
    · exact absurd (graph.root_live h) hdead
    · exact .inr ⟨⟨_, he⟩, graph.pool.store.residual_eq_none graph.arity h.coherent.arities
        graph.root (word ++ rest) ⟨symbol, hmem, hle⟩⟩
  rw [continuation, hreplay]
  rcases hrest with he | ⟨⟨refusal, he⟩, hnone⟩
  · rw [he, happend]
    cases graph.pool.store.residual last rest with
    | none => rfl
    | some more => exact congrArg some (List.drop_left)
  · rw [he]
    rw [happend] at hnone
    exact (Option.map_eq_none_iff.mp hnone).symm

theorem continuations_eq : {f | ∃ word, graph.Recorded word ∧ graph.continuation word = f} =
    graph.pool.store.residual '' {id | graph.pool.store.Live id} := by
  ext f
  constructor
  · rintro ⟨word, hrec, rfl⟩
    obtain ⟨last, hreach⟩ := (graph.recorded_iff h word).mp hrec
    refine ⟨last, ?_, (graph.continuation_eq h word last hreach).symm⟩
    exact graph.pool.store.live_reach h.coherent.settled.closed graph.root last word
      (graph.root_live h) hreach
  · rintro ⟨id, hid, rfl⟩
    obtain ⟨word, hreach⟩ := h.exists_reach graph.pool graph.root graph.arity id (h.complete id hid)
    exact ⟨word, (graph.recorded_iff h word).mpr ⟨id, hreach⟩,
      graph.continuation_eq h word id hreach⟩

/-- Words beyond the alphabet are read by no state, so the others decide a residual. -/
theorem residual_ext (other : Graph α) (h' : other.Sound) (harity : graph.arity = other.arity)
    (id like : StateId) (hsame : ∀ word, (∀ symbol ∈ word, symbol < graph.arity) →
      graph.pool.store.residual id word = other.pool.store.residual like word) :
    graph.pool.store.residual id = other.pool.store.residual like := by
  funext word
  by_cases hword : ∀ symbol ∈ word, symbol < graph.arity
  · exact hsame word hword
  · have hout : ∃ symbol ∈ word, graph.arity ≤ symbol := by
      simpa only [not_forall, exists_prop, Nat.not_lt] using hword
    rw [graph.pool.store.residual_eq_none graph.arity h.coherent.arities id word hout,
      other.pool.store.residual_eq_none other.arity h'.coherent.arities like word (harity ▸ hout)]

theorem residual_injOn : Set.InjOn graph.pool.store.residual {id | graph.pool.store.Live id} :=
  fun id hid other ho he => h.coherent.filed.eq_of_residual graph.pool.canon graph.pool.store
    graph.arity h.coherent.arities id other (h.complete id hid) (h.complete other ho)
    fun word => congrFun he word

end

variable [DecidableEq α]

/-- States that answer every word alike are one state; recorded words lead to one state exactly if
they have the same continuation; and the states are as many as the continuations. -/
theorem states_by_continuation (graph : Graph α) (h : graph.Reachable) :
    (∀ id other, (graph.state? id).isSome = true → (graph.state? other).isSome = true →
      (∀ word, (∀ symbol ∈ word, symbol < graph.arity) →
        graph.replayFrom id word = graph.replayFrom other word) → id = other) ∧
    (∀ u v, graph.Recorded u → graph.Recorded v → ∃ id other,
      graph.stateAfter u = .ok (some id) ∧ graph.stateAfter v = .ok (some other) ∧
        (id = other ↔ graph.continuation u = graph.continuation v)) ∧
    {f | ∃ word, graph.Recorded word ∧ graph.continuation word = f}.encard = graph.stateCount := by
  have hsound := h.sound
  refine ⟨fun id other hid ho hsame => ?_, fun u v hu hv => ?_, ?_⟩
  · have hlive := (graph.pool.store.live_iff id).mpr (Option.isSome_iff_exists.mp hid)
    have hlive' := (graph.pool.store.live_iff other).mpr (Option.isSome_iff_exists.mp ho)
    refine graph.residual_injOn hsound hlive hlive'
      (graph.residual_ext hsound graph hsound rfl id other fun word hword => ?_)
    have := hsame word hword
    rw [graph.replayFrom_eq hsound.coherent.settled.closed id word hword hlive,
      graph.replayFrom_eq hsound.coherent.settled.closed other word hword hlive'] at this
    exact Except.ok.inj this
  · obtain ⟨id, hid⟩ := (graph.recorded_iff hsound u).mp hu
    obtain ⟨other, ho⟩ := (graph.recorded_iff hsound v).mp hv
    have hlt := graph.pool.store.lt_arity_of_reach graph.arity hsound.coherent.arities graph.root
    have hlive := graph.pool.store.live_reach hsound.coherent.settled.closed graph.root
    refine ⟨id, other, ?_, ?_, ?_⟩
    · rw [graph.stateAfter_eq hsound u (hlt id u hid), hid]
    · rw [graph.stateAfter_eq hsound v (hlt other v ho), ho]
    · rw [graph.continuation_eq hsound u id hid, graph.continuation_eq hsound v other ho]
      refine ⟨fun he => he ▸ rfl, fun he => ?_⟩
      exact graph.residual_injOn hsound (hlive id u (graph.root_live hsound) hid)
        (hlive other v (graph.root_live hsound) ho) he
  · rw [graph.continuations_eq hsound, (graph.residual_injOn hsound).encard_image,
      graph.pool.store.encard_live hsound.coherent.settled.accounted]
    rfl

theorem continuations_of_sharedStep :
    sharedStep.Reachable ∧ sharedStep.continuation [0] = sharedStep.continuation [1] ∧
      {f | ∃ word, sharedStep.Recorded word ∧ sharedStep.continuation word = f}.encard = 3 := by
  have hreach : sharedStep.Reachable := ⟨2, _, rfl⟩
  obtain ⟨_, hsame, hcount⟩ := states_by_continuation sharedStep hreach
  obtain ⟨id, other, hid, ho, hiff⟩ := hsame [0] [1] ⟨['a'], by cbv⟩ ⟨['c'], by cbv⟩
  have hmeet : sharedStep.stateAfter [0] = sharedStep.stateAfter [1] := by cbv
  have hcard : sharedStep.stateCount = 3 := by cbv
  rw [hid, ho] at hmeet
  refine ⟨hreach, hiff.mp (Option.some.inj (Except.ok.inj hmeet)), ?_⟩
  rw [hcount, hcard]
  rfl

end Graph

end TraceGraph
