import Mathlib
import TraceGraph.Proofs.Graph.Canonicity
import TraceGraph.Proofs.Pool.Padding

/-! # Growing

Growth pads a graph and changes nothing else.  As padded pools run like the pools themselves, a
trace over the old alphabet is inserted before or after growth with the same answer, the same events
and the same graph, down to the numbers of its states. -/
namespace TraceGraph
set_option autoImplicit false

variable {α : Type}

/-! ## Following a trace -/

theorem Store.follow_widen [DecidableEq α] (store : Store α) (arity wide : Nat)
    (h : store.Uniform arity) (start : StateId) (position : Nat) (input : List Nat)
    (output : List α) (hsym : ∀ symbol ∈ input, symbol < arity) :
    (store.widen wide).follow start position input output =
      store.follow start position input output := by
  induction input generalizing start position output with
  | nil =>
    unfold follow
    rfl
  | cons symbol input ih =>
    cases output with
    | nil =>
      unfold follow
      rfl
    | cons out output =>
      obtain ⟨hlt, hrest⟩ := List.forall_mem_cons.mp hsym
      unfold follow
      rw [fetch_widen]
      cases hfetch : store.fetch start with
      | error fault => rfl
      | ok state =>
        have hslot := state.row.slot_widen wide symbol (h.of_fetch start state hfetch ▸ hlt)
        simp only [Except.map, Except.mapError, bind, Except.bind, State.widen, hslot]
        cases state.row.slot symbol with
        | error refusal => rfl
        | ok slot =>
          cases slot with
          | none => rfl
          | some edge => simp only [ih edge.target (position + 1) output hrest]

/-- The graph over `wide` symbols, whose rows are padded. -/
def Graph.pad (graph : Graph α) (wide : Nat) : Graph α :=
  { graph with pool := graph.pool.pad wide, arity := wide }

namespace Outcome

variable {β : Type} (outcome : Outcome α β) (wide : Nat)

/-- The same outcome with its graph grown. -/
def grow [DecidableEq α] : Outcome α β :=
  { outcome with graph := (outcome.graph.grow wide).graph }

def pad : Outcome α β := { outcome with graph := outcome.graph.pad wide }

end Outcome

namespace Graph

@[simp] theorem pool_pad (graph : Graph α) (wide : Nat) :
    (graph.pad wide).pool = graph.pool.pad wide := rfl

@[simp] theorem root_pad (graph : Graph α) (wide : Nat) : (graph.pad wide).root = graph.root := rfl

@[simp] theorem arity_pad (graph : Graph α) (wide : Nat) : (graph.pad wide).arity = wide := rfl

/-- `grown` is the graph over at least `wide` symbols, with nothing recorded on the new ones. -/
structure GrowsTo (graph grown : Graph α) (wide : Nat) : Prop where
  arity : grown.arity = max graph.arity wide
  root : grown.root = graph.root
  incoming : ∀ id, (grown.state? id).map State.incoming = (graph.state? id).map State.incoming
  step : ∀ id symbol, grown.step id symbol = graph.step id symbol
  known : ∀ word, (∀ symbol ∈ word, symbol < graph.arity) → grown.replay word = graph.replay word
  new : ∀ word, (∀ symbol ∈ word, symbol < grown.arity) → (∃ symbol ∈ word, graph.arity ≤ symbol) →
    grown.replay word = .ok none ∧
      ∃ symbol ∈ word, graph.replay word = .error (.refused (.outOfRange symbol graph.arity))

variable [DecidableEq α] (graph : Graph α) (h : graph.Sound) (wide : Nat)

include h

/-! ## Growth is padding -/

omit [DecidableEq α] in
theorem pad_self : graph.pad graph.arity = graph := by
  unfold pad Pool.pad
  have huniform := h.coherent.uniform graph.pool graph.arity
  rw [huniform.store.widen_eq graph.arity (Nat.le_refl _),
    huniform.canon.widen_eq graph.arity (Nat.le_refl _)]

theorem grow_eq_pad : (graph.grow wide).result = .ok () ∧
    (graph.grow wide).graph = graph.pad (max graph.arity wide) := by
  unfold grow
  by_cases hle : wide ≤ graph.arity
  · rw [if_pos hle, Nat.max_eq_left hle]
    exact ⟨rfl, (graph.pad_self h).symm⟩
  · have hlt := Nat.le_of_not_le hle
    rw [if_neg hle, Nat.max_eq_right hlt, (graph.pool.widen_eq graph.root graph.arity wide h hlt).1]
    exact ⟨rfl, rfl⟩

theorem growsTo_grow : graph.GrowsTo (graph.grow wide).graph wide := by
  obtain ⟨after, events, hgrow, hsound, hroot, harity, hres⟩ := graph.grow_eq h wide
  have hpad := (graph.grow_eq_pad h wide).2
  have hread : after.reading = graph.reading := by
    funext word
    rw [reading, hroot, hres]
    rfl
  rw [hgrow] at hpad ⊢
  obtain rfl : after = graph.pad (max graph.arity wide) := hpad
  refine ⟨rfl, rfl, fun id => ?_, fun id symbol => ?_, fun word hword => ?_,
    fun word hword hnew => ?_⟩
  · simp only [state?, pad, Pool.pad, Store.get?_widen, Option.map_map]
    rfl
  · rw [step_eq, step_eq]
    exact congrArg _ (graph.pool.store.edge?_widen _ id symbol)
  · have hwide : ∀ symbol ∈ word, symbol < max graph.arity wide := fun symbol hmem =>
      Nat.lt_of_lt_of_le (hword symbol hmem) (Nat.le_max_left _ _)
    rw [replay_eq _ hsound word hwide, graph.replay_eq h word hword, hread]
  · have hnone : graph.reading word = none :=
      graph.pool.store.residual_eq_none graph.arity h.coherent.arities graph.root word hnew
    refine ⟨by rw [replay_eq _ hsound word hword, hread, hnone], ?_⟩
    rcases graph.replayFrom_cases h word graph.root with ⟨_, hold, _⟩ | ⟨hdead, _⟩ |
      ⟨symbol, hmem, _, hrefused⟩
    · obtain ⟨symbol, hmem, hge⟩ := hnew
      exact absurd (hold symbol hmem) (Nat.not_lt_of_le hge)
    · exact absurd (graph.root_live h) hdead
    · exact ⟨symbol, hmem, hrefused⟩

theorem grow_grow (more : Nat) :
    ((graph.grow wide).graph.grow more).graph = (graph.grow (max wide more)).graph := by
  obtain ⟨after, events, hgrow, hsound, _, harity, _⟩ := graph.grow_eq h wide
  have hpad := (graph.grow_eq_pad h wide).2
  rw [hgrow] at hpad ⊢
  have hmax : max (max graph.arity wide) more = max graph.arity (max wide more) := by omega
  rw [(after.grow_eq_pad hsound more).2, (graph.grow_eq_pad h (max wide more)).2, harity, hmax]
  obtain rfl : after = graph.pad (max graph.arity wide) := hpad
  have hmax' : max (max graph.arity wide) (max graph.arity (max wide more)) =
      max graph.arity (max wide more) := by omega
  unfold pad Pool.pad
  simp only [Store.widen_widen, Canon.widen_widen, hmax']

/-! ## Insertion into the padded graph -/

section

variable (hle : graph.arity ≤ wide)

include hle

omit h in
theorem extend_pad (huniform : graph.pool.Uniform graph.arity) (path : List StateId)
    (input : List Nat) (output : List α) (after : Graph α) (events : List Event)
    (hextend : graph.extend path input output = .ok (after, events)) :
    (graph.pad wide).extend path input output = .ok (after.pad wide, events) := by
  obtain ⟨hidden, hhide, hextend⟩ := exists_ok_of_bind hextend
  obtain ⟨⟨made, child⟩, htrace, hextend⟩ := exists_ok_of_bind hextend
  obtain ⟨⟨copied, top, copies⟩, hcopy, hextend⟩ := exists_ok_of_bind hextend
  obtain ⟨⟨amended, last, amendments⟩, hamend, hextend⟩ := exists_ok_of_bind hextend
  have hshared : (graph.pool.pad wide).store.isShared = graph.pool.store.isShared :=
    funext (graph.pool.store.isShared_widen wide)
  obtain ⟨hhide', hhidden⟩ := graph.pool.hide_pad hidden graph.arity wide huniform _ hhide
  obtain ⟨htrace', hmade⟩ := hidden.internTrace_pad made graph.arity wide hhidden hle _ child htrace
  obtain ⟨hcopy', hcopied⟩ :=
    made.copyAll_pad copied graph.arity wide hmade child top _ copies hcopy
  obtain ⟨hamend', _⟩ :=
    copied.amendAll_pad amended graph.arity wide hcopied top last _ amendments hamend
  dsimp only at hextend
  split at hextend
  · next hroot =>
    cases hextend
    unfold extend
    simp only [pool_pad, root_pad, arity_pad, hshared, hhide', htrace', hcopy', hamend', bind,
      Except.bind, if_pos hroot]
    rfl
  · cases hextend

omit h in
theorem recordedPath_pad (huniform : graph.pool.store.Uniform graph.arity) (input : List Nat)
    (output : List α) (hsym : ∀ symbol ∈ input, symbol < graph.arity) :
    (graph.pad wide).recordedPath input output = graph.recordedPath input output := by
  unfold recordedPath
  by_cases hlen : input.length = output.length
  · have hcheck : (graph.pad wide).check input = .ok () :=
      check_of_forall_lt _ input fun symbol hmem => Nat.lt_of_lt_of_le (hsym symbol hmem) hle
    rw [if_pos hlen, if_pos hlen, hcheck, graph.check_of_forall_lt input hsym]
    exact graph.pool.store.follow_widen graph.arity wide huniform graph.root 0 input output hsym
  · rw [if_neg hlen, if_neg hlen]

theorem insert_pad (input : List Nat) (output : List α)
    (hsym : ∀ symbol ∈ input, symbol < graph.arity) :
    (graph.pad wide).insert input output = (graph.insert input output).pad wide := by
  have huniform := h.coherent.uniform graph.pool graph.arity
  unfold insert Outcome.pad
  rw [graph.recordedPath_pad wide hle huniform.store input output hsym]
  rcases graph.recordedPath_cases h input output with ⟨refusal, hpath⟩ |
    ⟨path, hpath, hlen, _, ⟨hfull, _⟩ | ⟨hlt, hcourse, hstates⟩⟩
  · rw [hpath]
  · simp only [hpath, if_pos hfull]
  · obtain ⟨after, events, hextend, _⟩ :=
      graph.extend_eq h path input output hlen hsym hcourse hstates
    have hextend' := graph.extend_pad wide hle huniform path input output _ events hextend
    simp only [hpath, if_neg (Nat.ne_of_lt hlt), hextend, hextend']

omit h [DecidableEq α] in
theorem walkFrom_pad (word : List Nat) (hword : ∀ symbol ∈ word, symbol < graph.arity) :
    (graph.pad wide).walkFrom graph.root word = graph.walkFrom graph.root word := by
  have hcheck : (graph.pad wide).check word = .ok () :=
    check_of_forall_lt _ word fun symbol hmem => Nat.lt_of_lt_of_le (hword symbol hmem) hle
  have hwalk : (graph.pool.pad wide).store.walk graph.root word =
      graph.pool.store.walk graph.root word := graph.pool.store.walk_widen wide graph.root word
  unfold walkFrom
  rw [hcheck, graph.check_of_forall_lt word hword, pool_pad, hwalk]

theorem insertAfter_pad (access input : List Nat) (output : List α)
    (hsym : ∀ symbol ∈ access ++ input, symbol < graph.arity) :
    (graph.pad wide).insertAfter access input output =
      (graph.insertAfter access input output).pad wide := by
  unfold insertAfter
  rw [root_pad, graph.walkFrom_pad wide hle access (List.forall_mem_append.mp hsym).1]
  rcases graph.walkFrom_cases h access with ⟨refusal, hwalk⟩ | ⟨outputs, hwalk⟩
  · rw [hwalk]
    rfl
  · simp only [hwalk]
    by_cases hlt : outputs.length < access.length
    · simp only [if_pos hlt]
      rfl
    · simp only [if_neg hlt]
      exact graph.insert_pad h wide hle (access ++ input) (outputs ++ output) hsym

end

/-! ## Growth before and after -/

theorem arity_insert (input : List Nat) (output : List α) :
    (graph.insert input output).graph.arity = graph.arity := by
  rcases graph.insert_cases h input output with ⟨refusal, he⟩ | ⟨after, fresh, events, he, _⟩
  · rw [he]
  · rw [he]

theorem insert_grow (input : List Nat) (output : List α)
    (hsym : ∀ symbol ∈ input, symbol < graph.arity) :
    (graph.grow wide).graph.insert input output = (graph.insert input output).grow wide := by
  have hafter := graph.sound_insert h input output
  rw [(graph.grow_eq_pad h wide).2, Outcome.grow, (grow_eq_pad _ hafter wide).2,
    graph.arity_insert h input output]
  exact graph.insert_pad h _ (Nat.le_max_left _ _) input output hsym

theorem insertAfter_grow (access input : List Nat) (output : List α)
    (hsym : ∀ symbol ∈ access ++ input, symbol < graph.arity) :
    (graph.grow wide).graph.insertAfter access input output =
      (graph.insertAfter access input output).grow wide := by
  have hafter : (graph.insertAfter access input output).graph.Sound :=
    graph.sound_perform h (.insertAfter access input output)
  have harity : (graph.insertAfter access input output).graph.arity = graph.arity := by
    rcases graph.insertAfter_cases h access input output with ⟨refusal, he⟩ | ⟨outputs, he⟩
    · rw [he]
    · rw [he, graph.arity_insert h]
  rw [(graph.grow_eq_pad h wide).2, Outcome.grow, (grow_eq_pad _ hafter wide).2, harity]
  exact graph.insertAfter_pad h _ (Nat.le_max_left _ _) access input output hsym

omit h

/-- Growth commutes with insertion on every graph a caller can hold.  Besides, it keeps all that the
graph shows of its states, answers the words with new symbols by nothing instead of refusing them,
and the larger of two arities decides. -/
theorem grow_comm (h : graph.Reachable) :
    (∀ input output, (∀ symbol ∈ input, symbol < graph.arity) →
      (graph.grow wide).graph.insert input output = (graph.insert input output).grow wide) ∧
    (∀ access input output, (∀ symbol ∈ access ++ input, symbol < graph.arity) →
      (graph.grow wide).graph.insertAfter access input output =
        (graph.insertAfter access input output).grow wide) ∧
    (graph.grow wide).result = .ok () ∧ graph.GrowsTo (graph.grow wide).graph wide ∧
    ∀ more, ((graph.grow wide).graph.grow more).graph = (graph.grow (max wide more)).graph := by
  have hsound := h.sound
  refine ⟨?_, ?_, ?_, ?_, ?_⟩
  · exact graph.insert_grow hsound wide
  · exact graph.insertAfter_grow hsound wide
  · exact (graph.grow_eq_pad hsound wide).1
  · exact graph.growsTo_grow hsound wide
  · exact graph.grow_grow hsound wide

/-- A copy of the shared state takes the same slot before and after growth; a word with a new symbol
has no answer then. -/
theorem grow_comm_sharedStep :
    sharedStep.Reachable ∧ (∀ symbol ∈ [0, 1], symbol < sharedStep.arity) ∧
      (sharedStep.insert [0, 1] ['a', 'd']).result = .ok true ∧
      (sharedStep.grow 4).graph.insert [0, 1] ['a', 'd'] =
        (sharedStep.insert [0, 1] ['a', 'd']).grow 4 ∧
      (sharedStep.grow 4).graph.insertAfter [0] [1] ['d'] =
        (sharedStep.insertAfter [0] [1] ['d']).grow 4 ∧
      sharedStep.replay [0, 3] = .error (.refused (.outOfRange 3 2)) ∧
      (sharedStep.grow 4).graph.replay [0, 3] = .ok none := by
  have hreach : sharedStep.Reachable := ⟨2, _, rfl⟩
  have harity : sharedStep.arity = 2 := by cbv
  have hsym : ∀ symbol ∈ [0, 1], symbol < sharedStep.arity := by
    rw [harity]
    decide
  obtain ⟨hinsert, hafter, _, hgrows, _⟩ := grow_comm sharedStep 4 hreach
  have hwide : ∀ symbol ∈ [0, 3], symbol < (sharedStep.grow 4).graph.arity := by
    rw [hgrows.arity, harity]
    decide
  have hnew : ∃ symbol ∈ [0, 3], sharedStep.arity ≤ symbol := ⟨3, by decide, by rw [harity]; decide⟩
  exact ⟨hreach, hsym, by cbv, hinsert _ _ hsym, hafter [0] [1] ['d'] hsym, by cbv,
    (hgrows.new [0, 3] hwide hnew).1⟩

end Graph

end TraceGraph
