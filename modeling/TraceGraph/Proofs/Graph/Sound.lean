import TraceGraph.History
import TraceGraph.Proofs.Graph.Extending
import TraceGraph.Proofs.Graph.Replaying
import TraceGraph.Proofs.Pool.Widening

/-! # Sound graphs

A graph is sound when its pool is rooted in its root.  A new graph is sound, and every call leaves a
sound graph: it is refused and changes nothing, or it does what it is for.  So every graph that some
history leads to is sound. -/
namespace TraceGraph
set_option autoImplicit false

variable {α : Type}

/-! ## A new graph -/

theorem Store.settled_empty : (Store.empty : Store α).Settled [] [] where
  accounted := Store.accounted_empty
  closed id target hleads := by
    obtain ⟨row, hrow, _⟩ := hleads
    cases hrow
  uncounted_live _ hid := absurd hid List.not_mem_nil
  pending_live _ hid := absurd hid List.not_mem_nil
  counted id state hstate := by cases hstate

theorem Canon.filed_empty (store : Store α) : Canon.empty.Filed store where
  keyed := keyed_empty store
  closed _ hid := absurd hid List.not_mem_nil
  distinct _ hid := absurd hid List.not_mem_nil
  ranked := ⟨fun _ => 0, fun _ hid => absurd hid List.not_mem_nil⟩

namespace Graph

def Sound (graph : Graph α) : Prop := graph.pool.Rooted graph.root graph.arity

/-- The partial function that the graph records. -/
def reading (graph : Graph α) : List Nat → Option (List α) := graph.pool.store.residual graph.root

theorem sound_new (arity : Nat) : (new arity : Graph α).Sound := by
  obtain ⟨store, root, halloc, hnew⟩ : ∃ store root,
      Store.empty.alloc (.fresh (.blank arity)) = .ok (store, root) ∧
      (new arity : Graph α) = ⟨⟨store, Canon.empty.insert root (.blank arity)⟩, root, arity⟩ :=
    ⟨_, _, rfl, rfl⟩
  have hsettled := Store.settled_empty.alloc Store.empty store (.blank arity : Row α) root halloc
    fun target hmem => absurd hmem List.not_mem_nil
  have hrows := Store.row?_alloc Store.empty store (.fresh (.blank arity : Row α)) root halloc
  rw [hnew]
  have hrow : ∀ id row, store.row? id = some row → id = root ∧ row = .blank arity := by
    intro id row hrow
    rw [hrows id] at hrow
    split at hrow
    · next he => exact ⟨he, (Option.some.inj hrow).symm⟩
    · cases hrow
  have hroot : store.row? root = some (.blank arity) := by rw [hrows root, if_pos rfl]; rfl
  have hmem : root ∈ (Canon.empty.insert root (Row.blank arity : Row α)).ids :=
    (Canon.mem_insert _ _ _ _).mpr (.inl rfl)
  refine ⟨⟨hsettled, ?_, fun id row h => ?_⟩, fun id hid => ?_, hmem, ?_,
    fun id hid => ?_⟩
  · exact (Canon.filed_empty store).insert Canon.empty store root (.blank arity) hroot
      (fun target hmem => absurd hmem List.not_mem_nil)
      fun other hmem => absurd hmem List.not_mem_nil
  · rw [(hrow id row h).2]
    rfl
  · obtain ⟨row, h⟩ := hid
    exact (hrow id row h).1 ▸ hmem
  · by_contra hpos
    obtain ⟨id, row, h, htarget⟩ := (store.inEdges_pos_iff root).mp (Nat.pos_of_ne_zero hpos)
    rw [(hrow id row h).2] at htarget
    exact absurd htarget List.not_mem_nil
  · obtain ⟨row, h⟩ := hid
    exact .inl (List.mem_singleton.mpr (hrow id row h).1)

/-! ## Answers -/

section

variable (graph : Graph α) (h : graph.Sound) (word : List Nat)

include h

/-- A word is refused, or answered by the residual of the live state it is read from. -/
theorem replayFrom_cases (id : StateId) :
    (graph.pool.store.Live id ∧ (∀ symbol ∈ word, symbol < graph.arity) ∧
        graph.replayFrom id word = .ok (graph.pool.store.residual id word)) ∨
      (¬ graph.pool.store.Live id ∧
        graph.replayFrom id word = .error (.refused (.unknownState id))) ∨
      ∃ symbol ∈ word, graph.arity ≤ symbol ∧
        graph.replayFrom id word = .error (.refused (.outOfRange symbol graph.arity)) := by
  by_cases hid : graph.pool.store.Live id
  · rcases graph.check_cases word with ⟨hword, _⟩ | ⟨symbol, hmem, hle, hcheck⟩
    · exact .inl ⟨hid, hword,
        graph.replayFrom_eq h.coherent.settled.closed id word hword hid⟩
    · refine .inr (.inr ⟨symbol, hmem, hle, ?_⟩)
      obtain ⟨row, hrow⟩ := hid
      obtain ⟨state, hstate, _⟩ := graph.state_of_row? id row hrow
      simp only [replayFrom, hstate, walkFrom, hcheck, Except.mapError, bind, Except.bind]
  · refine .inr (.inl ⟨hid, ?_⟩)
    simp only [replayFrom, graph.state_of_not_live id hid, Except.mapError, bind, Except.bind]

theorem root_live : graph.pool.store.Live graph.root := h.coherent.filed.live _ h.root_mem

theorem walkFrom_cases :
    (∃ refusal, graph.walkFrom graph.root word = .error (.refused refusal)) ∨
      ∃ outputs, graph.walkFrom graph.root word = .ok outputs := by
  rcases graph.check_cases word with ⟨hword, _⟩ | ⟨symbol, _, _, hcheck⟩
  · obtain ⟨outputs, hwalk, _⟩ := graph.walkFrom_eq h.coherent.settled.closed graph.root word hword
      (graph.root_live h)
    exact .inr ⟨outputs, hwalk⟩
  · refine .inl ⟨.outOfRange symbol graph.arity, ?_⟩
    simp only [walkFrom, hcheck, Except.mapError, bind, Except.bind]

variable (hword : ∀ symbol ∈ word, symbol < graph.arity)

include hword

theorem replay_eq : graph.replay word = .ok (graph.reading word) :=
  graph.replayFrom_eq h.coherent.settled.closed graph.root word hword (graph.root_live h)

theorem stateAfter_eq : graph.stateAfter word = .ok (graph.pool.store.reach graph.root word) :=
  graph.stateFrom_eq h.coherent.settled.closed h.coherent.arities graph.root word hword
    (graph.root_live h)

end

/-! ## Recording -/

variable [DecidableEq α]

variable (graph : Graph α) (h : graph.Sound)

include h

/-- A trace is refused, recorded already, or has a course. -/
theorem recordedPath_cases (input : List Nat) (output : List α) :
    (∃ refusal, graph.recordedPath input output = .error (.refused refusal)) ∨
      ∃ path, graph.recordedPath input output = .ok path ∧ input.length = output.length ∧
        (∀ symbol ∈ input, symbol < graph.arity) ∧
        ((path.length = input.length ∧
            graph.reading input = some output) ∨
          (path.length < input.length ∧
            Course graph.pool.store graph.root input output
              (Step.along (graph.root :: path) input output) ∧
            (Step.along (graph.root :: path) input output).map Step.state =
              graph.root :: path)) := by
  by_cases hlen : input.length = output.length
  · rcases graph.check_cases input with ⟨hsym, hcheck⟩ | ⟨symbol, _, _, hcheck⟩
    · have hpath : graph.recordedPath input output =
          graph.pool.store.follow graph.root 0 input output := by
        simp only [recordedPath, if_pos hlen, hcheck, Except.mapError, bind, Except.bind]
      rw [hpath]
      rcases graph.pool.store.follow_cases graph.arity h.coherent.settled.closed
        h.coherent.arities graph.root 0 input output (graph.root_live h) hlen hsym with
        ⟨path, hfollow, hfull, hres⟩ | ⟨path, hfollow, hlt, hcourse, hstates⟩ |
        ⟨position, recorded, requested, hfollow⟩
      · exact .inr ⟨path, hfollow, hlen, hsym, .inl ⟨hfull, hres⟩⟩
      · exact .inr ⟨path, hfollow, hlen, hsym, .inr ⟨hlt, hcourse, hstates⟩⟩
      · exact .inl ⟨_, hfollow⟩
    · refine .inl ⟨.outOfRange symbol graph.arity, ?_⟩
      simp only [recordedPath, if_pos hlen, hcheck, Except.mapError, bind, Except.bind]
  · refine .inl ⟨.lengthMismatch input.length output.length, ?_⟩
    simp only [recordedPath, if_neg hlen]
    rfl

/-- An insertion is refused and changes nothing, or the root reads the trace over what it read
before. -/
theorem insert_cases (input : List Nat) (output : List α) :
    (∃ refusal, graph.insert input output = ⟨graph, .error (.refused refusal), []⟩) ∨
      ∃ after fresh events,
        graph.insert input output = ⟨{ graph with pool := after }, .ok fresh, events⟩ ∧
        Sound { graph with pool := after } ∧
        reading { graph with pool := after } = overlay graph.reading input output := by
  rcases graph.recordedPath_cases h input output with ⟨refusal, hpath⟩ |
    ⟨path, hpath, hlen, hsym, ⟨hfull, hres⟩ | ⟨hlt, hcourse, hstates⟩⟩
  · exact .inl ⟨refusal, by rw [insert, hpath]⟩
  · refine .inr ⟨graph.pool, false, [.alreadyRecorded input.length], ?_, h, funext fun word =>
      (overlay_of_recorded graph.pool.store graph.root input output hres word).symm⟩
    simp only [insert, hpath, if_pos hfull]
  · obtain ⟨after, events, hextend, hrooted, hover⟩ :=
      graph.extend_eq h path input output hlen hsym hcourse hstates
    refine .inr ⟨after, true, events, ?_, hrooted, funext hover⟩
    simp only [insert, hpath, if_neg (Nat.ne_of_lt hlt), hextend]

/-- After an accepted insertion the trace is recorded over what was recorded before. -/
theorem reading_insert (input : List Nat) (output : List α) (fresh : Bool)
    (hok : (graph.insert input output).result = .ok fresh) :
    (graph.insert input output).graph.Sound ∧
      (graph.insert input output).graph.arity = graph.arity ∧
      (graph.insert input output).graph.reading = overlay graph.reading input output := by
  rcases graph.insert_cases h input output with ⟨refusal, he⟩ |
    ⟨after, _, events, he, hsound, hover⟩
  · rw [he] at hok
    cases hok
  · rw [he]
    exact ⟨hsound, rfl, hover⟩

theorem insertAfter_cases (access input : List Nat) (output : List α) :
    (∃ refusal, graph.insertAfter access input output = ⟨graph, .error (.refused refusal), []⟩) ∨
      ∃ outputs, graph.insertAfter access input output =
        graph.insert (access ++ input) (outputs ++ output) := by
  rcases graph.walkFrom_cases h access with ⟨refusal, hwalk⟩ | ⟨outputs, hwalk⟩
  · exact .inl ⟨refusal, by rw [insertAfter, hwalk]⟩
  · by_cases hlt : outputs.length < access.length
    · exact .inl ⟨.undefinedAccess outputs.length, by simp only [insertAfter, hwalk, if_pos hlt]⟩
    · exact .inr ⟨outputs, by simp only [insertAfter, hwalk, if_neg hlt]⟩

/-- Growth never fails, and keeps what every state reads. -/
theorem grow_eq (arity : Nat) :
    ∃ after events, graph.grow arity = ⟨after, .ok (), events⟩ ∧ after.Sound ∧
      after.root = graph.root ∧ after.arity = max graph.arity arity ∧
      ∀ id word, after.pool.store.residual id word = graph.pool.store.residual id word := by
  by_cases hle : arity ≤ graph.arity
  · exact ⟨graph, [], by rw [grow, if_pos hle], h, rfl, by omega, fun _ _ => rfl⟩
  · obtain ⟨hwiden, hrooted⟩ :=
      graph.pool.widen_eq graph.root graph.arity arity h (Nat.le_of_not_le hle)
    refine ⟨{ graph with
        pool := ⟨graph.pool.store.widen arity, graph.pool.canon.widen arity⟩, arity },
      [.grew graph.arity arity graph.stateCount], ?_, hrooted, rfl, ?_, ?_⟩
    · simp only [grow, if_neg hle, hwiden]
    · exact (Nat.max_eq_right (Nat.le_of_not_le hle)).symm
    · exact fun id word => graph.pool.store.residual_widen arity id word

/-! ## Histories -/

theorem sound_insert (input : List Nat) (output : List α) :
    (graph.insert input output).graph.Sound := by
  rcases graph.insert_cases h input output with ⟨refusal, he⟩ | ⟨after, fresh, events, he, hr, _⟩
  · rw [he]
    exact h
  · rw [he]
    exact hr

theorem sound_perform (call : Call α) : (graph.perform call).Sound := by
  cases call with
  | insert input output => exact graph.sound_insert h input output
  | insertAfter access input output =>
    rcases graph.insertAfter_cases h access input output with ⟨refusal, he⟩ | ⟨outputs, he⟩
    · rw [perform, he]
      exact h
    · rw [perform, he]
      exact graph.sound_insert h _ _
  | grow arity =>
    obtain ⟨after, events, he, hsound, _⟩ := graph.grow_eq h arity
    rw [perform, he]
    exact hsound

omit h

theorem Reachable.sound (h : graph.Reachable) : graph.Sound := by
  obtain ⟨arity, history, rfl⟩ := h
  -- induction on the history, from any sound graph
  have hrun : ∀ start : Graph α, start.Sound → (history.foldl perform start).Sound := by
    induction history with
    | nil => exact fun start hstart => hstart
    | cons call history ih => exact fun start hstart => ih _ (start.sound_perform hstart call)
  exact hrun (new arity) (sound_new arity)

/-- Two words that share their second step. -/
def sharedStep : Graph Char := after 2 [.insert [0, 0] ['a', 'b'], .insert [1, 0] ['c', 'b']]

end Graph

end TraceGraph
