import Mathlib
import TraceGraph.Proofs.Graph.Trails

/-! # Framing

An insertion that records something new leaves alone what it need not touch.  Of the states that
are there before and after it, one has another row, and that row differs in one slot.  The state
stands on the trail above its shared part, and the slot is that of the next symbol of the word. -/
namespace TraceGraph
set_option autoImplicit false

variable {α : Type}

/-- The row of a step that turns differs in the slot of the step: the last step has its edge added
there, any other one has it led elsewhere. -/
theorem Course.slots_turned (store after : Store α) (start : StateId) (input : List Nat)
    (output : List α) (steps : List (Step α)) (h : Course store start input output steps)
    (i : Nat) (step : Step α) (hstep : steps[i]? = some step) (hturns : step.Turns store after) :
    ∃ symbol out child old new, input[i]? = some symbol ∧ output[i]? = some out ∧
      store.row? step.state = some old ∧ after.row? step.state = some new ∧
      (∀ other, new.edge? other ≠ old.edge? other ↔ other = symbol) ∧
      new.edge? symbol = some ⟨child, out⟩ ∧
      ((i + 1 = steps.length ∧ old.edge? symbol = none) ∨
        (i + 1 < steps.length ∧ ∃ target, target ≠ child ∧
          old.edge? symbol = some ⟨target, out⟩)) := by
  obtain ⟨child, old, new, hold, hedit, hturn, hafter⟩ := hturns
  obtain ⟨hsymbol, out, hout, hcases⟩ := h.step_cases store start input output steps i step hstep
  obtain ⟨found, hfound, hedges⟩ := Row.edge?_edit old new _ _ hedit
  rw [Step.output?_edit] at hfound
  rw [Step.symbol_edit, Step.target_edit] at hedges
  rw [Step.target?, store.edge?_of_row? step.state old step.symbol hold] at hturn
  rw [store.edge?_of_row? step.state old step.symbol hold] at hcases
  have hnew := (hedges step.symbol).trans (if_pos rfl)
  have hslots : found = out ∧ ((i + 1 = steps.length ∧ old.edge? step.symbol = none) ∨
      (i + 1 < steps.length ∧ ∃ target, target ≠ child ∧
        old.edge? step.symbol = some ⟨target, out⟩)) := by
    rcases hcases with ⟨hlast, hadded, hnone⟩ | ⟨hlt, hadded, target, hedge⟩
    · rw [hadded] at hfound
      exact ⟨(Option.some.inj hfound).symm, .inl ⟨hlast, hnone⟩⟩
    · rw [hadded, hedge] at hfound
      rw [hedge] at hturn
      exact ⟨(Option.some.inj hfound).symm,
        .inr ⟨hlt, target, fun he => hturn (congrArg some he), hedge⟩⟩
  obtain ⟨rfl, hslots⟩ := hslots
  refine ⟨step.symbol, found, child, old, new, hsymbol, hout, hold, hafter,
    fun other => ⟨fun hne => ?_, ?_⟩, hnew, hslots⟩
  · by_contra hother
    exact hne ((hedges other).trans (if_neg hother))
  · rintro rfl hsame
    rw [hnew] at hsame
    rcases hslots with ⟨_, hnone⟩ | ⟨_, target, hne, hedge⟩
    · rw [hnone] at hsame
      cases hsame
    · rw [hedge] at hsame
      cases hsame
      exact hne rfl

namespace Graph

variable [DecidableEq α]

/-- What an insertion that records something new changes in the states that are there before and
after it: the row of one, which is on the trail above the shared part, in the slot of the next
symbol.  At the end of the trail the edge is added, above it is led elsewhere. -/
theorem insert_frames (graph : Graph α) (h : graph.Reachable) (input : List Nat) (output : List α)
    (hok : (graph.insert input output).result = .ok true) :
    ∃ j id symbol out old new,
      j ≤ graph.recordedLength input ∧ j < graph.confluence input ∧
      graph.stateAfter (input.take j) = .ok (some id) ∧
      input[j]? = some symbol ∧ output[j]? = some out ∧
      graph.state? id = some old ∧ (graph.insert input output).graph.state? id = some new ∧
      new.row.arity = old.row.arity ∧
      (∀ other, new.row.edge? other ≠ old.row.edge? other ↔ other = symbol) ∧
      (j = graph.recordedLength input → old.row.edge? symbol = none ∧
        ∃ target, new.row.edge? symbol = some ⟨target, out⟩) ∧
      (j < graph.recordedLength input → ∃ target next, target ≠ next ∧
        old.row.edge? symbol = some ⟨target, out⟩ ∧
        new.row.edge? symbol = some ⟨next, out⟩) ∧
      ∀ other before later, graph.state? other = some before →
        (graph.insert input output).graph.state? other = some later →
        (later.row ≠ before.row ↔ other = id) := by
  obtain ⟨after, steps, kept, copies, merged, added, hinsert, hrooted, hcourse, htrail, hrevised⟩ :=
    graph.insert_revised h.sound input output hok
  obtain ⟨above, below, hown, _⟩ := hrevised.parts
  -- the turned state is the one after `above`
  have htake : (steps.take (graph.confluence input))[above.length]? = some kept := by
    rw [hown, List.getElem?_append_right (Nat.le_refl _), Nat.sub_self]
    rfl
  rw [List.getElem?_take] at htake
  obtain ⟨hlt, hget⟩ := Option.ite_none_right_eq_some.mp htake
  have hwithin := (List.getElem?_eq_some_iff.mp hget).1
  have hplace := (graph.getElem?_trail input above.length kept.state).mp
    (by rw [← htrail, List.getElem?_map, hget]; rfl)
  have hlength : steps.length = graph.recordedLength input + 1 := by
    rw [← graph.length_trail, ← htrail, List.length_map]
  obtain ⟨symbol, out, child, oldRow, newRow, hsymbol, hout, hold, hnew, hslots, hedge, hcases⟩ :=
    hcourse.slots_turned graph.pool.store after.store graph.root input output steps above.length
      kept hget hrevised.turns
  have harity := (hrooted.coherent.arities kept.state newRow hnew).trans
    (h.sound.coherent.arities kept.state oldRow hold).symm
  obtain ⟨old, hstate, rfl⟩ := graph.pool.store.get?_of_row? kept.state oldRow hold
  obtain ⟨new, hstate', rfl⟩ := after.store.get?_of_row? kept.state newRow hnew
  rw [hinsert]
  refine ⟨above.length, kept.state, symbol, out, old, new, ?_, hlt, hplace.2, hsymbol, hout, hstate,
    hstate', harity, hslots, fun hlast => ?_, fun hbefore => ?_, fun other before later hb hl => ?_⟩
  · omega
  · obtain ⟨_, hnone⟩ := hcases.resolve_right fun hmid => by omega
    exact ⟨hnone, child, hedge⟩
  · obtain ⟨_, target, hne, hthere⟩ := hcases.resolve_left fun hend => by omega
    exact ⟨target, child, hne, hthere, hedge⟩
  · constructor
    · intro hdiffers
      by_contra hne
      have hlive := (hrevised.live other).mp ((after.store.live_iff other).mpr ⟨later, hl⟩)
      have hsame := hrevised.same other ((graph.pool.store.live_iff other).mpr ⟨before, hb⟩) hne
        hlive.2
      rw [after.store.row?_of_get? other later hl, graph.pool.store.row?_of_get? other before hb]
        at hsame
      exact hdiffers (Option.some.inj hsame)
    · rintro rfl hsame
      cases hstate.symm.trans hb
      cases hstate'.symm.trans hl
      exact (hslots symbol).mpr rfl (by rw [hsame])

/-- Where two words share their second step, a word that leaves the shared state changes the row of
the root alone. -/
theorem frames_of_sharedStep :
    sharedStep.Reachable ∧ (sharedStep.insert [0, 1] ['a', 'd']).result = .ok true ∧
      ∀ other before later, sharedStep.state? other = some before →
        (sharedStep.insert [0, 1] ['a', 'd']).graph.state? other = some later →
        (later.row ≠ before.row ↔ other = sharedStep.root) := by
  have hreach : sharedStep.Reachable := ⟨2, _, rfl⟩
  have hok : (sharedStep.insert [0, 1] ['a', 'd']).result = .ok true := by cbv
  have hshared : sharedStep.confluence [0, 1] = 1 := by cbv
  obtain ⟨j, id, _, _, _, _, _, hlt, hid, _, _, _, _, _, _, _, _, hframe⟩ :=
    insert_frames sharedStep hreach [0, 1] ['a', 'd'] hok
  obtain rfl : j = 0 := by omega
  obtain rfl : sharedStep.root = id := Option.some.inj (Except.ok.inj hid)
  exact ⟨hreach, hok, hframe⟩

end Graph

end TraceGraph
