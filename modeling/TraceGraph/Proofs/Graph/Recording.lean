import Mathlib
import TraceGraph.Proofs.Graph.Sound

/-! # Recording

What an insertion does to the recorded function.  The beginnings of the inserted trace are recorded
with its outputs, and every other word is answered as before, whatever became of the states on the
way. -/
namespace TraceGraph
set_option autoImplicit false

namespace Graph

variable {α : Type} [DecidableEq α]

/-- An accepted insertion extends the recorded function by the beginnings of its trace and leaves it
as it was on every other word over the alphabet. -/
theorem replay_insert (graph : Graph α) (h : graph.Reachable) (input : List Nat) (output : List α)
    (fresh : Bool) (hok : (graph.insert input output).result = .ok fresh) :
    (graph.insert input output).graph.arity = graph.arity ∧
      ∀ word, (∀ symbol ∈ word, symbol < graph.arity) →
        ∃ before, graph.replay word = .ok before ∧
          (graph.insert input output).graph.replay word =
            .ok (if word <+: input then some (output.take word.length) else before) := by
  have hsound := h.sound
  obtain ⟨hafter, harity, hover⟩ := graph.reading_insert hsound input output fresh hok
  refine ⟨harity, fun word hword => ⟨graph.reading word, graph.replay_eq hsound word hword, ?_⟩⟩
  rw [replay_eq _ hafter word (harity ▸ hword), hover]
  rfl

/-- A trace that branches off where two words have met is added to a copy of the shared state, so
the other word does not branch. -/
theorem replay_insert_beside_copy :
    (sharedStep.insert [0, 1] ['a', 'd']).result = .ok true ∧
      ∃ before, sharedStep.replay [1, 1] = .ok before ∧
        (sharedStep.insert [0, 1] ['a', 'd']).graph.replay [1, 1] =
          .ok (if [1, 1] <+: [0, 1] then some (['a', 'd'].take 2) else before) := by
  have hreach : sharedStep.Reachable := ⟨2, _, rfl⟩
  have hok : (sharedStep.insert [0, 1] ['a', 'd']).result = .ok true := by cbv
  have harity : sharedStep.arity = 2 := by cbv
  have hword : ∀ symbol ∈ [1, 1], symbol < sharedStep.arity := by
    rw [harity]
    decide
  exact ⟨hok, (replay_insert sharedStep hreach [0, 1] ['a', 'd'] true hok).2 [1, 1] hword⟩

end Graph

end TraceGraph
