import Mathlib
import TraceGraph.Proofs.Graph.Canonicity

/-! # The canon as a mirror

Between two calls the canon holds the live states and no others, each under the row that it has
then, so a search by row ends at the live state that has the row, if there is one.  During an
insertion canon and store disagree for a while: the path is off the canon, and a merged state stays
in its slot until its last edge goes.  But what is on the canon is never edited, so no state is left
under a row that it used to have.  Growth does change the rows of filed states, all at once, and
they are found again because they are all filed anew. -/
namespace TraceGraph
set_option autoImplicit false

namespace Graph

variable {α : Type} [DecidableEq α]

section

variable (graph : Graph α) (h : graph.Sound)

include h

/-- A search ends at the live state with the row, which is the only one. -/
theorem find_cases (row : Row α) :
    (∃ id state, graph.state? id = some state ∧ state.row = row ∧
        graph.pool.canon.find graph.pool.store row = .ok (some id)) ∨
      ((∀ id state, graph.state? id = some state → state.row ≠ row) ∧
        graph.pool.canon.find graph.pool.store row = .ok none) := by
  rcases graph.pool.canon.find_cases graph.pool.store row h.coherent.filed.keyed with
    ⟨id, _, hrow, hfind⟩ | ⟨hfree, hfind⟩
  · obtain ⟨state, hstate, rfl⟩ := graph.pool.store.get?_of_row? id row hrow
    exact .inl ⟨id, state, hstate, rfl, hfind⟩
  · refine .inr ⟨fun id state hstate he => ?_, hfind⟩
    have hrow := graph.pool.store.row?_of_get? id state hstate
    exact hfree id (h.complete id ⟨state.row, hrow⟩) (he ▸ hrow)

end

end Graph

end TraceGraph
