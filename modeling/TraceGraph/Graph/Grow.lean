import TraceGraph.Graph.Basic

/-! # Growth

A larger alphabet widens every state by blank slots, so all states are filed anew.  Rows that differ
stay different, so the same states are canonical before and after. -/
namespace TraceGraph
set_option autoImplicit false

namespace Pool

variable {α : Type} [DecidableEq α]

/-- Every state with at least `arity` slots, and the canon of the widened rows. -/
def widen (pool : Pool α) (arity : Nat) : Except Fault (Pool α) := do
  let store := pool.store.widen arity
  let canon ← Canon.ofStore store
  return ⟨store, canon⟩

end Pool

namespace Graph

variable {α : Type} [DecidableEq α]

/-- The graph over at least `arity` symbols. -/
def grow (graph : Graph α) (arity : Nat) : Outcome α Unit :=
  if arity ≤ graph.arity then ⟨graph, .ok (), []⟩
  else
    match graph.pool.widen arity with
    | .error fault => ⟨graph, .error (.broken fault), []⟩
    | .ok pool =>
      ⟨{ graph with pool, arity }, .ok (), [.grew graph.arity arity graph.stateCount]⟩

end Graph

end TraceGraph
