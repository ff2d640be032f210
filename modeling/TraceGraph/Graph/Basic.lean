import TraceGraph.Pool

/-! # Trace graphs

A trace graph records which output word a machine gives for which input words.  It is a pool of
shared states with a root, over an alphabet whose symbols are the numbers below its arity; a
recorded input word is a path from the root, and its outputs stand on the edges. -/
namespace TraceGraph
set_option autoImplicit false

structure Graph (α : Type) where
  pool : Pool α
  root : StateId
  arity : Nat
deriving DecidableEq

/-- What a request that may change a graph comes to: the graph afterwards, the answer, and the
events on the way. -/
structure Outcome (α β : Type) where
  graph : Graph α
  result : Except (Failure α) β
  events : List Event

namespace Graph

variable {α : Type}

/-- The graph over `arity` symbols that records nothing but the empty word.  Its root gets the first
slot, as no slot of the empty store is vacant, and is the only canonical state. -/
def new (arity : Nat) : Graph α :=
  let (store, root) := Store.empty.push (.fresh (.blank arity))
  ⟨⟨store, Canon.empty.insert root (.blank arity)⟩, root, arity⟩

/-! ## States -/

def state? (graph : Graph α) (id : StateId) : Option (State α) := graph.pool.store.get? id

def states (graph : Graph α) : List (StateId × State α) := graph.pool.store.live

def stateCount (graph : Graph α) : Nat := graph.pool.store.size

/-- The state `id` of this graph. -/
def state (graph : Graph α) (id : StateId) : Except (Refusal α) (State α) :=
  match graph.state? id with
  | some state => .ok state
  | none => .error (.unknownState id)

def successor (graph : Graph α) (id : StateId) (symbol : Nat) :
    Except (Refusal α) (Option StateId) := do
  let state ← graph.state id
  state.row.successor symbol

def output (graph : Graph α) (id : StateId) (symbol : Nat) : Except (Refusal α) (Option α) := do
  let state ← graph.state id
  state.row.output symbol

/-! ## Words -/

/-- Every symbol of `word` has to be below the arity. -/
def check (graph : Graph α) (word : List Nat) : Except (Refusal α) Unit :=
  match word.find? fun symbol => graph.arity ≤ symbol with
  | some symbol => .error (.outOfRange symbol graph.arity)
  | none => .ok ()

def summary (graph : Graph α) : String :=
  "MealyDag \x7b arity: " ++ Nat.repr graph.arity ++ ", state_count: " ++
    Nat.repr graph.stateCount ++ " \x7d"

end Graph

end TraceGraph
