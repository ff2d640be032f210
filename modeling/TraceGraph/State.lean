import TraceGraph.Row

/-! # States

A state is its row and the number of edges that lead to it.  A state with more than one incoming
edge is shared. -/
namespace TraceGraph
set_option autoImplicit false

structure State (α : Type) where
  row : Row α
  incoming : Nat
deriving DecidableEq

namespace State

variable {α : Type}

/-- A state that nothing leads to yet. -/
def fresh (row : Row α) : State α := ⟨row, 0⟩

def arity (state : State α) : Nat := state.row.arity

def isShared (state : State α) : Bool := 1 < state.incoming

def gain (state : State α) : State α := { state with incoming := state.incoming + 1 }

def lose (state : State α) : Except Fault (State α) :=
  match state.incoming with
  | 0 => .error .countBelowZero
  | remaining + 1 => .ok { state with incoming := remaining }

def widen (state : State α) (arity : Nat) : State α := { state with row := state.row.widen arity }

/-- The state after an edit of its row, with the target that the edit displaced. -/
def edit (state : State α) (change : Edit α) : Except Fault (State α × Option StateId) :=
  (state.row.edit change).map fun (row, displaced) => ({ state with row }, displaced)

end State

end TraceGraph
