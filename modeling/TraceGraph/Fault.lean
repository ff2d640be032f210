import TraceGraph.StateId

/-! # Faults

A fault is the violation of a rule that the shared structure keeps about itself: a slot that is
gone, a count below zero, two states with one row.  No caller can cause one through the public
operations of a graph; the operations of the parts report them. -/
namespace TraceGraph
set_option autoImplicit false

inductive Fault where
  /-- A slot number at or beyond the number of slots. -/
  | indexOutOfBounds (length index : Nat)
  /-- A redirection of an edge that is not there. -/
  | edgeMissing
  /-- A new edge on a symbol that has one. -/
  | edgePresent (symbol : Nat)
  /-- The loss of an incoming edge by a state that has none. -/
  | countBelowZero
  /-- The reuse of a slot that holds a state still. -/
  | stillTaken
  /-- The release of a slot that holds no state. -/
  | alreadyVacant
  /-- The use of a state number that names no live state. -/
  | stateGone
  /-- Two live states with equal rows. -/
  | twins (earlier later : StateId)
  /-- A state about to be edited that was not canonical. -/
  | notCanonical (id : StateId)
  /-- A new state whose row was already taken. -/
  | rowTaken (owner id : StateId)
  /-- A root that came out equal to another state. -/
  | rootLost (canonical root : StateId)
deriving DecidableEq

namespace Fault

/-- The report of two numbers that should have been one. -/
def unequal (reason : String) (left right : StateId) : String :=
  "assertion `left == right` failed: " ++ reason ++
    "\n  left: " ++ left.text ++ "\n right: " ++ right.text

def message : Fault → String
  | indexOutOfBounds length index =>
    "index out of bounds: the len is " ++ Nat.repr length ++ " but the index is " ++ Nat.repr index
  | edgeMissing => "redirect: slot not defined"
  | edgePresent symbol => "set: slot " ++ Nat.repr symbol ++ " already defined"
  | countBelowZero => "incoming edge count would become negative"
  | stillTaken => "assertion failed: self.slots[id.index()].is_none()"
  | alreadyVacant => "freeing a reclaimed state"
  | stateGone => "access to a reclaimed state"
  | twins earlier later => unequal "two live states share a signature" earlier later
  | notCanonical id => "path state " ++ id.text ++ " missing from register"
  | rowTaken owner id => unequal "a new state is not canonical" owner id
  | rootLost canonical root => unequal "root collided with a reachable state" canonical root

end Fault

end TraceGraph
