import TraceGraph.Fault
import TraceGraph.Output

/-! # Refusals

A refusal is an answer to a request that cannot be met: a trace that contradicts what is recorded,
a symbol outside the alphabet, words of different lengths, a start that is not there.  A refused
request leaves everything as it was. -/
namespace TraceGraph
set_option autoImplicit false

inductive Refusal (α : Type) where
  /-- The outputs first disagree at `position`. -/
  | conflict (position : Nat) (recorded requested : α)
  | outOfRange (symbol arity : Nat)
  | lengthMismatch (input output : Nat)
  /-- Only the first `recorded` symbols of the access word are recorded. -/
  | undefinedAccess (recorded : Nat)
  | unknownState (id : StateId)
deriving DecidableEq

namespace Refusal

def message {α : Type} [OutputText α] : Refusal α → String
  | conflict position recorded requested =>
    "conflicting output at position " ++ Nat.repr position ++ ": recorded " ++
      OutputText.text recorded ++ ", requested " ++ OutputText.text requested
  | outOfRange symbol arity =>
    "input symbol " ++ Nat.repr symbol ++ " out of range for alphabet size " ++ Nat.repr arity
  | lengthMismatch input output =>
    "input word has length " ++ Nat.repr input ++ " but output word has length " ++
      Nat.repr output
  | undefinedAccess recorded =>
    "access word is only defined up to length " ++ Nat.repr recorded
  | unknownState id => "unknown state " ++ id.text

end Refusal

/-- A request fails by a refusal, or by a fault of the structure itself. -/
inductive Failure (α : Type) where
  | refused (refusal : Refusal α)
  | broken (fault : Fault)
deriving DecidableEq

namespace Failure

def message {α : Type} [OutputText α] : Failure α → String
  | refused refusal => refusal.message
  | broken fault => fault.message

end Failure

end TraceGraph
