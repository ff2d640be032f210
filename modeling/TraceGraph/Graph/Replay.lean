import TraceGraph.Graph.Basic

/-! # Replay

Reading an input word back: along the edges it names, as far as there are any. -/
namespace TraceGraph
set_option autoImplicit false

namespace Store

variable {α : Type}

/-- The outputs along the longest path from `start` that reads the beginning of a word, and the
state at its end. -/
def walk (store : Store α) (start : StateId) : List Nat → Except Fault (List α × StateId)
  | [] => return ([], start)
  | symbol :: word => do
    let state ← store.fetch start
    match state.row.edge? symbol with
    | none => return ([], start)
    | some edge =>
      let (outputs, last) ← store.walk edge.target word
      return (edge.output :: outputs, last)

end Store

namespace Graph

variable {α : Type}

/-- The outputs along the longest recorded beginning of `word` from `start`, whose symbols have to
be in the alphabet. -/
def walkFrom (graph : Graph α) (start : StateId) (word : List Nat) :
    Except (Failure α) (List α) := do
  graph.check word |>.mapError .refused
  let (outputs, _) ← graph.pool.store.walk start word |>.mapError .broken
  return outputs

/-- The output word that `word` gives from the live state `start`, if all of it is recorded. -/
def replayFrom (graph : Graph α) (start : StateId) (word : List Nat) :
    Except (Failure α) (Option (List α)) := do
  let _ ← graph.state start |>.mapError .refused
  let outputs ← graph.walkFrom start word
  return if outputs.length = word.length then some outputs else none

/-- The output word that `word` gives from the root, if all of it is recorded. -/
def replay (graph : Graph α) (word : List Nat) : Except (Failure α) (Option (List α)) :=
  graph.replayFrom graph.root word

/-- The outputs along the longest recorded beginning of `word`. -/
def replayLongest (graph : Graph α) (word : List Nat) : Except (Failure α) (List α) :=
  graph.walkFrom graph.root word

def isRecorded (graph : Graph α) (word : List Nat) : Except (Failure α) Bool := do
  let outputs ← graph.walkFrom graph.root word
  return outputs.length = word.length

/-- The state to which `word` leads from `start`, one successor after the other. -/
def stateFrom (graph : Graph α) (start : StateId) :
    List Nat → Except (Refusal α) (Option StateId)
  | [] => return some start
  | symbol :: word => do
    match ← graph.successor start symbol with
    | none => return none
    | some next => graph.stateFrom next word

/-- The state to which `word` leads from the root. -/
def stateAfter (graph : Graph α) (word : List Nat) : Except (Refusal α) (Option StateId) :=
  graph.stateFrom graph.root word

end Graph

end TraceGraph
