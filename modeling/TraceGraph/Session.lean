import TraceGraph.Graph.Separate
import TraceGraph.History

/-! # Sessions

A session is a sequence of requests to one graph, each answered by the graph that the ones before it
have left.  Requests are the calls that may change a graph and the questions about it; the machine
to compare a graph with may be of any type. -/
namespace TraceGraph
set_option autoImplicit false

inductive Request (α : Type) : Type 1 where
  | call (call : Call α)
  | replay (word : List Nat)
  | replayFrom (start : StateId) (word : List Nat)
  | replayLongest (word : List Nat)
  | isRecorded (word : List Nat)
  | successor (id : StateId) (symbol : Nat)
  | output (id : StateId) (symbol : Nat)
  | step (id : StateId) (symbol : Nat)
  | separatingWord (τ : Type) [DecidableEq τ] [Hashable τ] (target : Machine τ α) (lenient : Bool)

inductive Answer (α : Type) where
  | inserted (result : Except (Failure α) Bool)
  | grown (result : Except (Failure α) Unit)
  | replayed (result : Except (Failure α) (Option (List α)))
  | longest (result : Except (Failure α) (List α))
  | recorded (result : Except (Failure α) Bool)
  | successor (result : Except (Refusal α) (Option StateId))
  | output (result : Except (Refusal α) (Option α))
  | step (next : Option (StateId × α))
  | separating (word : Option (List Nat))

namespace Graph

variable {α : Type} [DecidableEq α]

/-- The answer to a call, which goes with the graph after it. -/
def answerCall (graph : Graph α) : Call α → Answer α
  | .insert input output => .inserted (graph.insert input output).result
  | .insertAfter access input output => .inserted (graph.insertAfter access input output).result
  | .grow arity => .grown (graph.grow arity).result

def answer (graph : Graph α) : Request α → Answer α
  | .call call => graph.answerCall call
  | .replay word => .replayed (graph.replay word)
  | .replayFrom start word => .replayed (graph.replayFrom start word)
  | .replayLongest word => .longest (graph.replayLongest word)
  | .isRecorded word => .recorded (graph.isRecorded word)
  | .successor id symbol => .successor (graph.successor id symbol)
  | .output id symbol => .output (graph.output id symbol)
  | .step id symbol => .step (graph.step id symbol)
  | @Request.separatingWord _ _ _ _ target lenient =>
    .separating (graph.separatingWord target lenient)

/-- The graph after a request.  Questions change nothing. -/
def serve (graph : Graph α) : Request α → Graph α
  | .call call => graph.perform call
  | _ => graph

/-- The answers to the requests, in order. -/
def session (graph : Graph α) : List (Request α) → List (Answer α)
  | [] => []
  | request :: requests => graph.answer request :: (graph.serve request).session requests

end Graph

end TraceGraph
