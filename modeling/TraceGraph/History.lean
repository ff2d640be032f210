import TraceGraph.Graph.Grow
import TraceGraph.Graph.Insert

/-! # Histories

A graph comes about by calls on a new graph, and a call may also fail or change nothing.  The
graphs that some history leads to are the ones a caller can hold, and the traces that were accepted
on the way are what the caller knows to be in them. -/
namespace TraceGraph
set_option autoImplicit false

inductive Call (α : Type) where
  | insert (input : List Nat) (output : List α)
  | insertAfter (access input : List Nat) (output : List α)
  | grow (arity : Nat)

namespace Graph

variable {α : Type} [DecidableEq α]

/-- The graph after a call, whatever its answer. -/
def perform (graph : Graph α) : Call α → Graph α
  | .insert input output => (graph.insert input output).graph
  | .insertAfter access input output => (graph.insertAfter access input output).graph
  | .grow arity => (graph.grow arity).graph

/-- The graph after the calls of a history, in order. -/
def after (arity : Nat) (history : List (Call α)) : Graph α := history.foldl perform (new arity)

/-- Some history leads to this graph. -/
def Reachable (graph : Graph α) : Prop := ∃ arity history, graph = after arity history

/-! ## Accepted traces -/

/-- The trace, whole from the root, that a call asks to record, if it is accepted. -/
def accepted (graph : Graph α) : Call α → Option (List Nat × List α)
  | .insert input output =>
    match (graph.insert input output).result with
    | .ok _ => some (input, output)
    | .error _ => none
  | .insertAfter access input output =>
    match (graph.insertAfter access input output).result, graph.replay access with
    | .ok _, .ok (some outputs) => some (access ++ input, outputs ++ output)
    | _, _ => none
  | .grow _ => none

/-- The accepted traces of a history that starts with this graph, in order. -/
def traces (graph : Graph α) : List (Call α) → List (List Nat × List α)
  | [] => []
  | call :: history => (graph.accepted call).toList ++ (graph.perform call).traces history

end Graph

end TraceGraph
