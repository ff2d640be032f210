import TraceGraph.Graph.Replay

/-! # Insertion

A new trace follows the recorded path as far as it goes, and the rest of it becomes a new end of
that path.  From the first shared state on, the path also serves other words; there every state is
copied.  Above, each state serves this one word only and is changed in place.  Since equal rows
never stay apart, the graph stays as small as it can be. -/
namespace TraceGraph
set_option autoImplicit false

namespace Store

variable {α : Type} [DecidableEq α]

/-- The states that the trace `input`, `output` passes after `start` as far as it is recorded, where
`position` symbols lie behind.  The recorded outputs have to agree with those of the trace. -/
def follow (store : Store α) (start : StateId) (position : Nat) :
    List Nat → List α → Except (Failure α) (List StateId)
  | symbol :: input, requested :: output => do
    let state ← store.fetch start |>.mapError .broken
    match ← state.row.slot symbol |>.mapError .refused with
    | none => return []
    | some edge =>
      if edge.output = requested then
        let path ← store.follow edge.target (position + 1) input output
        return edge.target :: path
      else throw (.refused (.conflict position edge.output requested))
  | _, _ => return []

/-- Whether more than one edge leads to the live state `id`. -/
def isShared (store : Store α) (id : StateId) : Bool := (store.get? id).any State.isShared

end Store

namespace Graph

variable {α : Type} [DecidableEq α]

/-- The states below the root along the recorded beginning of a trace.  The words have to be equally
long, the symbols in the alphabet, and the outputs as recorded. -/
def recordedPath (graph : Graph α) (input : List Nat) (output : List α) :
    Except (Failure α) (List StateId) := do
  if input.length = output.length then
    graph.check input |>.mapError .refused
    graph.pool.store.follow graph.root 0 input output
  else throw (.refused (.lengthMismatch input.length output.length))

/-- The graph with the trace added, whose recorded beginning passes the states `path` below the
root. -/
def extend (graph : Graph α) (path : List StateId) (input : List Nat) (output : List α) :
    Except Fault (Graph α × List Event) := do
  let states := graph.root :: path
  let own := states.findIdx graph.pool.store.isShared
  let steps := Step.along states input output
  let pool ← graph.pool.hide (states.take own)
  let (pool, child) ← pool.internTrace graph.arity ((input.zip output).drop states.length)
  let (pool, child, copies) ← pool.copyAll child (steps.drop own).reverse
  let (pool, child, amendments) ← pool.amendAll child (steps.take own).reverse
  if child = graph.root then
    let event := Event.inserting path.length own (input.length - path.length)
    return ({ graph with pool }, event :: copies ++ amendments)
  else throw (.rootLost child graph.root)

/-- Records that `input` gives `output` from the root.  The answer says whether that was new. -/
def insert (graph : Graph α) (input : List Nat) (output : List α) : Outcome α Bool :=
  match graph.recordedPath input output with
  | .error failure => ⟨graph, .error failure, []⟩
  | .ok path =>
    if path.length = input.length then ⟨graph, .ok false, [.alreadyRecorded input.length]⟩
    else
      match graph.extend path input output with
      | .error fault => ⟨graph, .error (.broken fault), []⟩
      | .ok (changed, events) => ⟨changed, .ok true, events⟩

/-- Records that `input` gives `output` from the state to which `access` leads, which has to be
recorded itself. -/
def insertAfter (graph : Graph α) (access input : List Nat) (output : List α) : Outcome α Bool :=
  match graph.walkFrom graph.root access with
  | .error failure => ⟨graph, .error failure, []⟩
  | .ok outputs =>
    if outputs.length < access.length then
      ⟨graph, .error (.refused (.undefinedAccess outputs.length)), []⟩
    else graph.insert (access ++ input) (outputs ++ output)

/-! ## Many traces -/

/-- The graph with the traces added, in order, up to the first that is refused. -/
def insertAll (graph : Graph α) : List (List Nat × List α) → Except (Failure α) (Graph α)
  | [] => return graph
  | (input, output) :: traces => do
    let outcome := graph.insert input output
    let _ ← outcome.result
    outcome.graph.insertAll traces

/-- The graph that records `traces` and nothing else. -/
def ofTraces (arity : Nat) (traces : List (List Nat × List α)) : Except (Failure α) (Graph α) :=
  (new arity).insertAll traces

end Graph

end TraceGraph
