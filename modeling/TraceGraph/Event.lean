import TraceGraph.StateId

/-! # Events

What a change of a graph reports while it happens, in order. -/
namespace TraceGraph
set_option autoImplicit false

inductive Event where
  /-- A trace of this length was recorded before. -/
  | alreadyRecorded (length : Nat)
  /-- A change begins: `recorded` symbols of the trace are recorded and `missing` are not, and the
  path of the recorded ones is shared from index `shared` on. -/
  | inserting (recorded shared missing : Nat)
  /-- A shared state was left as it is; `copy` takes its place on the path. -/
  | copied (state copy : StateId)
  /-- An edited state turned out equal to the state `into`. -/
  | merged (state into : StateId)
  /-- The last edge to a state is gone, and with it the state. -/
  | reclaimed (state : StateId)
  | grew (old new states : Nat)
deriving DecidableEq

/-- A value that an event shows. -/
inductive Detail where
  | count (n : Nat)
  | state (id : StateId)
deriving DecidableEq

namespace Event

/-- Changes to existing states and to the alphabet are for debugging, the rest is a trace. -/
def level : Event → String
  | alreadyRecorded .. | inserting .. => "trace"
  | copied .. | merged .. | reclaimed .. | grew .. => "debug"

def message : Event → String
  | alreadyRecorded .. => "trace already recorded"
  | inserting .. => "inserting trace"
  | copied .. => "cloned shared state"
  | merged .. => "edited state merged into existing state"
  | reclaimed .. => "reclaimed unreachable state"
  | grew .. => "alphabet grew"

/-- The values of an event under the names they are shown by. -/
def details : Event → List (String × Detail)
  | alreadyRecorded length => [("len", .count length)]
  | inserting recorded shared missing =>
    [("prefix_len", .count recorded), ("confluence", .count shared), ("suffix_len", .count missing)]
  | copied state copy => [("original", .state state), ("clone", .state copy)]
  | merged state into => [("merged", .state state), ("into", .state into)]
  | reclaimed state => [("id", .state state)]
  | grew old new states => [("from", .count old), ("to", .count new), ("states", .count states)]

end Event

end TraceGraph
