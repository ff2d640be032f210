import TraceGraph.Canon
import TraceGraph.Event

/-! # The pool of shared states

A store together with its canon.  Interning turns a row into the one state that has it; releasing
takes incoming edges away and reclaims what nothing leads to any more.  A path of states is changed
from its end upwards: shared states are copied, the others are amended where they are. -/
namespace TraceGraph
set_option autoImplicit false

structure Pool (α : Type) where
  store : Store α
  canon : Canon α
deriving DecidableEq

/-- A state on a path, and the symbol on which the path goes on.  The last state of a recorded path
has no edge there yet and gets one with the output `added`. -/
structure Step (α : Type) where
  state : StateId
  symbol : Nat
  added : Option α

namespace Step

variable {α : Type}

/-- The edit that leads the path from this step to `child`. -/
def edit (step : Step α) (child : StateId) : Edit α :=
  match step.added with
  | some output => .add step.symbol ⟨child, output⟩
  | none => .redirect step.symbol child

/-- The steps along `path` for the trace `input`, `output`, root first. -/
def along : List StateId → List Nat → List α → List (Step α)
  | [last], symbol :: _, output :: _ => [⟨last, symbol, some output⟩]
  | state :: next :: path, symbol :: input, _ :: output =>
    ⟨state, symbol, none⟩ :: along (next :: path) input output
  | _, _, _ => []

end Step

namespace Pool

variable {α : Type} [DecidableEq α]

/-! ## Releasing -/

/-- Takes the live state `id` out of canon and store, with the state as it was. -/
def reclaim (pool : Pool α) (id : StateId) : Except Fault (Pool α × State α) := do
  let (canon, _) ← pool.canon.withdraw pool.store id
  let (store, state) ← pool.store.free id
  return (⟨store, canon⟩, state)

theorem edgeCount_reclaim (pool after : Pool α) (id : StateId) (state : State α)
    (h : pool.reclaim id = .ok (after, state)) :
    after.store.edgeCount + state.row.successors.length = pool.store.edgeCount := by
  unfold reclaim at h
  cases hc : pool.canon.withdraw pool.store id with
  | error fault => simp [hc, bind, Except.bind] at h
  | ok canon =>
    cases hs : pool.store.free id with
    | error fault => simp [hc, hs, bind, Except.bind] at h
    | ok freed =>
      simp only [hc, hs, bind, Except.bind, pure, Except.pure, Except.ok.injEq, Prod.mk.injEq] at h
      rw [← h.1, ← h.2]
      exact Store.edgeCount_free pool.store freed.1 id freed.2 hs

/-- Takes one incoming edge from each of `pending` in turn.  A state that loses its last one is
reclaimed, and its own successors come next.  Each round settles one edge, either a pending one or
one of a reclaimed state. -/
def release (pool : Pool α) (pending : List StateId) : Except Fault (Pool α × List Event) :=
  match pending with
  | [] => .ok (pool, [])
  | id :: pending =>
    match _hl : pool.store.loseEdge id with
    | .error fault => .error fault
    | .ok (store, remaining) =>
      if remaining ≠ 0 then release { pool with store } pending
      else
        match _hr : reclaim { pool with store } id with
        | .error fault => .error fault
        | .ok (rest, state) =>
          (release rest (state.row.successors ++ pending)).map fun (pool, events) =>
            (pool, .reclaimed id :: events)
termination_by pool.store.edgeCount + pending.length
decreasing_by
  · have := Store.edgeCount_loseEdge pool.store store id remaining _hl
    simp only [List.length_cons]
    omega
  · have := Store.edgeCount_loseEdge pool.store store id remaining _hl
    have := edgeCount_reclaim { pool with store } rest id state _hr
    simp only [List.length_append, List.length_cons] at *
    omega

/-! ## Hiding -/

/-- Takes the states `ids` off the canon, on which they all have to be. -/
def hide (pool : Pool α) : List StateId → Except Fault (Pool α)
  | [] => return pool
  | id :: ids => do
    let (canon, canonical) ← pool.canon.withdraw pool.store id
    if canonical then hide { pool with canon } ids else throw (.notCanonical id)

/-! ## Interning -/

/-- The canonical state with the row `row`, which is a new one if no state has that row. -/
def intern (pool : Pool α) (row : Row α) : Except Fault (Pool α × StateId) := do
  match ← pool.canon.find pool.store row with
  | some id => return (pool, id)
  | none =>
    let (store, id) ← pool.store.alloc (.fresh row)
    let store ← store.gainEdges row.successors
    let (canon, owner) ← pool.canon.enroll store id
    if owner = id then return (⟨store, canon⟩, id) else throw (.rowTaken owner id)

/-- The start of a path that reads `trace` and ends in the state without edges. -/
def internTrace (pool : Pool α) (arity : Nat) : List (Nat × α) → Except Fault (Pool α × StateId)
  | [] => pool.intern (.blank arity)
  | (symbol, output) :: trace => do
    let (pool, child) ← pool.internTrace arity trace
    let (row, _) ← (Row.blank arity).edit (.add symbol ⟨child, output⟩)
    pool.intern row

/-! ## Changing a path -/

/-- The canonical state with the row of the step's state, led on to `child`.  The state itself stays
as it is. -/
def copy (pool : Pool α) (step : Step α) (child : StateId) : Except Fault (Pool α × StateId) := do
  let state ← pool.store.fetch step.state
  let (row, _) ← state.row.edit (step.edit child)
  pool.intern row

/-- Copies the steps one after the other, each led on to the copy before it. -/
def copyAll (pool : Pool α) (child : StateId) :
    List (Step α) → Except Fault (Pool α × StateId × List Event)
  | [] => return (pool, child, [])
  | step :: steps => do
    let (pool, made) ← pool.copy step child
    let (pool, top, events) ← pool.copyAll made steps
    return (pool, top, .copied step.state made :: events)

/-- Leads the step's state on to `child` and enrolls it again.  The answer is the canonical state
with its new row; if that is another one, the state itself waits for its last edge to go. -/
def amend (pool : Pool α) (step : Step α) (child : StateId) :
    Except Fault (Pool α × StateId × List Event) := do
  let (store, displaced) ← pool.store.edit step.state (step.edit child)
  let (pool, reclaimed) ←
    if displaced = some child then pure ({ pool with store }, [])
    else do
      let store ← store.gainEdge child
      release { pool with store } displaced.toList
  let (canon, owner) ← pool.canon.enroll pool.store step.state
  let merged := if owner = step.state then [] else [Event.merged step.state owner]
  return ({ pool with canon }, owner, reclaimed ++ merged)

/-- Amends the steps one after the other, each led on to the canonical state of the one before. -/
def amendAll (pool : Pool α) (child : StateId) :
    List (Step α) → Except Fault (Pool α × StateId × List Event)
  | [] => return (pool, child, [])
  | step :: steps => do
    let (pool, made, events) ← pool.amend step child
    let (pool, top, later) ← pool.amendAll made steps
    return (pool, top, events ++ later)

end Pool

end TraceGraph
