import TraceGraph.Graph.Basic
import TraceGraph.Separation

/-! # Graphs as machines

A graph is a finite machine whose missing steps are those that nobody recorded. -/
namespace TraceGraph
set_option autoImplicit false

namespace Graph

variable {α : Type}

/-- The step of the live state `id` on `symbol`. -/
def step (graph : Graph α) (id : StateId) (symbol : Nat) : Option (StateId × α) := do
  let state ← graph.state? id
  let edge ← state.row.edge? symbol
  return (edge.target, edge.output)

/-- The root and every state that an edge leads to. -/
def targets (graph : Graph α) : List StateId :=
  graph.root :: graph.states.flatMap fun entry => entry.2.row.successors

theorem step_mem_targets (graph : Graph α) (id next : StateId) (symbol : Nat) (output : α)
    (h : graph.step id symbol = some (next, output)) : next ∈ graph.targets := by
  obtain ⟨state, hstate, h⟩ := Option.bind_eq_some_iff.mp h
  obtain ⟨edge, hedge, h⟩ := Option.bind_eq_some_iff.mp h
  cases h
  refine List.mem_cons_of_mem _ (List.mem_flatMap.mpr ⟨(id, state), ?_, ?_⟩)
  · exact (Store.mem_live graph.pool.store id state).mpr hstate
  · exact Row.target_mem_successors state.row symbol edge hedge

/-- The symbols with an edge at the live state `id`. -/
def symbols (graph : Graph α) (id : StateId) : List Nat :=
  match graph.state? id with
  | none => []
  | some state => state.row.symbols

theorem symbols_ascending (graph : Graph α) (id : StateId) :
    (graph.symbols id).Pairwise (· < ·) := by
  unfold symbols
  split
  · exact List.Pairwise.nil
  · next state _ => exact state.row.symbols_ascending

theorem mem_symbols (graph : Graph α) (id : StateId) (symbol : Nat) :
    symbol ∈ graph.symbols id ↔ (graph.step id symbol).isSome = true := by
  unfold symbols step
  cases graph.state? id with
  | none => simp
  | some state =>
    simp only [Option.bind_eq_bind, Option.bind_some, state.row.mem_symbols]
    cases state.row.edge? symbol <;> rfl

def machine (graph : Graph α) : FiniteMachine StateId α where
  initial := graph.root
  step := graph.step
  states := graph.targets
  symbols := graph.symbols
  initial_mem := List.mem_cons_self
  step_mem id symbol next output h := graph.step_mem_targets id next symbol output h
  symbols_ascending := graph.symbols_ascending
  mem_symbols := graph.mem_symbols

variable {τ : Type} [DecidableEq τ] [Hashable τ] [DecidableEq α]

/-- The first shortest recorded word on which `target` differs from the graph.  No edge of a graph
leads back, so a word in it is shorter than the number of states, and there are no more words to
compare than the bound allows, whatever the states of `target` are. -/
def separatingWord (graph : Graph α) (target : Machine τ α) (lenient : Bool) :
    Option (List Nat) :=
  let symbols := graph.machine.symbolsBelow graph.arity
  let rounds := Nat.pow (graph.arity + 1) graph.stateCount
  (graph.machine.toMachine.compare target symbols lenient rounds).word?

end Graph

end TraceGraph
