/-! # Machines

A Mealy machine reads a word symbol by symbol, and each step gives an output.  Steps may be missing,
so a machine need not answer every word.  A finite machine comes with a list of states that its
steps never leave, and with the symbols on which each state has a step. -/
namespace TraceGraph
set_option autoImplicit false

structure Machine (σ α : Type) where
  initial : σ
  step : σ → Nat → Option (σ × α)

namespace Machine

variable {σ α : Type}

/-- The outputs and the last state when `word` is read from `state`, if no step is missing. -/
def runFrom (machine : Machine σ α) (state : σ) : List Nat → Option (List α × σ)
  | [] => some ([], state)
  | symbol :: word => do
    let (next, output) ← machine.step state symbol
    let (outputs, last) ← machine.runFrom next word
    return (output :: outputs, last)

/-- The output word for `word`. -/
def answer (machine : Machine σ α) (word : List Nat) : Option (List α) :=
  (machine.runFrom machine.initial word).map Prod.fst

end Machine

/-! ## Finite machines -/

structure FiniteMachine (σ α : Type) extends Machine σ α where
  states : List σ
  symbols : σ → List Nat
  initial_mem : initial ∈ states
  step_mem : ∀ state symbol next output, step state symbol = some (next, output) → next ∈ states
  symbols_ascending : ∀ state, (symbols state).Pairwise (· < ·)
  mem_symbols : ∀ state symbol, symbol ∈ symbols state ↔ (step state symbol).isSome = true

namespace FiniteMachine

variable {σ α : Type}

/-- The symbols of an alphabet of `arity` symbols on which `state` has a step. -/
def symbolsBelow (machine : FiniteMachine σ α) (arity : Nat) (state : σ) : List Nat :=
  (machine.symbols state).filter fun symbol => symbol < arity

theorem mem_symbolsBelow (machine : FiniteMachine σ α) (arity : Nat) (state : σ) (symbol : Nat) :
    symbol ∈ machine.symbolsBelow arity state ↔
      symbol < arity ∧ (machine.step state symbol).isSome = true := by
  simp [symbolsBelow, machine.mem_symbols, and_comm]

theorem symbolsBelow_ascending (machine : FiniteMachine σ α) (arity : Nat) (state : σ) :
    (machine.symbolsBelow arity state).Pairwise (· < ·) :=
  (machine.symbols_ascending state).filter _

end FiniteMachine

/-! ## Tables -/

/-- A machine written out: the row of a state holds, for each symbol, the next state and the output.
States and symbols beyond the table have no steps. -/
structure Table (α : Type) where
  initial : Nat
  rows : Array (Array (Option (Nat × α)))

namespace Table

variable {α : Type}

def step (table : Table α) (state symbol : Nat) : Option (Nat × α) :=
  table.rows[state]?.bind fun row => row[symbol]?.join

/-- The initial state and every state that an entry leads to. -/
def states (table : Table α) : List Nat :=
  table.initial ::
    table.rows.toList.flatMap fun row => row.toList.filterMap fun entry => entry.map Prod.fst

/-- The symbols with an entry in the row of `state`. -/
def symbols (table : Table α) (state : Nat) : List Nat :=
  match table.rows[state]? with
  | none => []
  | some row => (List.range row.size).filter fun symbol => row[symbol]?.join.isSome

theorem step_mem_states (table : Table α) (state symbol next : Nat) (output : α)
    (h : table.step state symbol = some (next, output)) : next ∈ table.states := by
  obtain ⟨row, hrow, hentry⟩ := Option.bind_eq_some_iff.mp h
  obtain ⟨entry, hget, rfl⟩ : ∃ entry, row[symbol]? = some entry ∧ entry = some (next, output) := by
    cases hs : row[symbol]? with
    | none => simp [hs] at hentry
    | some entry => exact ⟨entry, rfl, by simpa [hs] using hentry⟩
  have hrow : row ∈ table.rows.toList := Array.mem_toList_iff.mpr (Array.mem_of_getElem? hrow)
  have hget := Array.mem_toList_iff.mpr (Array.mem_of_getElem? hget)
  exact List.mem_cons_of_mem _ (List.mem_flatMap.mpr
    ⟨row, hrow, List.mem_filterMap.mpr ⟨some (next, output), hget, rfl⟩⟩)

theorem symbols_ascending (table : Table α) (state : Nat) :
    (table.symbols state).Pairwise (· < ·) := by
  unfold symbols
  split
  · exact List.Pairwise.nil
  · exact List.pairwise_lt_range.filter _

theorem mem_symbols (table : Table α) (state symbol : Nat) :
    symbol ∈ table.symbols state ↔ (table.step state symbol).isSome = true := by
  unfold symbols step
  cases table.rows[state]? with
  | none => simp
  | some row =>
    simp only [List.mem_filter, List.mem_range, Option.bind_some]
    refine ⟨And.right, fun h => ⟨Nat.lt_of_not_le fun hle => ?_, h⟩⟩
    simp [Array.getElem?_eq_none hle] at h

def machine (table : Table α) : FiniteMachine Nat α where
  initial := table.initial
  step := table.step
  states := table.states
  symbols := table.symbols
  initial_mem := List.mem_cons_self
  step_mem := table.step_mem_states
  symbols_ascending := table.symbols_ascending
  mem_symbols := table.mem_symbols

end Table

end TraceGraph
