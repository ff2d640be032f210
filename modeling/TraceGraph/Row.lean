import TraceGraph.Ascending
import TraceGraph.Refusal

/-! # Rows

A row is what one state does: a slot for each symbol of the alphabet, either blank or an edge.  An
edge carries its target and its output together, so a slot has an output exactly when it has a
target.  Targets compare by number, not by what lies behind them.  Only the filled slots are kept,
in symbol order; so a row takes no more room than its edges do, and rows of one arity with the same
slots are equal. -/
namespace TraceGraph
set_option autoImplicit false

structure Edge (α : Type) where
  target : StateId
  output : α
deriving DecidableEq

/-! ## Rows -/

structure Row (α : Type) where
  arity : Nat
  /-- The edges with their symbols. -/
  edges : List (Nat × Edge α)
  ascending : edges.Pairwise fun a b => a.1 < b.1
  bounded : ∀ entry ∈ edges, entry.1 < arity

section

variable {α : Type} [DecidableEq α]

/-- Whether two rows have the same slots.  Targets are compared before outputs, because rows that
differ mostly do so there. -/
def sameSlots : List (Nat × Edge α) → List (Nat × Edge α) → Bool
  | [], [] => true
  | (symbol, edge) :: slots, (symbol', edge') :: slots' =>
    edge.target.index == edge'.target.index && symbol == symbol' &&
      decide (edge.output = edge'.output) && sameSlots slots slots'
  | _, _ => false

theorem sameSlots_iff (slots slots' : List (Nat × Edge α)) :
    sameSlots slots slots' = true ↔ slots = slots' := by
  induction slots generalizing slots' with
  | nil => cases slots' <;> simp [sameSlots]
  | cons head slots ih =>
    obtain ⟨symbol, ⟨⟨target⟩, output⟩⟩ := head
    cases slots' with
    | nil => simp [sameSlots]
    | cons head' slots' =>
      obtain ⟨symbol', ⟨⟨target'⟩, output'⟩⟩ := head'
      simp only [sameSlots, Bool.and_eq_true, beq_iff_eq, decide_eq_true_eq, ih, List.cons.injEq,
        Prod.mk.injEq, Edge.mk.injEq, StateId.mk.injEq]
      constructor
      · rintro ⟨⟨⟨ht, hs⟩, ho⟩, hr⟩
        exact ⟨⟨hs, ht, ho⟩, hr⟩
      · rintro ⟨⟨hs, ht, ho⟩, hr⟩
        exact ⟨⟨⟨ht, hs⟩, ho⟩, hr⟩

instance : DecidableEq (Row α) := fun row other =>
  decidable_of_iff (row.arity = other.arity ∧ sameSlots row.edges other.edges = true) <| by
    rw [sameSlots_iff]
    cases row
    cases other
    simp

end

/-- One change to a row: a new edge in a blank slot, or another target for an edge. -/
inductive Edit (α : Type) where
  | add (symbol : Nat) (edge : Edge α)
  | redirect (symbol : Nat) (target : StateId)

namespace Row

variable {α : Type}

/-! ### Reading -/

def blank (arity : Nat) : Row α := ⟨arity, [], List.Pairwise.nil, fun _ h => nomatch h⟩

/-- The edge on `symbol`; there is none on a symbol beyond the arity. -/
def edge? (row : Row α) (symbol : Nat) : Option (Edge α) := valueAt symbol row.edges

/-- The slot of `symbol`, which has to be below the arity. -/
def slot (row : Row α) (symbol : Nat) : Except (Refusal α) (Option (Edge α)) :=
  if symbol < row.arity then .ok (row.edge? symbol) else .error (.outOfRange symbol row.arity)

def successor (row : Row α) (symbol : Nat) : Except (Refusal α) (Option StateId) :=
  (row.slot symbol).map fun slot => slot.map Edge.target

def output (row : Row α) (symbol : Nat) : Except (Refusal α) (Option α) :=
  (row.slot symbol).map fun slot => slot.map Edge.output

/-- The symbols with an edge, ascending. -/
def symbols (row : Row α) : List Nat := row.edges.map Prod.fst

/-- The targets in symbol order, one for each edge. -/
def successors (row : Row α) : List StateId := row.edges.map fun entry => entry.2.target

theorem mem_edges (row : Row α) (symbol : Nat) (edge : Edge α) :
    (symbol, edge) ∈ row.edges ↔ row.edge? symbol = some edge :=
  mem_iff_valueAt row.edges row.ascending symbol edge

theorem lt_arity (row : Row α) (symbol : Nat) (edge : Edge α)
    (h : row.edge? symbol = some edge) : symbol < row.arity :=
  row.bounded (symbol, edge) ((row.mem_edges symbol edge).mpr h)

theorem mem_symbols (row : Row α) (symbol : Nat) :
    symbol ∈ row.symbols ↔ (row.edge? symbol).isSome = true := by
  rw [Option.isSome_iff_exists]
  constructor
  · intro h
    obtain ⟨⟨_, edge⟩, hmem, rfl⟩ := List.mem_map.mp h
    exact ⟨edge, (row.mem_edges _ edge).mp hmem⟩
  · rintro ⟨edge, h⟩
    exact List.mem_map.mpr ⟨(symbol, edge), (row.mem_edges symbol edge).mpr h, rfl⟩

theorem symbols_ascending (row : Row α) : row.symbols.Pairwise (· < ·) :=
  List.pairwise_map.mpr row.ascending

theorem target_mem_successors (row : Row α) (symbol : Nat) (edge : Edge α)
    (h : row.edge? symbol = some edge) : edge.target ∈ row.successors :=
  List.mem_map.mpr ⟨(symbol, edge), (row.mem_edges symbol edge).mpr h, rfl⟩

/-- A row is determined by its arity and its slots. -/
theorem ext_edge? (row other : Row α) (ha : row.arity = other.arity)
    (he : ∀ symbol, row.edge? symbol = other.edge? symbol) : row = other := by
  have hedges : row.edges = other.edges :=
    eq_of_valueAt row.edges other.edges row.ascending other.ascending he
  cases row
  cases other
  simp_all

/-! ### Changing -/

def write (row : Row α) (symbol : Nat) (edge : Edge α) (h : symbol < row.arity) : Row α where
  arity := row.arity
  edges := putAt symbol edge row.edges
  ascending := putAt_pairwise symbol edge row.edges row.ascending
  bounded entry hmem := by
    rcases mem_putAt symbol edge row.edges entry hmem with heq | hmem
    · exact heq ▸ h
    · exact row.bounded entry hmem

/-- The row with at least `arity` slots; the new ones are blank. -/
def widen (row : Row α) (arity : Nat) : Row α where
  arity := max row.arity arity
  edges := row.edges
  ascending := row.ascending
  bounded entry hmem := Nat.lt_of_lt_of_le (row.bounded entry hmem) (Nat.le_max_left _ _)

/-- The row after `edit`, with the target that the edit displaced. -/
def edit (row : Row α) : Edit α → Except Fault (Row α × Option StateId)
  | .add symbol edge =>
    if h : symbol < row.arity then
      match row.edge? symbol with
      | some _ => .error (.edgePresent symbol)
      | none => .ok (row.write symbol edge h, none)
    else .error (.indexOutOfBounds row.arity symbol)
  | .redirect symbol target =>
    if h : symbol < row.arity then
      match row.edge? symbol with
      | none => .error .edgeMissing
      | some edge => .ok (row.write symbol ⟨target, edge.output⟩ h, some edge.target)
    else .error (.indexOutOfBounds row.arity symbol)

/-! ### Edges after a change -/

theorem edge?_write (row : Row α) (symbol other : Nat) (edge : Edge α) (h : symbol < row.arity) :
    (row.write symbol edge h).edge? other =
      if other = symbol then some edge else row.edge? other :=
  valueAt_putAt symbol other edge row.edges

theorem arity_widen (row : Row α) (arity : Nat) :
    (row.widen arity).arity = max row.arity arity := rfl

theorem edge?_widen (row : Row α) (arity symbol : Nat) :
    (row.widen arity).edge? symbol = row.edge? symbol := rfl

end Row

end TraceGraph
