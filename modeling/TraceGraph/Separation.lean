import Std.Data.HashSet
import TraceGraph.Machine
import TraceGraph.Queue

/-! # Separation

A word separates two machines if both read its beginning alike and the target differs from the
reference on its last symbol.  The search goes through the pairs of states that one word reaches in
both machines, breadth first and symbols in order, so the word it finds is the first among the
shortest.  A symbol on which the reference has no step cannot end such a word or lead on, so the
search may pass it over. -/
namespace TraceGraph
set_option autoImplicit false

/-- A pair of states with the pair and the symbol from which the search entered it. -/
structure Visit (σ τ : Type) where
  pair : σ × τ
  parent : σ × τ
  symbol : Nat

/-- Where a search stands: the pairs that wait, in the order in which they were entered, and every
pair entered so far, the last one in front.  The start is never entered.  The pairs that are out of
the question for a new visit are also kept as a set. -/
structure Search (σ τ : Type) [DecidableEq σ] [DecidableEq τ] [Hashable σ] [Hashable τ] where
  start : σ × τ
  queue : Queue (σ × τ)
  visits : List (Visit σ τ)
  seen : Std.HashSet (σ × τ)
  mem_seen : ∀ pair, pair ∈ seen ↔ pair = start ∨ ∃ visit ∈ visits, visit.pair = pair

/-- How two machines compare on one symbol. -/
inductive Comparison (σ τ : Type) where
  /-- There is nothing to compare. -/
  | skipped
  | separated
  | agreed (next : σ × τ)

/-- What a search comes to. -/
inductive Verdict where
  | separated (word : List Nat)
  | inseparable
  /-- The search was stopped before it knew. -/
  | unfinished
deriving DecidableEq

def Verdict.word? : Verdict → Option (List Nat)
  | separated word => some word
  | inseparable => none
  | unfinished => none

namespace Search

variable {σ τ α : Type} [DecidableEq σ] [DecidableEq τ] [DecidableEq α]

/-- The word by which a search with these visits reached `pair`, last symbol first.  A pair is
entered before those entered from it, so the way back only ever leads to older visits. -/
def wayBack : List (Visit σ τ) → σ × τ → List Nat
  | [], _ => []
  | visit :: older, pair =>
    if visit.pair = pair then visit.symbol :: wayBack older visit.parent else wayBack older pair

variable [Hashable σ] [Hashable τ]

def begin (start : σ × τ) : Search σ τ where
  start := start
  queue := .singleton start
  visits := []
  seen := Std.HashSet.emptyWithCapacity.insert start
  mem_seen pair := by
    simp only [Std.HashSet.mem_insert, Std.HashSet.not_mem_emptyWithCapacity, beq_iff_eq,
      List.not_mem_nil, false_and, exists_false, or_false]
    exact eq_comm

/-- Enters `pair` from `parent`, unless the search has been there. -/
def enter (search : Search σ τ) (parent : σ × τ) (symbol : Nat) (pair : σ × τ) : Search σ τ :=
  if pair ∈ search.seen then search
  else
    { start := search.start
      queue := search.queue.push pair
      visits := ⟨pair, parent, symbol⟩ :: search.visits
      seen := search.seen.insert pair
      mem_seen := fun other => by
        simp only [Std.HashSet.mem_insert, beq_iff_eq, search.mem_seen, List.mem_cons,
          exists_eq_or_imp]
        exact or_left_comm }

variable (reference : Machine σ α) (target : Machine τ α) (lenient : Bool)

/-- Compares the steps of both machines from `pair`.  A lenient comparison skips a step that
only the target is missing. -/
def compareOn (pair : σ × τ) (symbol : Nat) : Comparison σ τ :=
  match reference.step pair.1 symbol with
  | none => .skipped
  | some (left, expected) =>
    match target.step pair.2 symbol with
    | none => if lenient then .skipped else .separated
    | some (right, given) => if given = expected then .agreed (left, right) else .separated

/-- Reads `symbols` in turn from `pair` and enters the pairs they lead to, up to a symbol that
separates; then the answer is the separating word. -/
def expand (pair : σ × τ) (search : Search σ τ) : List Nat → List Nat ⊕ Search σ τ
  | [] => .inr search
  | symbol :: symbols =>
    match compareOn reference target lenient pair symbol with
    | .skipped => expand pair search symbols
    | .separated => .inl (symbol :: wayBack search.visits pair).reverse
    | .agreed next => expand pair (search.enter pair symbol next) symbols

/-- Expands the pair that waits longest, over the symbols for its state in the reference. -/
def round (symbols : σ → List Nat) (search : Search σ τ) : Verdict ⊕ Search σ τ :=
  match search.queue.pop? with
  | none => .inl .inseparable
  | some (pair, queue) =>
    match expand reference target lenient pair { search with queue } (symbols pair.1) with
    | .inl word => .inl (.separated word)
    | .inr search => .inr search

/-- Takes rounds until there is a verdict, but not more than the given number. -/
def run (symbols : σ → List Nat) : Nat → Search σ τ → Verdict
  | 0, search => if search.queue.pop?.isNone then .inseparable else .unfinished
  | rounds + 1, search =>
    match search.round reference target lenient symbols with
    | .inl verdict => verdict
    | .inr search => search.run symbols rounds

end Search

namespace Machine

variable {σ τ α : Type} [DecidableEq σ] [DecidableEq τ] [DecidableEq α] [Hashable σ] [Hashable τ]

/-- Compares `target` with `reference`, expanding at most `rounds` pairs.  In each state of the
reference only its `symbols` are tried. -/
def compare (reference : Machine σ α) (target : Machine τ α) (symbols : σ → List Nat)
    (lenient : Bool) (rounds : Nat) : Verdict :=
  (Search.begin (reference.initial, target.initial)).run reference target lenient symbols rounds

end Machine

namespace FiniteMachine

variable {σ τ α : Type} [DecidableEq σ] [DecidableEq τ] [DecidableEq α] [Hashable σ] [Hashable τ]

/-- The first shortest word over `arity` symbols that separates `target` from `reference`.  Each
pair is expanded once, so the search takes no more rounds than there are pairs. -/
def separatingWord (reference : FiniteMachine σ α) (target : FiniteMachine τ α) (arity : Nat)
    (lenient : Bool) : Option (List Nat) :=
  let symbols := reference.symbolsBelow arity
  let rounds := reference.states.length * target.states.length
  (reference.toMachine.compare target.toMachine symbols lenient rounds).word?

end FiniteMachine

end TraceGraph
