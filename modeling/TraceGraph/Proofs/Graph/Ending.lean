import TraceGraph.Proofs.Graph.Comparing
import TraceGraph.Proofs.Separation.Climbing

/-! # Ends of searches

A search ends whenever words lead to finitely many pairs: no pair waits twice, so each round uses
one of them up, whether there are cycles or not.  Two finite machines have no more pairs than the
product of their numbers of states.  In a graph recorded words are short, so with it words lead to
finitely many pairs even where the other machine never comes back to a state. -/
namespace TraceGraph
set_option autoImplicit false

namespace Graph

variable {α : Type} [DecidableEq α]

theorem ncard_together_le_of_arity {τ : Type} [DecidableEq τ] (graph : Graph α) (h : graph.Sound)
    (target : Machine τ α) (arity : Nat) :
    (graph.machine.together target arity).Finite ∧
      (graph.machine.together target arity).ncard ≤ (graph.arity + 1) ^ graph.stateCount := by
  have hsubset := graph.together_subset h target arity
  have hfinite := graph.finite_together h target
  exact ⟨hfinite.subset hsubset,
    (Set.ncard_le_ncard hsubset hfinite).trans (graph.ncard_together_le h target)⟩

/-- Searches end.  This holds of any two machines for which words lead to finitely many pairs; any
two finite machines are such, and so are a graph that a caller can hold and any machine at all. -/
theorem searches_end {σ τ : Type} [DecidableEq σ] [DecidableEq τ] [Hashable σ] [Hashable τ] :
    (∀ (reference : Machine σ α) (target : Machine τ α) (arity : Nat),
      (reference.together target arity).Finite →
      ∀ lenient symbols, reference.Lists arity symbols →
        reference.SearchEnds target arity lenient symbols) ∧
    (∀ (reference : FiniteMachine σ α) (target : FiniteMachine τ α) (arity : Nat),
      (reference.together target.toMachine arity).Finite ∧
      (reference.together target.toMachine arity).ncard ≤
        reference.states.length * target.states.length ∧
      ∀ lenient symbols, reference.Lists arity symbols →
        reference.SearchEnds target.toMachine arity lenient symbols) ∧
    ∀ graph : Graph α, graph.Reachable → ∀ (target : Machine τ α) (arity : Nat),
      (graph.machine.together target arity).Finite ∧
      (graph.machine.together target arity).ncard ≤ (graph.arity + 1) ^ graph.stateCount ∧
      ∀ lenient symbols, graph.machine.Lists arity symbols →
        graph.machine.SearchEnds target arity lenient symbols := by
  refine ⟨fun reference target arity hfinite lenient symbols hsymbols => ?_,
    fun reference target arity => ?_, fun graph h target arity => ?_⟩
  · exact reference.searchEnds target arity lenient symbols hsymbols hfinite
  · have hfinite := reference.finite_together target arity
    refine ⟨hfinite, reference.ncard_together_le target arity, fun lenient symbols hsymbols => ?_⟩
    exact reference.searchEnds target.toMachine arity lenient symbols hsymbols hfinite
  · obtain ⟨hfinite, hcard⟩ := graph.ncard_together_le_of_arity h.sound target arity
    refine ⟨hfinite, hcard, fun lenient symbols hsymbols => ?_⟩
    exact graph.machine.searchEnds target arity lenient symbols hsymbols hfinite

/-- It answers `a` to everything, and is in a new state each time. -/
def counting : Machine Nat Char where
  initial := 0
  step count _ := some (count + 1, 'a')

/-- Two machines that come back to their starts; the word that separates them is read off one step
back.  And a graph, compared over a larger alphabet with a machine that comes back to no state. -/
theorem searches_end_counting :
    (Machine.turning.machine.together Machine.halting.machine.toMachine 2).Finite ∧
    Machine.turning.machine.Lists 2 (Machine.turning.machine.symbolsBelow 2) ∧
    (∃ (visits : List (Visit Nat Nat)) (pair : Nat × Nat) (path : List (Nat × Nat)),
      Machine.turning.machine.compare Machine.halting.machine.toMachine
        (Machine.turning.machine.symbolsBelow 2) true 20 = .separated [0, 1] ∧
      Search.Climbs visits pair path [0] ∧ path.Nodup ∧ path.getLast? = some (0, 0)) ∧
    sharedStep.Reachable ∧ sharedStep.machine.Lists 3 (fun _ => List.range 3) ∧
    (sharedStep.machine.together counting 3).Finite ∧
    sharedStep.machine.SearchEnds counting 3 false (fun _ => List.range 3) := by
  have hreach : sharedStep.Reachable := ⟨2, _, rfl⟩
  have hturning := Machine.turning.machine.lists_symbolsBelow 2
  have hshared := sharedStep.machine.lists_range 3
  obtain ⟨hmachines, hfinite, _⟩ := searches_end (σ := Nat) (τ := Nat) (α := Char)
  obtain ⟨_, _, hgraphs⟩ := searches_end (σ := StateId) (τ := Nat) (α := Char)
  obtain ⟨hpairs, hcard, _⟩ := hfinite Machine.turning.machine Machine.halting.machine 2
  obtain ⟨hmet, _, hends⟩ := hgraphs sharedStep hreach counting 3
  refine ⟨hpairs, hturning, ?_, hreach, hshared, hmet, hends false _ hshared⟩
  have hback := hmachines _ _ 2 hpairs true _ hturning
  have hfirst : Machine.turning.machine.SeparatesFirst Machine.halting.machine.toMachine 2 true
      [0, 1] := by decide
  have hrounds : _ ≤ 20 := hcard
  have hverdict := (Machine.holds_compare _ _ 2 true _ hturning hpairs 20 hrounds).unique
    (show Machine.Holds _ _ 2 true (.separated [0, 1]) from hfirst)
  obtain ⟨done, hand, search, hpasses, hstops⟩ := hback.stops 20
  rw [hverdict] at hstops
  generalize hfound : Verdict.separated [0, 1] = verdict at hstops
  cases hstops with
  | inseparable => cases hfound
  | unfinished => cases hfound
  | separated pair symbol left _ =>
    obtain ⟨path, hclimbs, hnodup, hlast, _⟩ := hback.climbs done pair _ search hpasses
    have hword := List.reverse_eq_iff.mp (Verdict.separated.inj hfound).symm
    obtain ⟨_, hway⟩ := List.cons.inj hword
    rw [hway] at hclimbs
    exact ⟨search.visits, pair, path, hverdict.trans hfound, hclimbs, hnodup, hlast⟩

end Graph

end TraceGraph
