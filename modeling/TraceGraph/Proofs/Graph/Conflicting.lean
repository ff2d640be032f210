import Mathlib
import TraceGraph.Proofs.Graph.Comparing
import TraceGraph.Proofs.Graph.Histories
import TraceGraph.Proofs.Separation.Exchanging

/-! # Conflicting graphs

A lenient comparison of two graphs looks for a word that both record with different outputs.  An
insertion into one graph of what the other records is refused for the same reason, though it follows
the trace itself: no word is found exactly if all insertions are accepted, and the word that is
found is refused at its last symbol. -/
namespace TraceGraph
set_option autoImplicit false

namespace Graph

variable {α : Type} [DecidableEq α]

section

variable (graph : Graph α) (h : graph.Sound)

include h

/-! ## Accepted and refused traces -/

/-- A trace that begins with all that is recorded of its input is accepted. -/
theorem exists_ok_of_prefix (input : List Nat) (output recorded : List α)
    (hlongest : graph.pool.store.Longest graph.root input recorded)
    (hlen : input.length = output.length) (hsym : ∀ symbol ∈ input, symbol < graph.arity)
    (hpre : recorded <+: output) :
    ∃ fresh, (graph.insert input output).result = .ok fresh := by
  have hresult := graph.result_iff_decides h input output recorded hlongest
  by_cases hsame : recorded = output
  · exact ⟨false, (hresult _).mpr (.known hlen hsym hsame)⟩
  · refine ⟨true, (hresult _).mpr (.fresh hlen hsym ?_ hsame)⟩
    rintro ⟨place, known, given, hfirst⟩
    obtain ⟨rest, rfl⟩ := hpre
    have hlt := (List.getElem?_eq_some_iff.mp hfirst.known_eq).1
    have hgiven := hfirst.given_eq
    rw [List.getElem?_append_left hlt, hfirst.known_eq] at hgiven
    exact hfirst.ne (Option.some.inj hgiven)

/-- A recorded word with another last output is refused at its last symbol. -/
theorem conflict_of_reading (word : List Nat) (outputs : List α) (known given : α)
    (hread : graph.reading word = some (outputs ++ [known])) (hne : given ≠ known) :
    (graph.insert word (outputs ++ [given])).result =
      .error (.refused (.conflict (word.length - 1) known given)) := by
  have hlongest := graph.longest_of_reading word _ hread
  have hlen := graph.pool.store.length_residual graph.root word _ hread
  have hplace : word.length - 1 = outputs.length := by
    rw [← hlen, List.length_append]
    rfl
  have hfirst : DiffersFirst (outputs ++ [known]) (outputs ++ [given]) outputs.length known given :=
    { known_eq := List.getElem?_concat_length
      given_eq := List.getElem?_concat_length
      ne := hne.symm
      before := fun earlier hlt => by
        rw [List.getElem?_append_left hlt, List.getElem?_append_left hlt] }
  refine (graph.result_iff_decides h word _ _ hlongest _).mpr ?_
  rw [hplace]
  refine .conflict ?_ (graph.lt_arity_of_reading h word _ hread) _ known given hfirst
  simpa using hlen.symm

/-! ## Two graphs -/

variable (other : Graph α) (h' : other.Sound) (harity : graph.arity = other.arity)

include h' harity

/-- Two graphs agree exactly if the one accepts whatever the other records. -/
theorem agrees_iff_insert : graph.machine.Agrees other.machine.toMachine graph.arity true ↔
    ∀ word outputs, other.reading word = some outputs →
      ∃ fresh, (graph.insert word outputs).result = .ok fresh := by
  rw [graph.agrees_machine_iff h]
  simp only [other.answer_machine]
  constructor
  · intro hagree word outputs hread
    obtain ⟨recorded, hlongest⟩ := graph.pool.store.exists_longest graph.root word
    refine graph.exists_ok_of_prefix h word outputs recorded hlongest ?_ ?_ ?_
    · exact (other.pool.store.length_residual other.root word outputs hread).symm
    · rw [harity]
      exact other.lt_arity_of_reading h' word outputs hread
    · have hother : other.reading (word.take recorded.length) = some (outputs.take _) :=
        other.pool.store.residual_of_prefix other.root _ word outputs (List.take_prefix _ _) hread
      rcases hagree _ recorded hlongest.reads with hsame | ⟨hnone, _⟩
      · rw [← Option.some.inj (hother.symm.trans hsame)]
        exact List.take_prefix _ _
      · cases hother.symm.trans hnone
  · intro haccept word outputs hread
    cases hother : other.reading word with
    | none => exact .inr ⟨rfl, trivial⟩
    | some given =>
      obtain ⟨fresh, hok⟩ := haccept word given hother
      have hsame := graph.eq_take_of_reading h word given fresh hok word outputs List.prefix_rfl
        hread
      have hlen := other.pool.store.length_residual other.root word given hother
      rw [← hlen, List.take_length] at hsame
      exact .inl (congrArg some hsame.symm)

omit [DecidableEq α] h h' harity in
theorem separates_machine_iff (word : List Nat) (arity : Nat) :
    graph.machine.Separates other.machine.toMachine arity true word ↔
      (∀ symbol ∈ word, symbol < arity) ∧ ∃ outputs expected given,
        graph.reading word = some (outputs ++ [expected]) ∧
        other.reading word = some (outputs ++ [given]) ∧ given ≠ expected := by
  rw [Machine.separates_lenient_iff, graph.answer_machine, other.answer_machine]

theorem separatingWord_swap : graph.separatingWord other.machine.toMachine true =
    other.separatingWord graph.machine.toMachine true := by
  have hleft := graph.holds_separatingWord h other.machine.toMachine true
  have hright : other.machine.Holds graph.machine.toMachine graph.arity true
      (other.machine.compare graph.machine.toMachine (other.machine.symbolsBelow other.arity) true
        ((other.arity + 1) ^ other.stateCount)) := by
    rw [harity]
    exact other.holds_separatingWord h' graph.machine.toMachine true
  exact congrArg Verdict.word? (hleft.unique hright.swap)

end

/-- A lenient search finds the same word whichever machine is the reference, if words lead to
finitely many pairs.  Between graphs over one alphabet it finds none exactly if one graph accepts
all that the other records, and what it finds is refused there with both last outputs. -/
theorem lenient_search {σ τ : Type} [DecidableEq σ] [DecidableEq τ] [Hashable σ] [Hashable τ] :
    (∀ (reference : Machine σ α) (target : Machine τ α) (arity : Nat) (symbols : σ → List Nat)
      (symbols' : τ → List Nat), reference.Lists arity symbols → target.Lists arity symbols' →
      (reference.together target arity).Finite → ∀ rounds rounds' : Nat,
      (reference.together target arity).ncard ≤ rounds →
      (reference.together target arity).ncard ≤ rounds' →
      reference.compare target symbols true rounds ≠ .unfinished ∧
        reference.compare target symbols true rounds =
          target.compare reference symbols' true rounds') ∧
    ∀ graph other : Graph α, graph.Reachable → other.Reachable → graph.arity = other.arity →
      graph.separatingWord other.machine.toMachine true =
          other.separatingWord graph.machine.toMachine true ∧
      (graph.separatingWord other.machine.toMachine true = none ↔
        ∀ word outputs, other.replay word = .ok (some outputs) →
          ∃ fresh, (graph.insert word outputs).result = .ok fresh) ∧
      ∀ word, graph.separatingWord other.machine.toMachine true = some word →
        ∃ outputs known given, graph.replay word = .ok (some (outputs ++ [known])) ∧
          other.replay word = .ok (some (outputs ++ [given])) ∧
          (graph.insert word (outputs ++ [given])).result =
            .error (.refused (.conflict (word.length - 1) known given)) := by
  refine ⟨fun reference target arity => reference.compare_swap target arity, ?_⟩
  intro graph other hreach hreach' harity
  have h := hreach.sound
  have h' := hreach'.sound
  refine ⟨graph.separatingWord_swap h other h' harity, ?_, fun word hword => ?_⟩
  · rw [graph.separatingWord_eq_none_iff h, graph.agrees_iff_insert h other h' harity]
    simp only [other.replay_eq_some_iff h']
  · have hfirst := (graph.separatingWord_eq_some_iff h other.machine.toMachine true word).mp hword
    obtain ⟨_, outputs, known, given, hknown, hgiven, hne⟩ :=
      (graph.separates_machine_iff other word graph.arity).mp hfirst.1
    exact ⟨outputs, known, given, (graph.replay_eq_some_iff h word _).mpr hknown,
      (other.replay_eq_some_iff h' word _).mpr hgiven,
      graph.conflict_of_reading h word outputs known given hknown hne⟩

/-- It agrees with `sharedStep` on the first step of each word and on no second one. -/
def otherStep : Graph Char := after 2 [.insert [0, 1] ['a', 'd'], .insert [1, 0] ['c', 'z']]

theorem lenient_search_otherStep :
    Machine.turning.machine.compare Machine.halting.machine.toMachine (fun _ => List.range 2) true
        20 =
      Machine.halting.machine.compare Machine.turning.machine.toMachine (fun _ => List.range 2) true
        20 ∧
    sharedStep.Reachable ∧ otherStep.Reachable ∧ sharedStep.arity = otherStep.arity ∧
    otherStep.separatingWord sharedStep.machine.toMachine true = some [1, 0] ∧
    (sharedStep.insert [1, 0] ['c', 'z']).result = .error (.refused (.conflict 1 'b' 'z')) := by
  obtain ⟨hmachines, hgraphs⟩ := lenient_search (σ := Nat) (τ := Nat) (α := Char)
  have hfinite := Machine.turning.machine.finite_together Machine.halting.machine 2
  have hrounds : _ ≤ 20 := Machine.turning.machine.ncard_together_le Machine.halting.machine 2
  have hsame := hmachines Machine.turning.machine.toMachine Machine.halting.machine.toMachine 2 _ _
    (Machine.turning.machine.lists_range 2) (Machine.halting.machine.lists_range 2) hfinite 20 20
    hrounds hrounds
  have hreach : sharedStep.Reachable := ⟨2, _, rfl⟩
  have hreach' : otherStep.Reachable := ⟨2, _, rfl⟩
  have harity : sharedStep.arity = 2 := by cbv
  have harity' : otherStep.arity = 2 := by cbv
  obtain ⟨hswap, _, hfound⟩ :=
    hgraphs sharedStep otherStep hreach hreach' (harity.trans harity'.symm)
  have hword : sharedStep.separatingWord otherStep.machine.toMachine true = some [1, 0] := by
    rw [sharedStep.separatingWord_eq_some_iff hreach.sound, harity]
    decide +kernel
  obtain ⟨outputs, known, given, hknown, hgiven, hresult⟩ := hfound [1, 0] hword
  have hread : sharedStep.replay [1, 0] = .ok (some (['c'] ++ ['b'])) := by cbv
  have hread' : otherStep.replay [1, 0] = .ok (some (['c'] ++ ['z'])) := by cbv
  rw [hread, Except.ok.injEq, Option.some.injEq] at hknown
  rw [hread', Except.ok.injEq, Option.some.injEq] at hgiven
  obtain ⟨rfl, hlast⟩ := List.append_inj' hknown rfl
  obtain rfl : 'b' = known := by simpa using hlast
  obtain rfl : 'z' = given := by simpa using hgiven
  exact ⟨hsame.2, hreach, hreach', harity.trans harity'.symm, hswap ▸ hword, hresult⟩

end Graph

end TraceGraph
