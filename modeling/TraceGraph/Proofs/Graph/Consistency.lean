import Mathlib
import TraceGraph.Proofs.Graph.Comparing
import TraceGraph.Proofs.Graph.Histories

/-! # Consistency with the accepted traces

A graph reads the beginnings of the traces that its history accepted.  A machine therefore agrees
with the graph if and only if it agrees with those traces, and a word that separates the two begins
one of them. -/
namespace TraceGraph
set_option autoImplicit false

namespace Machine

variable {τ α : Type}

/-- The machine answers every trace with the outputs of the trace. -/
def Reproduces (machine : Machine τ α) (traces : List (List Nat × List α)) : Prop :=
  ∀ trace ∈ traces, machine.answer trace.1 = some trace.2

/-- As far as the machine answers a trace, it gives the outputs of the trace. -/
def Tolerates (machine : Machine τ α) (traces : List (List Nat × List α)) : Prop :=
  ∀ trace ∈ traces, ∀ front outputs, front <+: trace.1 → machine.answer front = some outputs →
    outputs <+: trace.2

end Machine

namespace Graph

variable {τ α : Type} [DecidableEq α] (arity : Nat) (history : List (Call α))
  (target : Machine τ α)

/-- What a graph reads after a history, it reads of the accepted traces. -/
theorem agrees_after_iff (lenient : Bool) :
    (after arity history).machine.Agrees target (after arity history).arity lenient ↔
      ∀ trace ∈ (new arity).traces history, ∀ front, front <+: trace.1 →
        target.answer front = some (trace.2.take front.length) ∨
          (target.answer front = none ∧ lenient = true) := by
  have hsound : (after arity history).Sound := Reachable.sound _ ⟨arity, history, rfl⟩
  rw [agrees_machine_iff _ hsound target]
  constructor
  · intro hall trace hmem front hpre
    refine hall front _ ((reading_after_iff arity history front _).mpr (.inr ?_))
    exact ⟨trace, hmem, hpre, rfl⟩
  · intro hall word outputs hread
    rcases (reading_after_iff arity history word outputs).mp hread with
      ⟨rfl, rfl⟩ | ⟨trace, hmem, hpre, rfl⟩
    · exact .inl target.answer_nil
    · exact hall trace hmem word hpre

theorem agrees_after_iff_reproduces :
    (after arity history).machine.Agrees target (after arity history).arity false ↔
      target.Reproduces ((new arity).traces history) := by
  rw [agrees_after_iff]
  constructor
  · intro hall trace hmem
    have hlen := length_of_traces (new arity) (sound_new arity) history trace hmem
    have hanswer := (hall trace hmem trace.1 List.prefix_rfl).resolve_right (by simp)
    rw [hlen, List.take_length] at hanswer
    exact hanswer
  · intro hall trace hmem front hpre
    exact .inl (target.answer_of_prefix trace.1 trace.2 front hpre (hall trace hmem))

theorem agrees_after_iff_tolerates :
    (after arity history).machine.Agrees target (after arity history).arity true ↔
      target.Tolerates ((new arity).traces history) := by
  rw [agrees_after_iff]
  constructor
  · intro hall trace hmem front outputs hpre hanswer
    rcases hall trace hmem front hpre with hsame | ⟨hnone, _⟩
    · rw [Option.some.inj (hanswer.symm.trans hsame)]
      exact List.take_prefix _ _
    · cases hanswer.symm.trans hnone
  · intro hall trace hmem front hpre
    cases hanswer : target.answer front with
    | none => exact .inr ⟨rfl, rfl⟩
    | some outputs =>
      have hpre' := hall trace hmem front outputs hpre hanswer
      rw [← target.length_answer front outputs hanswer, ← List.prefix_iff_eq_take.mp hpre']
      exact .inl rfl

variable [DecidableEq τ] [Hashable τ]

/-- A separating word is missing exactly when the target is consistent with every trace that the
history accepted, and otherwise begins such a trace. -/
theorem separatingWord_after :
    ((after arity history).separatingWord target false = none ↔
        target.Reproduces ((new arity).traces history)) ∧
      ((after arity history).separatingWord target true = none ↔
        target.Tolerates ((new arity).traces history)) ∧
      ∀ lenient word, (after arity history).separatingWord target lenient = some word →
        ∃ trace ∈ (new arity).traces history, word <+: trace.1 := by
  have hsound : (after arity history).Sound := Reachable.sound _ ⟨arity, history, rfl⟩
  refine ⟨?_, ?_, fun lenient word hsome => ?_⟩
  · rw [separatingWord_eq_none_iff _ hsound, agrees_after_iff_reproduces]
  · rw [separatingWord_eq_none_iff _ hsound, agrees_after_iff_tolerates]
  · obtain ⟨⟨begin, symbol, outputs, expected, rfl, _, hanswer, _⟩, _⟩ :=
      (separatingWord_eq_some_iff _ hsound target lenient word).mp hsome
    rw [answer_machine, reading_after_iff] at hanswer
    rcases hanswer with ⟨hnil, _⟩ | ⟨trace, hmem, hpre, _⟩
    · simp at hnil
    · exact ⟨trace, hmem, hpre⟩

/-- The second call contradicts the first one, and the third goes on after the symbol `0`. -/
def contradicted : List (Call Char) :=
  [.insert [0, 0] ['a', 'b'], .insert [0, 1] ['c', 'c'], .insertAfter [0] [1] ['c']]

/-- Two states, between which the symbol `0` goes back and forth; the second one answers `1` with
`output`. -/
def backAndForth (output : Char) : Machine Nat Char :=
  (Table.mk 0 #[#[some (1, 'a')], #[some (0, 'b'), some (1, output)]]).machine.toMachine

/-- The machine that answers both accepted traces agrees with the graph; with another output the two
are told apart, by a beginning of one of the traces. -/
theorem separatingWord_after_contradicted :
    (new 2).traces contradicted = [([0, 0], ['a', 'b']), ([0, 1], ['a', 'c'])] ∧
      (backAndForth 'c').Reproduces ((new 2).traces contradicted) ∧
      (after 2 contradicted).separatingWord (backAndForth 'c') false = none ∧
      ¬ (backAndForth 'd').Tolerates ((new 2).traces contradicted) ∧
      ∃ word, (after 2 contradicted).separatingWord (backAndForth 'd') true = some word ∧
        ∃ trace ∈ (new 2).traces contradicted, word <+: trace.1 := by
  have htraces : (new 2).traces contradicted = [([0, 0], ['a', 'b']), ([0, 1], ['a', 'c'])] := by
    cbv
  have hagrees : (backAndForth 'c').Reproduces ((new 2).traces contradicted) := by
    rw [htraces]
    exact List.forall_mem_cons.mpr ⟨rfl, List.forall_mem_singleton.mpr rfl⟩
  have hdiffers : ¬ (backAndForth 'd').Tolerates ((new 2).traces contradicted) := by
    rw [htraces]
    intro htolerates
    have hpre := htolerates _ (List.mem_cons_of_mem _ List.mem_cons_self) [0, 1] ['a', 'd']
      List.prefix_rfl rfl
    exact absurd hpre (by decide)
  obtain ⟨hstrict, _, _⟩ := separatingWord_after 2 contradicted (backAndForth 'c')
  obtain ⟨_, hlenient, hbegins⟩ := separatingWord_after 2 contradicted (backAndForth 'd')
  obtain ⟨word, hword⟩ := Option.ne_none_iff_exists'.mp (mt hlenient.mp hdiffers)
  exact ⟨htraces, hagrees, hstrict.mpr hagrees, hdiffers, word, hword, hbegins true word hword⟩

end Graph

end TraceGraph
