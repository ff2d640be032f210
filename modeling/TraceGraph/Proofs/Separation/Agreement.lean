import TraceGraph.Proofs.Separation.Meeting

/-! # Agreement

No word separates two machines exactly if the target agrees with the reference: on every word that
the reference answers it gives the same answer or, in a lenient comparison, none.  A machine that
answers a word answers each beginning of it, so agreement on a word settles all its beginnings. -/
namespace TraceGraph
set_option autoImplicit false

namespace Machine

variable {σ τ α : Type}

/-! ## Beginnings of an answered word -/

section

variable (machine : Machine σ α) (word : List Nat) (outputs : List α)

theorem answer_nil : machine.answer [] = some [] := rfl

theorem answer_concat_cases (symbol : Nat) (h : machine.answer (word ++ [symbol]) = some outputs) :
    ∃ front last, outputs = front ++ [last] ∧ machine.answer word = some front := by
  obtain ⟨final, hrun⟩ := (machine.answer_eq_some_iff _ outputs).mp h
  rw [runFrom_concat] at hrun
  obtain ⟨⟨front, state⟩, hfront, hstep⟩ := Option.bind_eq_some_iff.mp hrun
  obtain ⟨next, _, heq⟩ := Option.map_eq_some_iff.mp hstep
  refine ⟨front, next.2, (Prod.mk.inj heq).1.symm, ?_⟩
  exact (machine.answer_eq_some_iff word front).mpr ⟨state, hfront⟩

theorem length_answer (h : machine.answer word = some outputs) :
    outputs.length = word.length := by
  induction word using List.reverseRecOn generalizing outputs with
  | nil =>
    cases h
    rfl
  | append_singleton word symbol ih =>
    obtain ⟨front, last, rfl, hfront⟩ := machine.answer_concat_cases word outputs symbol h
    rw [List.length_append, List.length_append, ih front hfront]
    rfl

theorem answer_of_prefix (front : List Nat) (hpre : front <+: word)
    (h : machine.answer word = some outputs) :
    machine.answer front = some (outputs.take front.length) := by
  obtain ⟨rest, rfl⟩ := hpre
  induction rest using List.reverseRecOn generalizing outputs with
  | nil =>
    rw [List.append_nil] at h
    rw [← machine.length_answer front outputs h, List.take_length, h]
  | append_singleton rest symbol ih =>
    rw [← List.append_assoc] at h
    obtain ⟨begin, last, rfl, hbegin⟩ := machine.answer_concat_cases _ outputs symbol h
    have hlen := machine.length_answer _ begin hbegin
    rw [List.length_append] at hlen
    rw [ih begin hbegin, List.take_append_of_le_length (by omega)]

end

/-! ## Words on which two machines agree -/

variable (reference : Machine σ α) (target : Machine τ α) (arity : Nat) (lenient : Bool)

/-- The target answers every word over `arity` symbols as the reference does, if the reference
answers it; in a lenient comparison it need not answer. -/
def Agrees : Prop :=
  ∀ word outputs, (∀ symbol ∈ word, symbol < arity) → reference.answer word = some outputs →
    target.answer word = some outputs ∨ (target.answer word = none ∧ lenient = true)

theorem agrees_of_not_separates (h : ∀ word, ¬ reference.Separates target arity lenient word) :
    reference.Agrees target arity lenient := by
  intro word
  -- the last symbol of an answered word is the first on which the answers could differ
  induction word using List.reverseRecOn with
  | nil =>
    intro outputs _ hanswer
    exact .inl ((target.answer_nil).trans ((reference.answer_nil).symm.trans hanswer))
  | append_singleton word symbol ih =>
    intro outputs hinside hanswer
    obtain ⟨front, expected, rfl, hfront⟩ :=
      reference.answer_concat_cases word outputs symbol hanswer
    rcases ih front (List.forall_mem_append.mp hinside).1 hfront with hsame | ⟨hnone, hlenient⟩
    · cases hgiven : target.answer (word ++ [symbol]) with
      | none =>
        refine .inr ⟨rfl, by_contra fun hstrict => h (word ++ [symbol]) ?_⟩
        exact ⟨word, symbol, front, expected, rfl, hinside, hanswer, hsame,
          .inr ⟨hgiven, Bool.eq_false_of_not_eq_true hstrict⟩⟩
      | some all =>
        obtain ⟨front', given, rfl, hfront'⟩ := target.answer_concat_cases word all symbol hgiven
        obtain rfl : front = front' := Option.some.inj (hsame.symm.trans hfront')
        refine .inl (by_contra fun hne => h (word ++ [symbol]) ?_)
        exact ⟨word, symbol, front, expected, rfl, hinside, hanswer, hsame,
          .inl ⟨given, hgiven, fun he => hne (by rw [he])⟩⟩
    · cases hgiven : target.answer (word ++ [symbol]) with
      | none => exact .inr ⟨rfl, hlenient⟩
      | some all =>
        obtain ⟨front', _, _, hfront'⟩ := target.answer_concat_cases word all symbol hgiven
        cases hnone.symm.trans hfront'

theorem not_separates_of_agrees (h : reference.Agrees target arity lenient) (word : List Nat) :
    ¬ reference.Separates target arity lenient word := by
  rintro ⟨begin, symbol, outputs, expected, rfl, hinside, hanswer, _, hdiffer⟩
  rcases h _ _ hinside hanswer with hsame | ⟨hnone, hlenient⟩
  · rcases hdiffer with ⟨given, hgiven, hne⟩ | ⟨hnone, _⟩
    · refine hne ?_
      simpa using hgiven.symm.trans hsame
    · cases hnone.symm.trans hsame
  · rcases hdiffer with ⟨given, hgiven, _⟩ | ⟨_, hstrict⟩
    · cases hnone.symm.trans hgiven
    · cases hlenient.symm.trans hstrict

theorem agrees_iff : reference.Agrees target arity lenient ↔
    ¬ ∃ word, reference.Separates target arity lenient word :=
  ⟨fun h ⟨word, hword⟩ => reference.not_separates_of_agrees target arity lenient h word hword,
    fun h => reference.agrees_of_not_separates target arity lenient fun word hword =>
      h ⟨word, hword⟩⟩

end Machine

end TraceGraph
