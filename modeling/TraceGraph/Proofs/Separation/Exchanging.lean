import TraceGraph.Proofs.Separation.Agreement
import TraceGraph.Proofs.Separation.Exactness

/-! # Exchanging the machines

A comparison takes its two machines differently: it goes on where the reference has steps and asks
what the target does there.  A lenient one passes over the steps that either machine is missing, so
the same words separate whichever machine is the reference, and the first of them is found from both
sides. -/
namespace TraceGraph
set_option autoImplicit false

namespace Machine

variable {σ τ α : Type} (reference : Machine σ α) (target : Machine τ α) (arity : Nat)

/-! ## Pairs turned round -/

theorem meets_swap (word : List Nat) (pair : σ × τ) :
    target.Meets reference word pair.swap ↔ reference.Meets target word pair := by
  constructor
  · rintro ⟨outputs, hleft, hright⟩
    exact ⟨outputs, hright, hleft⟩
  · rintro ⟨outputs, hleft, hright⟩
    exact ⟨outputs, hright, hleft⟩

theorem together_swap : target.together reference arity =
    Prod.swap '' reference.together target arity := by
  ext ⟨right, left⟩
  constructor
  · rintro ⟨word, hinside, hmeets⟩
    exact ⟨(left, right), ⟨word, hinside, (reference.meets_swap target word _).mp hmeets⟩, rfl⟩
  · rintro ⟨pair, ⟨word, hinside, hmeets⟩, hpair⟩
    rw [← hpair]
    exact ⟨word, hinside, (reference.meets_swap target word pair).mpr hmeets⟩

theorem finite_together_swap (h : (reference.together target arity).Finite) :
    (target.together reference arity).Finite := by
  rw [reference.together_swap target arity]
  exact h.image Prod.swap

theorem ncard_together_swap : (target.together reference arity).ncard =
    (reference.together target arity).ncard := by
  rw [reference.together_swap target arity]
  exact Set.ncard_image_of_injective _ Prod.swap_injective

/-! ## Words that separate both ways -/

/-- A word that separates leniently is answered by both machines, alike up to its last symbol. -/
theorem separates_lenient_iff (word : List Nat) : reference.Separates target arity true word ↔
    (∀ symbol ∈ word, symbol < arity) ∧ ∃ outputs expected given,
      reference.answer word = some (outputs ++ [expected]) ∧
      target.answer word = some (outputs ++ [given]) ∧ given ≠ expected := by
  constructor
  · rintro ⟨begin, symbol, outputs, expected, rfl, hinside, hexpected, _, hdiffer⟩
    obtain ⟨given, hgiven, hne⟩ := hdiffer.resolve_right (by simp)
    exact ⟨hinside, outputs, expected, given, hexpected, hgiven, hne⟩
  · rintro ⟨hinside, outputs, expected, given, hexpected, hgiven, hne⟩
    have hlen := target.length_answer word _ hgiven
    obtain ⟨begin, symbol, rfl⟩ : ∃ begin symbol, word = begin ++ [symbol] := by
      refine (List.eq_nil_or_concat' word).resolve_left ?_
      rintro rfl
      simp at hlen
    have hbegin : begin.length = outputs.length := by simpa using hlen.symm
    refine ⟨begin, symbol, outputs, expected, rfl, hinside, hexpected, ?_,
      .inl ⟨given, hgiven, hne⟩⟩
    rw [target.answer_of_prefix _ _ begin (List.prefix_append _ _) hgiven, hbegin,
      List.take_left]

theorem separates_comm (word : List Nat) : target.Separates reference arity true word ↔
    reference.Separates target arity true word := by
  rw [separates_lenient_iff, separates_lenient_iff]
  constructor
  · rintro ⟨hinside, outputs, expected, given, hexpected, hgiven, hne⟩
    exact ⟨hinside, outputs, given, expected, hgiven, hexpected, hne.symm⟩
  · rintro ⟨hinside, outputs, expected, given, hexpected, hgiven, hne⟩
    exact ⟨hinside, outputs, given, expected, hgiven, hexpected, hne.symm⟩

/-! ## Verdicts -/

theorem Holds.swap {reference : Machine σ α} {target : Machine τ α} {arity : Nat}
    {verdict : Verdict} (h : reference.Holds target arity true verdict) :
    target.Holds reference arity true verdict := by
  have hcomm := reference.separates_comm target arity
  cases verdict with
  | unfinished => exact h
  | inseparable => exact fun word hword => h word ((hcomm word).mp hword)
  | separated word =>
    exact ⟨(hcomm word).mpr h.1, fun other hother => h.2 other ((hcomm other).mp hother)⟩

/-- A verdict that says something true is the only one. -/
theorem Holds.unique {reference : Machine σ α} {target : Machine τ α} {arity : Nat}
    {lenient : Bool} {verdict other : Verdict} (h : reference.Holds target arity lenient verdict)
    (h' : reference.Holds target arity lenient other) : verdict = other := by
  cases verdict with
  | unfinished => exact h.elim
  | inseparable =>
    cases other with
    | unfinished => exact h'.elim
    | inseparable => rfl
    | separated word => exact absurd h'.1 (h word)
  | separated word =>
    cases other with
    | unfinished => exact h'.elim
    | inseparable => exact absurd h.1 (h' word)
    | separated found => rw [SeparatesFirst.unique h h']

variable [DecidableEq σ] [DecidableEq τ] [Hashable σ] [Hashable τ] [DecidableEq α]

theorem compare_swap (symbols : σ → List Nat) (symbols' : τ → List Nat)
    (hsymbols : reference.Lists arity symbols) (hsymbols' : target.Lists arity symbols')
    (hfinite : (reference.together target arity).Finite) (rounds rounds' : Nat)
    (hrounds : (reference.together target arity).ncard ≤ rounds)
    (hrounds' : (reference.together target arity).ncard ≤ rounds') :
    reference.compare target symbols true rounds ≠ .unfinished ∧
      reference.compare target symbols true rounds =
        target.compare reference symbols' true rounds' := by
  have hleft := reference.holds_compare target arity true symbols hsymbols hfinite rounds hrounds
  have hright := target.holds_compare reference arity true symbols' hsymbols'
    (reference.finite_together_swap target arity hfinite) rounds'
    (reference.ncard_together_swap target arity ▸ hrounds')
  exact ⟨hleft.ne_unfinished, hleft.unique hright.swap⟩

end Machine

end TraceGraph
