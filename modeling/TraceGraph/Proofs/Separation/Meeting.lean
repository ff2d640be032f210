import Mathlib.Data.Set.Card
import TraceGraph.Proofs.Separation.Shortlex
import TraceGraph.Separation

/-! # Machines that read one word

A word that two machines read with the same outputs leads to a pair of states, and the next symbol
either leads on to another pair, or separates the machines, or can do neither.  So the words that
separate two machines are those that lead to a pair and go on by a symbol on which its states
differ. -/
namespace TraceGraph
set_option autoImplicit false

namespace Machine

variable {σ τ α : Type}

theorem runFrom_concat (machine : Machine σ α) (state : σ) (word : List Nat) (symbol : Nat) :
    machine.runFrom state (word ++ [symbol]) = (machine.runFrom state word).bind fun read =>
      (machine.step read.2 symbol).map fun next => (read.1 ++ [next.2], next.1) := by
  induction word generalizing state with
  | nil =>
    simp only [List.nil_append, runFrom, Option.bind_eq_bind, Option.bind_some]
    cases machine.step state symbol with
    | none => rfl
    | some next => rfl
  | cons first word ih =>
    simp only [List.cons_append, runFrom, Option.bind_eq_bind, ih]
    cases machine.step state first with
    | none => rfl
    | some next =>
      simp only [Option.bind_some]
      cases machine.runFrom next.1 word with
      | none => rfl
      | some read =>
        simp only [Option.bind_some, Option.pure_def]
        cases machine.step read.2 symbol with
        | none => rfl
        | some last => rfl

theorem answer_eq_some_iff (machine : Machine σ α) (word : List Nat) (outputs : List α) :
    machine.answer word = some outputs ↔
      ∃ last, machine.runFrom machine.initial word = some (outputs, last) := by
  simp [answer]

/-- How an answer goes on by one symbol from the state that the run has come to. -/
theorem answer_concat (machine : Machine σ α) (word : List Nat) (symbol : Nat) (outputs : List α)
    (last : σ) (h : machine.runFrom machine.initial word = some (outputs, last)) :
    machine.answer (word ++ [symbol]) =
      (machine.step last symbol).map fun next => outputs ++ [next.2] := by
  rw [answer, runFrom_concat, h, Option.bind_some, Option.map_map]
  rfl

/-! ## Pairs of states -/

/-- Both machines read `word` with the same outputs, and then are in the states `pair`. -/
def Meets (reference : Machine σ α) (target : Machine τ α) (word : List Nat)
    (pair : σ × τ) : Prop :=
  ∃ outputs, reference.runFrom reference.initial word = some (outputs, pair.1) ∧
    target.runFrom target.initial word = some (outputs, pair.2)

/-- The pairs to which words over `arity` symbols lead. -/
def together (reference : Machine σ α) (target : Machine τ α) (arity : Nat) : Set (σ × τ) :=
  {pair | ∃ word, (∀ symbol ∈ word, symbol < arity) ∧ reference.Meets target word pair}

theorem Meets.unique {reference : Machine σ α} {target : Machine τ α} {word : List Nat}
    {pair other : σ × τ} (h : reference.Meets target word pair)
    (h' : reference.Meets target word other) : pair = other := by
  obtain ⟨outputs, hleft, hright⟩ := h
  obtain ⟨outputs', hleft', hright'⟩ := h'
  rw [hleft, Option.some.injEq, Prod.mk.injEq] at hleft'
  rw [hright, Option.some.injEq, Prod.mk.injEq] at hright'
  exact Prod.ext hleft'.2 hright'.2

section

variable (reference : Machine σ α) (target : Machine τ α)

theorem meets_nil (pair : σ × τ) :
    reference.Meets target [] pair ↔ pair = (reference.initial, target.initial) := by
  constructor
  · rintro ⟨outputs, hleft, hright⟩
    simp only [runFrom, Option.some.injEq, Prod.mk.injEq] at hleft hright
    exact Prod.ext hleft.2.symm hright.2.symm
  · rintro rfl
    exact ⟨[], rfl, rfl⟩

variable [DecidableEq α] (lenient : Bool)

theorem compareOn_eq_agreed_iff (pair next : σ × τ) (symbol : Nat) :
    Search.compareOn reference target lenient pair symbol = .agreed next ↔
      ∃ output, reference.step pair.1 symbol = some (next.1, output) ∧
        target.step pair.2 symbol = some (next.2, output) := by
  obtain ⟨left, right⟩ := next
  unfold Search.compareOn
  cases reference.step pair.1 symbol with
  | none => simp
  | some expected =>
    cases target.step pair.2 symbol with
    | none => cases lenient <;> simp
    | some given =>
      by_cases hsame : given.2 = expected.2
      · simp only [if_pos hsame, Comparison.agreed.injEq, Prod.mk.injEq, Option.some.injEq]
        constructor
        · rintro ⟨rfl, rfl⟩
          exact ⟨expected.2, rfl, Prod.ext rfl hsame⟩
        · rintro ⟨output, rfl, rfl⟩
          exact ⟨rfl, rfl⟩
      · simp only [if_neg hsame, reduceCtorEq, Option.some.injEq, false_iff]
        rintro ⟨output, rfl, rfl⟩
        exact hsame rfl

theorem compareOn_eq_separated_iff (pair : σ × τ) (symbol : Nat) :
    Search.compareOn reference target lenient pair symbol = .separated ↔
      ∃ left expected, reference.step pair.1 symbol = some (left, expected) ∧
        ((∃ right given, target.step pair.2 symbol = some (right, given) ∧ given ≠ expected) ∨
          (target.step pair.2 symbol = none ∧ lenient = false)) := by
  unfold Search.compareOn
  cases reference.step pair.1 symbol with
  | none => simp
  | some next =>
    obtain ⟨left, expected⟩ := next
    cases target.step pair.2 symbol with
    | none => cases lenient <;> simp
    | some next =>
      obtain ⟨right, given⟩ := next
      by_cases hsame : given = expected
      · simp [hsame]
      · simp [hsame]

theorem meets_concat (word : List Nat) (symbol : Nat) (next : σ × τ) :
    reference.Meets target (word ++ [symbol]) next ↔ ∃ pair, reference.Meets target word pair ∧
      Search.compareOn reference target lenient pair symbol = .agreed next := by
  simp only [compareOn_eq_agreed_iff, Meets, runFrom_concat]
  constructor
  · rintro ⟨all, hleft, hright⟩
    obtain ⟨⟨outputs, left⟩, hfirst, hstep⟩ := Option.bind_eq_some_iff.mp hleft
    obtain ⟨⟨outputs', right⟩, hfirst', hstep'⟩ := Option.bind_eq_some_iff.mp hright
    obtain ⟨⟨left', output⟩, hs, he⟩ := Option.map_eq_some_iff.mp hstep
    obtain ⟨⟨right', output'⟩, hs', he'⟩ := Option.map_eq_some_iff.mp hstep'
    simp only [Prod.mk.injEq] at he he'
    obtain ⟨hout, hlast⟩ := List.append_inj' (he.1.trans he'.1.symm) rfl
    obtain rfl : output = output' := by simpa using hlast
    refine ⟨(left, right), ⟨outputs, hfirst, hout ▸ hfirst'⟩, output, ?_, ?_⟩
    · rw [hs, he.2]
    · rw [hs', he'.2]
  · rintro ⟨pair, ⟨outputs, hfirst, hfirst'⟩, output, hs, hs'⟩
    exact ⟨outputs ++ [output], by rw [hfirst, Option.bind_some, hs]; rfl,
      by rw [hfirst', Option.bind_some, hs']; rfl⟩

end

/-! ## Separating words -/

/-- The reference reads all of a word over `arity` symbols, the target reads the word up to its last
symbol with the same outputs, and on this symbol it gives another output or, in a comparison that is
not lenient, none. -/
def Separates (reference : Machine σ α) (target : Machine τ α) (arity : Nat) (lenient : Bool)
    (word : List Nat) : Prop :=
  ∃ begin symbol outputs expected, word = begin ++ [symbol] ∧ (∀ other ∈ word, other < arity) ∧
    reference.answer word = some (outputs ++ [expected]) ∧ target.answer begin = some outputs ∧
    ((∃ given, target.answer word = some (outputs ++ [given]) ∧ given ≠ expected) ∨
      (target.answer word = none ∧ lenient = false))

theorem Separates.inside {reference : Machine σ α} {target : Machine τ α} {arity : Nat}
    {lenient : Bool} {word : List Nat} (h : reference.Separates target arity lenient word) :
    ∀ symbol ∈ word, symbol < arity := by
  obtain ⟨_, _, _, _, _, hinside, _⟩ := h
  exact hinside

/-- The first separating word in shortlex order. -/
def SeparatesFirst (reference : Machine σ α) (target : Machine τ α) (arity : Nat) (lenient : Bool)
    (word : List Nat) : Prop :=
  reference.Separates target arity lenient word ∧
    ∀ other, reference.Separates target arity lenient other → UpTo word other

theorem SeparatesFirst.unique {reference : Machine σ α} {target : Machine τ α} {arity : Nat}
    {lenient : Bool} {word other : List Nat}
    (h : reference.SeparatesFirst target arity lenient word)
    (h' : reference.SeparatesFirst target arity lenient other) : word = other :=
  (h.2 other h'.1).antisymm (h'.2 word h.1)

/-- A separating word is the first one if none of those that are no longer comes before it. -/
theorem separatesFirst_iff (reference : Machine σ α) (target : Machine τ α) (arity : Nat)
    (lenient : Bool) (word : List Nat) :
    reference.SeparatesFirst target arity lenient word ↔
      reference.Separates target arity lenient word ∧ ∀ length ≤ word.length,
        ∀ other ∈ wordsOf arity length, reference.Separates target arity lenient other →
          UpTo word other := by
  constructor
  · exact fun h => ⟨h.1, fun _ _ other _ hother => h.2 other hother⟩
  · rintro ⟨hword, hshort⟩
    refine ⟨hword, fun other hother => ?_⟩
    by_cases hle : other.length ≤ word.length
    · exact hshort other.length hle other (mem_wordsOf arity other hother.inside) hother
    · exact .inr (.of_length_lt (by omega))

theorem separates_iff [DecidableEq α] (reference : Machine σ α) (target : Machine τ α) (arity : Nat)
    (lenient : Bool) (word : List Nat) :
    reference.Separates target arity lenient word ↔ ∃ begin symbol pair,
      word = begin ++ [symbol] ∧ (∀ other ∈ word, other < arity) ∧
      reference.Meets target begin pair ∧
      Search.compareOn reference target lenient pair symbol = .separated := by
  simp only [compareOn_eq_separated_iff]
  constructor
  · rintro ⟨begin, symbol, outputs, expected, rfl, hword, hreference, htarget, hdiffer⟩
    obtain ⟨right, hright⟩ := (target.answer_eq_some_iff begin outputs).mp htarget
    obtain ⟨all, hall⟩ := (reference.answer_eq_some_iff _ _).mp hreference
    rw [runFrom_concat] at hall
    obtain ⟨⟨outputs', left⟩, hleft, hstep⟩ := Option.bind_eq_some_iff.mp hall
    obtain ⟨⟨next, expected'⟩, hs, he⟩ := Option.map_eq_some_iff.mp hstep
    simp only [Prod.mk.injEq] at he
    obtain ⟨rfl, hlast⟩ := List.append_inj' he.1 rfl
    obtain rfl : expected' = expected := by simpa using hlast
    rw [target.answer_concat begin symbol outputs' right hright] at hdiffer
    refine ⟨begin, symbol, (left, right), rfl, hword, ⟨outputs', hleft, hright⟩, next, expected',
      hs, hdiffer.imp ?_ ?_⟩
    · rintro ⟨given, hgiven, hne⟩
      obtain ⟨⟨right', given'⟩, hs', he'⟩ := Option.map_eq_some_iff.mp hgiven
      obtain rfl : given' = given := by simpa using he'
      exact ⟨right', given', hs', hne⟩
    · exact fun hnone => ⟨Option.map_eq_none_iff.mp hnone.1, hnone.2⟩
  · rintro ⟨begin, symbol, pair, rfl, hword, ⟨outputs, hleft, hright⟩, next, expected, hs, hdiffer⟩
    refine ⟨begin, symbol, outputs, expected, rfl, hword, ?_, ?_, ?_⟩
    · rw [reference.answer_concat begin symbol outputs pair.1 hleft, hs]
      rfl
    · exact (target.answer_eq_some_iff begin outputs).mpr ⟨pair.2, hright⟩
    · rw [target.answer_concat begin symbol outputs pair.2 hright]
      refine hdiffer.imp ?_ fun hnone => ⟨Option.map_eq_none_iff.mpr hnone.1, hnone.2⟩
      rintro ⟨right, given, hs', hne⟩
      exact ⟨given, by rw [hs']; rfl, hne⟩

end Machine

/-! ## Deciding which words separate -/

deriving instance DecidableEq for Comparison

namespace Machine

variable {σ τ α : Type} [DecidableEq α] (reference : Machine σ α) (target : Machine τ α)

/-- The pair to which `word` leads. -/
def meeting (word : List Nat) : Option (σ × τ) := do
  let (expected, left) ← reference.runFrom reference.initial word
  let (given, right) ← target.runFrom target.initial word
  if given = expected then some (left, right) else none

theorem meeting_eq_some_iff (word : List Nat) (pair : σ × τ) :
    reference.meeting target word = some pair ↔ reference.Meets target word pair := by
  obtain ⟨left, right⟩ := pair
  unfold meeting Meets
  cases reference.runFrom reference.initial word with
  | none => simp
  | some expected =>
    cases target.runFrom target.initial word with
    | none => simp
    | some given =>
      by_cases hsame : given.1 = expected.1
      · simp [Prod.ext_iff, hsame]
      · simp [Prod.ext_iff, hsame]

instance decidableSeparates [DecidableEq σ] [DecidableEq τ] (arity : Nat) (lenient : Bool)
    (word : List Nat) : Decidable (reference.Separates target arity lenient word) :=
  decidable_of_iff
    ((∀ other ∈ word, other < arity) ∧ ∃ symbol ∈ word.getLast?,
      ∃ pair ∈ reference.meeting target word.dropLast,
        Search.compareOn reference target lenient pair symbol = .separated) <| by
    rw [separates_iff]
    constructor
    · rintro ⟨hword, symbol, hlast, pair, hpair, hdiffer⟩
      exact ⟨word.dropLast, symbol, pair, (List.dropLast_append_getLast? symbol hlast).symm, hword,
        (reference.meeting_eq_some_iff target _ pair).mp hpair, hdiffer⟩
    · rintro ⟨front, symbol, pair, rfl, hword, hmeets, hdiffer⟩
      refine ⟨hword, symbol, by simp, pair, ?_, hdiffer⟩
      rw [List.dropLast_concat]
      exact (reference.meeting_eq_some_iff target front pair).mpr hmeets

instance decidableSeparatesFirst [DecidableEq σ] [DecidableEq τ] (arity : Nat) (lenient : Bool)
    (word : List Nat) : Decidable (reference.SeparatesFirst target arity lenient word) :=
  decidable_of_iff _ (reference.separatesFirst_iff target arity lenient word).symm

end Machine

/-! ## Pairs of finite machines -/

namespace FiniteMachine

variable {σ τ α : Type}

theorem runFrom_mem_states (machine : FiniteMachine σ α) (word : List Nat) (state last : σ)
    (outputs : List α) (hstate : state ∈ machine.states)
    (h : machine.runFrom state word = some (outputs, last)) : last ∈ machine.states := by
  induction word generalizing state outputs with
  | nil =>
    obtain ⟨-, rfl⟩ : [] = outputs ∧ state = last := by simpa [Machine.runFrom] using h
    exact hstate
  | cons symbol word ih =>
    simp only [Machine.runFrom, Option.bind_eq_bind, Option.bind_eq_some_iff] at h
    obtain ⟨⟨next, output⟩, hstep, ⟨rest, last'⟩, hrest, hlast⟩ := h
    obtain ⟨-, rfl⟩ : output :: rest = outputs ∧ last' = last := by simpa using hlast
    exact ih next rest (machine.step_mem state symbol next output hstep) hrest

variable [DecidableEq σ] [DecidableEq τ] (reference : FiniteMachine σ α)
  (target : FiniteMachine τ α) (arity : Nat)

theorem together_subset : reference.together target.toMachine arity ⊆
    (reference.states.toFinset ×ˢ target.states.toFinset : Finset (σ × τ)) := by
  rintro ⟨left, right⟩ ⟨word, -, outputs, hleft, hright⟩
  rw [Finset.mem_coe, Finset.mem_product, List.mem_toFinset, List.mem_toFinset]
  exact ⟨reference.runFrom_mem_states word _ left outputs reference.initial_mem hleft,
    target.runFrom_mem_states word _ right outputs target.initial_mem hright⟩

theorem finite_together : (reference.together target.toMachine arity).Finite :=
  (Finset.finite_toSet _).subset (reference.together_subset target arity)

theorem ncard_together_le : (reference.together target.toMachine arity).ncard ≤
    reference.states.length * target.states.length :=
  calc (reference.together target.toMachine arity).ncard
    _ ≤ (reference.states.toFinset ×ˢ target.states.toFinset).card := by
      rw [← Set.ncard_coe_finset]
      exact Set.ncard_le_ncard (reference.together_subset target arity) (Finset.finite_toSet _)
    _ = reference.states.toFinset.card * target.states.toFinset.card := Finset.card_product _ _
    _ ≤ reference.states.length * target.states.length :=
      Nat.mul_le_mul (List.toFinset_card_le _) (List.toFinset_card_le _)

end FiniteMachine

end TraceGraph
