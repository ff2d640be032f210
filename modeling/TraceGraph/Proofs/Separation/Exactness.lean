import Mathlib
import TraceGraph.Proofs.Separation.Passing

/-! # Exactness of the search

A search that expands one pair after the other stops at the first separating word, or when no pair
waits any more and no word separates.  Each round finishes a pair to which some word leads, so there
are no more rounds than such pairs. -/
namespace TraceGraph
set_option autoImplicit false

namespace Search

variable {σ τ α : Type} [DecidableEq σ] [DecidableEq τ] [Hashable σ] [Hashable τ] [DecidableEq α]
  {reference : Machine σ α} {target : Machine τ α} {lenient : Bool} {arity : Nat}
  {search : Search σ τ}

/-! ## One pair -/

namespace Expanding

variable {done : List (σ × τ)} {pair : σ × τ} {bound : Nat}
  (h : Expanding reference target lenient arity search done pair bound)

include h

/-- A pair whose steps were all tried does not separate, so a word that leads to one that does comes
no earlier than the word to the pair at hand. -/
theorem upTo_of_separated (word : List Nat) (symbol : Nat) (last : σ × τ)
    (hword : ∀ number ∈ word, number < arity) (hsymbol : symbol < arity)
    (hmeets : reference.Meets target word last)
    (hdiffer : compareOn reference target lenient last symbol = .separated) :
    UpTo (search.access pair) word := by
  rcases h.upTo_of_meets word last hword hmeets with ⟨hin, _⟩ | hupto
  · exact absurd hdiffer (h.sweeps.agrees last symbol (.inl ⟨hin, hsymbol⟩)).2.1
  · exact hupto

/-- The first step that separates completes the first separating word. -/
theorem separatesFirst (hbound : bound < arity)
    (hsep : compareOn reference target lenient pair bound = .separated) :
    reference.SeparatesFirst target arity lenient (search.access pair ++ [bound]) := by
  refine ⟨?_, fun other hother => ?_⟩
  · have hinside : ∀ number ∈ search.access pair ++ [bound], number < arity :=
      List.forall_mem_append.mpr ⟨h.sweeps.inside pair h.mem_entered,
        List.forall_mem_singleton.mpr hbound⟩
    exact (reference.separates_iff target arity lenient _).mpr
      ⟨_, bound, pair, rfl, hinside, h.sweeps.meets pair h.mem_entered, hsep⟩
  · obtain ⟨word, symbol, last, rfl, hword, hmeets, hdiffer⟩ :=
      (reference.separates_iff target arity lenient other).mp hother
    obtain ⟨hfront, hsymbol⟩ := List.forall_mem_append.mp hword
    rcases h.upTo_of_separated word symbol last hfront (hsymbol symbol List.mem_cons_self) hmeets
      hdiffer with rfl | hlt
    · -- the word leads to the pair at hand, and the symbols before `bound` do not separate it
      obtain rfl := (h.sweeps.meets pair h.mem_entered).unique hmeets
      have hnot : ¬ symbol < bound := fun hlt =>
        (h.sweeps.agrees pair symbol (.inr ⟨rfl, hlt⟩)).2.1 hdiffer
      rcases (Nat.le_of_not_lt hnot).eq_or_lt with rfl | hlt
      · exact .inl rfl
      · exact .inr (Before.concat_symbol _ bound symbol hlt)
    · exact .inr (hlt.concat bound symbol)

end Expanding

/-! ## All pairs -/

/-- When no pair waits any more, all that words lead to was expanded. -/
theorem Paused.not_separates {done : List (σ × τ)}
    (h : Paused reference target lenient arity search done) (hqueue : search.queue.toList = [])
    (word : List Nat) : ¬ reference.Separates target arity lenient word := by
  intro hword
  obtain ⟨front, symbol, last, rfl, hinside, hmeets, hdiffer⟩ :=
    (reference.separates_iff target arity lenient word).mp hword
  obtain ⟨hfront, hsymbol⟩ := List.forall_mem_append.mp hinside
  have hentered := h.entered_eq
  rw [hqueue] at hentered
  rcases h.sweeps.waits last done [] hentered (fun other hother number hlt => ⟨hother, hlt⟩) front
    hfront hmeets with ⟨hin, _⟩ | ⟨waiter, hwait, _⟩
  · have htried : allOf arity done last symbol := ⟨hin, hsymbol symbol List.mem_cons_self⟩
    exact (h.sweeps.agrees last symbol htried).2.1 hdiffer
  · exact absurd hwait List.not_mem_nil

theorem Sweeps.nodup {tried : σ × τ → Nat → Prop}
    (h : Sweeps reference target lenient arity search tried) : search.entered.Nodup := by
  refine h.ascending.imp ?_
  rintro pair _ hlt rfl
  exact Before.irrefl _ hlt

theorem Sweeps.mem_together {tried : σ × τ → Nat → Prop}
    (h : Sweeps reference target lenient arity search tried) (pair : σ × τ)
    (hpair : pair ∈ search.entered) : pair ∈ reference.together target arity :=
  ⟨search.access pair, h.inside pair hpair, h.meets pair hpair⟩

/-- The pairs entered are all different, and words lead to them. -/
theorem Sweeps.length_entered_le {tried : σ × τ → Nat → Prop}
    (h : Sweeps reference target lenient arity search tried)
    (hfinite : (reference.together target arity).Finite) :
    search.entered.length ≤ (reference.together target arity).ncard := by
  rw [← List.toFinset_card_of_nodup h.nodup, ← Set.ncard_coe_finset]
  exact Set.ncard_le_ncard (fun pair hpair => h.mem_together pair (by simpa using hpair)) hfinite

end Search

/-! ## Verdicts -/

namespace Machine

variable {σ τ α : Type} (reference : Machine σ α) (target : Machine τ α) (arity : Nat)
  (lenient : Bool)

/-- What a verdict says, if it says anything. -/
def Holds : Verdict → Prop
  | .separated word => reference.SeparatesFirst target arity lenient word
  | .inseparable => ∀ word, ¬ reference.Separates target arity lenient word
  | .unfinished => False

section

variable {reference target arity lenient} {verdict : Verdict}
  (h : reference.Holds target arity lenient verdict)

include h

theorem Holds.ne_unfinished : verdict ≠ .unfinished := by
  rintro rfl
  exact h

theorem Holds.word?_eq_none_iff :
    verdict.word? = none ↔ ¬ ∃ word, reference.Separates target arity lenient word := by
  cases verdict with
  | unfinished => exact h.elim
  | inseparable => exact ⟨fun _ ⟨word, hword⟩ => h word hword, fun _ => rfl⟩
  | separated found => exact ⟨nofun, fun hnone => absurd ⟨found, h.1⟩ hnone⟩

theorem Holds.word?_eq_some_iff (word : List Nat) :
    verdict.word? = some word ↔ reference.SeparatesFirst target arity lenient word := by
  cases verdict with
  | unfinished => exact h.elim
  | inseparable => exact ⟨nofun, fun hword => absurd hword.1 (h word)⟩
  | separated found =>
    refine ⟨?_, fun hword => ?_⟩
    · rintro ⟨⟩
      exact h
    · rw [SeparatesFirst.unique h hword]
      rfl

end

variable [DecidableEq σ] [DecidableEq τ] [Hashable σ] [Hashable τ] [DecidableEq α]

/-- A verdict at a state passed holds, if the search was not stopped while pairs were left. -/
theorem holds_of_stops {reference : Machine σ α} {target : Machine τ α} {arity : Nat}
    {lenient : Bool} {symbols : σ → List Nat} (hsymbols : reference.Lists arity symbols)
    {done : List (σ × τ)} {hand : Option ((σ × τ) × List Nat)} {search : Search σ τ}
    {verdict : Verdict} (h : Search.Passes reference target lenient symbols done hand search)
    (hstops : Search.Stops reference target lenient search hand verdict)
    (hverdict : verdict ≠ .unfinished) : reference.Holds target arity lenient verdict := by
  cases hstops with
  | separated pair symbol left hstep =>
    obtain ⟨_, _, hnext, _⟩ :=
      (reference.compareOn_eq_separated_iff target lenient pair symbol).mp hstep
    obtain ⟨hat, rest, hrest, _⟩ := (h.known hsymbols).at_symbol (Option.isSome_of_eq_some hnext)
    have hfirst := hat.separatesFirst (by omega) hstep
    rw [Search.access, ← List.reverse_cons] at hfirst
    exact hfirst
  | inseparable hqueue => exact (h.paused hsymbols).not_separates hqueue
  | unfinished => exact absurd rfl hverdict

/-- Each round finishes a pair, and when all pairs are finished none waits; so rounds enough for all
pairs come to a verdict. -/
theorem holds_compare (symbols : σ → List Nat) (hsymbols : reference.Lists arity symbols)
    (hfinite : (reference.together target arity).Finite) (rounds : Nat)
    (hrounds : (reference.together target arity).ncard ≤ rounds) :
    reference.Holds target arity lenient (reference.compare target symbols lenient rounds) := by
  rw [compare]
  obtain ⟨finished, hand, search, hpasses, hstops, hcount⟩ :=
    (Search.Passes.start : Search.Passes reference target lenient symbols _ _ _).run rounds
  refine holds_of_stops hsymbols hpasses hstops fun hunfinished => ?_
  have hlength := hcount hunfinished
  rw [hunfinished] at hstops
  cases hstops with
  | unfinished hqueue =>
    have hpaused := hpasses.paused hsymbols
    have hle := hpaused.sweeps.length_entered_le hfinite
    rw [hpaused.entered_eq, List.length_append, hlength, List.length_nil] at hle
    exact hqueue (List.length_eq_zero_iff.mp (by omega))

/-- If words lead to finitely many pairs, that many rounds are enough: the comparison finds nothing
exactly if no word separates, and otherwise it finds the separating word that is first in shortlex
order.  That is a shortest one, and no proper beginning of it separates. -/
theorem compare_exact (symbols : σ → List Nat) (hsymbols : reference.Lists arity symbols)
    (hfinite : (reference.together target arity).Finite) (rounds : Nat)
    (hrounds : (reference.together target arity).ncard ≤ rounds) :
    reference.compare target symbols lenient rounds ≠ .unfinished ∧
    ((reference.compare target symbols lenient rounds).word? = none ↔
      ¬ ∃ word, reference.Separates target arity lenient word) ∧
    ∀ word, ((reference.compare target symbols lenient rounds).word? = some word ↔
        reference.Separates target arity lenient word ∧
          ∀ other, reference.Separates target arity lenient other →
            word = other ∨ List.Shortlex (· < ·) word other) ∧
      ((reference.compare target symbols lenient rounds).word? = some word →
        (∀ other, reference.Separates target arity lenient other → word.length ≤ other.length) ∧
        ∀ front, front <+: word → front ≠ word →
          ¬ reference.Separates target arity lenient front) := by
  have hholds := reference.holds_compare target arity lenient symbols hsymbols hfinite rounds
    hrounds
  refine ⟨hholds.ne_unfinished, hholds.word?_eq_none_iff,
    fun word => ⟨hholds.word?_eq_some_iff word, fun hword => ?_⟩⟩
  obtain ⟨_, hleast⟩ := (hholds.word?_eq_some_iff word).mp hword
  refine ⟨fun other hother => (hleast other hother).length_le, fun front hpre hne hfront => ?_⟩
  exact hne (hpre.eq_of_length_le (hleast front hfront).length_le)

/-- On 1, or on 0 twice, it is back where it began. -/
def turning : Table Char where
  initial := 0
  rows := #[#[some (1, 'a'), some (0, 'b')], #[some (0, 'a'), some (1, 'c')]]

/-- It differs from `turning` in what it answers to 1: nothing at first, and `b` after 0. -/
def halting : Table Char where
  initial := 0
  rows := #[#[some (1, 'a'), none], #[some (0, 'a'), some (1, 'b')]]

theorem compare_turning :
    turning.machine.Lists 2 (fun _ => List.range 2) ∧
    (turning.machine.together halting.machine.toMachine 2).Finite ∧
    (turning.machine.together halting.machine.toMachine 2).ncard ≤ 20 ∧
    (turning.machine.compare halting.machine.toMachine (fun _ => List.range 2) false 20).word? =
      some [1] ∧
    (turning.machine.compare halting.machine.toMachine (fun _ => List.range 2) true 20).word? =
      some [0, 1] := by
  have hlists := turning.machine.lists_range 2
  have hfinite := turning.machine.finite_together halting.machine 2
  have hrounds : _ ≤ 20 := turning.machine.ncard_together_le halting.machine 2
  have hexact := fun lenient => compare_exact turning.machine.toMachine halting.machine.toMachine
    2 lenient _ hlists hfinite 20 hrounds
  refine ⟨hlists, hfinite, hrounds, ?_, ?_⟩
  · have hfirst : turning.machine.SeparatesFirst halting.machine.toMachine 2 false [1] := by decide
    exact ((hexact false).2.2 [1]).1.mpr hfirst
  · have hfirst : turning.machine.SeparatesFirst halting.machine.toMachine 2 true [0, 1] := by
      decide
    exact ((hexact true).2.2 [0, 1]).1.mpr hfirst

end Machine

/-! ## Finite machines -/

namespace FiniteMachine

variable {σ τ α : Type} [DecidableEq σ] [DecidableEq τ] [Hashable σ] [Hashable τ] [DecidableEq α]
  (reference : FiniteMachine σ α) (target : FiniteMachine τ α) (arity : Nat) (lenient : Bool)

theorem holds_separatingWord : reference.Holds target.toMachine arity lenient
    (reference.compare target.toMachine (reference.symbolsBelow arity) lenient
      (reference.states.length * target.states.length)) :=
  reference.holds_compare target.toMachine arity lenient _ (reference.lists_symbolsBelow arity)
    (reference.finite_together target arity) _ (reference.ncard_together_le target arity)

theorem separatingWord_eq_none_iff : reference.separatingWord target arity lenient = none ↔
    ¬ ∃ word, reference.Separates target.toMachine arity lenient word :=
  (reference.holds_separatingWord target arity lenient).word?_eq_none_iff

theorem separatingWord_eq_some_iff (word : List Nat) :
    reference.separatingWord target arity lenient = some word ↔
      reference.SeparatesFirst target.toMachine arity lenient word :=
  (reference.holds_separatingWord target arity lenient).word?_eq_some_iff word

end FiniteMachine

end TraceGraph
