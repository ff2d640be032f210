import Mathlib.Tactic.Tauto
import TraceGraph.Proofs.Separation.Sweeping

/-! # States of a search

The states that a search passes, one after each step of its two loops: it takes the pair that waits
longest, reads the symbols listed for it in turn, and takes the next.  A symbol that is not listed
has no step in the reference, so reading it would change nothing; hence at each of these states the
pairs finished and those that wait are known, and which steps were tried.  A verdict is given at one
of them. -/
namespace TraceGraph
set_option autoImplicit false

/-! ## Symbols without a step -/

/-- `symbols` lists for each state, ascending, symbols below `arity`, and all those on which it has
a step. -/
structure Machine.Lists {σ α : Type} (machine : Machine σ α) (arity : Nat)
    (symbols : σ → List Nat) : Prop where
  ascending : ∀ state, (symbols state).Pairwise (· < ·)
  lt_arity : ∀ state, ∀ symbol ∈ symbols state, symbol < arity
  complete : ∀ state symbol, symbol < arity → (machine.step state symbol).isSome = true →
    symbol ∈ symbols state

theorem Machine.lists_range {σ α : Type} (machine : Machine σ α) (arity : Nat) :
    machine.Lists arity fun _ => List.range arity where
  ascending _ := List.pairwise_lt_range
  lt_arity _ _ hsymbol := List.mem_range.mp hsymbol
  complete _ _ hlt _ := List.mem_range.mpr hlt

theorem FiniteMachine.lists_symbolsBelow {σ α : Type} (machine : FiniteMachine σ α) (arity : Nat) :
    machine.toMachine.Lists arity (machine.symbolsBelow arity) where
  ascending := machine.symbolsBelow_ascending arity
  lt_arity state symbol hsymbol := ((machine.mem_symbolsBelow arity state symbol).mp hsymbol).1
  complete state symbol hlt hstep := (machine.mem_symbolsBelow arity state symbol).mpr ⟨hlt, hstep⟩

def Machine.hasStep {σ α : Type} (machine : Machine σ α) (state : σ) (symbol : Nat) : Bool :=
  (machine.step state symbol).isSome

theorem Machine.Lists.filter_eq {σ α : Type} {machine : Machine σ α} {arity : Nat}
    {symbols : σ → List Nat} (h : machine.Lists arity symbols) (state : σ) :
    (symbols state).filter (machine.hasStep state) =
      (List.range arity).filter (machine.hasStep state) := by
  have hleft := (h.ascending state).filter (machine.hasStep state)
  have hright := (List.pairwise_lt_range (n := arity)).filter (machine.hasStep state)
  have hperm : ((symbols state).filter (machine.hasStep state)).Perm
      ((List.range arity).filter (machine.hasStep state)) := by
    refine (List.perm_ext_iff_of_nodup (hleft.imp Nat.ne_of_lt) (hright.imp Nat.ne_of_lt)).mpr ?_
    intro symbol
    rw [List.mem_filter, List.mem_filter, List.mem_range]
    exact ⟨fun hmem => ⟨h.lt_arity state symbol hmem.1, hmem.2⟩,
      fun hmem => ⟨h.complete state symbol hmem.1 hmem.2, hmem.2⟩⟩
  exact hperm.eq_of_pairwise (fun _ _ _ _ hlt hgt => absurd hgt (Nat.lt_asymm hlt)) hleft hright

namespace Search

variable {σ τ α : Type}

/-! ## Steps tried -/

/-- Every symbol was tried on the pairs `done`. -/
def allOf (arity : Nat) (done : List (σ × τ)) : σ × τ → Nat → Prop :=
  fun other number => other ∈ done ∧ number < arity

/-- Every symbol was tried on the pairs `done`, and those below `bound` on `pair`. -/
def partOf (arity : Nat) (done : List (σ × τ)) (pair : σ × τ) (bound : Nat) : σ × τ → Nat → Prop :=
  fun other number => allOf arity done other number ∨ (other = pair ∧ number < bound)

theorem partOf_zero (arity : Nat) (done : List (σ × τ)) (pair : σ × τ) :
    partOf arity done pair 0 = allOf arity done := by
  funext other number
  simp [partOf]

theorem partOf_succ (arity : Nat) (done : List (σ × τ)) (pair : σ × τ) (bound : Nat) :
    partOf arity done pair (bound + 1) = also (partOf arity done pair bound) pair bound := by
  funext other number
  simp only [partOf, also, Nat.lt_succ_iff_lt_or_eq, eq_iff_iff]
  tauto

theorem partOf_arity (arity : Nat) (done : List (σ × τ)) (pair : σ × τ) :
    partOf arity done pair arity = allOf arity (done ++ [pair]) := by
  funext other number
  simp only [partOf, allOf, List.mem_append, List.mem_singleton, eq_iff_iff]
  tauto

variable [DecidableEq σ] [DecidableEq τ] [Hashable σ] [Hashable τ] [DecidableEq α]

section

variable (reference : Machine σ α) (target : Machine τ α) (lenient : Bool) (arity : Nat)

/-- What is known between two rounds: the pairs `done` were expanded, and the others wait. -/
structure Paused (search : Search σ τ) (done : List (σ × τ)) : Prop where
  sweeps : Sweeps reference target lenient arity search (allOf arity done)
  entered_eq : search.entered = done ++ search.queue.toList

/-- What is known within a round: the symbols below `bound` were tried on `pair`, too. -/
structure Expanding (search : Search σ τ) (done : List (σ × τ)) (pair : σ × τ) (bound : Nat) :
    Prop where
  sweeps : Sweeps reference target lenient arity search (partOf arity done pair bound)
  entered_eq : search.entered = done ++ pair :: search.queue.toList

end

section

variable {reference : Machine σ α} {target : Machine τ α} {lenient : Bool} {arity : Nat}
  {search : Search σ τ} {done : List (σ × τ)}

theorem Paused.take (h : Paused reference target lenient arity search done) (pair : σ × τ)
    (queue : Queue (σ × τ)) (hpop : search.queue.pop? = some (pair, queue)) :
    Expanding reference target lenient arity { search with queue } done pair 0 where
  sweeps := by
    rw [partOf_zero]
    exact ⟨h.sweeps.start_eq, h.sweeps.access_start, h.sweeps.meets, h.sweeps.inside,
      h.sweeps.ascending, h.sweeps.led, h.sweeps.agrees⟩
  entered_eq := by
    rw [← search.queue.toList_of_pop? queue pair hpop]
    exact h.entered_eq

namespace Expanding

variable {pair : σ × τ} {bound : Nat}
  (h : Expanding reference target lenient arity search done pair bound)

include h

theorem mem_entered : pair ∈ search.entered := by
  rw [h.entered_eq]
  exact List.mem_append_right _ List.mem_cons_self

/-- The step at hand comes after all that were tried. -/
theorem before_step (other : σ × τ) (number : Nat)
    (htried : partOf arity done pair bound other number) :
    Before (search.access other ++ [number]) (search.access pair ++ [bound]) := by
  rcases htried with ⟨hother, _⟩ | ⟨rfl, hlt⟩
  · have hascending := h.sweeps.ascending
    rw [h.entered_eq, List.pairwise_append] at hascending
    exact (hascending.2.2 other hother pair List.mem_cons_self).concat number bound
  · exact Before.concat_symbol _ number bound hlt

/-- A word leads to a pair that is finished and was entered no later, or comes no earlier than the
word to the pair at hand. -/
theorem upTo_of_meets (word : List Nat) (last : σ × τ) (hword : ∀ number ∈ word, number < arity)
    (hmeets : reference.Meets target word last) :
    (last ∈ done ∧ UpTo (search.access last) word) ∨ UpTo (search.access pair) word := by
  have hall : ∀ other ∈ done, ∀ number < arity, partOf arity done pair bound other number :=
    fun other hother number hlt => .inl ⟨hother, hlt⟩
  rcases h.sweeps.waits last done (pair :: search.queue.toList) h.entered_eq hall word hword
    hmeets with hdone | ⟨waiter, hwait, hupto⟩
  · exact .inl hdone
  · have hascending := h.sweeps.ascending
    rw [h.entered_eq, List.pairwise_append] at hascending
    rcases List.mem_cons.mp hwait with rfl | hwait
    · exact .inr hupto
    · exact .inr (.trans (.inr ((List.pairwise_cons.mp hascending.2.1).1 waiter hwait)) hupto)

theorem skip (hstep : compareOn reference target lenient pair bound = .skipped) :
    Expanding reference target lenient arity search done pair (bound + 1) where
  sweeps := partOf_succ arity done pair bound ▸ h.sweeps.skip pair bound h.mem_entered hstep
  entered_eq := h.entered_eq

theorem agree (hbound : bound < arity) (next : σ × τ)
    (hstep : compareOn reference target lenient pair bound = .agreed next) :
    Expanding reference target lenient arity (search.enter pair bound next) done pair
      (bound + 1) where
  sweeps := by
    rw [partOf_succ]
    exact h.sweeps.agree pair next bound h.mem_entered hstep
      (h.sweeps.access_before pair bound h.before_step) hbound
  entered_eq := by
    by_cases hnext : next ∈ search.entered
    · rw [search.enter_of_mem pair next bound hnext]
      exact h.entered_eq
    · rw [search.entered_enter pair next bound hnext, search.queue_enter pair next bound hnext,
        h.entered_eq]
      simp

omit h in
theorem finish (h : Expanding reference target lenient arity search done pair arity) :
    Paused reference target lenient arity search (done ++ [pair]) where
  sweeps := partOf_arity arity done pair ▸ h.sweeps
  entered_eq := by
    rw [h.entered_eq, List.append_assoc]
    rfl

/-- Numbers without a step may be passed over, up to the next symbol with a step or to the end. -/
theorem advance (count : Nat) (hcount : bound + count = arity) :
    ((List.range' bound count).filter (reference.hasStep pair.1) = [] ∧
        Expanding reference target lenient arity search done pair arity) ∨
      ∃ symbol rest, symbol + 1 + rest = arity ∧
        (List.range' bound count).filter (reference.hasStep pair.1) =
          symbol :: (List.range' (symbol + 1) rest).filter (reference.hasStep pair.1) ∧
        Expanding reference target lenient arity search done pair symbol := by
  induction count generalizing bound with
  | zero =>
    obtain rfl : bound = arity := hcount
    exact .inl ⟨rfl, h⟩
  | succ count ih =>
    rw [List.range'_succ]
    by_cases hstep : reference.hasStep pair.1 bound = true
    · rw [List.filter_cons_of_pos hstep]
      exact .inr ⟨bound, count, by omega, rfl, h⟩
    · have hskip : compareOn reference target lenient pair bound = .skipped := by
        rw [compareOn, Option.not_isSome_iff_eq_none.mp hstep]
      rw [List.filter_cons_of_neg hstep]
      exact ih (h.skip hskip) (by omega)

end Expanding

end

/-! ## The states passed -/

section

variable (reference : Machine σ α) (target : Machine τ α) (lenient : Bool) (arity : Nat)
  (symbols : σ → List Nat)

/-- The search comes by a state.  The pairs `done` are finished, in this order; between two rounds
nothing is at hand, and within a round a pair and the symbols that are left to read from it. -/
inductive Passes : List (σ × τ) → Option ((σ × τ) × List Nat) → Search σ τ → Prop
  | start : Passes [] none (begin (reference.initial, target.initial))
  | take (done : List (σ × τ)) (search : Search σ τ) (pair : σ × τ) (queue : Queue (σ × τ))
      (h : Passes done none search) (hpop : search.queue.pop? = some (pair, queue)) :
    Passes done (some (pair, symbols pair.1)) { search with queue }
  | skip (done : List (σ × τ)) (search : Search σ τ) (pair : σ × τ) (symbol : Nat)
      (left : List Nat) (h : Passes done (some (pair, symbol :: left)) search)
      (hstep : compareOn reference target lenient pair symbol = .skipped) :
    Passes done (some (pair, left)) search
  | agree (done : List (σ × τ)) (search : Search σ τ) (pair next : σ × τ) (symbol : Nat)
      (left : List Nat) (h : Passes done (some (pair, symbol :: left)) search)
      (hstep : compareOn reference target lenient pair symbol = .agreed next) :
    Passes done (some (pair, left)) (search.enter pair symbol next)
  | finish (done : List (σ × τ)) (search : Search σ τ) (pair : σ × τ)
      (h : Passes done (some (pair, [])) search) :
    Passes (done ++ [pair]) none search

/-- The verdict given at a state, which is that more time is needed if a pair waits there. -/
inductive Stops (search : Search σ τ) : Option ((σ × τ) × List Nat) → Verdict → Prop
  | separated (pair : σ × τ) (symbol : Nat) (left : List Nat)
      (hstep : compareOn reference target lenient pair symbol = .separated) :
    Stops search (some (pair, symbol :: left))
      (.separated (symbol :: wayBack search.visits pair).reverse)
  | inseparable (hqueue : search.queue.toList = []) : Stops search none .inseparable
  | unfinished (hqueue : search.queue.toList ≠ []) : Stops search none .unfinished

/-- What is known at a state passed: the listed symbols that are left have the same steps as all
symbols from `bound` on. -/
inductive Known (search : Search σ τ) (done : List (σ × τ)) :
    Option ((σ × τ) × List Nat) → Prop
  | paused (h : Paused reference target lenient arity search done) : Known search done none
  | expanding (pair : σ × τ) (bound count : Nat) (left : List Nat) (hcount : bound + count = arity)
      (hleft : left.filter (reference.hasStep pair.1) =
        (List.range' bound count).filter (reference.hasStep pair.1))
      (h : Expanding reference target lenient arity search done pair bound) :
    Known search done (some (pair, left))

end

section

variable {reference : Machine σ α} {target : Machine τ α} {lenient : Bool} {arity : Nat}
  {symbols : σ → List Nat} {done : List (σ × τ)} {search : Search σ τ}

/-! ## The search and its states -/

theorem Passes.expand (pair : σ × τ) (left : List Nat)
    (h : Passes reference target lenient symbols done (some (pair, left)) search) :
    (∃ symbol rest after,
        Passes reference target lenient symbols done (some (pair, symbol :: rest)) after ∧
        compareOn reference target lenient pair symbol = .separated ∧
        Search.expand reference target lenient pair search left =
          .inl (symbol :: wayBack after.visits pair).reverse) ∨
      ∃ after, Search.expand reference target lenient pair search left = .inr after ∧
        Passes reference target lenient symbols (done ++ [pair]) none after := by
  induction left generalizing search with
  | nil => exact .inr ⟨search, rfl, .finish done search pair h⟩
  | cons symbol left ih =>
    rw [Search.expand]
    cases hstep : compareOn reference target lenient pair symbol with
    | skipped => exact ih (.skip done search pair symbol left h hstep)
    | separated => exact .inl ⟨symbol, left, search, h, hstep, rfl⟩
    | agreed next => exact ih (.agree done search pair next symbol left h hstep)

/-- A run stops at a state passed; and when it stops for the number of rounds, so many more pairs
are finished. -/
theorem Passes.run (rounds : Nat)
    (h : Passes reference target lenient symbols done none search) :
    ∃ finished hand after, Passes reference target lenient symbols finished hand after ∧
      Stops reference target lenient after hand
        (search.run reference target lenient symbols rounds) ∧
      (search.run reference target lenient symbols rounds = .unfinished →
        finished.length = done.length + rounds) := by
  induction rounds generalizing done search with
  | zero =>
    refine ⟨done, none, search, h, ?_, fun _ => rfl⟩
    rw [Search.run]
    cases hpop : search.queue.pop? with
    | none => exact .inseparable (search.queue.pop?_eq_none_iff.mp hpop)
    | some popped =>
      refine .unfinished fun hempty => ?_
      cases hpop.symm.trans (search.queue.pop?_eq_none_iff.mpr hempty)
  | succ rounds ih =>
    rw [Search.run, round]
    cases hpop : search.queue.pop? with
    | none =>
      exact ⟨done, none, search, h, .inseparable (search.queue.pop?_eq_none_iff.mp hpop), by simp⟩
    | some popped =>
      obtain ⟨pair, queue⟩ := popped
      simp only
      rcases (Passes.take done search pair queue h hpop).expand with
        ⟨symbol, rest, after, hpass, hstep, hexpand⟩ | ⟨after, hexpand, hpass⟩
      · rw [hexpand]
        exact ⟨done, _, after, hpass, .separated pair symbol rest hstep, by simp⟩
      · rw [hexpand]
        obtain ⟨finished, hand, last, hlast, hstops, hcount⟩ := ih hpass
        refine ⟨finished, hand, last, hlast, hstops, fun hunfinished => ?_⟩
        rw [hcount hunfinished, List.length_append, List.length_singleton]
        omega

/-! ## What is known -/

theorem paused_begin : Paused reference target lenient arity
    (begin (reference.initial, target.initial)) [] where
  entered_eq := rfl
  sweeps := by
    have hmem : ∀ pair : σ × τ, pair ∈ (begin (reference.initial, target.initial)).entered →
        pair = (reference.initial, target.initial) :=
      fun pair hpair => List.mem_singleton.mp hpair
    refine ⟨rfl, rfl, fun pair hpair => ?_, fun pair hpair => ?_, List.pairwise_singleton _ _,
      fun pair hpair => .inl (hmem pair hpair), fun pair symbol htried => ?_⟩
    · rw [hmem pair hpair]
      exact (reference.meets_nil target _).mpr rfl
    · exact fun symbol hsymbol => absurd hsymbol List.not_mem_nil
    · exact absurd htried.1 List.not_mem_nil

/-- A listed symbol with a step is the first number left that has one. -/
theorem Known.at_symbol {pair : σ × τ} {symbol : Nat} {left : List Nat}
    (h : Known reference target lenient arity search done (some (pair, symbol :: left)))
    (hstep : reference.hasStep pair.1 symbol = true) :
    Expanding reference target lenient arity search done pair symbol ∧
      ∃ rest, symbol + 1 + rest = arity ∧
        left.filter (reference.hasStep pair.1) =
          (List.range' (symbol + 1) rest).filter (reference.hasStep pair.1) := by
  cases h with
  | expanding _ bound count _ hcount hleft h =>
    rw [List.filter_cons_of_pos hstep] at hleft
    rcases h.advance count hcount with ⟨hnil, _⟩ | ⟨found, rest, hrest, hcons, hfound⟩
    · cases hleft.trans hnil
    · obtain ⟨rfl, hsame⟩ := List.cons.inj (hleft.trans hcons)
      exact ⟨hfound, rest, hrest, hsame⟩

theorem Passes.known (hsymbols : reference.Lists arity symbols)
    {hand : Option ((σ × τ) × List Nat)}
    (h : Passes reference target lenient symbols done hand search) :
    Known reference target lenient arity search done hand := by
  induction h with
  | start => exact .paused paused_begin
  | take done search pair queue _ hpop ih =>
    cases ih with
    | paused hpaused =>
      refine .expanding pair 0 arity _ (Nat.zero_add arity) ?_ (hpaused.take pair queue hpop)
      rw [hsymbols.filter_eq, List.range_eq_range']
  | skip done search pair symbol left _ hstep ih =>
    by_cases hsome : reference.hasStep pair.1 symbol = true
    · obtain ⟨hat, rest, hrest, hleft⟩ := ih.at_symbol hsome
      exact .expanding pair (symbol + 1) rest left hrest hleft (hat.skip hstep)
    · cases ih with
      | expanding _ bound count _ hcount hleft hat =>
        rw [List.filter_cons_of_neg hsome] at hleft
        exact .expanding pair bound count left hcount hleft hat
  | agree done search pair next symbol left _ hstep ih =>
    obtain ⟨output, hnext, _⟩ :=
      (reference.compareOn_eq_agreed_iff target lenient pair next symbol).mp hstep
    obtain ⟨hat, rest, hrest, hleft⟩ := ih.at_symbol (Option.isSome_of_eq_some hnext)
    exact .expanding pair (symbol + 1) rest left hrest hleft (hat.agree (by omega) next hstep)
  | finish done search pair _ ih =>
    cases ih with
    | expanding _ bound count _ hcount hleft hat =>
      rcases hat.advance count hcount with ⟨_, hall⟩ | ⟨_, _, _, hcons, _⟩
      · exact .paused hall.finish
      · cases hleft.trans hcons

theorem Passes.paused (hsymbols : reference.Lists arity symbols)
    (h : Passes reference target lenient symbols done none search) :
    Paused reference target lenient arity search done := by
  cases h.known hsymbols with
  | paused hpaused => exact hpaused

end

end Search

end TraceGraph
