import TraceGraph.Proofs.Separation.Meeting

/-! # Sweeping

How far a search has got.  Each pair it has entered is known by the word along its parents, and the
pairs stand in the order of these words.  A step that was tried has not separated, and the pair it
led to was entered by a word that comes no later.  So every word leads past pairs whose steps were
all tried, or up to one that still waits and was entered no later. -/
namespace TraceGraph
set_option autoImplicit false

namespace Search

variable {σ τ α : Type} [DecidableEq σ] [DecidableEq τ] [Hashable σ] [Hashable τ]

/-! ## Pairs and their words -/

/-- The pairs that the search has been to, in order. -/
def entered (search : Search σ τ) : List (σ × τ) :=
  search.start :: (search.visits.map Visit.pair).reverse

/-- The word by which the search came to `pair`. -/
def access (search : Search σ τ) (pair : σ × τ) : List Nat :=
  (wayBack search.visits pair).reverse

section

variable (search : Search σ τ)

theorem mem_seen_iff (pair : σ × τ) : pair ∈ search.seen ↔ pair ∈ search.entered := by
  simp [search.mem_seen, entered]

variable (parent next : σ × τ) (symbol : Nat)

theorem enter_of_mem (h : next ∈ search.entered) : search.enter parent symbol next = search := by
  rw [enter, if_pos ((search.mem_seen_iff next).mpr h)]

theorem start_enter : (search.enter parent symbol next).start = search.start := by
  unfold enter
  split <;> rfl

variable (h : next ∉ search.entered)

include h

theorem visits_enter :
    (search.enter parent symbol next).visits = ⟨next, parent, symbol⟩ :: search.visits := by
  rw [enter, if_neg fun hseen => h ((search.mem_seen_iff next).mp hseen)]

theorem entered_enter : (search.enter parent symbol next).entered = search.entered ++ [next] := by
  simp [entered, start_enter, search.visits_enter parent next symbol h]

theorem forall_entered_enter (p : σ × τ → Prop) (hold : ∀ pair ∈ search.entered, p pair)
    (hnext : p next) : ∀ pair ∈ (search.enter parent symbol next).entered, p pair := by
  intro pair hpair
  rw [search.entered_enter parent next symbol h, List.mem_append, List.mem_singleton] at hpair
  rcases hpair with hpair | rfl
  · exact hold pair hpair
  · exact hnext

theorem queue_enter : (search.enter parent symbol next).queue.toList =
    search.queue.toList ++ [next] := by
  rw [enter, if_neg fun hseen => h ((search.mem_seen_iff next).mp hseen)]
  exact Queue.toList_push search.queue next

theorem access_enter_self :
    (search.enter parent symbol next).access next = search.access parent ++ [symbol] := by
  simp [access, search.visits_enter parent next symbol h, wayBack]

theorem access_enter_of_mem (pair : σ × τ) (hpair : pair ∈ search.entered) :
    (search.enter parent symbol next).access pair = search.access pair := by
  have hne : next ≠ pair := fun he => h (he ▸ hpair)
  simp [access, search.visits_enter parent next symbol h, wayBack, hne]

end

/-! ## What was tried -/

variable [DecidableEq α] (reference : Machine σ α) (target : Machine τ α) (lenient : Bool)
  (arity : Nat)

/-- The steps for which `tried` holds were tried, and no others. -/
structure Sweeps (search : Search σ τ) (tried : σ × τ → Nat → Prop) : Prop where
  start_eq : search.start = (reference.initial, target.initial)
  access_start : search.access search.start = []
  meets : ∀ pair ∈ search.entered, reference.Meets target (search.access pair) pair
  inside : ∀ pair ∈ search.entered, ∀ symbol ∈ search.access pair, symbol < arity
  ascending : search.entered.Pairwise fun first later =>
    Before (search.access first) (search.access later)
  led : ∀ pair ∈ search.entered, pair = search.start ∨
    ∃ parent symbol, tried parent symbol ∧ search.access pair = search.access parent ++ [symbol]
  agrees : ∀ pair symbol, tried pair symbol → pair ∈ search.entered ∧
    compareOn reference target lenient pair symbol ≠ .separated ∧
    ∀ next, compareOn reference target lenient pair symbol = .agreed next →
      next ∈ search.entered ∧ UpTo (search.access next) (search.access pair ++ [symbol])

/-- One more step was tried. -/
def also (tried : σ × τ → Nat → Prop) (pair : σ × τ) (symbol : Nat) : σ × τ → Nat → Prop :=
  fun other number => tried other number ∨ (other = pair ∧ number = symbol)

variable {reference target lenient arity}

namespace Sweeps

variable {search : Search σ τ} {tried : σ × τ → Nat → Prop}
  (h : Sweeps reference target lenient arity search tried)

include h

/-- A step that leads to nothing new was tried. -/
theorem note (pair : σ × τ) (symbol : Nat) (hpair : pair ∈ search.entered)
    (hnot : compareOn reference target lenient pair symbol ≠ .separated)
    (hknown : ∀ next, compareOn reference target lenient pair symbol = .agreed next →
      next ∈ search.entered ∧ UpTo (search.access next) (search.access pair ++ [symbol])) :
    Sweeps reference target lenient arity search (also tried pair symbol) where
  start_eq := h.start_eq
  access_start := h.access_start
  meets := h.meets
  inside := h.inside
  ascending := h.ascending
  led other hother := by
    refine (h.led other hother).imp_right ?_
    rintro ⟨parent, number, htried, haccess⟩
    exact ⟨parent, number, .inl htried, haccess⟩
  agrees other number htried := by
    rcases htried with htried | ⟨rfl, rfl⟩
    · exact h.agrees other number htried
    · exact ⟨hpair, hnot, hknown⟩

theorem skip (pair : σ × τ) (symbol : Nat) (hpair : pair ∈ search.entered)
    (hskip : compareOn reference target lenient pair symbol = .skipped) :
    Sweeps reference target lenient arity search (also tried pair symbol) := by
  refine h.note pair symbol hpair ?_ fun next hnext => ?_
  · rw [hskip]
    exact nofun
  · cases hskip.symm.trans hnext

/-- Every pair was entered by a word that comes before a step on which all tried ones come first. -/
theorem access_before (pair : σ × τ) (symbol : Nat)
    (hlast : ∀ other number, tried other number →
      Before (search.access other ++ [number]) (search.access pair ++ [symbol])) :
    ∀ other ∈ search.entered, Before (search.access other) (search.access pair ++ [symbol]) := by
  intro other hother
  rcases h.led other hother with rfl | ⟨parent, number, htried, haccess⟩
  · rw [h.access_start]
    exact .of_length_lt (by simp)
  · rw [haccess]
    exact hlast parent number htried

variable (pair next : σ × τ) (symbol : Nat) (hpair : pair ∈ search.entered)
  (hagree : compareOn reference target lenient pair symbol = .agreed next)
  (hbefore : ∀ other ∈ search.entered,
    Before (search.access other) (search.access pair ++ [symbol]))

include hpair hagree hbefore

theorem agree_known (hnext : next ∈ search.entered) :
    Sweeps reference target lenient arity search (also tried pair symbol) := by
  refine h.note pair symbol hpair ?_ fun found hfound => ?_
  · rw [hagree]
    exact nofun
  · cases hagree.symm.trans hfound
    exact ⟨hnext, .inr (hbefore next hnext)⟩

omit hpair hagree in
theorem ascending_enter (hnext : next ∉ search.entered) :
    (search.enter pair symbol next).entered.Pairwise fun first later =>
      Before ((search.enter pair symbol next).access first)
        ((search.enter pair symbol next).access later) := by
  have hold := search.access_enter_of_mem pair next symbol hnext
  rw [search.entered_enter pair next symbol hnext, List.pairwise_append]
  refine ⟨h.ascending.imp_of_mem fun hfirst hlater hlt => ?_, List.pairwise_singleton _ _, ?_⟩
  · rw [hold _ hfirst, hold _ hlater]
    exact hlt
  · intro other hother found hfound
    rw [List.mem_singleton.mp hfound, search.access_enter_self pair next symbol hnext,
      hold other hother]
    exact hbefore other hother

omit hbefore in
theorem agrees_enter (hnext : next ∉ search.entered) (other : σ × τ) (number : Nat)
    (htried : also tried pair symbol other number) :
    other ∈ (search.enter pair symbol next).entered ∧
      compareOn reference target lenient other number ≠ .separated ∧
      ∀ found, compareOn reference target lenient other number = .agreed found →
        found ∈ (search.enter pair symbol next).entered ∧
          UpTo ((search.enter pair symbol next).access found)
            ((search.enter pair symbol next).access other ++ [number]) := by
  have hold := search.access_enter_of_mem pair next symbol hnext
  rw [search.entered_enter pair next symbol hnext]
  rcases htried with htried | ⟨rfl, rfl⟩
  · obtain ⟨hother, hnot, hfound⟩ := h.agrees other number htried
    refine ⟨List.mem_append_left _ hother, hnot, fun found he => ?_⟩
    obtain ⟨hin, hupto⟩ := hfound found he
    rw [hold found hin, hold other hother]
    exact ⟨List.mem_append_left _ hin, hupto⟩
  · rw [hagree]
    refine ⟨List.mem_append_left _ hpair, nofun, fun found hfound => ?_⟩
    cases hfound
    rw [search.access_enter_self other next number hnext, hold other hpair]
    exact ⟨List.mem_append_right _ (List.mem_singleton_self _), .inl rfl⟩

theorem agree_new (hsymbol : symbol < arity) (hnext : next ∉ search.entered) :
    Sweeps reference target lenient arity (search.enter pair symbol next)
      (also tried pair symbol) := by
  have hself := search.access_enter_self pair next symbol hnext
  have hold := search.access_enter_of_mem pair next symbol hnext
  have hstart := search.start_enter pair next symbol
  have hall := search.forall_entered_enter pair next symbol hnext
  constructor
  case start_eq => exact hstart.trans h.start_eq
  case access_start => rw [hstart, hold search.start List.mem_cons_self, h.access_start]
  case meets =>
    refine hall _ (fun other hother => ?_) ?_
    · rw [hold other hother]
      exact h.meets other hother
    · rw [hself]
      exact (reference.meets_concat target lenient _ _ _).mpr ⟨pair, h.meets pair hpair, hagree⟩
  case inside =>
    refine hall _ (fun other hother => ?_) ?_
    · rw [hold other hother]
      exact h.inside other hother
    · rw [hself, List.forall_mem_append, List.forall_mem_singleton]
      exact ⟨h.inside pair hpair, hsymbol⟩
  case ascending => exact h.ascending_enter pair next symbol hbefore hnext
  case led =>
    refine hall _ (fun other hother => ?_) ?_
    · refine (h.led other hother).imp (fun he => he.trans hstart.symm) ?_
      rintro ⟨parent, number, htried, haccess⟩
      refine ⟨parent, number, .inl htried, ?_⟩
      rw [hold other hother, hold parent (h.agrees parent number htried).1, haccess]
    · exact .inr ⟨pair, symbol, .inr ⟨rfl, rfl⟩, by rw [hself, hold pair hpair]⟩
  case agrees => exact h.agrees_enter pair next symbol hpair hagree hnext

/-- The pair that an agreeing step leads to was entered before, by a word that comes earlier, or is
entered now, by a word that comes after all others. -/
theorem agree (hsymbol : symbol < arity) :
    Sweeps reference target lenient arity (search.enter pair symbol next)
      (also tried pair symbol) := by
  by_cases hnext : next ∈ search.entered
  · rw [search.enter_of_mem pair next symbol hnext]
    exact h.agree_known pair next symbol hpair hagree hbefore hnext
  · exact h.agree_new pair next symbol hpair hagree hbefore hsymbol hnext

omit hpair hagree hbefore

/-! ## Words and waiting pairs -/

/-- A word leads past pairs whose steps were all tried to a pair that was entered by a word that
comes no later, or else it goes through a pair that waits and was entered no later.  The induction
is on the word from its end. -/
theorem waits (done waiting : List (σ × τ)) (hentered : search.entered = done ++ waiting)
    (hdone : ∀ other ∈ done, ∀ number < arity, tried other number) (word : List Nat)
    (hword : ∀ number ∈ word, number < arity) (hmeets : reference.Meets target word pair) :
    (pair ∈ done ∧ UpTo (search.access pair) word) ∨
      ∃ waiter ∈ waiting, UpTo (search.access waiter) word := by
  have hsplit : ∀ other ∈ search.entered, other ∈ done ∨ other ∈ waiting := by
    intro other hother
    rw [hentered] at hother
    exact List.mem_append.mp hother
  induction word using List.reverseRecOn generalizing pair with
  | nil =>
    obtain rfl : pair = search.start :=
      ((reference.meets_nil target pair).mp hmeets).trans h.start_eq.symm
    have hupto : UpTo (search.access search.start) [] := .inl h.access_start
    rcases hsplit search.start List.mem_cons_self with hin | hwait
    · exact .inl ⟨hin, hupto⟩
    · exact .inr ⟨search.start, hwait, hupto⟩
  | append_singleton word symbol ih =>
    obtain ⟨before, hbefore, hstep⟩ := (reference.meets_concat target lenient _ _ _).mp hmeets
    obtain ⟨hfront, hsymbol⟩ := List.forall_mem_append.mp hword
    rcases ih before hfront hbefore with ⟨hin, hupto⟩ | ⟨waiter, hwait, hupto⟩
    · have htried := hdone before hin symbol (hsymbol symbol List.mem_cons_self)
      obtain ⟨-, -, hnext⟩ := h.agrees before symbol htried
      obtain ⟨hpair, hstepped⟩ := hnext pair hstep
      have hlater := hstepped.trans (hupto.concat symbol)
      rcases hsplit pair hpair with hin | hwait
      · exact .inl ⟨hin, hlater⟩
      · exact .inr ⟨pair, hwait, hlater⟩
    · exact .inr ⟨waiter, hwait, hupto.trans (.concat_self word symbol)⟩

end Sweeps

end Search

end TraceGraph
