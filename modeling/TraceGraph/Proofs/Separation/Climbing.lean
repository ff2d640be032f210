import TraceGraph.Proofs.Separation.Exactness
import TraceGraph.Proofs.Separation.Exchanging

/-! # Climbing back

Every pair entered was entered from one that was there before, and the start was entered from none.
So to go from a pair to its parent, and on from there, never comes back to a pair; it ends at the
start, after as many steps as the shortest word to the pair has symbols. -/
namespace TraceGraph
set_option autoImplicit false

namespace Search

variable {σ τ α : Type} [DecidableEq σ] [DecidableEq τ]

/-! ## Parents -/

/-- The visit that entered `pair`. -/
def visit? (visits : List (Visit σ τ)) (pair : σ × τ) : Option (Visit σ τ) :=
  visits.find? fun visit => visit.pair = pair

/-- From `pair` to its parent and on, as long as the pair was entered: the pairs on this way, and
the symbols by which they were entered. -/
inductive Climbs (visits : List (Visit σ τ)) : σ × τ → List (σ × τ) → List Nat → Prop
  | top (pair : σ × τ) (h : visit? visits pair = none) : Climbs visits pair [pair] []
  | up (pair : σ × τ) (visit : Visit σ τ) (path : List (σ × τ)) (back : List Nat)
      (h : visit? visits pair = some visit) (hrest : Climbs visits visit.parent path back) :
    Climbs visits pair (pair :: path) (visit.symbol :: back)

/-- Each pair is new when it is entered, and its parent is not. -/
def Rooted (start : σ × τ) : List (Visit σ τ) → Prop
  | [] => True
  | visit :: older => visit.pair ∉ start :: older.map Visit.pair ∧
    visit.parent ∈ start :: older.map Visit.pair ∧ Rooted start older

section

variable (visit : Visit σ τ) (older : List (Visit σ τ))

theorem visit?_cons_self : visit? (visit :: older) visit.pair = some visit := by
  simp [visit?]

theorem visit?_cons_of_ne (pair : σ × τ) (h : visit.pair ≠ pair) :
    visit? (visit :: older) pair = visit? older pair := by
  simp [visit?, h]

/-- A way that does not pass the pair of a new visit is as before. -/
theorem Climbs.cons {pair : σ × τ} {path : List (σ × τ)} {back : List Nat}
    (h : Climbs older pair path back) (hnew : visit.pair ∉ path) :
    Climbs (visit :: older) pair path back := by
  induction h with
  | top pair hnone =>
    have hne : visit.pair ≠ pair := fun he => hnew (he ▸ List.mem_cons_self)
    exact .top pair ((visit?_cons_of_ne visit older pair hne).trans hnone)
  | up pair found path back hsome _ ih =>
    have hne : visit.pair ≠ pair := fun he => hnew (he ▸ List.mem_cons_self)
    exact .up pair found path back ((visit?_cons_of_ne visit older pair hne).trans hsome)
      (ih fun hmem => hnew (List.mem_cons_of_mem pair hmem))

end

/-- From every pair the way back ends at the start, and passes no pair twice. -/
theorem Rooted.exists_climbs (start : σ × τ) (visits : List (Visit σ τ)) (h : Rooted start visits)
    (pair : σ × τ) (hpair : pair ∈ start :: visits.map Visit.pair) :
    ∃ path, Climbs visits pair path (wayBack visits pair) ∧ path.Nodup ∧
      path.getLast? = some start ∧ ∀ other ∈ path, other ∈ start :: visits.map Visit.pair := by
  induction visits generalizing pair with
  | nil =>
    obtain rfl : pair = start := List.mem_singleton.mp hpair
    exact ⟨[pair], .top pair rfl, List.nodup_singleton pair, rfl, fun other hother => hother⟩
  | cons visit older ih =>
    obtain ⟨hnew, hparent, holder⟩ := h
    have hwiden : ∀ path : List (σ × τ), (∀ other ∈ path, other ∈ start :: older.map Visit.pair) →
        visit.pair ∉ path ∧ ∀ other ∈ path, other ∈ start :: (visit :: older).map Visit.pair := by
      intro path hpath
      refine ⟨fun hmem => hnew (hpath _ hmem), fun other hother => ?_⟩
      exact List.cons_subset_cons start (List.subset_cons_self _ _) (hpath other hother)
    by_cases hself : visit.pair = pair
    · obtain ⟨path, hclimbs, hnodup, hlast, hpath⟩ := ih holder visit.parent hparent
      obtain ⟨hout, hin⟩ := hwiden path hpath
      subst hself
      refine ⟨visit.pair :: path, ?_, List.nodup_cons.mpr ⟨hout, hnodup⟩, ?_, ?_⟩
      · rw [wayBack, if_pos rfl]
        exact .up _ visit path _ (visit?_cons_self visit older) (hclimbs.cons visit older hout)
      · rw [List.getLast?_cons, hlast]
        rfl
      · exact List.forall_mem_cons.mpr ⟨by simp, hin⟩
    · have hmem : pair ∈ start :: older.map Visit.pair := by
        simpa [Ne.symm hself] using hpair
      obtain ⟨path, hclimbs, hnodup, hlast, hpath⟩ := ih holder pair hmem
      obtain ⟨hout, hin⟩ := hwiden path hpath
      refine ⟨path, ?_, hnodup, hlast, hin⟩
      rw [wayBack, if_neg hself]
      exact hclimbs.cons visit older hout

/-! ## In a search -/

variable [Hashable σ] [Hashable τ]

theorem mem_entered_iff (search : Search σ τ) (pair : σ × τ) :
    pair ∈ search.entered ↔ pair ∈ search.start :: search.visits.map Visit.pair := by
  simp [entered]

theorem Rooted.enter {search : Search σ τ} (h : Rooted search.start search.visits)
    (parent next : σ × τ) (symbol : Nat) (hparent : parent ∈ search.entered) :
    Rooted (search.enter parent symbol next).start (search.enter parent symbol next).visits := by
  by_cases hnext : next ∈ search.entered
  · rw [search.enter_of_mem parent next symbol hnext]
    exact h
  · rw [search.start_enter, search.visits_enter parent next symbol hnext]
    have hin := (search.mem_entered_iff parent).mp hparent
    exact ⟨mt (search.mem_entered_iff next).mpr hnext, hin, h⟩

variable [DecidableEq α] {reference : Machine σ α} {target : Machine τ α} {lenient : Bool}
  {arity : Nat} {symbols : σ → List Nat} {search : Search σ τ} {done : List (σ × τ)}
  {hand : Option ((σ × τ) × List Nat)}

/-- All that was in the queue so far: what is finished, what is at hand, and what waits. -/
theorem Known.entered_eq (h : Known reference target lenient arity search done hand) :
    search.entered = done ++ (hand.map Prod.fst).toList ++ search.queue.toList := by
  cases h with
  | paused h => simpa using h.entered_eq
  | expanding pair bound count left hcount hleft h => simpa using h.entered_eq

theorem Known.exists_sweeps (h : Known reference target lenient arity search done hand) :
    ∃ tried, Sweeps reference target lenient arity search tried := by
  cases h with
  | paused h => exact ⟨_, h.sweeps⟩
  | expanding pair bound count left hcount hleft h => exact ⟨_, h.sweeps⟩

theorem Known.exists_expanding {pair : σ × τ} {left : List Nat}
    (h : Known reference target lenient arity search done (some (pair, left))) :
    ∃ bound, Expanding reference target lenient arity search done pair bound := by
  cases h with
  | expanding _ bound count _ hcount hleft h => exact ⟨bound, h⟩

theorem Passes.rooted (hsymbols : reference.Lists arity symbols)
    (h : Passes reference target lenient symbols done hand search) :
    Rooted search.start search.visits := by
  induction h with
  | start => trivial
  | take done search pair queue _ hpop ih => exact ih
  | skip done search pair symbol left _ hstep ih => exact ih
  | agree done search pair next symbol left hpasses hstep ih =>
    obtain ⟨bound, hat⟩ := (hpasses.known hsymbols).exists_expanding
    exact ih.enter pair next symbol hat.mem_entered
  | finish done search pair _ ih => exact ih

/-- The way back from the pair at hand is as long as a shortest word to it. -/
theorem Expanding.isLeast_wayBack {pair : σ × τ} {bound : Nat}
    (h : Expanding reference target lenient arity search done pair bound) :
    IsLeast {n | ∃ word, word.length = n ∧ (∀ symbol ∈ word, symbol < arity) ∧
      reference.Meets target word pair} (wayBack search.visits pair).length := by
  constructor
  · exact ⟨search.access pair, List.length_reverse, h.sweeps.inside pair h.mem_entered,
      h.sweeps.meets pair h.mem_entered⟩
  · rintro n ⟨word, rfl, hword, hmeets⟩
    rw [← List.length_reverse]
    rcases h.upTo_of_meets word pair hword hmeets with ⟨_, hupto⟩ | hupto
    · exact hupto.length_le
    · exact hupto.length_le

end Search

/-! ## Ends -/

namespace Machine

variable {σ τ α : Type} [DecidableEq σ] [DecidableEq τ] [Hashable σ] [Hashable τ] [DecidableEq α]

/-- How a search comes to its end. -/
structure SearchEnds (reference : Machine σ α) (target : Machine τ α) (arity : Nat)
    (lenient : Bool) (symbols : σ → List Nat) : Prop where
  /-- At each state passed, the pairs that came into the queue so far are all different, with the
  start in front, and words lead to them. -/
  queued : ∀ done hand search,
    Search.Passes reference target lenient symbols done hand search →
      ∃ later, done ++ (hand.map Prod.fst).toList ++ search.queue.toList =
          (reference.initial, target.initial) :: later ∧
        ((reference.initial, target.initial) :: later).Nodup ∧
        ∀ pair ∈ (reference.initial, target.initial) :: later,
          pair ∈ reference.together target arity
  /-- No more pairs are taken from the queue than words lead to. -/
  taken : ∀ done hand search,
    Search.Passes reference target lenient symbols done hand search →
      (done ++ (hand.map Prod.fst).toList).length ≤ (reference.together target arity).ncard
  /-- A verdict is given at a state passed, and with rounds enough it is the same, whatever their
  number. -/
  stops : ∀ rounds, ∃ done hand search,
    Search.Passes reference target lenient symbols done hand search ∧
      Search.Stops reference target lenient search hand
        (reference.compare target symbols lenient rounds)
  ends : ∃ verdict, verdict ≠ .unfinished ∧ ∀ rounds,
    (reference.together target arity).ncard ≤ rounds →
      reference.compare target symbols lenient rounds = verdict
  /-- From a pair at hand the way back passes no pair twice, and ends at the start after as many
  steps as the shortest words to the pair have symbols. -/
  climbs : ∀ done pair left search,
    Search.Passes reference target lenient symbols done (some (pair, left)) search →
      ∃ path, Search.Climbs search.visits pair path (Search.wayBack search.visits pair) ∧
        path.Nodup ∧ path.getLast? = some (reference.initial, target.initial) ∧
        IsLeast {n | ∃ word, word.length = n ∧ (∀ symbol ∈ word, symbol < arity) ∧
          reference.Meets target word pair} (Search.wayBack search.visits pair).length

theorem searchEnds (reference : Machine σ α) (target : Machine τ α) (arity : Nat) (lenient : Bool)
    (symbols : σ → List Nat) (hsymbols : reference.Lists arity symbols)
    (hfinite : (reference.together target arity).Finite) :
    reference.SearchEnds target arity lenient symbols where
  queued done hand search hpasses := by
    have hknown := hpasses.known hsymbols
    obtain ⟨tried, hsweeps⟩ := hknown.exists_sweeps
    refine ⟨(search.visits.map Visit.pair).reverse, ?_, ?_, ?_⟩
    · rw [← hknown.entered_eq, ← hsweeps.start_eq]
      rfl
    · rw [← hsweeps.start_eq]
      exact hsweeps.nodup
    · rw [← hsweeps.start_eq]
      exact hsweeps.mem_together
  taken done hand search hpasses := by
    have hknown := hpasses.known hsymbols
    obtain ⟨tried, hsweeps⟩ := hknown.exists_sweeps
    have hle := hsweeps.length_entered_le hfinite
    rw [hknown.entered_eq, List.length_append] at hle
    omega
  stops rounds := by
    obtain ⟨done, hand, search, hpasses, hstops, _⟩ :=
      (Search.Passes.start : Search.Passes reference target lenient symbols _ _ _).run rounds
    exact ⟨done, hand, search, hpasses, hstops⟩
  ends := by
    have hholds := reference.holds_compare target arity lenient symbols hsymbols hfinite
    refine ⟨_, (hholds _ (Nat.le_refl _)).ne_unfinished, fun rounds hrounds => ?_⟩
    exact (hholds rounds hrounds).unique (hholds _ (Nat.le_refl _))
  climbs done pair left search hpasses := by
    obtain ⟨bound, hat⟩ := (hpasses.known hsymbols).exists_expanding
    obtain ⟨path, hclimbs, hnodup, hlast, _⟩ := (hpasses.rooted hsymbols).exists_climbs _ _ pair
      ((search.mem_entered_iff pair).mp hat.mem_entered)
    rw [hat.sweeps.start_eq] at hlast
    exact ⟨path, hclimbs, hnodup, hlast, hat.isLeast_wayBack⟩

end Machine

end TraceGraph
