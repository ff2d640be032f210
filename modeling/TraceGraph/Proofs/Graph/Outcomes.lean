import Mathlib
import TraceGraph.Proofs.Graph.Sharing

/-! # Outcomes

What an insertion answers.  The words have to be equally long and the symbols in the alphabet; then
the outputs of the longest recorded beginning decide.  They disagree with the given ones at some
first place, or they are all that was given, or something is new.  Only in the last case the graph
changes, and then the trace is recorded. -/
namespace TraceGraph
set_option autoImplicit false

variable {α : Type}

/-! ## First differences -/

/-- Both words have an output at `place`, `known` and `given`, and there they differ first. -/
structure DiffersFirst (recorded output : List α) (place : Nat) (known given : α) : Prop where
  known_eq : recorded[place]? = some known
  given_eq : output[place]? = some given
  ne : known ≠ given
  before : ∀ earlier < place, recorded[earlier]? = output[earlier]?

namespace DiffersFirst

theorem cons_cases {a b known given : α} {recorded output : List α} {place : Nat}
    (h : DiffersFirst (a :: recorded) (b :: output) place known given) :
    (place = 0 ∧ known = a ∧ given = b ∧ a ≠ b) ∨
      ∃ later, place = later + 1 ∧ a = b ∧ DiffersFirst recorded output later known given := by
  cases place with
  | zero =>
    obtain rfl : a = known := by simpa using h.known_eq
    obtain rfl : b = given := by simpa using h.given_eq
    exact .inl ⟨rfl, rfl, rfl, h.ne⟩
  | succ later =>
    have hhead : a = b := by simpa using h.before 0 (Nat.succ_pos later)
    refine .inr ⟨later, rfl, hhead, ?_, ?_, h.ne, fun earlier hlt => ?_⟩
    · simpa using h.known_eq
    · simpa using h.given_eq
    · simpa using h.before (earlier + 1) (Nat.succ_lt_succ hlt)

/-- A word that is no longer than another begins it or differs from it first somewhere. -/
theorem prefix_or_exists (recorded output : List α) (hle : recorded.length ≤ output.length) :
    recorded <+: output ∨ ∃ place known given, DiffersFirst recorded output place known given := by
  induction recorded generalizing output with
  | nil => exact .inl List.nil_prefix
  | cons a recorded ih =>
    cases output with
    | nil => simp at hle
    | cons b output =>
      by_cases hab : a = b
      · subst hab
        rcases ih output (by simpa using hle) with hpre | ⟨place, known, given, hfirst⟩
        · exact .inl (List.cons_prefix_cons.mpr ⟨rfl, hpre⟩)
        · refine .inr ⟨place + 1, known, given, ?_, ?_, hfirst.ne, fun earlier hlt => ?_⟩
          · simpa using hfirst.known_eq
          · simpa using hfirst.given_eq
          · cases earlier with
            | zero => rfl
            | succ earlier => simpa using hfirst.before earlier (Nat.lt_of_succ_lt_succ hlt)
      · exact .inr ⟨0, a, b, rfl, rfl, hab, fun earlier hlt => absurd hlt (Nat.not_lt_zero _)⟩

end DiffersFirst

/-! ## The longest recorded beginning -/

namespace Store

/-- `outputs` are those of the longest beginning of `word` that can be read from `id`. -/
structure Longest (store : Store α) (id : StateId) (word : List Nat) (outputs : List α) :
    Prop where
  le : outputs.length ≤ word.length
  reads : store.residual id (word.take outputs.length) = some outputs
  ends : ∀ n, outputs.length < n → n ≤ word.length → store.residual id (word.take n) = none

variable (store : Store α)

theorem longest_of_no_edge (id : StateId) (symbol : Nat) (word : List Nat)
    (h : store.edge? id symbol = none) : store.Longest id (symbol :: word) [] where
  le := Nat.zero_le _
  reads := rfl
  ends n hlt _ := by
    obtain ⟨m, rfl⟩ := Nat.exists_eq_succ_of_ne_zero (Nat.pos_iff_ne_zero.mp hlt)
    exact store.residual_of_no_edge id symbol (word.take m) h

theorem longest_of_edge? (id : StateId) (symbol : Nat) (edge : Edge α) (word : List Nat)
    (outputs : List α) (h : store.edge? id symbol = some edge)
    (hrest : store.Longest edge.target word outputs) :
    store.Longest id (symbol :: word) (edge.output :: outputs) where
  le := Nat.succ_le_succ hrest.le
  reads := by
    rw [List.length_cons, List.take_succ_cons, store.residual_of_edge? id symbol edge _ h,
      hrest.reads]
    rfl
  ends n hlt hle := by
    cases n with
    | zero => simp at hlt
    | succ n =>
      rw [List.take_succ_cons, store.residual_of_edge? id symbol edge _ h,
        hrest.ends n (by simpa using hlt) (by simpa using hle)]
      rfl

theorem exists_longest (id : StateId) (word : List Nat) :
    ∃ outputs, store.Longest id word outputs := by
  induction word generalizing id with
  | nil => exact ⟨[], Nat.le_refl _, rfl, fun n hlt hle => absurd hle (Nat.not_le_of_lt hlt)⟩
  | cons symbol word ih =>
    cases hedge : store.edge? id symbol with
    | none => exact ⟨[], store.longest_of_no_edge id symbol word hedge⟩
    | some edge =>
      obtain ⟨outputs, hrest⟩ := ih edge.target
      exact ⟨edge.output :: outputs, store.longest_of_edge? id symbol edge word outputs hedge hrest⟩

variable {store} in
theorem Longest.unique {id : StateId} {word : List Nat} {outputs others : List α}
    (h : store.Longest id word outputs) (h' : store.Longest id word others) :
    outputs = others := by
  have hlen : outputs.length = others.length := by
    by_contra hne
    rcases Nat.lt_or_gt_of_ne hne with hlt | hgt
    · have hnone := h.ends others.length hlt h'.le
      rw [h'.reads] at hnone
      cases hnone
    · have hnone := h'.ends outputs.length hgt h.le
      rw [h.reads] at hnone
      cases hnone
  have hreads := h.reads
  rw [hlen, h'.reads] at hreads
  exact (Option.some.inj hreads).symm

theorem longest_cons_cases (id : StateId) (symbol : Nat) (word : List Nat) (outputs : List α)
    (h : store.Longest id (symbol :: word) outputs) :
    (store.edge? id symbol = none ∧ outputs = []) ∨
      ∃ edge rest, store.edge? id symbol = some edge ∧ outputs = edge.output :: rest ∧
        store.Longest edge.target word rest := by
  cases hedge : store.edge? id symbol with
  | none => exact .inl ⟨rfl, h.unique (store.longest_of_no_edge id symbol word hedge)⟩
  | some edge =>
    obtain ⟨rest, hrest⟩ := store.exists_longest edge.target word
    exact .inr ⟨edge, rest, rfl,
      h.unique (store.longest_of_edge? id symbol edge word rest hedge hrest), hrest⟩

/-- What a beginning of the word reads is a beginning of the longest. -/
theorem prefix_of_longest (id : StateId) (word front : List Nat) (recorded outputs : List α)
    (h : store.Longest id word recorded) (hpre : front <+: word)
    (hread : store.residual id front = some outputs) : outputs <+: recorded := by
  have hle : front.length ≤ recorded.length := by
    by_contra hlt
    have hnone := h.ends front.length (Nat.lt_of_not_le hlt) hpre.length_le
    rw [← List.prefix_iff_eq_take.mp hpre] at hnone
    cases hnone.symm.trans hread
  have hsame := store.residual_of_prefix id front _ recorded
    (List.prefix_take_iff.mpr ⟨hpre, hle⟩) h.reads
  rw [Option.some.inj (hread.symm.trans hsame)]
  exact List.take_prefix _ _

/-! ## Following a trace -/

variable [DecidableEq α] (arity : Nat)
  (hclosed : ∀ id target, store.Leads id target → store.Live target)
  (harity : ∀ id row, store.row? id = some row → row.arity = arity)

include hclosed harity

theorem follow_of_prefix (start : StateId) (position : Nat) (input : List Nat)
    (output recorded : List α) (hstart : store.Live start) (hlen : input.length = output.length)
    (hsym : ∀ symbol ∈ input, symbol < arity) (hlongest : store.Longest start input recorded)
    (hpre : recorded <+: output) :
    ∃ path, store.follow start position input output = .ok path ∧
      path.length = recorded.length := by
  induction input generalizing start position output recorded with
  | nil =>
    have hnil := List.length_eq_zero_iff.mp (Nat.le_zero.mp hlongest.le)
    exact ⟨[], by simp [follow, pure, Except.pure], by simp [hnil]⟩
  | cons symbol input ih =>
    obtain ⟨out, output, rfl⟩ := List.exists_cons_of_length_eq_add_one hlen.symm
    rcases store.longest_cons_cases start symbol input recorded hlongest with
      ⟨hedge, rfl⟩ | ⟨edge, rest, hedge, rfl, hrest⟩
    · obtain ⟨row, hrow⟩ := hstart
      rw [store.edge?_of_row? start row symbol hrow] at hedge
      have hlt : symbol < row.arity := harity start row hrow ▸ hsym symbol List.mem_cons_self
      exact ⟨[], store.follow_of_no_edge start position symbol input out output row hrow hlt hedge,
        rfl⟩
    · obtain ⟨rfl, hbelow⟩ := List.cons_prefix_cons.mp hpre
      obtain ⟨path, hpath, hcount⟩ := ih edge.target (position + 1) output rest
        (hclosed start edge.target (store.leads_of_edge? start symbol edge hedge))
        (Nat.succ.inj hlen) (fun other hmem => hsym other (List.mem_cons_of_mem symbol hmem))
        hrest hbelow
      refine ⟨edge.target :: path, ?_, congrArg Nat.succ hcount⟩
      rw [store.follow_of_edge? start position symbol input _ output edge hedge, if_pos rfl, hpath]
      rfl

omit harity in
theorem follow_of_differs (start : StateId) (position : Nat) (input : List Nat)
    (output recorded : List α) (hstart : store.Live start) (hlen : input.length = output.length)
    (hlongest : store.Longest start input recorded) (place : Nat) (known given : α)
    (hfirst : DiffersFirst recorded output place known given) :
    store.follow start position input output =
      .error (.refused (.conflict (position + place) known given)) := by
  induction input generalizing start position output recorded place with
  | nil =>
    have hnil := List.length_eq_zero_iff.mp (Nat.le_zero.mp hlongest.le)
    simp [hnil] at hfirst
    exact absurd hfirst.known_eq (by simp)
  | cons symbol input ih =>
    obtain ⟨out, output, rfl⟩ := List.exists_cons_of_length_eq_add_one hlen.symm
    rcases store.longest_cons_cases start symbol input recorded hlongest with
      ⟨_, rfl⟩ | ⟨edge, rest, hedge, rfl, hrest⟩
    · exact absurd hfirst.known_eq (by simp)
    · rw [store.follow_of_edge? start position symbol input out output edge hedge]
      rcases hfirst.cons_cases with ⟨rfl, rfl, rfl, hne⟩ | ⟨later, rfl, hout, hlater⟩
      · rw [if_neg hne, Nat.add_zero]
      · rw [if_pos hout, ih edge.target (position + 1) output rest
          (hclosed start edge.target (store.leads_of_edge? start symbol edge hedge))
          (Nat.succ.inj hlen) hrest later hlater]
        simp only [Except.map]
        congr 3
        omega

end Store

/-! ## Decisions -/

namespace Graph

/-- `outputs` belong to the longest beginning of `word` that is recorded. -/
def LongestRecorded (graph : Graph α) (word : List Nat) (outputs : List α) : Prop :=
  ∃ begin, begin <+: word ∧ graph.replay begin = .ok (some outputs) ∧
    ∀ other, other <+: word → graph.Recorded other → other.length ≤ begin.length

/-- How an insertion is decided when `recorded` are the outputs of the longest recorded beginning of
`input`.  Each rule holds only where those before it do not. -/
inductive Decides (graph : Graph α) (input : List Nat) (output recorded : List α) :
    Except (Failure α) Bool → Prop
  | uneven (hlen : input.length ≠ output.length) :
    Decides graph input output recorded
      (.error (.refused (.lengthMismatch input.length output.length)))
  | outside (hlen : input.length = output.length) (inside rest : List Nat) (symbol : Nat)
      (hinput : input = inside ++ symbol :: rest) (hinside : ∀ other ∈ inside, other < graph.arity)
      (hsymbol : graph.arity ≤ symbol) :
    Decides graph input output recorded (.error (.refused (.outOfRange symbol graph.arity)))
  | conflict (hlen : input.length = output.length) (hsym : ∀ symbol ∈ input, symbol < graph.arity)
      (place : Nat) (known given : α) (hfirst : DiffersFirst recorded output place known given) :
    Decides graph input output recorded (.error (.refused (.conflict place known given)))
  | known (hlen : input.length = output.length) (hsym : ∀ symbol ∈ input, symbol < graph.arity)
      (hsame : recorded = output) :
    Decides graph input output recorded (.ok false)
  | fresh (hlen : input.length = output.length) (hsym : ∀ symbol ∈ input, symbol < graph.arity)
      (hagree : ¬ ∃ place known given, DiffersFirst recorded output place known given)
      (hne : recorded ≠ output) :
    Decides graph input output recorded (.ok true)

/-- Some rule applies to every trace. -/
theorem exists_decides (graph : Graph α) (input : List Nat) (output recorded : List α) :
    ∃ result, graph.Decides input output recorded result := by
  by_cases hlen : input.length = output.length
  · rcases graph.inside_or_exists input with hsym | ⟨inside, symbol, rest, hcut, hinside, hsymbol⟩
    · by_cases hdiffer : ∃ place known given, DiffersFirst recorded output place known given
      · obtain ⟨place, known, given, hfirst⟩ := hdiffer
        exact ⟨_, .conflict hlen hsym place known given hfirst⟩
      · by_cases hsame : recorded = output
        · exact ⟨_, .known hlen hsym hsame⟩
        · exact ⟨_, .fresh hlen hsym hdiffer hsame⟩
    · exact ⟨_, .outside hlen inside rest symbol hcut hinside hsymbol⟩
  · exact ⟨_, .uneven hlen⟩

section

variable (graph : Graph α) (h : graph.Sound)

include h

theorem replay_eq_some_iff (word : List Nat) (outputs : List α) :
    graph.replay word = .ok (some outputs) ↔ graph.reading word = some outputs := by
  constructor
  · intro hreplay
    rcases graph.replayFrom_cases h word graph.root with ⟨_, _, he⟩ | ⟨hdead, _⟩ | ⟨_, _, _, he⟩
    · exact Except.ok.inj (he.symm.trans hreplay)
    · exact absurd (graph.root_live h) hdead
    · cases he.symm.trans hreplay
  · intro hread
    obtain ⟨last, hreach⟩ :=
      graph.pool.store.exists_reach_of_residual graph.root word outputs hread
    obtain ⟨others, hothers, hreplay⟩ := graph.replay_eq_of_reach h word last hreach
    rw [hreplay, ← hothers, hread]

theorem longestRecorded_iff (word : List Nat) (outputs : List α) :
    graph.LongestRecorded word outputs ↔ graph.pool.store.Longest graph.root word outputs := by
  constructor
  · rintro ⟨begin, hpre, hreplay, hlongest⟩
    have hread := (graph.replay_eq_some_iff h begin outputs).mp hreplay
    have hlen := graph.pool.store.length_residual graph.root begin outputs hread
    refine ⟨hlen ▸ hpre.length_le, ?_, fun n hlt hle => ?_⟩
    · rw [hlen, ← List.prefix_iff_eq_take.mp hpre]
      exact hread
    · rw [← Option.not_isSome_iff_eq_none, Option.isSome_iff_exists]
      rintro ⟨more, hmore⟩
      have hn := hlongest (word.take n) (List.take_prefix n word)
        ⟨more, (graph.replay_eq_some_iff h _ more).mpr hmore⟩
      rw [List.length_take_of_le hle] at hn
      omega
  · intro hlongest
    refine ⟨word.take outputs.length, List.take_prefix _ _,
      (graph.replay_eq_some_iff h _ outputs).mpr hlongest.reads, ?_⟩
    rintro other hother ⟨more, hmore⟩
    rw [List.length_take_of_le hlongest.le]
    by_contra hlt
    have hnone := hlongest.ends other.length (Nat.lt_of_not_le hlt) hother.length_le
    rw [← List.prefix_iff_eq_take.mp hother] at hnone
    have hread := (graph.replay_eq_some_iff h other more).mp hmore
    cases hread.symm.trans hnone

omit h in
/-- All of a recorded word is its longest recorded beginning. -/
theorem longest_of_reading (word : List Nat) (outputs : List α)
    (hread : graph.reading word = some outputs) :
    graph.pool.store.Longest graph.root word outputs := by
  have hlen := graph.pool.store.length_residual graph.root word outputs hread
  refine ⟨hlen.le, ?_, fun n hlt hle => absurd hle (Nat.not_le_of_lt (hlen ▸ hlt))⟩
  rw [hlen, List.take_length]
  exact hread

variable [DecidableEq α]

/-- Once the trace has been followed, nothing can go wrong any more. -/
theorem insert_of_path (input : List Nat) (output : List α) (path : List StateId)
    (hpath : graph.recordedPath input output = .ok path) :
    (graph.insert input output).result = .ok (decide (path.length ≠ input.length)) := by
  rcases graph.recordedPath_cases h input output with ⟨refusal, he⟩ |
    ⟨found, he, hlen, hsym, ⟨hfull, _⟩ | ⟨hlt, hcourse, hstates⟩⟩
  · cases he.symm.trans hpath
  · obtain rfl : found = path := Except.ok.inj (he.symm.trans hpath)
    simp only [insert, he, if_pos hfull]
    simp [hfull]
  · obtain rfl : found = path := Except.ok.inj (he.symm.trans hpath)
    obtain ⟨after, events, hextend, _⟩ :=
      graph.extend_eq h found input output hlen hsym hcourse hstates
    simp only [insert, he, if_neg (Nat.ne_of_lt hlt), hextend]
    simp [Nat.ne_of_lt hlt]

omit h in
theorem recordedPath_of_fitting (input : List Nat) (output : List α)
    (hlen : input.length = output.length) (hsym : ∀ symbol ∈ input, symbol < graph.arity) :
    graph.recordedPath input output = graph.pool.store.follow graph.root 0 input output := by
  simp only [recordedPath, if_pos hlen, graph.check_of_forall_lt input hsym, Except.mapError, bind,
    Except.bind]

theorem result_of_decides (input : List Nat) (output recorded : List α)
    (result : Except (Failure α) Bool)
    (hlongest : graph.pool.store.Longest graph.root input recorded)
    (hdecides : graph.Decides input output recorded result) :
    (graph.insert input output).result = result := by
  have hclosed := h.coherent.settled.closed
  have hroot := graph.root_live h
  cases hdecides with
  | uneven hlen =>
    simp only [insert, recordedPath, if_neg hlen]
    rfl
  | outside hlen inside rest symbol hinput hinside hsymbol =>
    have hcheck := graph.check_of_outside inside rest symbol hinside hsymbol
    rw [← hinput] at hcheck
    simp only [insert, recordedPath, if_pos hlen, hcheck, Except.mapError, bind, Except.bind]
  | conflict hlen hsym place known given hfirst =>
    have hfollow := graph.pool.store.follow_of_differs hclosed graph.root 0 input output recorded
      hroot hlen hlongest place known given hfirst
    rw [Nat.zero_add] at hfollow
    simp only [insert, graph.recordedPath_of_fitting input output hlen hsym, hfollow]
  | known hlen hsym hsame =>
    obtain ⟨path, hfollow, hcount⟩ := graph.pool.store.follow_of_prefix graph.arity hclosed
      h.coherent.arities graph.root 0 input output recorded hroot hlen hsym hlongest
      (hsame ▸ List.prefix_rfl)
    rw [graph.insert_of_path h input output path
      ((graph.recordedPath_of_fitting input output hlen hsym).trans hfollow)]
    simp [hcount, hsame, hlen]
  | fresh hlen hsym hagree hne =>
    have hpre := (DiffersFirst.prefix_or_exists recorded output (hlen ▸ hlongest.le)).resolve_right
      hagree
    obtain ⟨path, hfollow, hcount⟩ := graph.pool.store.follow_of_prefix graph.arity hclosed
      h.coherent.arities graph.root 0 input output recorded hroot hlen hsym hlongest hpre
    rw [graph.insert_of_path h input output path
      ((graph.recordedPath_of_fitting input output hlen hsym).trans hfollow)]
    have hlt : recorded.length ≠ output.length := fun he => hne (hpre.eq_of_length he)
    simpa [hcount, hlen] using hlt

theorem result_iff_decides (input : List Nat) (output recorded : List α)
    (hlongest : graph.pool.store.Longest graph.root input recorded)
    (result : Except (Failure α) Bool) :
    (graph.insert input output).result = result ↔ graph.Decides input output recorded result := by
  constructor
  · rintro rfl
    obtain ⟨result, hdecides⟩ := graph.exists_decides input output recorded
    rw [graph.result_of_decides h input output recorded result hlongest hdecides]
    exact hdecides
  · exact graph.result_of_decides h input output recorded result hlongest

theorem fitting_of_ok (input : List Nat) (output : List α) (fresh : Bool)
    (hok : (graph.insert input output).result = .ok fresh) :
    input.length = output.length ∧ ∀ symbol ∈ input, symbol < graph.arity := by
  obtain ⟨recorded, hlongest⟩ := graph.pool.store.exists_longest graph.root input
  cases (graph.result_iff_decides h input output recorded hlongest _).mp hok with
  | known hlen hsym _ => exact ⟨hlen, hsym⟩
  | fresh hlen hsym _ _ => exact ⟨hlen, hsym⟩

/-- What an accepted insertion leaves reads the whole trace, so a second one finds nothing new. -/
theorem result_again (input : List Nat) (output : List α) (fresh : Bool)
    (hok : (graph.insert input output).result = .ok fresh) :
    ((graph.insert input output).graph.insert input output).result = .ok false := by
  obtain ⟨hlen, hsym⟩ := graph.fitting_of_ok h input output fresh hok
  obtain ⟨hafter, harity, hover⟩ := graph.reading_insert h input output fresh hok
  have hread : (graph.insert input output).graph.reading input = some output := by
    rw [hover, overlay, if_pos List.prefix_rfl, hlen, List.take_length]
  have hlongest : (graph.insert input output).graph.pool.store.Longest
      (graph.insert input output).graph.root input output := by
    refine ⟨hlen.ge, ?_, fun n hlt hle => absurd hle (Nat.not_le_of_lt (hlen ▸ hlt))⟩
    rw [← hlen, List.take_length]
    exact hread
  exact result_of_decides _ hafter input output output (.ok false) hlongest
    (.known hlen (harity ▸ hsym) rfl)

end

variable [DecidableEq α]

theorem graph_of_result_ne (graph : Graph α) (input : List Nat) (output : List α)
    (hne : (graph.insert input output).result ≠ .ok true) :
    (graph.insert input output).graph = graph := by
  unfold insert at hne ⊢
  cases hpath : graph.recordedPath input output with
  | error failure => rfl
  | ok path =>
    rw [hpath] at hne
    by_cases hfull : path.length = input.length
    · simp only [if_pos hfull]
    · simp only [if_neg hfull] at hne ⊢
      cases hextend : graph.extend path input output with
      | error fault => rfl
      | ok changed =>
        rw [hextend] at hne
        exact absurd rfl hne

/-- The outcome of every insertion after every history.  The rules decide the answer; whatever it
is, the graph is as before unless something new was recorded; and what was accepted is found again
by a second insertion. -/
theorem insert_exact (graph : Graph α) (h : graph.Reachable) (input : List Nat)
    (output : List α) :
    ∃ recorded, (∀ outputs, graph.LongestRecorded input outputs ↔ outputs = recorded) ∧
      (∀ result, (graph.insert input output).result = result ↔
        graph.Decides input output recorded result) ∧
      ((graph.insert input output).result ≠ .ok true →
        (graph.insert input output).graph = graph) ∧
      ∀ fresh, (graph.insert input output).result = .ok fresh →
        ((graph.insert input output).graph.insert input output).result = .ok false := by
  have hsound := h.sound
  obtain ⟨recorded, hlongest⟩ := graph.pool.store.exists_longest graph.root input
  refine ⟨recorded, fun outputs => ?_, ?_, ?_, ?_⟩
  · rw [graph.longestRecorded_iff hsound input outputs]
    exact ⟨fun hother => hother.unique hlongest, fun he => he ▸ hlongest⟩
  · exact graph.result_iff_decides hsound input output recorded hlongest
  · exact graph.graph_of_result_ne input output
  · exact graph.result_again hsound input output

/-- The first disagreement counts, also when the symbol after it has never been read. -/
theorem conflict_in_sharedStep :
    sharedStep.Reachable ∧
      (sharedStep.insert [0, 0, 1] ['a', 'z', 'q']).result =
        .error (.refused (.conflict 1 'b' 'z')) ∧
      (sharedStep.insert [0, 0, 1] ['a', 'z', 'q']).graph = sharedStep := by
  have hreach : sharedStep.Reachable := ⟨2, _, rfl⟩
  have harity : sharedStep.arity = 2 := by cbv
  obtain ⟨recorded, hlongest, hresult, hsame, _⟩ :=
    insert_exact sharedStep hreach [0, 0, 1] ['a', 'z', 'q']
  obtain rfl : ['a', 'b'] = recorded := by
    refine (hlongest _).mp ⟨[0, 0], ⟨[1], rfl⟩, by cbv, ?_⟩
    rintro other hother ⟨outputs, hreplay⟩
    by_contra hlt
    obtain rfl : other = [0, 0, 1] := hother.eq_of_length_le (Nat.lt_of_not_le hlt)
    have hnone : sharedStep.replay [0, 0, 1] = .ok none := by cbv
    cases hnone.symm.trans hreplay
  have hfirst : DiffersFirst ['a', 'b'] ['a', 'z', 'q'] 1 'b' 'z' :=
    ⟨rfl, rfl, by decide, fun earlier hlt => by rw [Nat.lt_one_iff.mp hlt]; rfl⟩
  have hsym : ∀ symbol ∈ [0, 0, 1], symbol < sharedStep.arity := by
    rw [harity]
    decide
  have hconflict := (hresult _).mpr (Decides.conflict (by rfl) hsym 1 'b' 'z' hfirst)
  exact ⟨hreach, hconflict, hsame (by simp [hconflict])⟩

end Graph

end TraceGraph
