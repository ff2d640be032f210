import Mathlib
import TraceGraph.Proofs.Graph.Outcomes

/-! # Insertion after an access word

A trace may be given from the state to which an access word leads.  A symbol of the access word
outside the alphabet is reported first, then an access word that is not recorded, and otherwise the
insertion is that of the whole trace from the root.  Since what is read in front is what is
recorded, no conflict lies there; and afterwards the state to which the access word leads reads the
trace, be it the state of before or a copy of it. -/
namespace TraceGraph
set_option autoImplicit false

namespace Graph

variable {α : Type}

section

variable (graph : Graph α)

/-! ## Walking -/

theorem walkFrom_longest (h : graph.Sound) (word : List Nat)
    (hword : ∀ symbol ∈ word, symbol < graph.arity) :
    ∃ outputs, graph.walkFrom graph.root word = .ok outputs ∧
      graph.pool.store.Longest graph.root word outputs := by
  obtain ⟨outputs, hwalk, hle, hreads, hends⟩ := graph.walkFrom_eq h.coherent.settled.closed
    graph.root word hword (graph.root_live h)
  exact ⟨outputs, hwalk, hle, hreads, hends⟩

theorem exists_longestRecorded (h : graph.Sound) (word : List Nat) :
    ∃ outputs, graph.LongestRecorded word outputs := by
  obtain ⟨outputs, hlongest⟩ := graph.pool.store.exists_longest graph.root word
  exact ⟨outputs, (graph.longestRecorded_iff h word outputs).mpr hlongest⟩

end

variable [DecidableEq α]

/-! ## What it comes to -/

/-- What an insertion after `access` comes to.  Each rule holds only where those before it do
not. -/
inductive ComesTo (graph : Graph α) (access input : List Nat) (output : List α) :
    Outcome α Bool → Prop
  | outside (inside rest : List Nat) (symbol : Nat) (haccess : access = inside ++ symbol :: rest)
      (hinside : ∀ other ∈ inside, other < graph.arity) (hsymbol : graph.arity ≤ symbol) :
    ComesTo graph access input output
      ⟨graph, .error (.refused (.outOfRange symbol graph.arity)), []⟩
  | unrecorded (hsym : ∀ symbol ∈ access, symbol < graph.arity) (hnot : ¬ graph.Recorded access)
      (begin : List Nat) (hpre : begin <+: access) (hbegin : graph.Recorded begin)
      (hlongest : ∀ other, other <+: access → graph.Recorded other →
        other.length ≤ begin.length) :
    ComesTo graph access input output
      ⟨graph, .error (.refused (.undefinedAccess begin.length)), []⟩
  | recorded (outputs : List α) (haccess : graph.replay access = .ok (some outputs)) :
    ComesTo graph access input output (graph.insert (access ++ input) (outputs ++ output))

section

variable (graph : Graph α) (h : graph.Sound) (access input : List Nat) (output : List α)

include h

theorem exists_comesTo : ∃ outcome, graph.ComesTo access input output outcome := by
  rcases graph.inside_or_exists access with hsym | ⟨inside, symbol, rest, hcut, hinside, hsymbol⟩
  · by_cases hrec : graph.Recorded access
    · obtain ⟨outputs, hreplay⟩ := hrec
      exact ⟨_, .recorded outputs hreplay⟩
    · obtain ⟨outputs, begin, hpre, hbegin, hlongest⟩ := graph.exists_longestRecorded h access
      exact ⟨_, .unrecorded hsym hrec begin hpre ⟨outputs, hbegin⟩ hlongest⟩
  · exact ⟨_, .outside inside rest symbol hcut hinside hsymbol⟩

theorem insertAfter_of_comesTo (outcome : Outcome α Bool)
    (hcomes : graph.ComesTo access input output outcome) :
    graph.insertAfter access input output = outcome := by
  cases hcomes with
  | outside inside rest symbol hcut hinside hsymbol =>
    have hcheck := graph.check_of_outside inside rest symbol hinside hsymbol
    simp only [insertAfter, walkFrom, hcut, hcheck, Except.mapError, bind, Except.bind]
  | unrecorded hsym hnot begin hpre hbegin hlongest =>
    obtain ⟨outputs, hwalk, hfound⟩ := graph.walkFrom_longest h access hsym
    obtain ⟨others, hothers⟩ := hbegin
    have hsame := hfound.unique ((graph.longestRecorded_iff h access others).mp
      ⟨begin, hpre, hothers, hlongest⟩)
    have hread := (graph.replay_eq_some_iff h begin others).mp hothers
    have hlen := graph.pool.store.length_residual graph.root begin others hread
    have hlt : begin.length < access.length := by
      refine Nat.lt_of_le_of_ne hpre.length_le fun he => hnot ?_
      rw [← hpre.eq_of_length he]
      exact ⟨others, hothers⟩
    rw [insertAfter, hwalk, hsame]
    simp only [hlen, if_pos hlt]
  | recorded outputs hreplay =>
    have hread := (graph.replay_eq_some_iff h access outputs).mp hreplay
    obtain ⟨others, hwalk, hfound⟩ := graph.walkFrom_longest h access
      (graph.lt_arity_of_reading h access outputs hread)
    have hsame := hfound.unique (graph.longest_of_reading access outputs hread)
    have hlen := graph.pool.store.length_residual graph.root access outputs hread
    rw [insertAfter, hwalk, hsame]
    simp only [hlen, Nat.lt_irrefl, if_false]

theorem insertAfter_iff_comesTo (outcome : Outcome α Bool) :
    graph.insertAfter access input output = outcome ↔
      graph.ComesTo access input output outcome := by
  constructor
  · rintro rfl
    obtain ⟨outcome, hcomes⟩ := graph.exists_comesTo h access input output
    rw [graph.insertAfter_of_comesTo h access input output outcome hcomes]
    exact hcomes
  · exact graph.insertAfter_of_comesTo h access input output outcome

/-- What is accepted after an access word is inserted from the root, as a whole. -/
theorem insertAfter_of_ok (fresh : Bool)
    (hok : (graph.insertAfter access input output).result = .ok fresh) :
    ∃ outputs, graph.replay access = .ok (some outputs) ∧ graph.insertAfter access input output =
      graph.insert (access ++ input) (outputs ++ output) := by
  generalize houtcome : graph.insertAfter access input output = outcome at hok ⊢
  cases (graph.insertAfter_iff_comesTo h access input output outcome).mp houtcome with
  | outside => cases hok
  | unrecorded => cases hok
  | recorded outputs haccess => exact ⟨outputs, haccess, rfl⟩

/-! ## Errors of the whole trace -/

theorem result_ne_undefinedAccess (place : Nat) :
    (graph.insert input output).result ≠ .error (.refused (.undefinedAccess place)) := by
  obtain ⟨recorded, hlongest⟩ := graph.pool.store.exists_longest graph.root input
  rw [Ne, graph.result_iff_decides h input output recorded hlongest]
  exact nofun

theorem result_eq_lengthMismatch_iff (m n : Nat) :
    (graph.insert input output).result = .error (.refused (.lengthMismatch m n)) ↔
      input.length ≠ output.length ∧ m = input.length ∧ n = output.length := by
  obtain ⟨recorded, hlongest⟩ := graph.pool.store.exists_longest graph.root input
  rw [graph.result_iff_decides h input output recorded hlongest]
  constructor
  · rintro ⟨hlen⟩
    exact ⟨hlen, rfl, rfl⟩
  · rintro ⟨hlen, rfl, rfl⟩
    exact .uneven hlen

/-- The access word leads to `undefinedAccess` alone, with the length of what is recorded of it. -/
theorem result_eq_undefinedAccess_iff (place : Nat) :
    (graph.insertAfter access input output).result =
        .error (.refused (.undefinedAccess place)) ↔
      (∀ symbol ∈ access, symbol < graph.arity) ∧ ¬ graph.Recorded access ∧
        ∃ begin, begin <+: access ∧ graph.Recorded begin ∧ place = begin.length ∧
          ∀ other, other <+: access → graph.Recorded other → other.length ≤ begin.length := by
  constructor
  · intro hresult
    generalize houtcome : graph.insertAfter access input output = outcome at hresult
    cases (graph.insertAfter_iff_comesTo h access input output outcome).mp houtcome with
    | outside => cases hresult
    | unrecorded hsym hnot begin hpre hbegin hlongest =>
      cases hresult
      exact ⟨hsym, hnot, begin, hpre, hbegin, rfl, hlongest⟩
    | recorded outputs _ => exact absurd hresult (graph.result_ne_undefinedAccess h _ _ place)
  · rintro ⟨hsym, hnot, begin, hpre, hbegin, rfl, hlongest⟩
    rw [graph.insertAfter_of_comesTo h access input output _
      (.unrecorded hsym hnot begin hpre hbegin hlongest)]

/-- Where outputs are recorded, an insertion that begins with them has no conflict. -/
theorem le_of_conflict (outputs : List α) (hread : graph.reading access = some outputs)
    (place : Nat) (known given : α)
    (hresult : (graph.insert (access ++ input) (outputs ++ output)).result =
      .error (.refused (.conflict place known given))) : access.length ≤ place := by
  obtain ⟨recorded, hlongest⟩ := graph.pool.store.exists_longest graph.root (access ++ input)
  have hbegin := graph.pool.store.prefix_of_longest graph.root _ access recorded outputs hlongest
    (List.prefix_append _ _) hread
  have hlen := graph.pool.store.length_residual graph.root access outputs hread
  cases (graph.result_iff_decides h _ _ recorded hlongest _).mp hresult with
  | conflict _ _ _ _ _ hfirst =>
    by_contra hlt
    have hplace : place < outputs.length := by omega
    obtain ⟨rest, rfl⟩ := hbegin
    have hknown := hfirst.known_eq
    have hgiven := hfirst.given_eq
    rw [List.getElem?_append_left hplace] at hknown hgiven
    exact hfirst.ne (Option.some.inj (hknown.symm.trans hgiven))

/-! ## After it -/

/-- The end of the access word reads the trace, once it is accepted. -/
theorem replayFrom_accessed (fresh : Bool)
    (hok : (graph.insertAfter access input output).result = .ok fresh) :
    ∃ id, (graph.insertAfter access input output).graph.stateAfter access = .ok (some id) ∧
      (graph.insertAfter access input output).graph.replayFrom id input = .ok (some output) := by
  obtain ⟨outputs, hreplay, hwhole⟩ := graph.insertAfter_of_ok h access input output fresh hok
  rw [hwhole] at hok ⊢
  have hread := (graph.replay_eq_some_iff h access outputs).mp hreplay
  have hlen := graph.pool.store.length_residual graph.root access outputs hread
  obtain ⟨hfit, hsym⟩ := graph.fitting_of_ok h _ _ fresh hok
  obtain ⟨hafter, harity, hover⟩ := graph.reading_insert h _ _ fresh hok
  generalize (graph.insert (access ++ input) (outputs ++ output)).graph = after at *
  rw [← harity] at hsym
  have hfront : after.reading access = some outputs := by
    rw [hover, overlay, if_pos (List.prefix_append _ _), ← hlen, List.take_left]
  have hall : after.reading (access ++ input) = some (outputs ++ output) := by
    rw [hover, overlay, if_pos List.prefix_rfl, hfit, List.take_length]
  obtain ⟨id, hreach⟩ := after.pool.store.exists_reach_of_residual after.root access outputs hfront
  obtain ⟨hsym, hsym'⟩ := List.forall_mem_append.mp hsym
  have hstate : after.stateAfter access = .ok (some id) := by
    rw [after.stateAfter_eq hafter access hsym, hreach]
  refine ⟨id, hstate, ?_⟩
  exact ((after.replay_append_iff hafter access hsym id hstate input hsym' outputs output hlen).mp
    ((after.replay_eq_some_iff hafter _ _).mpr hall)).2

end

/-- The outcome of every insertion after an access word, on every graph a caller can hold.  The
rules decide it as a whole; the errors of an insertion after a recorded word are about the whole
trace, and lie behind that word; and what is accepted can be read from the state to which the word
leads afterwards. -/
theorem insertAfter_exact (graph : Graph α) (h : graph.Reachable) (access input : List Nat)
    (output : List α) :
    (∀ outcome, graph.insertAfter access input output = outcome ↔
      graph.ComesTo access input output outcome) ∧
    (∀ place, (graph.insertAfter access input output).result =
        .error (.refused (.undefinedAccess place)) ↔
      (∀ symbol ∈ access, symbol < graph.arity) ∧ ¬ graph.Recorded access ∧
        ∃ begin, begin <+: access ∧ graph.Recorded begin ∧ place = begin.length ∧
          ∀ other, other <+: access → graph.Recorded other → other.length ≤ begin.length) ∧
    (graph.Recorded access →
      (∀ m n, (graph.insertAfter access input output).result =
          .error (.refused (.lengthMismatch m n)) ↔ input.length ≠ output.length ∧
        m = access.length + input.length ∧ n = access.length + output.length) ∧
      ∀ place known given, (graph.insertAfter access input output).result =
        .error (.refused (.conflict place known given)) → access.length ≤ place) ∧
    ∀ fresh, (graph.insertAfter access input output).result = .ok fresh →
      ∃ id, (graph.insertAfter access input output).graph.stateAfter access = .ok (some id) ∧
        (graph.insertAfter access input output).graph.replayFrom id input = .ok (some output) := by
  have hsound := h.sound
  refine ⟨graph.insertAfter_iff_comesTo hsound access input output,
    graph.result_eq_undefinedAccess_iff hsound access input output, ?_,
    graph.replayFrom_accessed hsound access input output⟩
  rintro ⟨outputs, hreplay⟩
  have hread := (graph.replay_eq_some_iff hsound access outputs).mp hreplay
  have hlen := graph.pool.store.length_residual graph.root access outputs hread
  rw [graph.insertAfter_of_comesTo hsound access input output _ (.recorded outputs hreplay)]
  refine ⟨fun m n => ?_, graph.le_of_conflict hsound access input output outputs hread⟩
  rw [graph.result_eq_lengthMismatch_iff hsound, List.length_append, List.length_append, hlen,
    Ne, Nat.add_left_cancel_iff]

/-- The state after 0 is shared with 1.  An insertion after 0 copies it, so 0 leads to another state
then; and an access word that is not recorded counts before all that is wrong with the trace. -/
theorem accessed_sharedStep :
    sharedStep.Reachable ∧ sharedStep.stateAfter [0] = .ok (some ⟨2⟩) ∧
      (∃ id, id ≠ ⟨2⟩ ∧
        (sharedStep.insertAfter [0] [1] ['d']).graph.stateAfter [0] = .ok (some id) ∧
        (sharedStep.insertAfter [0] [1] ['d']).graph.replayFrom id [1] = .ok (some ['d'])) ∧
      (sharedStep.insertAfter [0, 1] [7] ['x', 'y']).result =
        .error (.refused (.undefinedAccess 1)) := by
  have hreach : sharedStep.Reachable := ⟨2, _, rfl⟩
  have hbefore : sharedStep.stateAfter [0] = .ok (some ⟨2⟩) := by cbv
  have harity : sharedStep.arity = 2 := by cbv
  have hok : (sharedStep.insertAfter [0] [1] ['d']).result = .ok true := by cbv
  obtain ⟨_, _, _, hread⟩ := insertAfter_exact sharedStep hreach [0] [1] ['d']
  obtain ⟨id, hid, hreplay⟩ := hread true hok
  have hcopy : (sharedStep.insertAfter [0] [1] ['d']).graph.stateAfter [0] = .ok (some ⟨3⟩) := by
    cbv
  have hne : id ≠ ⟨2⟩ := by
    obtain rfl : ⟨3⟩ = id := Option.some.inj (Except.ok.inj (hcopy.symm.trans hid))
    decide
  obtain ⟨_, hundefined, _⟩ := insertAfter_exact sharedStep hreach [0, 1] [7] ['x', 'y']
  have hnot : ¬ sharedStep.Recorded [0, 1] := by
    rintro ⟨outputs, hreplay⟩
    have hnone : sharedStep.replay [0, 1] = .ok none := by cbv
    cases hnone.symm.trans hreplay
  refine ⟨hreach, hbefore, ⟨id, hne, hid, hreplay⟩, (hundefined 1).mpr ⟨?_, hnot, [0], ?_⟩⟩
  · rw [harity]
    decide
  · refine ⟨⟨[1], rfl⟩, ⟨['a'], by cbv⟩, rfl, fun other hpre hrec => ?_⟩
    by_contra hlt
    obtain rfl : other = [0, 1] := hpre.eq_of_length_le (Nat.lt_of_not_le hlt)
    exact hnot hrec

end Graph

end TraceGraph
