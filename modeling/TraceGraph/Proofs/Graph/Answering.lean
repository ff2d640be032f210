import Mathlib
import TraceGraph.Proofs.Graph.Accessing
import TraceGraph.Proofs.Graph.Canonicity
import TraceGraph.Session

/-! # Answering

A word over the alphabet can be read in several ways: all at once, as its longest recorded
beginning, by whether it is recorded, or one successor after the other.  They all answer and all
agree, since every live state has as many slots as the alphabet has symbols and every edge leads to
a live state.  Growth keeps it so; hence no question within the alphabet is ever refused for a
symbol. -/
namespace TraceGraph
set_option autoImplicit false

/-! ## Refusals in answers -/

/-- The refusal that a result reports. -/
def refusalOf {α β : Type} : Except (Failure α) β → Option (Refusal α)
  | .error (.refused refusal) => some refusal
  | .error (.broken _) => none
  | .ok _ => none

def Answer.refusal? {α : Type} : Answer α → Option (Refusal α)
  | inserted result => refusalOf result
  | grown result => refusalOf result
  | replayed result => refusalOf result
  | longest result => refusalOf result
  | recorded result => refusalOf result
  | successor result => refusalOf (result.mapError .refused)
  | output result => refusalOf (result.mapError .refused)
  | step _ => none
  | separating _ => none

/-- The symbols that a request names. -/
def Request.symbols {α : Type} : Request α → List Nat
  | call (.insert input _) => input
  | call (.insertAfter access input _) => access ++ input
  | call (.grow _) => []
  | replay word => word
  | replayFrom _ word => word
  | replayLongest word => word
  | isRecorded word => word
  | successor _ symbol => [symbol]
  | output _ symbol => [symbol]
  | step _ symbol => [symbol]
  | separatingWord _ _ _ => []

theorem refusalOf_eq_some_iff {α β : Type} (result : Except (Failure α) β) (refusal : Refusal α) :
    refusalOf result = some refusal ↔ result = .error (.refused refusal) := by
  match result with
  | .error (.refused _) => simp [refusalOf]
  | .error (.broken _) => simp [refusalOf]
  | .ok _ => simp [refusalOf]

namespace Graph

variable {α : Type}

/-! ## One word -/

section

variable (graph : Graph α) (h : graph.Sound) (word : List Nat)
  (hword : ∀ symbol ∈ word, symbol < graph.arity)

include h hword

theorem isRecorded_eq : graph.isRecorded word = .ok (graph.reading word).isSome := by
  obtain ⟨outputs, hwalk, hlongest⟩ := graph.walkFrom_longest h word hword
  have hanswer : graph.isRecorded word = .ok (decide (outputs.length = word.length)) := by
    rw [isRecorded, hwalk]
    rfl
  rw [hanswer]
  by_cases hlen : outputs.length = word.length
  · have hread := hlongest.reads
    rw [hlen, List.take_length] at hread
    rw [reading, hread, decide_eq_true hlen, Option.isSome_some]
  · have hnone := hlongest.ends word.length (Nat.lt_of_le_of_ne hlongest.le hlen) (Nat.le_refl _)
    rw [List.take_length] at hnone
    rw [reading, hnone, decide_eq_false hlen, Option.isSome_none]

theorem isRecorded_eq_true_iff : graph.isRecorded word = .ok true ↔ graph.Recorded word := by
  rw [graph.isRecorded_eq h word hword, Except.ok.injEq, Option.isSome_iff_exists]
  exact exists_congr fun outputs => (graph.replay_eq_some_iff h word outputs).symm

theorem replayLongest_eq : ∃ outputs, graph.replayLongest word = .ok outputs ∧
    graph.LongestRecorded word outputs := by
  obtain ⟨outputs, hwalk, hlongest⟩ := graph.walkFrom_longest h word hword
  exact ⟨outputs, hwalk, (graph.longestRecorded_iff h word outputs).mpr hlongest⟩

end

/-- How the ways to read `word` from the root agree, with one another and with those to read what
follows it. -/
structure ReplaysAgree (graph : Graph α) (word : List Nat) : Prop where
  /-- Each way gives an answer, and a positive one when the others do. -/
  same : ∃ outputs? id?, graph.replay word = .ok outputs? ∧ graph.stateAfter word = .ok id? ∧
    graph.isRecorded word = .ok outputs?.isSome ∧ outputs?.isSome = id?.isSome
  append : ∀ id, graph.stateAfter word = .ok (some id) →
    ∀ rest, (∀ symbol ∈ rest, symbol < graph.arity) →
      (∀ all, graph.replay (word ++ rest) = .ok (some all) ↔ ∃ front back, all = front ++ back ∧
        graph.replay word = .ok (some front) ∧ graph.replayFrom id rest = .ok (some back)) ∧
      ∀ front back, front.length = word.length →
        (graph.replay (word ++ rest) = .ok (some (front ++ back)) ↔
          graph.replay word = .ok (some front) ∧ graph.replayFrom id rest = .ok (some back))
  steps : ∀ outputs, graph.replay word = .ok (some outputs) → outputs.length = word.length ∧
    ∀ place symbol, word[place]? = some symbol → ∃ id next output,
      graph.stateAfter (word.take place) = .ok (some id) ∧
      graph.stateAfter (word.take (place + 1)) = .ok (some next) ∧
      outputs[place]? = some output ∧ graph.output id symbol = .ok (some output) ∧
      graph.step id symbol = some (next, output)
  longest : ∃ begin outputs, begin <+: word ∧ graph.isRecorded begin = .ok true ∧
    (∀ other, other <+: word → graph.isRecorded other = .ok true →
      other.length ≤ begin.length) ∧
    graph.replay begin = .ok (some outputs) ∧ graph.replayLongest word = .ok outputs
  beginnings : ∀ outputs, graph.replay word = .ok (some outputs) → ∀ begin, begin <+: word →
    graph.isRecorded begin = .ok true ∧
      graph.replay begin = .ok (some (outputs.take begin.length))

section

variable (graph : Graph α) (h : graph.Sound)

include h

variable (word : List Nat) (hword : ∀ symbol ∈ word, symbol < graph.arity)

include hword

theorem steps_of_replay (outputs : List α) (hreplay : graph.replay word = .ok (some outputs))
    (place symbol : Nat) (hsymbol : word[place]? = some symbol) :
    ∃ id next output, graph.stateAfter (word.take place) = .ok (some id) ∧
      graph.stateAfter (word.take (place + 1)) = .ok (some next) ∧
      outputs[place]? = some output ∧ graph.output id symbol = .ok (some output) ∧
      graph.step id symbol = some (next, output) := by
  have hread := (graph.replay_eq_some_iff h word outputs).mp hreplay
  obtain ⟨id, edge, hbefore, hedge, hafter, houtput⟩ :=
    graph.pool.store.exists_edge_of_residual graph.root word outputs hread place symbol hsymbol
  have htake : ∀ n, ∀ other ∈ word.take n, other < graph.arity :=
    fun n other hmem => hword other (List.mem_of_mem_take hmem)
  have hlive := graph.pool.store.live_reach h.coherent.settled.closed graph.root id _
    (graph.root_live h) hbefore
  refine ⟨id, edge.target, edge.output, ?_, ?_, houtput, ?_, ?_⟩
  · rw [graph.stateAfter_eq h _ (htake place), hbefore]
  · rw [graph.stateAfter_eq h _ (htake (place + 1)), hafter]
  · rw [graph.output_eq h.coherent.arities id symbol hlive
      (hword symbol (List.mem_of_getElem? hsymbol)), hedge]
    rfl
  · rw [graph.step_eq, hedge]
    rfl

theorem replaysAgree : graph.ReplaysAgree word where
  same := by
    refine ⟨graph.reading word, graph.pool.store.reach graph.root word, ?_, ?_, ?_, ?_⟩
    · exact graph.replay_eq h word hword
    · exact graph.stateAfter_eq h word hword
    · exact graph.isRecorded_eq h word hword
    · exact graph.pool.store.isSome_residual graph.root word
  append id hstate rest hrest := by
    refine ⟨fun all => ⟨fun hall => ?_, ?_⟩,
      graph.replay_append_iff h word hword id hstate rest hrest⟩
    · obtain ⟨front, back?, hreplay, _, hfrom, happend⟩ :=
        graph.replay_append h word hword id hstate rest hrest
      rw [happend, Except.ok.injEq, Option.map_eq_some_iff] at hall
      obtain ⟨back, rfl, rfl⟩ := hall
      exact ⟨front, back, rfl, hreplay, hfrom⟩
    · rintro ⟨front, back, rfl, hfront, hback⟩
      have hlen := graph.pool.store.length_residual graph.root word front
        ((graph.replay_eq_some_iff h word front).mp hfront)
      exact (graph.replay_append_iff h word hword id hstate rest hrest front back hlen).mpr
        ⟨hfront, hback⟩
  steps outputs hreplay := by
    have hread := (graph.replay_eq_some_iff h word outputs).mp hreplay
    exact ⟨graph.pool.store.length_residual graph.root word outputs hread,
      graph.steps_of_replay h word hword outputs hreplay⟩
  longest := by
    obtain ⟨outputs, hlongest, begin, hpre, hreplay, hmax⟩ := graph.replayLongest_eq h word hword
    have hiff : ∀ other, other <+: word → (graph.isRecorded other = .ok true ↔
        graph.Recorded other) := fun other hother =>
      graph.isRecorded_eq_true_iff h other fun symbol hmem => hword symbol (hother.subset hmem)
    refine ⟨begin, outputs, hpre, (hiff begin hpre).mpr ⟨outputs, hreplay⟩, ?_, hreplay, hlongest⟩
    exact fun other hother hrec => hmax other hother ((hiff other hother).mp hrec)
  beginnings outputs hreplay begin hpre := by
    have hread := graph.pool.store.residual_of_prefix graph.root begin word outputs hpre
      ((graph.replay_eq_some_iff h word outputs).mp hreplay)
    have hbegin := (graph.replay_eq_some_iff h begin _).mpr hread
    have hsym : ∀ symbol ∈ begin, symbol < graph.arity :=
      fun symbol hmem => hword symbol (hpre.subset hmem)
    exact ⟨(graph.isRecorded_eq_true_iff h begin hsym).mpr ⟨_, hbegin⟩, hbegin⟩

end

/-! ## Every question -/

/-- Within the alphabet no symbol is refused, and what starts at a live state is answered. -/
structure AnswersInside [DecidableEq α] (graph : Graph α) : Prop where
  symbols : ∀ request, (∀ symbol ∈ request.symbols, symbol < graph.arity) →
    ∀ symbol arity, (graph.answer request).refusal? ≠ some (.outOfRange symbol arity)
  words : ∀ id state word, graph.state? id = some state →
    (∀ symbol ∈ word, symbol < graph.arity) → ∃ outputs?, graph.replayFrom id word = .ok outputs?
  steps : ∀ id state symbol, graph.state? id = some state → symbol < graph.arity →
    graph.successor id symbol = .ok ((graph.step id symbol).map Prod.fst) ∧
      graph.output id symbol = .ok ((graph.step id symbol).map Prod.snd)

/-- The graph after some growths. -/
def growAll [DecidableEq α] (graph : Graph α) (arities : List Nat) : Graph α :=
  arities.foldl (fun graph arity => (graph.grow arity).graph) graph

variable [DecidableEq α]

theorem Reachable.growAll {graph : Graph α} (h : graph.Reachable) (arities : List Nat) :
    (graph.growAll arities).Reachable := by
  obtain ⟨arity, history, rfl⟩ := h
  refine ⟨arity, history ++ arities.map .grow, ?_⟩
  simp only [Graph.growAll, after, List.foldl_append, List.foldl_map]
  rfl

theorem arity_growAll (graph : Graph α) (h : graph.Sound) (arities : List Nat) :
    (graph.growAll arities).arity = arities.foldl max graph.arity := by
  induction arities generalizing graph with
  | nil => rfl
  | cons arity arities ih =>
    obtain ⟨after, events, hgrow, hafter, _, harity, _⟩ := graph.grow_eq h arity
    rw [Graph.growAll, List.foldl_cons, hgrow, List.foldl_cons, ← harity]
    exact ih after hafter

section

variable (graph : Graph α) (h : graph.Sound)

include h

theorem result_ne_outOfRange (input : List Nat) (output : List α)
    (hinput : ∀ symbol ∈ input, symbol < graph.arity) (symbol arity : Nat) :
    (graph.insert input output).result ≠ .error (.refused (.outOfRange symbol arity)) := by
  intro hresult
  obtain ⟨recorded, hlongest⟩ := graph.pool.store.exists_longest graph.root input
  cases (graph.result_iff_decides h input output recorded hlongest _).mp hresult with
  | outside _ inside rest _ hcut _ hsymbol =>
    have hmem : symbol ∈ input := hcut ▸ List.mem_append_right inside List.mem_cons_self
    exact absurd (hinput symbol hmem) (Nat.not_lt_of_le hsymbol)

theorem insertAfter_ne_outOfRange (access input : List Nat) (output : List α)
    (hinput : ∀ symbol ∈ access ++ input, symbol < graph.arity) (symbol arity : Nat) :
    (graph.insertAfter access input output).result ≠
      .error (.refused (.outOfRange symbol arity)) := by
  intro hresult
  generalize houtcome : graph.insertAfter access input output = outcome at hresult
  cases (graph.insertAfter_iff_comesTo h access input output outcome).mp houtcome with
  | outside inside rest found hcut _ hsymbol =>
    have hmem : found ∈ access ++ input :=
      List.mem_append_left input (hcut ▸ List.mem_append_right inside List.mem_cons_self)
    exact absurd (hinput found hmem) (Nat.not_lt_of_le hsymbol)
  | unrecorded => cases hresult
  | recorded outputs _ => exact graph.result_ne_outOfRange h _ _ hinput symbol arity hresult

theorem refusal?_answer (request : Request α)
    (hsymbols : ∀ symbol ∈ request.symbols, symbol < graph.arity) (symbol arity : Nat) :
    (graph.answer request).refusal? ≠ some (.outOfRange symbol arity) := by
  have hreplay : ∀ id word, (∀ symbol ∈ word, symbol < graph.arity) →
      graph.replayFrom id word ≠ .error (.refused (.outOfRange symbol arity)) := by
    intro id word hword
    rcases graph.replayFrom_cases h word id with ⟨_, _, he⟩ | ⟨_, he⟩ | ⟨other, hmem, hle, _⟩
    · simp [he]
    · simp [he]
    · exact absurd (hword other hmem) (Nat.not_lt_of_le hle)
  have hlive : ∀ id, graph.pool.store.Live id ∨ graph.state id = .error (.unknownState id) :=
    fun id => or_iff_not_imp_left.mpr (graph.state_of_not_live id)
  cases request with
  | call call =>
    cases call with
    | insert input output =>
      exact mt (refusalOf_eq_some_iff _ _).mp
        (graph.result_ne_outOfRange h input output hsymbols symbol arity)
    | insertAfter access input output =>
      exact mt (refusalOf_eq_some_iff _ _).mp
        (graph.insertAfter_ne_outOfRange h access input output hsymbols symbol arity)
    | grow wide =>
      obtain ⟨after, events, he, _⟩ := graph.grow_eq h wide
      change refusalOf (graph.grow wide).result ≠ _
      simp [he, refusalOf]
  | replay word =>
    exact mt (refusalOf_eq_some_iff _ _).mp (hreplay graph.root word hsymbols)
  | replayFrom start word =>
    exact mt (refusalOf_eq_some_iff _ _).mp (hreplay start word hsymbols)
  | replayLongest word =>
    obtain ⟨outputs, he, _⟩ := graph.replayLongest_eq h word hsymbols
    change refusalOf (graph.replayLongest word) ≠ _
    simp [he, refusalOf]
  | isRecorded word =>
    change refusalOf (graph.isRecorded word) ≠ _
    simp [graph.isRecorded_eq h word hsymbols, refusalOf]
  | successor id asked =>
    change refusalOf ((graph.successor id asked).mapError .refused) ≠ _
    rcases hlive id with hid | hdead
    · have he := graph.successor_eq h.coherent.arities id asked hid
        (hsymbols asked (List.mem_singleton_self asked))
      simp [he, Except.mapError, refusalOf]
    · simp [successor, hdead, bind, Except.bind, Except.mapError, refusalOf]
  | output id asked =>
    change refusalOf ((graph.output id asked).mapError .refused) ≠ _
    rcases hlive id with hid | hdead
    · have he := graph.output_eq h.coherent.arities id asked hid
        (hsymbols asked (List.mem_singleton_self asked))
      simp [he, Except.mapError, refusalOf]
    · simp [output, hdead, bind, Except.bind, Except.mapError, refusalOf]
  | step id asked => simp [answer, Answer.refusal?]
  | separatingWord τ target lenient => simp [answer, Answer.refusal?]

theorem answersInside : graph.AnswersInside where
  symbols := graph.refusal?_answer h
  words id state word hstate hword := by
    have hid := (graph.isSome_state? id).mp (Option.isSome_of_eq_some hstate)
    exact ⟨_, graph.replayFrom_eq h.coherent.settled.closed id word hword hid⟩
  steps id state symbol hstate hlt := by
    have hid := (graph.isSome_state? id).mp (Option.isSome_of_eq_some hstate)
    rw [graph.successor_eq h.coherent.arities id symbol hid hlt,
      graph.output_eq h.coherent.arities id symbol hid hlt, graph.step_eq, Option.map_map,
      Option.map_map]
    exact ⟨rfl, rfl⟩

end

/-- On every graph a caller can hold all ways to read a word over the alphabet answer and agree,
and they compose; and however often the alphabet grows, no question within it is refused for a
symbol. -/
theorem replays_agree (graph : Graph α) (h : graph.Reachable) :
    (∀ word, (∀ symbol ∈ word, symbol < graph.arity) → graph.ReplaysAgree word) ∧
      ∀ arities, (graph.growAll arities).arity = arities.foldl max graph.arity ∧
        (graph.growAll arities).AnswersInside :=
  ⟨graph.replaysAgree h.sound, fun arities =>
    ⟨graph.arity_growAll h.sound arities, answersInside _ (h.growAll arities).sound⟩⟩

/-- The state after 0 answers the rest of [0, 0].  Symbol 4 is refused at first, and answered once
the alphabet has grown to five symbols. -/
theorem agreeing_sharedStep :
    sharedStep.Reachable ∧ sharedStep.ReplaysAgree [0] ∧
      sharedStep.replayFrom ⟨2⟩ [0] = .ok (some ['b']) ∧
      sharedStep.replay ([0] ++ [0]) = .ok (some (['a'] ++ ['b'])) ∧
      sharedStep.replay [0, 4] = .error (.refused (.outOfRange 4 2)) ∧
      (sharedStep.growAll [5, 3]).arity = 5 ∧
      ((sharedStep.growAll [5, 3]).answer (.replay [0, 4])).refusal? ≠
        some (.outOfRange 4 5) := by
  have hreach : sharedStep.Reachable := ⟨2, _, rfl⟩
  have harity : sharedStep.arity = 2 := by cbv
  have hsmall : ∀ symbol ∈ [0], symbol < sharedStep.arity := by
    rw [harity]
    decide
  obtain ⟨hagree, hgrown⟩ := replays_agree sharedStep hreach
  obtain ⟨hwide, hinside⟩ := hgrown [5, 3]
  rw [harity] at hwide
  have hfront : sharedStep.replay [0] = .ok (some ['a']) := by cbv
  have hback : sharedStep.replayFrom ⟨2⟩ [0] = .ok (some ['b']) := by cbv
  obtain ⟨_, hiff⟩ := (hagree [0] hsmall).append ⟨2⟩ (by cbv) [0] hsmall
  refine ⟨hreach, hagree [0] hsmall, hback, (hiff ['a'] ['b'] rfl).mpr ⟨hfront, hback⟩, by cbv,
    hwide, hinside.symbols (.replay [0, 4]) (fun symbol hmem => ?_) 4 5⟩
  have hle : symbol ≤ 4 := by
    rcases List.mem_pair.mp hmem with rfl | rfl
    · omega
    · omega
  exact hwide ▸ Nat.lt_succ_of_le hle

end Graph

end TraceGraph
