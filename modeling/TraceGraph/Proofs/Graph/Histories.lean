import TraceGraph.Proofs.Graph.Accessing

/-! # What a history records

An accepted insertion never contradicts what was recorded before it, so it adds the beginnings of
its trace and takes nothing away.  By induction over a history the graph reads the beginnings of the
traces that were accepted, each with the outputs of its trace, and no other word. -/
namespace TraceGraph
set_option autoImplicit false

namespace Graph

variable {α : Type} [DecidableEq α]

section

variable (graph : Graph α) (h : graph.Sound)

include h

/-! ## One insertion -/

/-- The outputs of the longest recorded beginning of an accepted trace are its own. -/
theorem longest_prefix_of_ok (input : List Nat) (output recorded : List α) (fresh : Bool)
    (hlongest : graph.pool.store.Longest graph.root input recorded)
    (hok : (graph.insert input output).result = .ok fresh) : recorded <+: output := by
  cases (graph.result_iff_decides h input output recorded hlongest _).mp hok with
  | known hlen hsym hsame => exact hsame ▸ List.prefix_rfl
  | fresh hlen hsym hagree hne =>
    exact (DiffersFirst.prefix_or_exists recorded output (hlen ▸ hlongest.le)).resolve_right hagree

/-- Where an accepted trace was recorded already, its outputs are the recorded ones. -/
theorem eq_take_of_reading (input : List Nat) (output : List α) (fresh : Bool)
    (hok : (graph.insert input output).result = .ok fresh) (word : List Nat) (outputs : List α)
    (hpre : word <+: input) (hread : graph.reading word = some outputs) :
    outputs = output.take word.length := by
  obtain ⟨recorded, hlongest⟩ := graph.pool.store.exists_longest graph.root input
  have hbelow := graph.longest_prefix_of_ok h input output recorded fresh hlongest hok
  have hbegin := graph.pool.store.prefix_of_longest graph.root input word recorded outputs hlongest
    hpre hread
  have hlen := graph.pool.store.length_residual graph.root word outputs hread
  rw [← hlen]
  exact List.prefix_iff_eq_take.mp (hbegin.trans hbelow)

theorem reading_insert_iff (input : List Nat) (output : List α) (fresh : Bool)
    (hok : (graph.insert input output).result = .ok fresh) (word : List Nat) (outputs : List α) :
    (graph.insert input output).graph.reading word = some outputs ↔
      graph.reading word = some outputs ∨
        (word <+: input ∧ outputs = output.take word.length) := by
  obtain ⟨_, _, hover⟩ := graph.reading_insert h input output fresh hok
  rw [hover, overlay]
  by_cases hpre : word <+: input
  · rw [if_pos hpre, Option.some.injEq]
    constructor
    · exact fun he => .inr ⟨hpre, he.symm⟩
    · rintro (hread | ⟨_, he⟩)
      · exact (graph.eq_take_of_reading h input output fresh hok word outputs hpre hread).symm
      · exact he.symm
  · rw [if_neg hpre]
    exact ⟨.inl, fun hor => hor.resolve_right fun hnew => hpre hnew.1⟩

/-- Nothing is new exactly in a trace that the graph reads. -/
theorem insert_eq_ok_false_iff (input : List Nat) (output : List α) :
    (graph.insert input output).result = .ok false ↔ graph.reading input = some output := by
  obtain ⟨recorded, hlongest⟩ := graph.pool.store.exists_longest graph.root input
  rw [graph.result_iff_decides h input output recorded hlongest]
  constructor
  · rintro (_ | _ | _ | ⟨hlen, _, rfl⟩)
    have hreads := hlongest.reads
    rw [← hlen, List.take_length] at hreads
    exact hreads
  · intro hread
    have hlen := graph.pool.store.length_residual graph.root input output hread
    refine .known hlen.symm (graph.lt_arity_of_reading h input output hread)
      (hlongest.unique ⟨hlen.le, ?_, ?_⟩)
    · rw [hlen, List.take_length]
      exact hread
    · exact fun n hlt hle => absurd hle (Nat.not_le_of_lt (hlen ▸ hlt))

/-! ## One call -/

/-- A call accepts a trace by inserting it from the root, or accepts none and records nothing. -/
theorem accepted_cases (call : Call α) :
    (graph.accepted call = none ∧ (graph.perform call).reading = graph.reading) ∨
      ∃ trace fresh, graph.accepted call = some trace ∧
        (graph.insert trace.1 trace.2).result = .ok fresh ∧
        graph.perform call = (graph.insert trace.1 trace.2).graph := by
  cases call with
  | insert input output =>
    cases hok : (graph.insert input output).result with
    | error failure =>
      refine .inl ⟨by simp only [accepted, hok], ?_⟩
      rw [perform, graph.graph_of_result_ne input output (by simp [hok])]
    | ok fresh => exact .inr ⟨(input, output), fresh, by simp only [accepted, hok], hok, rfl⟩
  | insertAfter access input output =>
    cases hok : (graph.insertAfter access input output).result with
    | error failure =>
      refine .inl ⟨by simp only [accepted, hok], ?_⟩
      rcases graph.insertAfter_cases h access input output with ⟨refusal, he⟩ | ⟨outputs, he⟩
      · rw [perform, he]
      · rw [he] at hok
        rw [perform, he, graph.graph_of_result_ne _ _ (by simp [hok])]
    | ok fresh =>
      obtain ⟨outputs, hreplay, he⟩ := graph.insertAfter_of_ok h access input output fresh hok
      refine .inr ⟨(access ++ input, outputs ++ output), fresh, ?_, he ▸ hok, ?_⟩
      · simp only [accepted, hok, hreplay]
      · rw [perform, he]
  | grow arity =>
    obtain ⟨after, events, he, _, hroot, _, hres⟩ := graph.grow_eq h arity
    refine .inl ⟨rfl, funext fun word => ?_⟩
    rw [perform, he, reading, hroot, hres, reading]

theorem reading_perform_iff (call : Call α) (word : List Nat) (outputs : List α) :
    (graph.perform call).reading word = some outputs ↔
      graph.reading word = some outputs ∨
        ∃ trace ∈ graph.accepted call, word <+: trace.1 ∧ outputs = trace.2.take word.length := by
  rcases graph.accepted_cases h call with ⟨hnone, hsame⟩ | ⟨trace, fresh, hsome, hok, hafter⟩
  · rw [hsame, hnone]
    exact ⟨.inl, fun hor => hor.resolve_right fun ⟨_, hmem, _⟩ => nomatch hmem⟩
  · rw [hafter, graph.reading_insert_iff h trace.1 trace.2 fresh hok word outputs, hsome]
    refine or_congr_right ⟨fun hnew => ⟨trace, rfl, hnew⟩, ?_⟩
    rintro ⟨other, hother, hnew⟩
    obtain rfl : trace = other := Option.some.inj hother
    exact hnew

theorem length_of_accepted (call : Call α) (trace : List Nat × List α)
    (hmem : trace ∈ graph.accepted call) : trace.1.length = trace.2.length := by
  rcases graph.accepted_cases h call with ⟨hnone, _⟩ | ⟨found, fresh, hsome, hok, _⟩
  · rw [hnone] at hmem
    cases hmem
  · obtain rfl : found = trace := Option.some.inj (hsome.symm.trans hmem)
    exact (graph.fitting_of_ok h found.1 found.2 fresh hok).1

/-! ## A history -/

/-- From any sound graph on, by induction over the calls. -/
theorem reading_foldl_iff (history : List (Call α)) (word : List Nat) (outputs : List α) :
    (history.foldl perform graph).reading word = some outputs ↔
      graph.reading word = some outputs ∨
        ∃ trace ∈ graph.traces history, word <+: trace.1 ∧
          outputs = trace.2.take word.length := by
  induction history generalizing graph with
  | nil => simp [traces]
  | cons call history ih =>
    rw [List.foldl_cons, ih (graph.perform call) (graph.sound_perform h call),
      graph.reading_perform_iff h call word outputs, or_assoc, traces]
    simp only [List.mem_append, Option.mem_toList, Option.mem_def, or_and_right, exists_or]

theorem length_of_traces (history : List (Call α)) (trace : List Nat × List α)
    (hmem : trace ∈ graph.traces history) : trace.1.length = trace.2.length := by
  induction history generalizing graph with
  | nil => cases hmem
  | cons call history ih =>
    rcases List.mem_append.mp hmem with hhere | hlater
    · exact graph.length_of_accepted h call trace (Option.mem_toList.mp hhere)
    · exact ih (graph.perform call) (graph.sound_perform h call) hlater

end

omit [DecidableEq α] in
/-- The empty word is the only one that a new graph reads. -/
theorem reading_new_iff (arity : Nat) (word : List Nat) (outputs : List α) :
    (new arity : Graph α).reading word = some outputs ↔ word = [] ∧ outputs = [] := by
  cases word with
  | nil => exact ⟨fun he => ⟨rfl, (Option.some.inj he).symm⟩, fun he => he.2 ▸ rfl⟩
  | cons symbol word =>
    have hnone : (new arity : Graph α).reading (symbol :: word) = none :=
      Store.residual_of_no_edge _ _ symbol word rfl
    simp [hnone]

theorem reading_after_iff (arity : Nat) (history : List (Call α)) (word : List Nat)
    (outputs : List α) :
    (after arity history).reading word = some outputs ↔ (word = [] ∧ outputs = []) ∨
      ∃ trace ∈ (new arity).traces history, word <+: trace.1 ∧
        outputs = trace.2.take word.length := by
  rw [after, reading_foldl_iff _ (sound_new arity), reading_new_iff]

/-- A contradiction is not accepted, and a trace after a state counts from the root. -/
example : (new 2).traces [.insert [0] ['a'], .insert [0, 1] ['b', 'c'], .grow 3,
    .insertAfter [0] [2] ['c']] = [([0], ['a']), ([0, 2], ['a', 'c'])] := by cbv

end Graph

end TraceGraph
