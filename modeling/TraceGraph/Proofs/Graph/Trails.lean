import Mathlib.Data.List.Infix
import TraceGraph.Proofs.Graph.Sound

/-! # Trails

The trail of a word are the states that it passes as far as it is recorded.  An insertion that
records something new goes along the trail of its word: the report on it and the changes of the
states are told by places on the trail. -/
namespace TraceGraph
set_option autoImplicit false

variable {α : Type}

namespace Store

/-! ## The states on the way -/

section

variable (store : Store α)

/-- The states that `word` passes after `start` as far as there are edges. -/
def passed (start : StateId) (word : List Nat) : List StateId :=
  word.inits.filterMap (store.reach start)

theorem passed_of_edge? (start : StateId) (symbol : Nat) (edge : Edge α) (word : List Nat)
    (h : store.edge? start symbol = some edge) :
    store.passed start (symbol :: word) = start :: store.passed edge.target word := by
  have hfirst : store.reach start [] = some start := rfl
  have hrest : store.reach start ∘ (fun word => symbol :: word) = store.reach edge.target :=
    funext fun word => store.reach_of_edge? start symbol edge word h
  rw [passed, List.inits_cons, List.filterMap_cons_some hfirst, List.filterMap_map, hrest]
  rfl

theorem passed_of_no_edge (start : StateId) (symbol : Nat) (word : List Nat)
    (h : store.edge? start symbol = none) : store.passed start (symbol :: word) = [start] := by
  have hfirst : store.reach start [] = some start := rfl
  have hrest : word.inits.filterMap (store.reach start ∘ fun word => symbol :: word) = [] :=
    List.filterMap_eq_nil_iff.mpr fun word _ => store.reach_of_no_edge start symbol word h
  rw [passed, List.inits_cons, List.filterMap_cons_some hfirst, List.filterMap_map, hrest]

/-- A new trace passes the states of its course. -/
theorem passed_of_course (start : StateId) (input : List Nat) (output : List α)
    (steps : List (Step α)) (h : Course store start input output steps) :
    store.passed start input = steps.map Step.state := by
  induction h with
  | leave start symbol input out output row hrow hlt hslot =>
    exact store.passed_of_no_edge start symbol input
      ((store.edge?_of_row? start row symbol hrow).trans hslot)
  | pass start symbol input output edge steps hedge hrest ih =>
    rw [store.passed_of_edge? start symbol edge input hedge, ih]
    rfl

theorem getElem?_passed (start id : StateId) (word : List Nat) (i : Nat) :
    (store.passed start word)[i]? = some id ↔
      i ≤ word.length ∧ store.reach start (word.take i) = some id := by
  induction word generalizing start i with
  | nil =>
    cases i with
    | zero => exact (and_iff_right (Nat.le_refl 0)).symm
    | succ i => exact iff_of_false nofun fun h => absurd h.1 (Nat.not_succ_le_zero i)
  | cons symbol word ih =>
    cases i with
    | zero =>
      have hzero : (store.passed start (symbol :: word))[0]? = some start := by
        cases hedge : store.edge? start symbol with
        | none => rw [store.passed_of_no_edge start symbol word hedge]; rfl
        | some edge => rw [store.passed_of_edge? start symbol edge word hedge]; rfl
      rw [hzero]
      exact (and_iff_right (Nat.zero_le _)).symm
    | succ i =>
      rw [List.take_succ_cons, List.length_cons, Nat.add_le_add_iff_right]
      cases hedge : store.edge? start symbol with
      | none =>
        rw [store.passed_of_no_edge start symbol word hedge,
          store.reach_of_no_edge start symbol (word.take i) hedge]
        exact iff_of_false nofun fun h => nomatch h.2
      | some edge =>
        rw [store.passed_of_edge? start symbol edge word hedge, List.getElem?_cons_succ,
          store.reach_of_edge? start symbol edge (word.take i) hedge]
        exact ih edge.target i

end

end Store

namespace Graph

/-- The states along the recorded beginning of `word`, the root first. -/
def trail (graph : Graph α) (word : List Nat) : List StateId :=
  word.inits.filterMap fun beginning => (graph.stateAfter beginning).toOption.join

/-- How many symbols at the beginning of `word` are recorded. -/
def recordedLength (graph : Graph α) (word : List Nat) : Nat := (graph.trail word).length - 1

/-- The place on the trail of `word` from which on it is shared, one past its end if it is not. -/
def confluence (graph : Graph α) (word : List Nat) : Nat :=
  (graph.trail word).findIdx graph.pool.store.isShared

section

variable (graph : Graph α)

theorem successor_join (id : StateId) (symbol : Nat) : (graph.successor id symbol).toOption.join =
    (graph.pool.store.edge? id symbol).map Edge.target := by
  by_cases hid : graph.pool.store.Live id
  · obtain ⟨row, hrow⟩ := hid
    obtain ⟨state, hstate, rfl⟩ := graph.state_of_row? id row hrow
    rw [graph.pool.store.edge?_of_row? id _ symbol hrow]
    simp only [successor, hstate, bind, Except.bind, Row.successor, Row.slot]
    split
    · rfl
    · next hge =>
      cases hedge : state.row.edge? symbol with
      | none => rfl
      | some edge => exact absurd (state.row.lt_arity symbol edge hedge) hge
  · have hnone : graph.pool.store.edge? id symbol = none := by
      cases hedge : graph.pool.store.edge? id symbol with
      | none => rfl
      | some edge =>
        obtain ⟨row, hrow, _⟩ := graph.pool.store.row?_of_edge? id symbol edge hedge
        exact absurd ⟨row, hrow⟩ hid
    simp only [successor, graph.state_of_not_live id hid, bind, Except.bind, hnone]
    rfl

theorem stateFrom_join (id : StateId) (word : List Nat) :
    (graph.stateFrom id word).toOption.join = graph.pool.store.reach id word := by
  induction word generalizing id with
  | nil => rfl
  | cons symbol word ih =>
    have hnext := graph.successor_join id symbol
    rw [Store.reach]
    cases hsucc : graph.successor id symbol with
    | error refusal =>
      rw [hsucc] at hnext
      rw [Option.map_eq_none_iff.mp hnext.symm]
      simp only [stateFrom, hsucc, bind, Except.bind]
      rfl
    | ok found =>
      simp only [stateFrom, hsucc, bind, Except.bind]
      rw [hsucc] at hnext
      cases found with
      | none =>
        rw [Option.map_eq_none_iff.mp hnext.symm]
        rfl
      | some next =>
        obtain ⟨edge, hedge, rfl⟩ := Option.map_eq_some_iff.mp hnext.symm
        rw [hedge, Option.bind_some]
        exact ih edge.target

/-- A word leads to a state exactly if its edges do. -/
theorem stateAfter_eq_some_iff (word : List Nat) (id : StateId) :
    graph.stateAfter word = .ok (some id) ↔ graph.pool.store.reach graph.root word = some id := by
  rw [← graph.stateFrom_join, stateAfter]
  cases graph.stateFrom graph.root word with
  | error refusal => exact iff_of_false nofun nofun
  | ok found =>
    rw [Except.ok.injEq]
    exact Iff.rfl

theorem trail_eq (word : List Nat) :
    graph.trail word = graph.pool.store.passed graph.root word := by
  have hreach := graph.stateFrom_join graph.root
  exact congrArg (fun f => word.inits.filterMap f) (funext hreach)

/-- What stands on the trail at a place is the state after as many symbols. -/
theorem getElem?_trail (word : List Nat) (i : Nat) (id : StateId) :
    (graph.trail word)[i]? = some id ↔
      i ≤ word.length ∧ graph.stateAfter (word.take i) = .ok (some id) := by
  rw [trail_eq, Store.getElem?_passed, stateAfter_eq_some_iff]

theorem length_trail (word : List Nat) :
    (graph.trail word).length = graph.recordedLength word + 1 := by
  have hroot := (graph.getElem?_trail word 0 graph.root).mpr ⟨Nat.zero_le _, rfl⟩
  have hpos := (List.getElem?_eq_some_iff.mp hroot).1
  rw [recordedLength]
  omega

end

variable [DecidableEq α]

/-- An insertion that records something new goes along a course, which passes the states of the
trail. -/
theorem exists_course (graph : Graph α) (h : graph.Sound) (input : List Nat) (output : List α)
    (hok : (graph.insert input output).result = .ok true) :
    ∃ path, graph.recordedPath input output = .ok path ∧ graph.trail input = graph.root :: path ∧
      path.length < input.length ∧ input.length = output.length ∧
      (∀ symbol ∈ input, symbol < graph.arity) ∧
      Course graph.pool.store graph.root input output
        (Step.along (graph.root :: path) input output) ∧
      (Step.along (graph.root :: path) input output).map Step.state = graph.root :: path := by
  rcases graph.recordedPath_cases h input output with ⟨refusal, hpath⟩ |
    ⟨path, hpath, hlen, hsym, ⟨hfull, _⟩ | ⟨hlt, hcourse, hstates⟩⟩
  · rw [insert, hpath] at hok
    cases hok
  · simp only [insert, hpath, if_pos hfull] at hok
    cases hok
  · refine ⟨path, hpath, ?_, hlt, hlen, hsym, hcourse, hstates⟩
    rw [trail_eq, graph.pool.store.passed_of_course graph.root input output _ hcourse, hstates]

/-- It reports the trail, the copies and the mergers, and revises the pool along the course, stage
by stage. -/
theorem insert_readied (graph : Graph α) (h : graph.Sound) (input : List Nat) (output : List α)
    (hok : (graph.insert input output).result = .ok true) :
    ∃ canon made copied after child top steps kept copies merged first added,
      Step.along (graph.trail input) input output = steps ∧
      Course graph.pool.store graph.root input output steps ∧
      steps.map Step.state = graph.trail input ∧
      graph.pool.Readied graph.root graph.arity input output
        (steps.take (graph.confluence input)) (steps.drop (graph.confluence input)) canon made
        copied child top copies first ∧
      copied.amendAll top (steps.take (graph.confluence input)).reverse =
        .ok (after, graph.root, mergers merged) ∧
      graph.insert input output = ⟨{ graph with pool := after }, .ok true,
        .inserting (graph.recordedLength input) (graph.confluence input)
          (input.length - graph.recordedLength input) :: copyings copies ++ mergers merged⟩ ∧
      after.Rooted graph.root graph.arity ∧
      graph.pool.Revised after (steps.take (graph.confluence input))
        (steps.drop (graph.confluence input)) (input.length - graph.recordedLength input) kept
        copies merged added := by
  obtain ⟨path, hpath, htrail, hlt, hlen, hsym, hcourse, hstates⟩ :=
    graph.exists_course h input output hok
  have hlength : graph.recordedLength input = path.length := by
    rw [recordedLength, htrail]
    rfl
  obtain ⟨canon, made, copied, after, child, top, kept, copies, merged, first, added, hready,
    hamend, hextend, hrooted, hrevised, _⟩ :=
      graph.extend_readied h path input output _ hlen hsym rfl hcourse hstates
        (graph.confluence input) (by rw [confluence, htrail])
  have hmissing : input.length - (path.length + 1) + 1 = input.length - path.length := by omega
  rw [hmissing] at hrevised
  refine ⟨canon, made, copied, after, child, top, _, kept, copies, merged, first, added,
    by rw [htrail], hcourse, hstates.trans htrail.symm, hready, hamend, ?_, hrooted,
    hlength ▸ hrevised⟩
  rw [hlength]
  simp only [insert, hpath, if_neg (Nat.ne_of_lt hlt), hextend]

theorem insert_revised (graph : Graph α) (h : graph.Sound) (input : List Nat) (output : List α)
    (hok : (graph.insert input output).result = .ok true) :
    ∃ after steps kept copies merged added,
      graph.insert input output = ⟨{ graph with pool := after }, .ok true,
        .inserting (graph.recordedLength input) (graph.confluence input)
          (input.length - graph.recordedLength input) :: copyings copies ++ mergers merged⟩ ∧
      after.Rooted graph.root graph.arity ∧
      Course graph.pool.store graph.root input output steps ∧
      steps.map Step.state = graph.trail input ∧
      graph.pool.Revised after (steps.take (graph.confluence input))
        (steps.drop (graph.confluence input)) (input.length - graph.recordedLength input) kept
        copies merged added := by
  obtain ⟨_, _, _, after, _, _, steps, kept, copies, merged, _, added, _, hcourse, hstates, _, _,
    hinsert, hrooted, hrevised⟩ := graph.insert_readied h input output hok
  exact ⟨after, steps, kept, copies, merged, added, hinsert, hrooted, hcourse, hstates, hrevised⟩

end Graph

end TraceGraph
