import TraceGraph.Graph.Replay
import TraceGraph.Proofs.Residual

/-! # Replaying

Where no edge leads out of the live states a walk cannot fail: it reads the longest recorded
beginning of its word.  The answers of a graph to a word are thus the residual of the state it
starts from, or a refusal when the state is not there or a symbol is not in the alphabet. -/
namespace TraceGraph
set_option autoImplicit false

variable {α : Type}

namespace Store

variable (store : Store α)

theorem walk_of_edge? (id : StateId) (symbol : Nat) (edge : Edge α) (word : List Nat)
    (h : store.edge? id symbol = some edge) : store.walk id (symbol :: word) =
      (store.walk edge.target word).map fun read => (edge.output :: read.1, read.2) := by
  obtain ⟨row, hrow, hslot⟩ := store.row?_of_edge? id symbol edge h
  obtain ⟨state, hstate, rfl⟩ := store.get?_of_row? id row hrow
  rw [walk, fetch_eq store id state hstate]
  simp only [bind, Except.bind, hslot]
  cases store.walk edge.target word with
  | error fault => rfl
  | ok read => rfl

theorem walk_of_no_edge (id : StateId) (symbol : Nat) (word : List Nat) (hid : store.Live id)
    (h : store.edge? id symbol = none) : store.walk id (symbol :: word) = .ok ([], id) := by
  obtain ⟨row, hrow⟩ := hid
  obtain ⟨state, hstate, rfl⟩ := store.get?_of_row? id row hrow
  rw [store.edge?_of_row? id _ symbol hrow] at h
  rw [walk, fetch_eq store id state hstate]
  simp only [bind, Except.bind, h]
  rfl

/-- A walk reads a recorded beginning of its word, and no longer one is recorded. -/
theorem walk_eq (hclosed : ∀ id target, store.Leads id target → store.Live target) (id : StateId)
    (word : List Nat) (hid : store.Live id) :
    ∃ outputs last, store.walk id word = .ok (outputs, last) ∧ outputs.length ≤ word.length ∧
      store.residual id (word.take outputs.length) = some outputs ∧
      ∀ n, outputs.length < n → n ≤ word.length → store.residual id (word.take n) = none := by
  induction word generalizing id with
  | nil => exact ⟨[], id, rfl, Nat.le_refl _, rfl, fun n hlt hle => absurd hlt (by simpa using hle)⟩
  | cons symbol word ih =>
    cases hedge : store.edge? id symbol with
    | none =>
      refine ⟨[], id, store.walk_of_no_edge id symbol word hid hedge, Nat.zero_le _, rfl, ?_⟩
      intro n hlt _
      obtain ⟨m, rfl⟩ := Nat.exists_eq_succ_of_ne_zero (Nat.ne_of_gt hlt)
      exact store.residual_of_no_edge id symbol (word.take m) hedge
    | some edge =>
      obtain ⟨outputs, last, hwalk, hle, hres, hrest⟩ :=
        ih edge.target (hclosed id edge.target (store.leads_of_edge? id symbol edge hedge))
      refine ⟨edge.output :: outputs, last, ?_, Nat.succ_le_succ hle, ?_, fun n hlt hn => ?_⟩
      · rw [store.walk_of_edge? id symbol edge word hedge, hwalk]
        rfl
      · rw [List.length_cons, List.take_succ_cons, store.residual_of_edge? id symbol edge _ hedge,
          hres]
        rfl
      · rw [List.length_cons] at hlt hn
        obtain ⟨m, rfl⟩ := Nat.exists_eq_add_of_lt hlt
        rw [show outputs.length + 1 + m + 1 = (outputs.length + m + 1) + 1 by omega,
          List.take_succ_cons, store.residual_of_edge? id symbol edge _ hedge,
          hrest _ (by omega) (by omega)]
        rfl

/-- A walk that reads all of its word shows the residual, and any other one that there is none. -/
theorem walk_residual (hclosed : ∀ id target, store.Leads id target → store.Live target)
    (id : StateId) (word : List Nat) (hid : store.Live id) :
    ∃ outputs last, store.walk id word = .ok (outputs, last) ∧
      store.residual id word = if outputs.length = word.length then some outputs else none := by
  obtain ⟨outputs, last, hwalk, hle, hres, hrest⟩ := store.walk_eq hclosed id word hid
  refine ⟨outputs, last, hwalk, ?_⟩
  by_cases hlen : outputs.length = word.length
  · rw [if_pos hlen, ← hres, hlen, List.take_length]
  · have hnone := hrest word.length (by omega) (Nat.le_refl _)
    rw [List.take_length] at hnone
    rw [if_neg hlen, hnone]

end Store

namespace Graph

variable (graph : Graph α)

/-! ## Checks -/

theorem check_of_forall_lt (word : List Nat) (h : ∀ symbol ∈ word, symbol < graph.arity) :
    graph.check word = .ok () := by
  have hfind : word.find? (fun symbol => graph.arity ≤ symbol) = none := by
    rw [List.find?_eq_none]
    intro symbol hmem
    have := h symbol hmem
    simp only [decide_eq_true_eq]
    omega
  rw [check, hfind]

/-- Of several symbols outside the alphabet the first is reported. -/
theorem check_of_outside (inside rest : List Nat) (symbol : Nat)
    (hinside : ∀ other ∈ inside, other < graph.arity) (hsymbol : graph.arity ≤ symbol) :
    graph.check (inside ++ symbol :: rest) = .error (.outOfRange symbol graph.arity) := by
  have hfind : (inside ++ symbol :: rest).find? (fun symbol => graph.arity ≤ symbol) =
      some symbol := by
    refine List.find?_eq_some_iff_append.mpr ⟨by simpa using hsymbol, inside, rest, rfl, ?_⟩
    simpa using hinside
  rw [check, hfind]

theorem inside_or_exists (word : List Nat) :
    (∀ symbol ∈ word, symbol < graph.arity) ∨ ∃ inside symbol rest,
      word = inside ++ symbol :: rest ∧ (∀ other ∈ inside, other < graph.arity) ∧
        graph.arity ≤ symbol := by
  induction word with
  | nil => exact .inl fun _ hmem => absurd hmem List.not_mem_nil
  | cons first word ih =>
    by_cases hfirst : first < graph.arity
    · rcases ih with hword | ⟨inside, symbol, rest, rfl, hinside, hsymbol⟩
      · exact .inl (List.forall_mem_cons.mpr ⟨hfirst, hword⟩)
      · exact .inr ⟨first :: inside, symbol, rest, rfl,
          List.forall_mem_cons.mpr ⟨hfirst, hinside⟩, hsymbol⟩
    · exact .inr ⟨[], first, word, rfl, fun _ hmem => absurd hmem List.not_mem_nil,
        Nat.le_of_not_lt hfirst⟩

theorem check_cases (word : List Nat) :
    ((∀ symbol ∈ word, symbol < graph.arity) ∧ graph.check word = .ok ()) ∨
      ∃ symbol ∈ word, graph.arity ≤ symbol ∧
        graph.check word = .error (.outOfRange symbol graph.arity) := by
  rcases graph.inside_or_exists word with hword | ⟨inside, symbol, rest, rfl, hinside, hsymbol⟩
  · exact .inl ⟨hword, graph.check_of_forall_lt word hword⟩
  · exact .inr ⟨symbol, List.mem_append_right inside List.mem_cons_self, hsymbol,
      graph.check_of_outside inside rest symbol hinside hsymbol⟩

theorem state_of_row? (id : StateId) (row : Row α) (h : graph.pool.store.row? id = some row) :
    ∃ state, graph.state id = .ok state ∧ state.row = row := by
  obtain ⟨state, hstate, hrow⟩ := graph.pool.store.get?_of_row? id row h
  refine ⟨state, ?_, hrow⟩
  rw [Graph.state, state?, hstate]

theorem state_of_not_live (id : StateId) (h : ¬ graph.pool.store.Live id) :
    graph.state id = .error (.unknownState id) := by
  rw [Graph.state, state?, (graph.pool.store.not_live_iff id).mp h]

/-! ## Answers -/

section

variable (hclosed : ∀ id target, graph.pool.store.Leads id target → graph.pool.store.Live target)
  (id : StateId) (word : List Nat) (hword : ∀ symbol ∈ word, symbol < graph.arity)
  (hid : graph.pool.store.Live id)

include hclosed hword hid

theorem walkFrom_eq : ∃ outputs, graph.walkFrom id word = .ok outputs ∧
    outputs.length ≤ word.length ∧
    graph.pool.store.residual id (word.take outputs.length) = some outputs ∧
    ∀ n, outputs.length < n → n ≤ word.length →
      graph.pool.store.residual id (word.take n) = none := by
  obtain ⟨outputs, last, hwalk, hread⟩ := graph.pool.store.walk_eq hclosed id word hid
  refine ⟨outputs, ?_, hread⟩
  simp only [walkFrom, graph.check_of_forall_lt word hword, hwalk, Except.mapError, bind,
    Except.bind]
  rfl

theorem replayFrom_eq : graph.replayFrom id word = .ok (graph.pool.store.residual id word) := by
  obtain ⟨outputs, last, hwalk, hres⟩ := graph.pool.store.walk_residual hclosed id word hid
  obtain ⟨row, hrow⟩ := hid
  obtain ⟨state, hstate, _⟩ := graph.state_of_row? id row hrow
  simp only [replayFrom, hstate, walkFrom, graph.check_of_forall_lt word hword, hwalk,
    Except.mapError, bind, Except.bind, pure, Except.pure, hres]

end

/-! ## Single steps -/

section

variable (harity : ∀ id row, graph.pool.store.row? id = some row → row.arity = graph.arity)
  (id : StateId) (symbol : Nat) (hid : graph.pool.store.Live id) (hlt : symbol < graph.arity)

include harity hid hlt

theorem exists_slot : ∃ state, graph.state id = .ok state ∧
    state.row.slot symbol = .ok (graph.pool.store.edge? id symbol) := by
  obtain ⟨row, hrow⟩ := hid
  obtain ⟨state, hstate, rfl⟩ := graph.state_of_row? id row hrow
  refine ⟨state, hstate, ?_⟩
  rw [Row.slot, if_pos (harity id _ hrow ▸ hlt), graph.pool.store.edge?_of_row? id _ symbol hrow]

theorem successor_eq :
    graph.successor id symbol = .ok ((graph.pool.store.edge? id symbol).map Edge.target) := by
  obtain ⟨state, hstate, hslot⟩ := graph.exists_slot harity id symbol hid hlt
  simp only [successor, hstate, bind, Except.bind, Row.successor, hslot]
  rfl

theorem output_eq :
    graph.output id symbol = .ok ((graph.pool.store.edge? id symbol).map Edge.output) := by
  obtain ⟨state, hstate, hslot⟩ := graph.exists_slot harity id symbol hid hlt
  simp only [output, hstate, bind, Except.bind, Row.output, hslot]
  rfl

end

/-- Successor by successor a word over the alphabet leads where its edges do. -/
theorem stateFrom_eq (hclosed : ∀ id target, graph.pool.store.Leads id target →
      graph.pool.store.Live target)
    (harity : ∀ id row, graph.pool.store.row? id = some row → row.arity = graph.arity)
    (id : StateId) (word : List Nat) (hword : ∀ symbol ∈ word, symbol < graph.arity)
    (hid : graph.pool.store.Live id) :
    graph.stateFrom id word = .ok (graph.pool.store.reach id word) := by
  induction word generalizing id with
  | nil => rfl
  | cons symbol word ih =>
    have hnext := graph.successor_eq harity id symbol hid (hword symbol List.mem_cons_self)
    simp only [stateFrom, hnext, bind, Except.bind]
    cases he : graph.pool.store.edge? id symbol with
    | none =>
      rw [graph.pool.store.reach_of_no_edge id symbol word he]
      rfl
    | some edge =>
      rw [graph.pool.store.reach_of_edge? id symbol edge word he]
      exact ih edge.target (fun other ho => hword other (List.mem_cons_of_mem symbol ho))
        (hclosed id edge.target (graph.pool.store.leads_of_edge? id symbol edge he))

end Graph

end TraceGraph
