import Mathlib
import TraceGraph.Proofs.Graph.Comparing
import TraceGraph.Proofs.Graph.Histories

/-! # Inseparable graphs

No word separates a graph from another one exactly if the other one records all that it records.  If
that holds both ways the two record the same, and then they are equal up to the numbers of their
states; for a correspondence of states that keeps the root and each step keeps what is recorded. -/
namespace TraceGraph
set_option autoImplicit false

namespace Graph

variable {α : Type}

/-- Takes the live states of one graph to those of another, one to one, so that the root and each
step are kept. -/
structure Corresponds (graph other : Graph α) (f : StateId → StateId) : Prop where
  bijective : Set.BijOn f {id | (graph.state? id).isSome = true}
    {id | (other.state? id).isSome = true}
  root : f graph.root = other.root
  step : ∀ id, (graph.state? id).isSome = true → ∀ symbol,
    other.step (f id) symbol = (graph.step id symbol).map fun next => (f next.1, next.2)

section

variable (graph other : Graph α) (h : graph.Sound)

theorem Renaming.corresponds (f : StateId → StateId) (hf : graph.Renaming other f) :
    graph.Corresponds other f := ⟨hf.bijective, hf.root, hf.step⟩

include h

/-! ## Corresponding states -/

omit h in
theorem edge?_of_corresponds (f : StateId → StateId) (hf : graph.Corresponds other f)
    (id : StateId) (hid : graph.pool.store.Live id) (symbol : Nat) :
    other.pool.store.edge? (f id) symbol =
      (graph.pool.store.edge? id symbol).map fun edge => ⟨f edge.target, edge.output⟩ := by
  have hstep := hf.step id ((graph.isSome_state? id).mpr hid) symbol
  rw [step_eq, step_eq, Option.map_map] at hstep
  have hinj : Function.Injective fun edge : Edge α => (edge.target, edge.output) := by
    rintro ⟨target, output⟩ ⟨target', output'⟩ he
    cases he
    rfl
  refine Option.map_injective hinj (hstep.trans ?_)
  rw [Option.map_map]
  rfl

theorem residual_of_corresponds (f : StateId → StateId) (hf : graph.Corresponds other f)
    (id : StateId) (hid : graph.pool.store.Live id) (word : List Nat) :
    other.pool.store.residual (f id) word = graph.pool.store.residual id word := by
  induction word generalizing id with
  | nil => rfl
  | cons symbol word ih =>
    have hmap := graph.edge?_of_corresponds other f hf id hid symbol
    cases hedge : graph.pool.store.edge? id symbol with
    | none =>
      rw [hedge] at hmap
      rw [graph.pool.store.residual_of_no_edge id symbol word hedge,
        other.pool.store.residual_of_no_edge (f id) symbol word hmap]
    | some edge =>
      rw [hedge] at hmap
      have hlive := h.coherent.settled.closed id edge.target
        (graph.pool.store.leads_of_edge? id symbol edge hedge)
      rw [graph.pool.store.residual_of_edge? id symbol edge word hedge,
        other.pool.store.residual_of_edge? (f id) symbol _ word hmap, ih edge.target hlive]

theorem reading_of_corresponds (f : StateId → StateId) (hf : graph.Corresponds other f) :
    other.reading = graph.reading := by
  funext word
  rw [reading, ← hf.root]
  exact graph.residual_of_corresponds other h f hf graph.root (graph.root_live h) word

/-! ## Inclusion -/

variable (h' : other.Sound) [DecidableEq α]

theorem separatingWord_machine_iff :
    graph.separatingWord other.machine.toMachine false = none ↔
      ∀ word outputs, graph.reading word = some outputs → other.reading word = some outputs := by
  rw [graph.separatingWord_eq_none_iff h, graph.agrees_machine_iff h]
  simp only [other.answer_machine, Bool.false_eq_true, and_false, or_false]

include h'

theorem separatingWord_machine_iff_replay :
    graph.separatingWord other.machine.toMachine false = none ↔
      ∀ word outputs, graph.replay word = .ok (some outputs) →
        other.replay word = .ok (some outputs) := by
  rw [graph.separatingWord_machine_iff other h]
  simp only [graph.replay_eq_some_iff h, other.replay_eq_some_iff h']

theorem separatingWord_machine_iff_insert :
    graph.separatingWord other.machine.toMachine false = none ↔
      ∀ word outputs, graph.replay word = .ok (some outputs) →
        (other.insert word outputs).result = .ok false := by
  rw [graph.separatingWord_machine_iff other h]
  simp only [graph.replay_eq_some_iff h, other.insert_eq_ok_false_iff h']

/-! ## Inclusion both ways -/

theorem reading_eq_of_inseparable
    (hleft : graph.separatingWord other.machine.toMachine false = none)
    (hright : other.separatingWord graph.machine.toMachine false = none) :
    graph.reading = other.reading := by
  have hsub := (graph.separatingWord_machine_iff other h).mp hleft
  have hsup := (other.separatingWord_machine_iff graph h').mp hright
  funext word
  cases hread : graph.reading word with
  | some outputs => exact (hsub word outputs hread).symm
  | none =>
    cases hother : other.reading word with
    | none => rfl
    | some outputs => exact hread.symm.trans (hsup word outputs hother)

theorem inseparable_iff :
    (graph.separatingWord other.machine.toMachine false = none ∧
        other.separatingWord graph.machine.toMachine false = none) ↔
      ∃ f, graph.Corresponds other f := by
  constructor
  · rintro ⟨hleft, hright⟩
    have hread := graph.reading_eq_of_inseparable other h h' hleft hright
    obtain ⟨f, hf⟩ := graph.exists_matches other h h' hread
    have hrenaming := graph.renaming_of_matches other h h' hread f hf
    exact ⟨f, hrenaming.corresponds⟩
  · rintro ⟨f, hf⟩
    have hread := graph.reading_of_corresponds other h f hf
    rw [graph.separatingWord_machine_iff other h, other.separatingWord_machine_iff graph h', hread]
    exact ⟨fun _ _ hsome => hsome, fun _ _ hsome => hsome⟩

end

variable [DecidableEq α]

/-- Two graphs that no word separates, either way, are the same up to the numbers of their states.
One way alone, no word separates them exactly if one records what the other does, so that none of
its traces would be new there. -/
theorem inseparable (graph other : Graph α) (h : graph.Reachable) (h' : other.Reachable) :
    ((graph.separatingWord other.machine.toMachine false = none ∧
        other.separatingWord graph.machine.toMachine false = none) ↔
      ∃ f, graph.Corresponds other f) ∧
    (graph.separatingWord other.machine.toMachine false = none ↔
      ∀ word outputs, graph.replay word = .ok (some outputs) →
        other.replay word = .ok (some outputs)) ∧
    (graph.separatingWord other.machine.toMachine false = none ↔
      ∀ word outputs, graph.replay word = .ok (some outputs) →
        (other.insert word outputs).result = .ok false) :=
  ⟨graph.inseparable_iff other h.sound h'.sound,
    graph.separatingWord_machine_iff_replay other h.sound h'.sound,
    graph.separatingWord_machine_iff_insert other h.sound h'.sound⟩

/-- The two orders of insertion lead to inseparable graphs, though the states have other numbers. -/
theorem inseparable_forth_back :
    forth.Reachable ∧ back.Reachable ∧ forth.stateAfter [0] = .ok (some ⟨2⟩) ∧
      back.stateAfter [0] = .ok (some ⟨3⟩) ∧
      forth.separatingWord back.machine.toMachine false = none ∧
      (back.insert [1, 0] ['c', 'd']).result = .ok false := by
  have hforth : forth.Reachable := ⟨2, _, rfl⟩
  have hback : back.Reachable := ⟨2, _, rfl⟩
  have harity : forth.arity = 2 := by cbv
  obtain ⟨_, hreplay, hinsert⟩ := inseparable forth back hforth hback
  have hnone : forth.separatingWord back.machine.toMachine false = none := by
    refine hreplay.mpr fun word outputs hword => ?_
    have hread := (forth.replay_eq_some_iff hforth.sound word outputs).mp hword
    have hinside := forth.lt_arity_of_reading hforth.sound word outputs hread
    rw [← replay_forth word (harity ▸ hinside)]
    exact hword
  have hrecorded : forth.replay [1, 0] = .ok (some ['c', 'd']) := by cbv
  exact ⟨hforth, hback, by cbv, by cbv, hnone, hinsert.mp hnone _ _ hrecorded⟩

end Graph

end TraceGraph
