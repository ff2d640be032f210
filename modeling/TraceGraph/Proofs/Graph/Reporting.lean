import TraceGraph.Proofs.Graph.Histories
import TraceGraph.Proofs.Graph.Trails

/-! # Reporting

The report on an insertion that records something new has one shape.  First come the copies of the
shared states of the trail, the last one first.  Then some of the other states are merged, again
from the last one up and without a gap, and each is reclaimed right after; the root never is. -/
namespace TraceGraph
set_option autoImplicit false

namespace Graph

variable {α : Type}

/-- The report `events` on the insertion of `word`: which states of the trail were copied, which
were merged, and that these and no others were reclaimed. -/
structure Reports (graph : Graph α) (word : List Nat) (events : List Event) : Prop where
  shape : ∃ copies merged,
    events = .inserting (graph.recordedLength word) (graph.confluence word)
      (word.length - graph.recordedLength word) :: copyings copies ++ mergers merged ∧
    copies.map Prod.fst = ((graph.trail word).drop (graph.confluence word)).reverse ∧
    (∀ entry ∈ copies, entry.1 ≠ entry.2) ∧
    merged.map Prod.fst <+: ((graph.trail word).take (graph.confluence word)).reverse ∧
    merged.length < graph.confluence word
  reclaimed_iff : ∀ id, .reclaimed id ∈ events ↔ ∃ into, .merged id into ∈ events
  root_kept : .reclaimed graph.root ∉ events ∧ ∀ into, .merged graph.root into ∉ events

section

variable (recorded shared missing : Nat) (copies merged : List (StateId × StateId)) (id : StateId)

theorem opening_cases (event : Event)
    (h : event ∈ .inserting recorded shared missing :: copyings copies) :
    event = .inserting recorded shared missing ∨ ∃ state copy, event = .copied state copy := by
  rcases List.mem_cons.mp h with he | hmem
  · exact .inl he
  · obtain ⟨entry, _, he⟩ := List.mem_map.mp hmem
    exact .inr ⟨entry.1, entry.2, he.symm⟩

theorem reclaimed_not_mem_opening :
    .reclaimed id ∉ .inserting recorded shared missing :: copyings copies := by
  intro hmem
  rcases opening_cases recorded shared missing copies _ hmem with he | ⟨_, _, he⟩ <;> cases he

theorem reclaimed_mem_report :
    .reclaimed id ∈ .inserting recorded shared missing :: copyings copies ++ mergers merged ↔
      id ∈ merged.map Prod.fst := by
  rw [List.mem_append, reclaimed_mem_mergers,
    or_iff_right (reclaimed_not_mem_opening recorded shared missing copies id)]

theorem merged_mem_report (into : StateId) :
    .merged id into ∈ .inserting recorded shared missing :: copyings copies ++ mergers merged ↔
      (id, into) ∈ merged := by
  rw [List.mem_append, merged_mem_mergers]
  refine or_iff_right fun hmem => ?_
  rcases opening_cases recorded shared missing copies _ hmem with he | ⟨_, _, he⟩ <;> cases he

end

variable [DecidableEq α]

theorem reports_insert (graph : Graph α) (h : graph.Sound) (input : List Nat) (output : List α)
    (hok : (graph.insert input output).result = .ok true) :
    graph.Reports input (graph.insert input output).events := by
  obtain ⟨after, steps, kept, copies, merged, added, hinsert, hrooted, _, htrail, hrevised⟩ :=
    graph.insert_revised h input output hok
  have hroot : graph.root ∉ merged.map Prod.fst :=
    ((hrevised.live graph.root).mp (hrooted.coherent.filed.live _ hrooted.root_mem)).2
  rw [hinsert]
  refine ⟨⟨copies, merged, rfl, ?_, hrevised.apart, ?_, ?_⟩, fun id => ?_, ?_, fun into hmem => ?_⟩
  · rw [hrevised.originals, ← htrail, List.map_reverse, List.map_drop]
  · obtain ⟨above, below, hown, hmerged⟩ := hrevised.parts
    rw [← htrail, ← List.map_take, hown, hmerged, ← List.map_reverse, List.reverse_append,
      List.reverse_cons, List.append_assoc]
    exact (List.prefix_append _ _).map Step.state
  · obtain ⟨above, below, hown, hmerged⟩ := hrevised.parts
    have hlength := congrArg List.length hown
    have hmerged := congrArg List.length hmerged
    rw [List.length_take, List.length_append, List.length_cons] at hlength
    rw [List.length_map, List.length_map, List.length_reverse] at hmerged
    omega
  · rw [reclaimed_mem_report]
    simp only [merged_mem_report, List.mem_map, Prod.exists, exists_and_right, exists_eq_right]
  · rw [reclaimed_mem_report]
    exact hroot
  · rw [merged_mem_report] at hmem
    exact hroot (List.mem_map_of_mem (f := Prod.fst) hmem)

/-- Every insertion that records something new, from the root or after another word, reports what it
does in this shape. -/
theorem insertions_report (graph : Graph α) (h : graph.Reachable) :
    (∀ input output, (graph.insert input output).result = .ok true →
      graph.Reports input (graph.insert input output).events) ∧
    ∀ access input output, (graph.insertAfter access input output).result = .ok true →
      graph.Reports (access ++ input) (graph.insertAfter access input output).events := by
  refine ⟨graph.reports_insert h.sound, fun access input output hok => ?_⟩
  obtain ⟨outputs, _, heq⟩ := graph.insertAfter_of_ok h.sound access input output true hok
  rw [heq] at hok ⊢
  exact graph.reports_insert h.sound _ _ hok

/-- Two words after which one word tells their states apart. -/
def apartSteps : Graph Char := after 2
  [.insert [0, 0] ['x', 'x'], .insert [0, 1] ['x', 'z'], .insert [1, 1] ['y', 'z']]

/-- With that word the states come to be one. -/
theorem reports_of_apartSteps :
    apartSteps.Reachable ∧ (apartSteps.insert [1, 0] ['y', 'x']).result = .ok true ∧
      (apartSteps.insertAfter [1] [0] ['x']).result = .ok true ∧
      apartSteps.Reports [1, 0] (apartSteps.insert [1, 0] ['y', 'x']).events ∧
      apartSteps.Reports ([1] ++ [0]) (apartSteps.insertAfter [1] [0] ['x']).events ∧
      (apartSteps.insertAfter [1] [0] ['x']).events =
        [.inserting 1 2 1, .merged ⟨3⟩ ⟨2⟩, .reclaimed ⟨3⟩] := by
  have hreach : apartSteps.Reachable := ⟨2, _, rfl⟩
  have hok : (apartSteps.insert [1, 0] ['y', 'x']).result = .ok true := by cbv
  have hok' : (apartSteps.insertAfter [1] [0] ['x']).result = .ok true := by cbv
  obtain ⟨hinsert, hafter⟩ := insertions_report apartSteps hreach
  exact ⟨hreach, hok, hok', hinsert [1, 0] ['y', 'x'] hok, hafter [1] [0] ['x'] hok', by cbv⟩

end Graph

end TraceGraph
