import TraceGraph.Proofs.Graph.Reporting
import TraceGraph.Proofs.Store.Size

/-! # Turnover

An insertion that records something new makes states or takes some away, but not both.  So the
number of states goes up by those that are new or down by those that were merged, and the number of
a state that was reclaimed is free after the insertion that reclaimed it. -/
namespace TraceGraph
set_option autoImplicit false

namespace Graph

variable {α : Type}

def liveStates (graph : Graph α) : Set StateId := {id | (graph.state? id).isSome = true}

theorem mem_liveStates (graph : Graph α) (id : StateId) :
    id ∈ graph.liveStates ↔ graph.pool.store.Live id := by
  rw [Store.live_iff, ← Option.isSome_iff_exists]
  exact Iff.rfl

/-- All states stay, none is merged or reclaimed, and as many are new as the number of states goes
up by: at most those missing on the trail of `word` and those shared on it. -/
def Gains (graph : Graph α) (word : List Nat) (outcome : Outcome α Bool) : Prop :=
  graph.liveStates ⊆ outcome.graph.liveStates ∧
  (∀ id, .reclaimed id ∉ outcome.events) ∧ (∀ id into, .merged id into ∉ outcome.events) ∧
  ∃ n : Nat, (outcome.graph.liveStates \ graph.liveStates).encard = n ∧
    outcome.graph.stateCount = graph.stateCount + n ∧
    n ≤ (word.length - graph.recordedLength word) +
      (graph.recordedLength word + 1 - graph.confluence word)

/-- No state is new, and the number of states goes down by those that were merged. -/
def Sheds (graph : Graph α) (outcome : Outcome α Bool) : Prop :=
  outcome.graph.liveStates ⊆ graph.liveStates ∧
  ∃ n : Nat, {id | ∃ into, .merged id into ∈ outcome.events}.encard = n ∧
    graph.stateCount = outcome.graph.stateCount + n

/-- A state that is reclaimed was there before, is reclaimed once and is not there afterwards. -/
def FreesOnce (graph : Graph α) (outcome : Outcome α Bool) : Prop :=
  ∀ id, .reclaimed id ∈ outcome.events →
    id ∈ graph.liveStates ∧ id ∉ outcome.graph.liveStates ∧
      outcome.events.count (.reclaimed id) = 1

theorem encard_mem (ids : List StateId) (h : ids.Nodup) : {id | id ∈ ids}.encard = ids.length := by
  rw [← List.coe_toFinset, Set.encard_coe_eq_coe_finsetCard, List.toFinset_card_of_nodup h]

section

variable (graph after : Graph α) (recorded shared missing : Nat)
  (copies merged : List (StateId × StateId)) (added : List StateId)
  (h : graph.pool.store.Accounted) (h' : after.pool.store.Accounted)

include h h'

theorem gains_of_added (word : List Nat)
    (hlive : ∀ id, after.pool.store.Live id ↔ graph.pool.store.Live id ∨ id ∈ added)
    (hnew : ∀ id ∈ added, ¬ graph.pool.store.Live id) (hnodup : added.Nodup)
    (hfew : added.length ≤ (word.length - graph.recordedLength word) +
      (graph.recordedLength word + 1 - graph.confluence word)) :
    graph.Gains word
      ⟨after, .ok true, .inserting recorded shared missing :: copyings copies ++ mergers []⟩ := by
  refine ⟨fun id hid => ?_, fun id hmem => ?_, fun id into hmem => ?_, added.length, ?_, ?_, hfew⟩
  · rw [mem_liveStates] at hid ⊢
    exact (hlive id).mpr (.inl hid)
  · rw [reclaimed_mem_report] at hmem
    exact List.not_mem_nil hmem
  · rw [merged_mem_report] at hmem
    exact List.not_mem_nil hmem
  · rw [← encard_mem added hnodup]
    congr 1
    ext id
    rw [Set.mem_sdiff, mem_liveStates, mem_liveStates, Set.mem_ofPred_eq]
    constructor
    · exact fun hid => ((hlive id).mp hid.1).resolve_left hid.2
    · exact fun hid => ⟨(hlive id).mpr (.inr hid), hnew id hid⟩
  · exact graph.pool.store.size_of_added after.pool.store h h' added hlive hnew hnodup

theorem sheds_of_merged
    (hlive : ∀ id, graph.pool.store.Live id ↔
      after.pool.store.Live id ∨ id ∈ merged.map Prod.fst)
    (hgone : ∀ id ∈ merged.map Prod.fst, ¬ after.pool.store.Live id)
    (honce : (merged.map Prod.fst).Nodup) :
    graph.Sheds
      ⟨after, .ok true,
        .inserting recorded shared missing :: copyings copies ++ mergers merged⟩ := by
  refine ⟨fun id hid => ?_, merged.length, ?_, ?_⟩
  · rw [mem_liveStates] at hid ⊢
    exact (hlive id).mpr (.inl hid)
  · rw [← List.length_map Prod.fst, ← encard_mem _ honce]
    congr 1
    ext id
    simp only [merged_mem_report, Set.mem_ofPred_eq, List.mem_map, Prod.exists, exists_and_right,
      exists_eq_right]
  · rw [← List.length_map Prod.fst]
    exact after.pool.store.size_of_added graph.pool.store h' h _ hlive hgone honce

end

variable [DecidableEq α]

theorem turnover_insert (graph : Graph α) (h : graph.Sound) (input : List Nat) (output : List α)
    (hok : (graph.insert input output).result = .ok true) :
    (graph.Gains input (graph.insert input output) ∨ graph.Sheds (graph.insert input output)) ∧
      graph.FreesOnce (graph.insert input output) := by
  obtain ⟨after, steps, kept, copies, merged, added, hinsert, hrooted, hcourse, htrail, hrevised⟩ :=
    graph.insert_revised h input output hok
  have hbefore := h.coherent.settled.accounted
  have hafter := hrooted.coherent.settled.accounted
  have hgone : ∀ id ∈ merged.map Prod.fst, ¬ after.store.Live id := fun id hmem hid =>
    ((hrevised.live id).mp hid).2 hmem
  rw [hinsert]
  refine ⟨?_, fun id hmem => ?_⟩
  · rcases hrevised.single with rfl | rfl
    · refine .inr (graph.sheds_of_merged _ _ _ _ copies merged hbefore hafter (fun id => ?_) hgone
        hrevised.once)
      rw [hrevised.live id, or_iff_left List.not_mem_nil]
      by_cases hmem : id ∈ merged.map Prod.fst
      · exact iff_of_true (hrevised.lost id hmem) (.inr hmem)
      · rw [or_iff_left hmem, and_iff_left hmem]
    · refine .inl (graph.gains_of_added _ _ _ _ copies added hbefore hafter input
        (fun id => (hrevised.live id).trans (and_iff_left List.not_mem_nil)) hrevised.new
        hrevised.nodup ?_)
      have hfew := hrevised.few
      rw [List.length_drop, ← List.length_map Step.state, htrail, graph.length_trail] at hfew
      exact hfew
  · rw [reclaimed_mem_report] at hmem
    refine ⟨(graph.mem_liveStates id).mpr (hrevised.lost id hmem), fun hid => ?_, ?_⟩
    · exact hgone id hmem ((mem_liveStates _ id).mp hid)
    · rw [List.count_append,
        List.count_eq_zero_of_not_mem (reclaimed_not_mem_opening _ _ _ _ _),
        count_reclaimed_mergers, List.count_eq_one_of_mem hrevised.once hmem]

/-- Every insertion that records something new, from the root or after another word, gains states or
sheds some; and what it reclaims stays free. -/
theorem insertions_turn_over (graph : Graph α) (h : graph.Reachable) :
    (∀ input output, (graph.insert input output).result = .ok true →
      (graph.Gains input (graph.insert input output) ∨
        graph.Sheds (graph.insert input output)) ∧
      graph.FreesOnce (graph.insert input output)) ∧
    ∀ access input output, (graph.insertAfter access input output).result = .ok true →
      (graph.Gains (access ++ input) (graph.insertAfter access input output) ∨
        graph.Sheds (graph.insertAfter access input output)) ∧
      graph.FreesOnce (graph.insertAfter access input output) := by
  refine ⟨graph.turnover_insert h.sound, fun access input output hok => ?_⟩
  obtain ⟨outputs, _, heq⟩ := graph.insertAfter_of_ok h.sound access input output true hok
  rw [heq] at hok ⊢
  exact graph.turnover_insert h.sound _ _ hok

/-- Where two states come to be one, none is new and the number of the merged one is free. -/
theorem turnover_of_apartSteps :
    apartSteps.Reachable ∧ (apartSteps.insert [1, 0] ['y', 'x']).result = .ok true ∧
      (apartSteps.insertAfter [1] [0] ['x']).result = .ok true ∧
      apartSteps.Sheds (apartSteps.insert [1, 0] ['y', 'x']) ∧
      ⟨3⟩ ∈ apartSteps.liveStates ∧
      ⟨3⟩ ∉ (apartSteps.insertAfter [1] [0] ['x']).graph.liveStates := by
  have hreach : apartSteps.Reachable := ⟨2, _, rfl⟩
  have hok : (apartSteps.insert [1, 0] ['y', 'x']).result = .ok true := by cbv
  have hok' : (apartSteps.insertAfter [1] [0] ['x']).result = .ok true := by cbv
  have hevents : (apartSteps.insert [1, 0] ['y', 'x']).events =
      [.inserting 1 2 1, .merged ⟨3⟩ ⟨2⟩, .reclaimed ⟨3⟩] := by cbv
  have hevents' : (apartSteps.insertAfter [1] [0] ['x']).events =
      [.inserting 1 2 1, .merged ⟨3⟩ ⟨2⟩, .reclaimed ⟨3⟩] := by cbv
  have hgone : .reclaimed ⟨3⟩ ∈ (apartSteps.insert [1, 0] ['y', 'x']).events := by simp [hevents]
  have hgone' : .reclaimed ⟨3⟩ ∈ (apartSteps.insertAfter [1] [0] ['x']).events := by
    simp [hevents']
  obtain ⟨hinsert, hafter⟩ := insertions_turn_over apartSteps hreach
  obtain ⟨hlive, hfree, _⟩ := (hafter [1] [0] ['x'] hok').2 ⟨3⟩ hgone'
  refine ⟨hreach, hok, hok', ?_, hlive, hfree⟩
  exact (hinsert [1, 0] ['y', 'x'] hok).1.resolve_left fun hgains => hgains.2.1 ⟨3⟩ hgone

end Graph

end TraceGraph
