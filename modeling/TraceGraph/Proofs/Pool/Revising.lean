import TraceGraph.Proofs.Pool.Merging
import TraceGraph.Proofs.Pool.Parting

/-! # Revision

One extension as a change of the pool.  It adds states or it merges some, never both: what is added
last has no edge leading to it, so no state has the row of the lowest own state once that is led
there.  The states that stay have the rows that they had, but for one. -/
namespace TraceGraph
set_option autoImplicit false

namespace Pool

variable {α : Type}

/-- How `after` comes from `pool` by an extension along the steps `own` and `shared`.  The shared
states are copied, the own ones below that of `kept` merged, and that one turns. -/
structure Revised (pool after : Pool α) (own shared : List (Step α)) (missing : Nat)
    (kept : Step α) (copies merged : List (StateId × StateId)) (added : List StateId) : Prop where
  originals : copies.map Prod.fst = shared.reverse.map Step.state
  apart : ∀ entry ∈ copies, entry.1 ≠ entry.2
  parts : ∃ above below, own = above ++ kept :: below ∧
    merged.map Prod.fst = below.reverse.map Step.state
  turns : kept.Turns pool.store after.store
  live : ∀ id, after.store.Live id ↔
    (pool.store.Live id ∨ id ∈ added) ∧ id ∉ merged.map Prod.fst
  same : ∀ id, pool.store.Live id → id ≠ kept.state → id ∉ merged.map Prod.fst →
    after.store.row? id = pool.store.row? id
  lost : ∀ id ∈ merged.map Prod.fst, pool.store.Live id
  once : (merged.map Prod.fst).Nodup
  new : ∀ id ∈ added, ¬ pool.store.Live id
  nodup : added.Nodup
  few : added.length ≤ missing + shared.length
  single : added = [] ∨ merged = []

/-- The own states are turned after new ends and copies, which leave the pool's rows as they are. -/
theorem revised_of_turned (pool made copied after : Pool α) (canon : Canon α) (arity missing : Nat)
    (root child top : StateId) (own shared below above : List (Step α)) (kept : Step α)
    (copies merged : List (StateId × StateId)) (added : List StateId)
    (hlive : ∀ step ∈ own, pool.store.Live step.state) (hnodup : (own.map Step.state).Nodup)
    (hgrows : Grows ⟨pool.store, canon⟩ made) (hadds : Adds ⟨pool.store, canon⟩ made child added)
    (hfew : added.length ≤ missing)
    (hcopied : Copied pool.store made copied arity root child top shared.reverse copies)
    (hown : own.reverse = below ++ kept :: above)
    (hmerged : merged.map Prod.fst = below.map Step.state)
    (hturned : Turned pool.store copied after none merged kept)
    (hlone : (∀ id ∈ copied.canon.ids, ¬ copied.store.Leads id top) → merged = []) :
    ∃ more, Revised pool after own shared missing kept copies merged more := by
  have hgrown := hgrows.trans _ made copied hcopied.grows
  obtain ⟨more, hmore, hlen⟩ := hcopied.adds _ added hadds
  have hkept : kept ∈ own := List.mem_reverse.mp (hown ▸ by simp)
  have hlost : ∀ id ∈ merged.map Prod.fst, pool.store.Live id := by
    intro id hid
    obtain ⟨step, hs, rfl⟩ := List.mem_map.mp (hmerged ▸ hid)
    exact hlive step (List.mem_reverse.mp (hown ▸ List.mem_append_left _ hs))
  rw [← List.nodup_reverse, ← List.map_reverse, hown, List.map_append, List.map_cons,
    List.nodup_middle] at hnodup
  have hout : kept.state ∉ merged.map Prod.fst := by
    rw [hmerged]
    exact fun hmem => (List.nodup_cons.mp hnodup).1 (List.mem_append_left _ hmem)
  have honce : (merged.map Prod.fst).Nodup := by
    rw [hmerged]
    exact (List.nodup_append.mp (List.nodup_cons.mp hnodup).2).1
  have hrow : ∀ id, id ≠ kept.state → id ∉ merged.map Prod.fst →
      after.store.row? id = copied.store.row? id := fun id hne hmem =>
    hturned.same id hne (fun hnone => nomatch hnone) hmem
  have hlive_after : ∀ id, after.store.Live id ↔
      (pool.store.Live id ∨ id ∈ more) ∧ id ∉ merged.map Prod.fst := by
    intro id
    by_cases hmem : id ∈ merged.map Prod.fst
    · refine iff_of_false ?_ fun h => h.2 hmem
      rintro ⟨row, hr⟩
      rw [hturned.gone id (.inr hmem)] at hr
      cases hr
    · by_cases hne : id = kept.state
      · obtain ⟨_, _, new, _, _, _, hnew⟩ := hturned.turns
        exact iff_of_true (hne ▸ ⟨new, hnew⟩) ⟨.inl (hne ▸ hlive kept hkept), hmem⟩
      · rw [Store.live_of_row?_eq copied.store after.store id (hrow id hne hmem), hmore.live id]
        exact (and_iff_left hmem).symm
  refine ⟨more, hcopied.originals, hcopied.apart, ⟨above.reverse, below.reverse, ?_, ?_⟩,
    hturned.turns, hlive_after, fun id hid hne hmem => ?_, hlost, honce, hmore.new, hmore.nodup, ?_,
    ?_⟩
  · rw [← List.reverse_reverse own, hown, List.reverse_append, List.reverse_cons,
      List.append_assoc]
    rfl
  · rw [List.reverse_reverse, hmerged]
  · rw [hrow id hne hmem]
    exact hgrown.row?_eq _ copied id hid
  · rw [List.length_reverse] at hlen
    omega
  · by_cases hnone : more = []
    · exact .inl hnone
    · exact .inr (hlone fun id _ => hmore.lone hnone id)

end Pool

end TraceGraph
