import Mathlib.Algebra.Order.BigOperators.Group.List
import Mathlib.Algebra.Order.Group.Nat
import Mathlib.Data.Finset.Max
import Mathlib.Logic.Function.Basic
import Mathlib.Logic.Relation
import TraceGraph.Canon
import TraceGraph.Proofs.Store.Rows

/-! # The filed states

What a canon keeps about the store it files: its states have the rows they are filed under, no edge
leads out of it, no two of its rows are equal, and no chain of edges in it comes back.  A search
then finds the one state with a row, if there is one, and a row whose edges stay inside can be filed
under a new state. -/
namespace TraceGraph
set_option autoImplicit false

namespace Canon

variable {α : Type}

/-! ## Keys -/

/-- Every filed state has the row it is filed under. -/
def Keyed (canon : Canon α) (store : Store α) : Prop :=
  ∀ id row, canon.key? id = some row → store.row? id = some row

theorem keyed_iff (canon : Canon α) (store : Store α) :
    canon.Keyed store ↔ ∀ entry ∈ canon.entries, store.row? ⟨entry.1⟩ = some entry.2 :=
  ⟨fun h entry hmem => h ⟨entry.1⟩ entry.2 ((canon.mem_entries ⟨entry.1⟩ entry.2).mp hmem),
    fun h id row hkey => h (id.index, row) ((canon.mem_entries id row).mpr hkey)⟩

instance [DecidableEq α] (canon : Canon α) (store : Store α) : Decidable (canon.Keyed store) :=
  decidable_of_iff _ (keyed_iff canon store).symm

theorem keyed_empty (store : Store α) : (empty : Canon α).Keyed store :=
  fun id _ hkey => nomatch (key?_empty id).symm.trans hkey

namespace Keyed

variable {canon : Canon α} {store : Store α}

theorem key?_eq (h : canon.Keyed store) (id : StateId) (hid : id ∈ canon.ids) :
    canon.key? id = store.row? id := by
  obtain ⟨row, hkey⟩ := (canon.mem_ids id).mp hid
  rw [hkey, h id row hkey]

theorem live (h : canon.Keyed store) (id : StateId) (hid : id ∈ canon.ids) : store.Live id := by
  obtain ⟨row, hkey⟩ := (canon.mem_ids id).mp hid
  exact ⟨row, h id row hkey⟩

theorem congr (h : canon.Keyed store) (after : Store α)
    (hrow : ∀ id ∈ canon.ids, after.row? id = store.row? id) : canon.Keyed after := by
  intro id row hkey
  rw [hrow id ((canon.mem_ids id).mpr ⟨row, hkey⟩)]
  exact h id row hkey

theorem insert (h : canon.Keyed store) (id : StateId) (row : Row α)
    (hrow : store.row? id = some row) : (canon.insert id row).Keyed store := by
  intro other found hkey
  rw [key?_insert] at hkey
  split at hkey
  · next he => rw [he, hrow, hkey]
  · exact h other found hkey

theorem erase (h : canon.Keyed store) (id : StateId) : (canon.erase id).Keyed store := by
  intro other found hkey
  rw [key?_erase] at hkey
  split at hkey
  · cases hkey
  · exact h other found hkey

/-- A keyed canon of all live states files each of them under its row, and nothing else. -/
theorem eq_row? (h : canon.Keyed store) (hall : ∀ id, store.Live id → id ∈ canon.ids)
    (id : StateId) : canon.key? id = store.row? id := by
  by_cases hid : id ∈ canon.ids
  · exact h.key?_eq id hid
  · have hdead : store.row? id = none := Option.eq_none_iff_forall_ne_some.mpr fun row hrow =>
      hid (hall id ⟨row, hrow⟩)
    rw [hdead]
    exact canon.key?_eq_none id hid

end Keyed

theorem mem_ids_iff_live (canon : Canon α) (store : Store α)
    (h : ∀ id, canon.key? id = store.row? id) (id : StateId) :
    id ∈ canon.ids ↔ store.Live id := by
  rw [mem_ids, h id]
  rfl

/-! ## Filed states -/

structure Filed (canon : Canon α) (store : Store α) : Prop where
  keyed : canon.Keyed store
  closed : ∀ id ∈ canon.ids, ∀ target, store.Leads id target → target ∈ canon.ids
  distinct : ∀ id ∈ canon.ids, ∀ other ∈ canon.ids, store.row? id = store.row? other → id = other
  ranked : ∃ rank : StateId → Nat, ∀ id ∈ canon.ids, ∀ target, store.Leads id target →
    rank target < rank id

namespace Filed

theorem live {canon : Canon α} {store : Store α} (h : canon.Filed store) (id : StateId)
    (hid : id ∈ canon.ids) : store.Live id :=
  h.keyed.live id hid

theorem congr (canon : Canon α) (store after : Store α) (h : canon.Filed store)
    (hrow : ∀ id ∈ canon.ids, after.row? id = store.row? id) : canon.Filed after := by
  have hleads : ∀ id ∈ canon.ids, ∀ target, after.Leads id target → store.Leads id target := by
    rintro id hid target ⟨row, hr, hmem⟩
    exact ⟨row, by rw [← hrow id hid]; exact hr, hmem⟩
  obtain ⟨rank, hrank⟩ := h.ranked
  refine ⟨h.keyed.congr after hrow, ?_, ?_, rank,
    fun id hid target hl => hrank id hid target (hleads id hid target hl)⟩
  · exact fun id hid target hl => h.closed id hid target (hleads id hid target hl)
  · intro id hid other ho he
    rw [hrow id hid, hrow other ho] at he
    exact h.distinct id hid other ho he

theorem subset (canon part : Canon α) (store : Store α) (h : canon.Filed store)
    (hkeyed : part.Keyed store) (hsub : ∀ id ∈ part.ids, id ∈ canon.ids)
    (hclosed : ∀ id ∈ part.ids, ∀ target, store.Leads id target → target ∈ part.ids) :
    part.Filed store := by
  obtain ⟨rank, hrank⟩ := h.ranked
  exact ⟨hkeyed, hclosed,
    fun id hid other ho he => h.distinct id (hsub id hid) other (hsub other ho) he,
    rank, fun id hid target hl => hrank id (hsub id hid) target hl⟩

/-! ### Chains of edges -/

theorem mem_of_chain (canon : Canon α) (store : Store α) (h : canon.Filed store) (id last : StateId)
    (hid : id ∈ canon.ids) (hchain : Relation.TransGen store.Leads id last) : last ∈ canon.ids := by
  induction hchain with
  | single hleads => exact h.closed id hid _ hleads
  | tail _ hleads ih => exact h.closed _ ih _ hleads

theorem not_chain_self (canon : Canon α) (store : Store α) (h : canon.Filed store) (id : StateId)
    (hid : id ∈ canon.ids) : ¬ Relation.TransGen store.Leads id id := by
  obtain ⟨rank, hrank⟩ := h.ranked
  have hfall : ∀ last, Relation.TransGen store.Leads id last → rank last < rank id := by
    intro last hchain
    induction hchain with
    | single hleads => exact hrank id hid _ hleads
    | tail hchain hleads ih =>
      exact (hrank _ (mem_of_chain canon store h id _ hid hchain) _ hleads).trans ih
  exact fun hback => Nat.lt_irrefl _ (hfall id hback)

/-! ### Twins and new states -/

/-- Filed states that are each entered from one of themselves or from `root` hold no twin of `root`:
the highest of them could only be entered from `root`, hence also from the twin. -/
theorem no_twin (canon : Canon α) (store : Store α) (h : canon.Filed store) (ids : List StateId)
    (hsub : ∀ id ∈ ids, id ∈ canon.ids) (root : StateId)
    (hfed : ∀ id ∈ ids, ∃ above, store.Leads above id ∧ (above = root ∨ above ∈ ids))
    (twin : StateId) (htwin : twin ∈ ids) : store.row? twin ≠ store.row? root := by
  intro hrow
  obtain ⟨rank, hrank⟩ := h.ranked
  obtain ⟨top, htop, hmax⟩ := Finset.exists_max_image ids.toFinset rank
    ⟨twin, List.mem_toFinset.mpr htwin⟩
  have hlower : ∀ id ∈ ids, ¬ store.Leads id top := by
    intro id hid hleads
    have hlt := hrank id (hsub id hid) top hleads
    have hle := hmax id (List.mem_toFinset.mpr hid)
    omega
  obtain ⟨above, hleads, rfl | habove⟩ := hfed top (List.mem_toFinset.mp htop)
  · obtain ⟨row, hr, htarget⟩ := hleads
    exact hlower twin htwin ⟨row, hrow.trans hr, htarget⟩
  · exact hlower above habove hleads

/-- A state with a row of its own, whose edges lead to filed states, can be filed. -/
theorem insert (canon : Canon α) (store : Store α) (h : canon.Filed store) (id : StateId)
    (row : Row α) (hrow : store.row? id = some row)
    (hsucc : ∀ target ∈ row.successors, target ∈ canon.ids)
    (hfree : ∀ other ∈ canon.ids, store.row? other ≠ some row) :
    (canon.insert id row).Filed store := by
  have hnot : id ∉ canon.ids := fun hmem => hfree id hmem hrow
  have hself : ∀ target, store.Leads id target → target ∈ canon.ids := by
    rintro target ⟨found, hfound, hmem⟩
    rw [hrow] at hfound
    cases hfound
    exact hsucc target hmem
  obtain ⟨rank, hrank⟩ := h.ranked
  -- nothing filed leads to the new state, so it may stand above all that it leads to
  obtain ⟨height, hheight⟩ : ∃ height, ∀ target ∈ row.successors, rank target < height :=
    ⟨(row.successors.map rank).sum + 1, fun target hmem =>
      Nat.lt_succ_of_le (List.le_sum_of_mem (List.mem_map_of_mem hmem))⟩
  have hold : ∀ other ∈ canon.ids, Function.update rank id height other = rank other :=
    fun other ho => Function.update_of_ne (fun he : other = id => hnot (he ▸ ho)) height rank
  refine ⟨h.keyed.insert id row hrow, ?_, ?_, Function.update rank id height, ?_⟩
  · intro other ho target hl
    rcases (canon.mem_insert id other row).mp ho with rfl | ho
    · exact (canon.mem_insert _ target row).mpr (.inr (hself target hl))
    · exact (canon.mem_insert id target row).mpr (.inr (h.closed other ho target hl))
  · intro one h1 two h2 he
    rcases (canon.mem_insert id one row).mp h1 with rfl | hone
    · rcases (canon.mem_insert _ two row).mp h2 with rfl | htwo
      · rfl
      · exact absurd (he.symm.trans hrow) (hfree two htwo)
    · rcases (canon.mem_insert id two row).mp h2 with rfl | htwo
      · exact absurd (he.trans hrow) (hfree one hone)
      · exact h.distinct one hone two htwo he
  · intro other ho target hl
    rcases (canon.mem_insert id other row).mp ho with rfl | ho
    · rw [hold target (hself target hl), Function.update_self]
      obtain ⟨found, hfound, hmem⟩ := hl
      rw [hrow] at hfound
      cases hfound
      exact hheight target hmem
    · rw [hold other ho, hold target (h.closed other ho target hl)]
      exact hrank other ho target hl

end Filed

/-! ## Searching and filing -/

variable [DecidableEq α]

/-- A state whose row has changed since it was filed cannot be withdrawn. -/
theorem withdraw_of_stale (canon : Canon α) (store : Store α) (id : StateId)
    (hlive : store.Live id) (hstale : canon.key? id ≠ store.row? id) :
    canon.withdraw store id = .ok (canon, false) := by
  obtain ⟨state, hstate⟩ := (Store.live_iff store id).mp hlive
  rw [Store.row?_of_get? store id state hstate] at hstale
  rw [withdraw, Store.fetch_eq store id state hstate]
  change (if canon.key? id = some state.row then _ else _) = _
  rw [if_neg hstale]
  rfl

theorem withdraw_eq (canon : Canon α) (store : Store α) (id : StateId) (h : canon.Keyed store)
    (hlive : store.Live id) :
    canon.withdraw store id = .ok (canon.erase id, decide (id ∈ canon.ids)) := by
  obtain ⟨state, hstate⟩ := (Store.live_iff store id).mp hlive
  have hrow := Store.row?_of_get? store id state hstate
  by_cases hid : id ∈ canon.ids
  · rw [withdraw, Store.fetch_eq store id state hstate]
    change (if canon.key? id = some state.row then _ else _) = _
    rw [if_pos ((h.key?_eq id hid).trans hrow), decide_eq_true hid]
    rfl
  · have hnone := canon.key?_eq_none id hid
    have hsame : canon.erase id = canon := ext_key? _ _ fun other => by
      rw [key?_erase]
      split
      · next he => rw [he, hnone]
      · rfl
    rw [withdraw_of_stale canon store id hlive (by rw [hnone, hrow]; exact nofun), hsame,
      decide_eq_false hid]

theorem firstWith_eq (store : Store α) (row : Row α) (entries : List (Nat × Row α))
    (h : ∀ entry ∈ entries, store.row? ⟨entry.1⟩ = some entry.2) :
    firstWith store row entries =
      .ok ((entries.find? fun entry => entry.2 = row).map fun entry => ⟨entry.1⟩) := by
  induction entries with
  | nil => rfl
  | cons entry entries ih =>
    obtain ⟨index, key⟩ := entry
    obtain ⟨state, hstate, hkey⟩ := Store.get?_of_row? store ⟨index⟩ key (h _ List.mem_cons_self)
    rw [firstWith, Store.fetch_eq store ⟨index⟩ state hstate, List.find?_cons]
    by_cases hr : key = row
    · simp [hr, hkey]
    · simp only [hr, if_false, decide_false]
      exact ih fun other hmem => h other (List.mem_cons_of_mem _ hmem)

theorem find_cases (canon : Canon α) (store : Store α) (row : Row α) (h : canon.Keyed store) :
    (∃ id ∈ canon.ids, store.row? id = some row ∧ canon.find store row = .ok (some id)) ∨
      ((∀ id ∈ canon.ids, store.row? id ≠ some row) ∧ canon.find store row = .ok none) := by
  rw [find, firstWith_eq store row canon.entries ((keyed_iff canon store).mp h)]
  cases hf : canon.entries.find? fun entry => entry.2 = row with
  | some entry =>
    have hkey : entry.2 = row := by simpa using List.find?_some hf
    have hmem := List.mem_of_find?_eq_some hf
    refine .inl ⟨⟨entry.1⟩, List.mem_map_of_mem hmem, ?_, rfl⟩
    rw [(keyed_iff canon store).mp h entry hmem, hkey]
  | none =>
    refine .inr ⟨fun id hid hrow => ?_, rfl⟩
    have hmem := (canon.mem_entries id row).mpr ((h.key?_eq id hid).trans hrow)
    simpa using List.find?_eq_none.mp hf _ hmem

/-- Enrolling gives the filed state with the same row, or files the state itself. -/
theorem enroll_cases (canon : Canon α) (store : Store α) (id : StateId) (row : Row α)
    (h : canon.Keyed store) (hrow : store.row? id = some row) :
    (∃ owner ∈ canon.ids, store.row? owner = some row ∧
        canon.enroll store id = .ok (canon, owner)) ∨
      ((∀ other ∈ canon.ids, store.row? other ≠ some row) ∧
        canon.enroll store id = .ok (canon.insert id row, id)) := by
  obtain ⟨state, hstate, rfl⟩ := Store.get?_of_row? store id row hrow
  rw [enroll, Store.fetch_eq store id state hstate]
  rcases find_cases canon store state.row h with ⟨owner, hmem, howner, hfind⟩ | ⟨hfree, hfind⟩
  · refine .inl ⟨owner, hmem, howner, ?_⟩
    change (canon.find store state.row >>= _) = _
    rw [hfind]
    rfl
  · refine .inr ⟨hfree, ?_⟩
    change (canon.find store state.row >>= _) = _
    rw [hfind]
    rfl

end Canon

end TraceGraph
