import Mathlib.Data.Set.Card
import TraceGraph.Proofs.Store.Rows

/-! # The size of a store

Every slot is live or vacant, and the list of vacant slots has each of them once; so what a store
gives as its size is the number of its live states. -/
namespace TraceGraph
set_option autoImplicit false

namespace Store

variable {α : Type} (store : Store α)

def liveSlots : Finset Nat :=
  (Finset.range store.slots.size).filter fun index => (store.get? ⟨index⟩).isSome

theorem mem_liveSlots (index : Nat) : index ∈ store.liveSlots ↔ store.Live ⟨index⟩ := by
  rw [liveSlots, Finset.mem_filter, Finset.mem_range, live_iff, Option.isSome_iff_exists]
  constructor
  · exact And.right
  · rintro ⟨state, hstate⟩
    exact ⟨store.index_lt_of_get? ⟨index⟩ state hstate, state, hstate⟩

/-- Live and vacant slots together are all slots. -/
theorem card_liveSlots_add (h : store.Accounted) :
    store.liveSlots.card + store.vacant.length = store.slots.size := by
  have hvacant : (Finset.range store.slots.size).filter
      (fun index => ¬ (store.get? ⟨index⟩).isSome = true) =
        (store.vacant.map StateId.index).toFinset := by
    ext index
    have hslot := h.mem_vacant ⟨index⟩
    have hmem : index ∈ store.vacant.map StateId.index ↔ (⟨index⟩ : StateId) ∈ store.vacant := by
      rw [List.mem_map]
      constructor
      · rintro ⟨id, hid, rfl⟩
        exact hid
      · exact fun hid => ⟨⟨index⟩, hid, rfl⟩
    rw [List.mem_toFinset, hmem, hslot, Finset.mem_filter, Finset.mem_range, get?]
    by_cases hlt : index < store.slots.size
    · rw [Array.getElem?_eq_getElem hlt]
      cases store.slots[index] <;> simp [hlt]
    · simp [hlt]
  have hcard := Finset.card_filter_add_card_filter_not (s := Finset.range store.slots.size)
    fun index => (store.get? ⟨index⟩).isSome = true
  have hnodup : (store.vacant.map StateId.index).Nodup :=
    h.nodup.map fun a b he => (StateId.ext_iff a b).mpr he
  rw [hvacant, List.toFinset_card_of_nodup hnodup, List.length_map, Finset.card_range] at hcard
  exact hcard

theorem card_liveSlots (h : store.Accounted) : store.liveSlots.card = store.size := by
  have hcard := store.card_liveSlots_add h
  rw [size]
  omega

/-- The live states are as many as the store says. -/
theorem encard_live (h : store.Accounted) : {id | store.Live id}.encard = store.size := by
  have himage : {id | store.Live id} = StateId.mk '' (store.liveSlots : Set Nat) := by
    ext ⟨index⟩
    constructor
    · exact fun hid => ⟨index, (store.mem_liveSlots index).mpr hid, rfl⟩
    · rintro ⟨other, hother, he⟩
      cases he
      exact (store.mem_liveSlots index).mp hother
  have hinj : Function.Injective StateId.mk := fun a b he => congrArg StateId.index he
  rw [himage, hinj.encard_image, Set.encard_coe_eq_coe_finsetCard, store.card_liveSlots h]

/-- A store is larger by the states that are live in addition. -/
theorem size_of_added (after : Store α) (h : store.Accounted) (h' : after.Accounted)
    (added : List StateId) (hlive : ∀ id, after.Live id ↔ store.Live id ∨ id ∈ added)
    (hnew : ∀ id ∈ added, ¬ store.Live id) (hnodup : added.Nodup) :
    after.size = store.size + added.length := by
  have hunion : after.liveSlots =
      store.liveSlots ∪ (added.map StateId.index).toFinset := by
    ext index
    rw [Finset.mem_union, mem_liveSlots, mem_liveSlots, hlive, List.mem_toFinset, List.mem_map]
    refine or_congr_right ⟨fun hid => ⟨⟨index⟩, hid, rfl⟩, ?_⟩
    rintro ⟨id, hid, rfl⟩
    exact hid
  have hdisjoint : Disjoint store.liveSlots (added.map StateId.index).toFinset := by
    rw [Finset.disjoint_left]
    intro index hindex hmem
    obtain ⟨id, hid, rfl⟩ := List.mem_map.mp (List.mem_toFinset.mp hmem)
    exact hnew id hid ((store.mem_liveSlots id.index).mp hindex)
  have hinj : (added.map StateId.index).Nodup :=
    hnodup.map fun a b he => (StateId.ext_iff a b).mpr he
  rw [← store.card_liveSlots h, ← after.card_liveSlots h', hunion,
    Finset.card_union_of_disjoint hdisjoint, List.toFinset_card_of_nodup hinj, List.length_map]

end Store

end TraceGraph
