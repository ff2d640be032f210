import Mathlib.Algebra.BigOperators.Group.Finset.Basic
import Mathlib.Data.Set.Card
import TraceGraph.Proofs.Store.Rows

/-! # Incoming edges

How many edges of live states lead to a state, each counted once for its symbol.  The number is a
sum over the slots, so a change of one row moves it by what that row gains and loses; and it is the
size of the set of arrows into the state. -/
namespace TraceGraph
set_option autoImplicit false

namespace Store

variable {α : Type}

/-! ## Edges of all rows -/

def edgesTo (target : StateId) : Option (Row α) → Nat
  | none => 0
  | some row => row.successors.count target

def inEdges (store : Store α) (target : StateId) : Nat :=
  ∑ index ∈ Finset.range store.slots.size, edgesTo target (store.row? ⟨index⟩)

theorem row?_eq_none (store : Store α) (id : StateId) (h : store.slots.size ≤ id.index) :
    store.row? id = none := by
  rw [row?, get?, Array.getElem?_eq_none h]
  rfl

theorem inEdges_eq_sum (store : Store α) (target : StateId) (n : Nat)
    (h : store.slots.size ≤ n) :
    store.inEdges target = ∑ index ∈ Finset.range n, edgesTo target (store.row? ⟨index⟩) := by
  refine Finset.sum_subset (Finset.range_mono h) fun index _ hout => ?_
  rw [row?_eq_none store ⟨index⟩ (by simpa using hout)]
  rfl

/-- When only the row of `id` changes, only its edges are gained and lost. -/
theorem inEdges_change (store after : Store α) (id : StateId)
    (h : ∀ other, other ≠ id → after.row? other = store.row? other) (target : StateId) :
    after.inEdges target + edgesTo target (store.row? id) =
      store.inEdges target + edgesTo target (after.row? id) := by
  have hn : store.slots.size ≤ max (max store.slots.size after.slots.size) (id.index + 1) := by
    omega
  have hm : after.slots.size ≤ max (max store.slots.size after.slots.size) (id.index + 1) := by
    omega
  have hid : id.index ∈ Finset.range
      (max (max store.slots.size after.slots.size) (id.index + 1)) := by
    rw [Finset.mem_range]
    omega
  rw [inEdges_eq_sum store target _ hn, inEdges_eq_sum after target _ hm,
    ← Finset.add_sum_erase _ _ hid, ← Finset.add_sum_erase _ _ hid]
  have hrest : ∀ index ∈ (Finset.range
      (max (max store.slots.size after.slots.size) (id.index + 1))).erase id.index,
      edgesTo target (after.row? ⟨index⟩) = edgesTo target (store.row? ⟨index⟩) := by
    intro index hindex
    rw [h ⟨index⟩ fun he => Finset.ne_of_mem_erase hindex ((StateId.ext_iff _ _).mp he)]
  rw [Finset.sum_congr rfl hrest]
  have hold : edgesTo target (store.row? ⟨id.index⟩) = edgesTo target (store.row? id) := rfl
  have hnew : edgesTo target (after.row? ⟨id.index⟩) = edgesTo target (after.row? id) := rfl
  omega

theorem inEdges_congr (store after : Store α) (h : ∀ id, after.row? id = store.row? id)
    (target : StateId) : after.inEdges target = store.inEdges target := by
  have hchange := inEdges_change store after ⟨0⟩ (fun other _ => h other) target
  rw [h ⟨0⟩] at hchange
  omega

/-! ## Arrows -/

/-- The states and symbols with an edge to `target`. -/
def arrows (store : Store α) (target : StateId) : Set (StateId × Nat) :=
  {arrow | ∃ edge, store.edge? arrow.1 arrow.2 = some edge ∧ edge.target = target}

def symbolsFrom (store : Store α) (target : StateId) (index : Nat) : Finset Nat :=
  match store.row? ⟨index⟩ with
  | none => ∅
  | some row => row.symbolsTo target

theorem mem_symbolsFrom (store : Store α) (target : StateId) (index symbol : Nat) :
    symbol ∈ store.symbolsFrom target index ↔ (⟨index⟩, symbol) ∈ store.arrows target := by
  change _ ↔ ∃ edge, store.edge? ⟨index⟩ symbol = some edge ∧ edge.target = target
  unfold symbolsFrom edge?
  cases store.row? ⟨index⟩ with
  | none => simp
  | some row =>
    rw [row.mem_symbolsTo target symbol, Option.map_eq_some_iff]
    rfl

theorem card_symbolsFrom (store : Store α) (target : StateId) (index : Nat) :
    (store.symbolsFrom target index).card = edgesTo target (store.row? ⟨index⟩) := by
  unfold symbolsFrom edgesTo
  cases store.row? ⟨index⟩ with
  | none => rfl
  | some row => exact row.card_symbolsTo target

def arrowSet (store : Store α) (target : StateId) : Finset (Σ _ : Nat, Nat) :=
  (Finset.range store.slots.size).sigma fun index => store.symbolsFrom target index

theorem arrows_eq_image (store : Store α) (target : StateId) :
    store.arrows target =
      (fun entry : Σ _ : Nat, Nat => ((⟨entry.1⟩ : StateId), entry.2)) ''
        (store.arrowSet target : Set (Σ _ : Nat, Nat)) := by
  ext ⟨⟨index⟩, symbol⟩
  constructor
  · intro harrow
    have hlt : index < store.slots.size := by
      by_contra hge
      obtain ⟨edge, hedge, _⟩ := harrow
      rw [edge?, row?_eq_none store ⟨index⟩ (Nat.le_of_not_lt hge)] at hedge
      cases hedge
    refine ⟨⟨index, symbol⟩, ?_, rfl⟩
    exact Finset.mem_sigma.mpr ⟨Finset.mem_range.mpr hlt,
      (mem_symbolsFrom store target index symbol).mpr harrow⟩
  · rintro ⟨entry, hentry, heq⟩
    cases heq
    exact (mem_symbolsFrom store target entry.1 entry.2).mp (Finset.mem_sigma.mp hentry).2

theorem arrows_finite (store : Store α) (target : StateId) : (store.arrows target).Finite := by
  rw [arrows_eq_image]
  exact (Finset.finite_toSet _).image _

/-- The incoming edges are as many as the arrows. -/
theorem inEdges_eq_ncard (store : Store α) (target : StateId) :
    store.inEdges target = (store.arrows target).ncard := by
  have hinj : Function.Injective fun entry : Σ _ : Nat, Nat =>
      ((⟨entry.1⟩ : StateId), entry.2) := by
    rintro ⟨i, a⟩ ⟨j, b⟩ he
    cases he
    rfl
  rw [arrows_eq_image, Set.ncard_image_of_injective _ hinj, Set.ncard_coe_finset, arrowSet,
    Finset.card_sigma]
  exact Finset.sum_congr rfl fun index _ => (card_symbolsFrom store target index).symm

theorem inEdges_pos_iff (store : Store α) (target : StateId) :
    0 < store.inEdges target ↔ ∃ id, store.Leads id target := by
  rw [inEdges_eq_ncard, Set.ncard_pos (arrows_finite store target)]
  constructor
  · rintro ⟨⟨id, symbol⟩, edge, hedge, htarget⟩
    exact ⟨id, (leads_iff store id target).mpr ⟨symbol, edge, hedge, htarget⟩⟩
  · rintro ⟨id, hleads⟩
    obtain ⟨symbol, edge, hedge, htarget⟩ := (leads_iff store id target).mp hleads
    exact ⟨(id, symbol), edge, hedge, htarget⟩

/-- Into a state with at most one incoming edge there is at most one arrow. -/
theorem arrow_unique (store : Store α) (target : StateId) (h : store.inEdges target ≤ 1)
    (arrow other : StateId × Nat) (ha : arrow ∈ store.arrows target)
    (ho : other ∈ store.arrows target) : arrow = other := by
  rw [inEdges_eq_ncard, Set.ncard_le_one (arrows_finite store target)] at h
  exact h arrow ha other ho

/-- Where all rows persist, no arrow is lost. -/
theorem inEdges_mono (store after : Store α)
    (h : ∀ id row, store.row? id = some row → after.row? id = some row) (target : StateId) :
    store.inEdges target ≤ after.inEdges target := by
  rw [inEdges_eq_ncard, inEdges_eq_ncard]
  refine Set.ncard_le_ncard ?_ (arrows_finite after target)
  rintro ⟨id, symbol⟩ ⟨edge, hedge, htarget⟩
  obtain ⟨row, hrow, hslot⟩ := row?_of_edge? store id symbol edge hedge
  refine ⟨edge, ?_, htarget⟩
  rw [edge?_of_row? after id row symbol (h id row hrow)]
  exact hslot

end Store

end TraceGraph
