import TraceGraph.Graph.Grow
import TraceGraph.Proofs.Canon.Refiling
import TraceGraph.Proofs.Pool.Amending

/-! # Widening

Widening changes no edge, so counts, ranks and residuals stay as they are; and rows of one arity
that differ still differ when widened.  But it changes every row, so that nothing is found any more
under the row it was filed with.  Filing all live states again meets no row twice and comes to the
same states, each under its widened row. -/
namespace TraceGraph
set_option autoImplicit false

variable {α : Type}

theorem Row.widen_injective (row other : Row α) (arity : Nat) (ha : row.arity = other.arity)
    (h : row.widen arity = other.widen arity) : row = other := by
  refine row.ext_edge? other ha fun symbol => ?_
  rw [← row.edge?_widen arity symbol, h, other.edge?_widen]

namespace Store

variable (store : Store α) (arity : Nat)

theorem edge?_widen (id : StateId) (symbol : Nat) :
    (store.widen arity).edge? id symbol = store.edge? id symbol := by
  rw [edge?, edge?, row?_widen]
  cases store.row? id with
  | none => rfl
  | some row => rfl

theorem leads_widen (id target : StateId) :
    (store.widen arity).Leads id target ↔ store.Leads id target := by
  simp only [leads_iff, edge?_widen]

theorem live_widen (id : StateId) : (store.widen arity).Live id ↔ store.Live id := by
  rw [Live, Live, row?_widen]
  cases store.row? id with
  | none => exact Iff.rfl
  | some row => exact ⟨fun _ => ⟨row, rfl⟩, fun _ => ⟨_, rfl⟩⟩

/-- Rows of one arity that are equal when widened are equal. -/
theorem row?_of_widen (id other : StateId) (uniform : Nat)
    (harity : ∀ id row, store.row? id = some row → row.arity = uniform) (hid : store.Live id)
    (ho : store.Live other) (h : (store.widen arity).row? id = (store.widen arity).row? other) :
    store.row? id = store.row? other := by
  obtain ⟨row, hrow⟩ := hid
  obtain ⟨row', hrow'⟩ := ho
  rw [row?_widen, row?_widen, hrow, hrow', Option.map_some, Option.map_some,
    Option.some.injEq] at h
  have hsame : row.arity = row'.arity := (harity id row hrow).trans (harity other row' hrow').symm
  rw [hrow, hrow', row.widen_injective row' arity hsame h]

theorem inEdges_widen (target : StateId) :
    (store.widen arity).inEdges target = store.inEdges target := by
  have harrows : (store.widen arity).arrows target = store.arrows target := by
    simp only [arrows, edge?_widen]
  rw [inEdges_eq_ncard, inEdges_eq_ncard, harrows]

theorem residual_widen (id : StateId) (word : List Nat) :
    (store.widen arity).residual id word = store.residual id word :=
  residual_congr store (store.widen arity) (fun _ => True) (fun _ _ _ _ => trivial)
    (fun id _ symbol => store.edge?_widen arity id symbol) id trivial word

theorem Settled.widen (h : store.Settled [] []) : (store.widen arity).Settled [] [] where
  accounted := by
    refine ⟨h.accounted.nodup, fun id => ?_⟩
    refine (h.accounted.mem_vacant id).trans ?_
    rw [Store.widen, Array.getElem?_map]
    cases store.slots[id.index]? with
    | none => simp
    | some slot => cases slot <;> simp
  closed id target hleads := (store.live_widen arity target).mpr
    (h.closed id target ((store.leads_widen arity id target).mp hleads))
  uncounted_live _ hid := absurd hid List.not_mem_nil
  pending_live _ hid := absurd hid List.not_mem_nil
  counted id state hstate := by
    rw [get?_widen] at hstate
    obtain ⟨old, hold, rfl⟩ := Option.map_eq_some_iff.mp hstate
    rw [inEdges_widen]
    exact h.counted id old hold

end Store

namespace Canon

/-- The canon with every row that it files under widened. -/
def widen (canon : Canon α) (arity : Nat) : Canon α where
  entries := canon.entries.map fun entry => (entry.1, entry.2.widen arity)
  ascending := List.pairwise_map.mpr canon.ascending

theorem key?_widen (canon : Canon α) (arity : Nat) (id : StateId) :
    (canon.widen arity).key? id = (canon.key? id).map fun row => row.widen arity :=
  valueAt_map (fun row => Row.widen row arity) id.index canon.entries

theorem ids_widen (canon : Canon α) (arity : Nat) : (canon.widen arity).ids = canon.ids := by
  simp only [ids, widen, List.map_map, Function.comp_def]

theorem Keyed.widen {canon : Canon α} {store : Store α} (h : canon.Keyed store) (wide : Nat) :
    (canon.widen wide).Keyed (store.widen wide) := by
  intro id row hkey
  rw [key?_widen] at hkey
  obtain ⟨old, hold, rfl⟩ := Option.map_eq_some_iff.mp hkey
  rw [Store.row?_widen, h id old hold]
  rfl

theorem Filed.widen (canon : Canon α) (store : Store α) (arity wide : Nat) (h : canon.Filed store)
    (harity : ∀ id row, store.row? id = some row → row.arity = arity) :
    (canon.widen wide).Filed (store.widen wide) := by
  obtain ⟨rank, hrank⟩ := h.ranked
  refine ⟨h.keyed.widen wide, ?_, ?_, rank, ?_⟩
  · rw [ids_widen]
    intro id hid target hleads
    exact h.closed id hid target ((store.leads_widen wide id target).mp hleads)
  · rw [ids_widen]
    intro id hid other ho he
    exact h.distinct id hid other ho
      (store.row?_of_widen wide id other arity harity (h.live id hid) (h.live other ho) he)
  · rw [ids_widen]
    intro id hid target hleads
    exact hrank id hid target ((store.leads_widen wide id target).mp hleads)

/-! ## Filing again -/

variable [DecidableEq α]

/-- Filing a store whose live states are filed gives the same canon. -/
theorem ofStore_eq (store : Store α) (canon : Canon α) (h : canon.Filed store)
    (hcomplete : ∀ id, store.Live id → id ∈ canon.ids) : ofStore store = .ok canon := by
  refine (ofStore_eq_ok_iff store canon).mpr ⟨?_, h.keyed.eq_row? hcomplete⟩
  exact fun id hid other ho he => h.distinct id (hcomplete id hid) other (hcomplete other ho) he

end Canon

namespace Pool

variable [DecidableEq α]

theorem widen_eq (pool : Pool α) (root : StateId) (arity wide : Nat)
    (h : pool.Rooted root arity) (hle : arity ≤ wide) :
    pool.widen wide = .ok ⟨pool.store.widen wide, pool.canon.widen wide⟩ ∧
      Rooted ⟨pool.store.widen wide, pool.canon.widen wide⟩ root wide := by
  have hfiled := h.coherent.filed.widen pool.canon pool.store arity wide h.coherent.arities
  have hcomplete : ∀ id, (pool.store.widen wide).Live id → id ∈ (pool.canon.widen wide).ids := by
    intro id hid
    rw [Canon.ids_widen]
    exact h.complete id ((pool.store.live_widen wide id).mp hid)
  refine ⟨?_, ⟨h.coherent.settled.widen pool.store wide, hfiled, ?_⟩, hcomplete, ?_, ?_, ?_⟩
  · rw [widen, Canon.ofStore_eq (pool.store.widen wide) (pool.canon.widen wide) hfiled hcomplete]
    rfl
  · intro id row hrow
    rw [Store.row?_widen] at hrow
    obtain ⟨old, hold, rfl⟩ := Option.map_eq_some_iff.mp hrow
    rw [Row.arity_widen, h.coherent.arities id old hold]
    omega
  · rw [Canon.ids_widen]
    exact h.root_mem
  · rw [Store.inEdges_widen]
    exact h.root_free
  · intro id hid
    rw [Store.inEdges_widen]
    exact h.fed id ((pool.store.live_widen wide id).mp hid)

end Pool

end TraceGraph
