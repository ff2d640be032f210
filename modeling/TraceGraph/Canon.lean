import TraceGraph.Store

/-! # The canon

The canon lists the canonical states of a store, each under the row it was filed with.  A state is
found and withdrawn under that row only, so it is lost to both when its row changes while it is
filed.  The entries are in slot order; so a canon has one representation. -/
namespace TraceGraph
set_option autoImplicit false

structure Canon (α : Type) where
  /-- The slots of the canonical states with the rows they are filed under. -/
  entries : List (Nat × Row α)
  ascending : entries.Pairwise fun a b => a.1 < b.1
deriving DecidableEq

namespace Canon

variable {α : Type}

/-! ## Entries -/

def empty : Canon α := ⟨[], List.Pairwise.nil⟩

def ids (canon : Canon α) : List StateId := canon.entries.map fun entry => ⟨entry.1⟩

def size (canon : Canon α) : Nat := canon.entries.length

/-- The row that `id` is filed under. -/
def key? (canon : Canon α) (id : StateId) : Option (Row α) := valueAt id.index canon.entries

def insert (canon : Canon α) (id : StateId) (row : Row α) : Canon α where
  entries := putAt id.index row canon.entries
  ascending := putAt_pairwise id.index row canon.entries canon.ascending

def erase (canon : Canon α) (id : StateId) : Canon α where
  entries := dropAt id.index canon.entries
  ascending := canon.ascending.filter _

theorem key?_empty (id : StateId) : (empty : Canon α).key? id = none := rfl

theorem key?_insert (canon : Canon α) (id other : StateId) (row : Row α) :
    (canon.insert id row).key? other = if other = id then some row else canon.key? other := by
  simp only [key?, insert, valueAt_putAt, StateId.ext_iff]

theorem key?_erase (canon : Canon α) (id other : StateId) :
    (canon.erase id).key? other = if other = id then none else canon.key? other := by
  simp only [key?, erase, valueAt_dropAt, StateId.ext_iff]

theorem mem_entries (canon : Canon α) (id : StateId) (row : Row α) :
    (id.index, row) ∈ canon.entries ↔ canon.key? id = some row :=
  mem_iff_valueAt canon.entries canon.ascending id.index row

theorem mem_ids (canon : Canon α) (id : StateId) :
    id ∈ canon.ids ↔ ∃ row, canon.key? id = some row := by
  constructor
  · intro h
    obtain ⟨⟨index, row⟩, hmem, rfl⟩ := List.mem_map.mp h
    exact ⟨row, (canon.mem_entries ⟨index⟩ row).mp hmem⟩
  · rintro ⟨row, hrow⟩
    exact List.mem_map.mpr ⟨(id.index, row), (canon.mem_entries id row).mpr hrow, rfl⟩

theorem length_ids (canon : Canon α) : canon.ids.length = canon.size := List.length_map _

theorem key?_eq_none (canon : Canon α) (id : StateId) (h : id ∉ canon.ids) :
    canon.key? id = none :=
  Option.eq_none_iff_forall_ne_some.mpr fun row hrow => h ((canon.mem_ids id).mpr ⟨row, hrow⟩)

theorem mem_insert (canon : Canon α) (id other : StateId) (row : Row α) :
    other ∈ (canon.insert id row).ids ↔ other = id ∨ other ∈ canon.ids := by
  rw [mem_ids, mem_ids, key?_insert]
  by_cases h : other = id
  · simp [h]
  · simp [h]

theorem mem_erase (canon : Canon α) (id other : StateId) :
    other ∈ (canon.erase id).ids ↔ other ≠ id ∧ other ∈ canon.ids := by
  rw [mem_ids, mem_ids, key?_erase]
  by_cases h : other = id
  · simp [h]
  · simp [h]

theorem nodup (canon : Canon α) : canon.ids.Nodup :=
  List.pairwise_map.mpr <| canon.ascending.imp fun hlt he => by
    rw [StateId.ext_iff] at he
    exact Nat.ne_of_lt hlt he

/-- A canon is determined by its states and the rows they are filed under. -/
theorem ext_key? (canon other : Canon α) (h : ∀ id, canon.key? id = other.key? id) :
    canon = other := by
  have hentries : canon.entries = other.entries :=
    eq_of_valueAt canon.entries other.entries canon.ascending other.ascending fun index => h ⟨index⟩
  cases canon
  cases other
  simpa using hentries

/-! ## Filing by row -/

variable [DecidableEq α]

/-- Takes the live state `id` off the canon, and says whether it was there under the row it has. -/
def withdraw (canon : Canon α) (store : Store α) (id : StateId) :
    Except Fault (Canon α × Bool) := do
  let state ← store.fetch id
  if canon.key? id = some state.row then return (canon.erase id, true) else return (canon, false)

/-- The first of `entries` that is filed under `row` and whose state still has that row. -/
def firstWith (store : Store α) (row : Row α) :
    List (Nat × Row α) → Except Fault (Option StateId)
  | [] => .ok none
  | (index, key) :: entries =>
    if key = row then
      match store.fetch ⟨index⟩ with
      | .error fault => .error fault
      | .ok state => if state.row = row then .ok (some ⟨index⟩) else firstWith store row entries
    else firstWith store row entries

/-- The canonical state with the row `row`. -/
def find (canon : Canon α) (store : Store α) (row : Row α) : Except Fault (Option StateId) :=
  firstWith store row canon.entries

/-- Makes `id` canonical under the row it has, unless a state is found by that row, and answers with
the state that is canonical then. -/
def enroll (canon : Canon α) (store : Store α) (id : StateId) :
    Except Fault (Canon α × StateId) := do
  let state ← store.fetch id
  match ← canon.find store state.row with
  | some owner => return (canon, owner)
  | none => return (canon.insert id state.row, id)

/-- Enrolls `id`, whose row must still be free. -/
def enrollNew (store : Store α) (canon : Canon α) (id : StateId) : Except Fault (Canon α) := do
  let (canon, owner) ← canon.enroll store id
  if owner = id then return canon else throw (.twins owner id)

/-- The canon of all live states, enrolled in slot order. -/
def ofStore (store : Store α) : Except Fault (Canon α) :=
  (store.live.map Prod.fst).foldlM (enrollNew store) empty

end Canon

end TraceGraph
