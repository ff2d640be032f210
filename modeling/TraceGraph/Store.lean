import TraceGraph.State

/-! # The store

States live in numbered slots, so that a state can change while others hold its number.  A slot
whose state is gone is vacant and is handed out again, the one vacated last before all others. -/
namespace TraceGraph
set_option autoImplicit false

structure Store (α : Type) where
  slots : Array (Option (State α))
  /-- The vacant slots, the one vacated last in front. -/
  vacant : List StateId
deriving DecidableEq

namespace Store

variable {α : Type}

/-! ## Reading -/

def empty : Store α := ⟨#[], []⟩

/-- The live state in slot `id`, if there is one. -/
@[inline] def get? (store : Store α) (id : StateId) : Option (State α) :=
  store.slots[id.index]?.join

/-- The state in slot `id`, which has to be live. -/
@[inline] def fetch (store : Store α) (id : StateId) : Except Fault (State α) :=
  match store.get? id with
  | some state => .ok state
  | none => .error .stateGone

def size (store : Store α) : Nat := store.slots.size - store.vacant.length

/-- The live states in slot order. -/
def live (store : Store α) : List (StateId × State α) :=
  store.slots.toList.zipIdx.filterMap fun entry => entry.1.map fun state => (⟨entry.2⟩, state)

theorem mem_live (store : Store α) (id : StateId) (state : State α) :
    (id, state) ∈ store.live ↔ store.get? id = some state := by
  unfold live get?
  constructor
  · intro h
    obtain ⟨⟨slot, index⟩, hmem, hslot⟩ := List.mem_filterMap.mp h
    obtain ⟨found, hfound, heq⟩ := Option.map_eq_some_iff.mp hslot
    cases heq
    have hget := List.mem_zipIdx_iff_getElem?.mp hmem
    simp only [Array.getElem?_toList] at hget hfound
    simp [hget, hfound]
  · intro h
    refine List.mem_filterMap.mpr ⟨(some state, id.index), ?_, rfl⟩
    refine List.mem_zipIdx_iff_getElem?.mpr ?_
    simp only [Array.getElem?_toList]
    cases hs : store.slots[id.index]? with
    | none => simp [hs] at h
    | some slot => simpa [hs] using h

/-- The number of edges that a slot contributes. -/
def outdegree (slot : Option (State α)) : Nat :=
  match slot with
  | some state => state.row.successors.length
  | none => 0

/-- The number of edges that leave live states. -/
def edgeCount (store : Store α) : Nat :=
  store.slots.toList.foldr (fun slot total => outdegree slot + total) 0

/-! ## Changing -/

def put (store : Store α) (id : StateId) (state : State α) : Store α :=
  { store with slots := store.slots.setIfInBounds id.index (some state) }

/-- Gives `state` a new slot behind all others. -/
def push (store : Store α) (state : State α) : Store α × StateId :=
  ({ store with slots := store.slots.push (some state) }, ⟨store.slots.size⟩)

/-- Gives `state` a slot of its own, a vacant one if there is any. -/
def alloc (store : Store α) (state : State α) : Except Fault (Store α × StateId) :=
  match store.vacant with
  | [] => .ok (store.push state)
  | id :: vacant =>
    match store.slots[id.index]? with
    | none => .error (.indexOutOfBounds store.slots.size id.index)
    | some (some _) => .error .stillTaken
    | some none => .ok (⟨store.slots.setIfInBounds id.index (some state), vacant⟩, id)

/-- Vacates slot `id`, with the state that lived there. -/
def free (store : Store α) (id : StateId) : Except Fault (Store α × State α) :=
  match store.slots[id.index]? with
  | none => .error (.indexOutOfBounds store.slots.size id.index)
  | some none => .error .alreadyVacant
  | some (some state) => .ok (⟨store.slots.setIfInBounds id.index none, id :: store.vacant⟩, state)

/-- Counts a new edge to `id`. -/
def gainEdge (store : Store α) (id : StateId) : Except Fault (Store α) :=
  (store.fetch id).map fun state => store.put id state.gain

def gainEdges (store : Store α) (ids : List StateId) : Except Fault (Store α) :=
  ids.foldlM gainEdge store

/-- Counts an edge to `id` less, with the number of edges that remain. -/
def loseEdge (store : Store α) (id : StateId) : Except Fault (Store α × Nat) := do
  let state ← store.fetch id
  let state ← state.lose
  return (store.put id state, state.incoming)

/-- Edits the row of state `id`, with the target that the edit displaced. -/
def edit (store : Store α) (id : StateId) (change : Edit α) :
    Except Fault (Store α × Option StateId) := do
  let state ← store.fetch id
  let (state, displaced) ← state.edit change
  return (store.put id state, displaced)

/-- Every live state with at least `arity` slots. -/
def widen (store : Store α) (arity : Nat) : Store α :=
  { store with slots := store.slots.map fun slot => slot.map fun state => state.widen arity }

/-! ## States after a change -/

theorem slots_set (store : Store α) (id other : StateId) (slot : Option (State α))
    (h : id.index < store.slots.size) :
    (store.slots.setIfInBounds id.index slot)[other.index]? =
      if other = id then some slot else store.slots[other.index]? := by
  rw [Array.getElem?_setIfInBounds]
  by_cases hs : other = id
  · subst hs
    simp [h]
  · have hi : ¬ id.index = other.index := fun he => hs ((StateId.ext_iff other id).mpr he.symm)
    simp [hs, hi]

theorem get?_set (store : Store α) (id other : StateId) (slot : Option (State α))
    (vacant : List StateId) (h : id.index < store.slots.size) :
    get? ⟨store.slots.setIfInBounds id.index slot, vacant⟩ other =
      if other = id then slot else store.get? other := by
  unfold get?
  rw [slots_set store id other slot h]
  split
  · rfl
  · rfl

theorem index_lt_of_get? (store : Store α) (id : StateId) (state : State α)
    (h : store.get? id = some state) : id.index < store.slots.size := by
  unfold get? at h
  by_cases hi : id.index < store.slots.size
  · exact hi
  · rw [Array.getElem?_eq_none (Nat.le_of_not_lt hi)] at h
    simp at h

theorem get?_put (store : Store α) (id other : StateId) (old new : State α)
    (h : store.get? id = some old) :
    (store.put id new).get? other = if other = id then some new else store.get? other :=
  get?_set store id other (some new) store.vacant (index_lt_of_get? store id old h)

/-- A freed slot is empty, and no other slot changes. -/
theorem slots_free (store after : Store α) (id other : StateId) (state : State α)
    (h : store.free id = .ok (after, state)) :
    store.slots[id.index]? = some (some state) ∧
      after.slots[other.index]? = if other = id then some none else store.slots[other.index]? := by
  unfold free at h
  split at h
  · simp at h
  · simp at h
  · next old hs =>
    simp only [Except.ok.injEq, Prod.mk.injEq] at h
    obtain ⟨rfl, rfl⟩ := h
    exact ⟨hs, slots_set store id other none (Array.getElem?_eq_some_iff.mp hs).1⟩

theorem get?_free (store after : Store α) (id other : StateId) (state : State α)
    (h : store.free id = .ok (after, state)) :
    store.get? id = some state ∧
      after.get? other = if other = id then none else store.get? other := by
  obtain ⟨hold, hnew⟩ := slots_free store after id other state h
  unfold get?
  rw [hold, hnew]
  refine ⟨rfl, ?_⟩
  split
  · rfl
  · rfl

theorem get?_widen (store : Store α) (arity : Nat) (id : StateId) :
    (store.widen arity).get? id = (store.get? id).map fun state => state.widen arity := by
  unfold get? widen
  rw [Array.getElem?_map]
  cases store.slots[id.index]? with
  | none => rfl
  | some slot => rfl

/-! ## Edges under change -/

/-- A total over a list changes as the changed entry does. -/
theorem foldr_add_set {β : Type} (f : β → Nat) (l : List β) (i : Nat) (a b : β)
    (h : l[i]? = some a) : (l.set i b).foldr (fun c total => f c + total) 0 + f a =
      l.foldr (fun c total => f c + total) 0 + f b := by
  induction l generalizing i with
  | nil => simp at h
  | cons c l ih =>
    cases i with
    | zero =>
      simp only [List.getElem?_cons_zero, Option.some.injEq] at h
      subst h
      simp only [List.set_cons_zero, List.foldr_cons]
      omega
    | succ i =>
      have := ih i (by simpa using h)
      simp only [List.set_cons_succ, List.foldr_cons]
      omega

/-- What a slot adds to the number of edges changes as the slot does. -/
theorem edgeCount_set (store : Store α) (id : StateId) (old new : Option (State α))
    (vacant : List StateId) (h : store.slots[id.index]? = some old) :
    edgeCount ⟨store.slots.setIfInBounds id.index new, vacant⟩ + outdegree old =
      store.edgeCount + outdegree new := by
  simp only [edgeCount, Array.toList_setIfInBounds]
  exact foldr_add_set outdegree _ _ _ _ (by simpa using h)

theorem slot_of_fetch (store : Store α) (id : StateId) (state : State α)
    (h : store.fetch id = .ok state) : store.slots[id.index]? = some (some state) := by
  unfold fetch get? at h
  cases hs : store.slots[id.index]? with
  | none => simp [hs] at h
  | some slot => cases slot <;> simp_all

/-- Losing an incoming edge leaves the edges that start at live states. -/
theorem edgeCount_loseEdge (store after : Store α) (id : StateId) (remaining : Nat)
    (h : store.loseEdge id = .ok (after, remaining)) : after.edgeCount = store.edgeCount := by
  unfold loseEdge State.lose at h
  cases hf : store.fetch id with
  | error fault => simp [hf, bind, Except.bind] at h
  | ok state =>
    simp only [hf, bind, Except.bind, pure, Except.pure] at h
    split at h
    · simp at h
    · next lesser hl =>
      split at hl
      · simp at hl
      · simp only [Except.ok.injEq, Prod.mk.injEq] at h hl
        have := edgeCount_set store id (some state) (some lesser) store.vacant
          (slot_of_fetch store id state hf)
        rw [← h.1, put]
        simp only [outdegree, ← hl] at this ⊢
        omega

/-- Vacating a slot takes away the edges that started there. -/
theorem edgeCount_free (store after : Store α) (id : StateId) (state : State α)
    (h : store.free id = .ok (after, state)) :
    after.edgeCount + state.row.successors.length = store.edgeCount := by
  unfold free at h
  split at h
  · simp at h
  · simp at h
  · next old hs =>
    simp only [Except.ok.injEq, Prod.mk.injEq] at h
    have := edgeCount_set store id (some old) none (id :: store.vacant) hs
    rw [← h.1, ← h.2]
    simpa [outdegree] using this

end Store

end TraceGraph
