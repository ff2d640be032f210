import TraceGraph.Graph.Insert
import TraceGraph.Proofs.Pool.Widening

/-! # Padded stores

Widening pads every row by blank slots, and the operations of a store do not see the padding: each
does in the padded store what it does in the store itself, and pads the result.  Only an edit needs
its symbol below the old arity, and only a canon, which compares rows, needs rows of one arity. -/
namespace TraceGraph
set_option autoImplicit false

variable {α : Type}

/-- What a computation came to, if its continuation came to something. -/
theorem exists_ok_of_bind {ε β γ : Type} {first : Except ε β} {rest : β → Except ε γ} {result : γ}
    (h : first >>= rest = .ok result) : ∃ value, first = .ok value ∧ rest value = .ok result := by
  cases first with
  | error fault => cases h
  | ok value => exact ⟨value, rfl, h⟩

/-! ## Rows -/

namespace Row

theorem blank_widen (arity wide : Nat) (hle : arity ≤ wide) :
    (blank arity : Row α).widen wide = blank wide := by
  refine ext_edge? _ _ ?_ fun symbol => rfl
  rw [arity_widen]
  exact Nat.max_eq_right hle

theorem widen_of_le (row : Row α) (arity : Nat) (hle : arity ≤ row.arity) :
    row.widen arity = row := by
  refine ext_edge? _ _ ?_ fun symbol => rfl
  rw [arity_widen]
  exact Nat.max_eq_left hle

@[simp] theorem widen_widen (row : Row α) (arity wide : Nat) :
    (row.widen arity).widen wide = row.widen (max arity wide) := by
  refine ext_edge? _ _ ?_ fun symbol => rfl
  simp only [arity_widen]
  omega

theorem slot_widen (row : Row α) (wide symbol : Nat) (hlt : symbol < row.arity) :
    (row.widen wide).slot symbol = row.slot symbol := by
  have hlt' : symbol < (row.widen wide).arity := Nat.lt_of_lt_of_le hlt (Nat.le_max_left _ _)
  rw [slot, slot, if_pos hlt, if_pos hlt', edge?_widen]

theorem edit_widen (row new : Row α) (wide : Nat) (change : Edit α) (displaced : Option StateId)
    (h : row.edit change = .ok (new, displaced)) :
    (row.widen wide).edit change = .ok (new.widen wide, displaced) := by
  obtain ⟨hlt, _⟩ := row.edit_eq_write new change displaced h
  have hlt' : change.symbol < (row.widen wide).arity :=
    Nat.lt_of_lt_of_le hlt (Nat.le_max_left _ _)
  cases change with
  | add symbol edge =>
    rw [edit, dif_pos (show symbol < row.arity from hlt)] at h
    rw [edit, dif_pos (show symbol < (row.widen wide).arity from hlt'), edge?_widen]
    cases he : row.edge? symbol with
    | some old =>
      rw [he] at h
      cases h
    | none =>
      rw [he] at h
      cases h
      rfl
  | redirect symbol target =>
    rw [edit, dif_pos (show symbol < row.arity from hlt)] at h
    rw [edit, dif_pos (show symbol < (row.widen wide).arity from hlt'), edge?_widen]
    cases he : row.edge? symbol with
    | none =>
      rw [he] at h
      cases h
    | some edge =>
      rw [he] at h
      cases h
      rfl

end Row

namespace Store

variable (store : Store α) (wide : Nat) (id : StateId)

/-! ## Operations that no row decides -/

@[simp] theorem fetch_widen :
    (store.widen wide).fetch id = (store.fetch id).map fun state => state.widen wide := by
  unfold fetch
  rw [get?_widen]
  cases store.get? id with
  | none => rfl
  | some state => rfl

theorem put_widen (state : State α) :
    (store.widen wide).put id (state.widen wide) = (store.put id state).widen wide := by
  unfold put widen
  rw [Array.map_setIfInBounds]
  rfl

@[simp] theorem alloc_widen (state : State α) : (store.widen wide).alloc (state.widen wide) =
    (store.alloc state).map fun made => (made.1.widen wide, made.2) := by
  unfold alloc widen
  cases hvacant : store.vacant with
  | nil => simp [push, Except.map, hvacant]
  | cons first vacant =>
    simp only [Array.getElem?_map]
    cases store.slots[first.index]? with
    | none => simp [Except.map]
    | some slot =>
      cases slot with
      | none => simp [Except.map, Array.map_setIfInBounds]
      | some old => rfl

@[simp] theorem free_widen : (store.widen wide).free id =
    (store.free id).map fun freed => (freed.1.widen wide, freed.2.widen wide) := by
  unfold free widen
  rw [Array.getElem?_map]
  cases store.slots[id.index]? with
  | none => simp [Except.map]
  | some slot =>
    cases slot with
    | none => rfl
    | some state => simp [Except.map, Array.map_setIfInBounds]

@[simp] theorem gainEdge_widen : (store.widen wide).gainEdge id =
    (store.gainEdge id).map fun after => after.widen wide := by
  unfold gainEdge
  rw [fetch_widen]
  cases store.fetch id with
  | error fault => rfl
  | ok state => exact congrArg Except.ok (store.put_widen wide id state.gain)

@[simp] theorem gainEdges_widen (ids : List StateId) : (store.widen wide).gainEdges ids =
    (store.gainEdges ids).map fun after => after.widen wide := by
  induction ids generalizing store with
  | nil => rfl
  | cons id ids ih =>
    unfold gainEdges at ih ⊢
    rw [List.foldlM_cons, List.foldlM_cons, gainEdge_widen]
    cases store.gainEdge id with
    | error fault => rfl
    | ok after => exact ih after

@[simp] theorem loseEdge_widen : (store.widen wide).loseEdge id =
    (store.loseEdge id).map fun after => (after.1.widen wide, after.2) := by
  unfold loseEdge
  rw [fetch_widen]
  cases store.fetch id with
  | error fault => rfl
  | ok state =>
    obtain ⟨row, incoming⟩ := state
    cases incoming with
    | zero => rfl
    | succ remaining =>
      exact congrArg (fun after => Except.ok (after, remaining))
        (store.put_widen wide id ⟨row, remaining⟩)

/-- An edit of a store is one of the row that the state has. -/
theorem edit_cases (after : Store α) (change : Edit α) (displaced : Option StateId)
    (h : store.edit id change = .ok (after, displaced)) :
    ∃ state new, store.fetch id = .ok state ∧ state.row.edit change = .ok (new, displaced) ∧
      after = store.put id { state with row := new } := by
  obtain ⟨state, hfetch, h⟩ := exists_ok_of_bind h
  obtain ⟨edited, hedit, h⟩ := exists_ok_of_bind h
  unfold State.edit at hedit
  cases hnew : state.row.edit change with
  | error fault =>
    rw [hnew] at hedit
    cases hedit
  | ok new =>
    rw [hnew] at hedit
    cases hedit
    cases h
    exact ⟨state, new.1, hfetch, hnew, rfl⟩

theorem edit_widen (after : Store α) (change : Edit α) (displaced : Option StateId)
    (h : store.edit id change = .ok (after, displaced)) :
    (store.widen wide).edit id change = .ok (after.widen wide, displaced) := by
  obtain ⟨state, new, hfetch, hnew, rfl⟩ := store.edit_cases id after change displaced h
  have hwide := state.row.edit_widen new wide change displaced hnew
  unfold edit
  rw [fetch_widen, hfetch]
  simp only [Except.map, bind, Except.bind, State.edit, State.widen, hwide]
  exact congrArg (fun after => Except.ok (after, displaced))
    (store.put_widen wide id { state with row := new })

@[simp] theorem isShared_widen : (store.widen wide).isShared id = store.isShared id := by
  unfold isShared
  rw [get?_widen, Option.any_map]
  rfl

@[simp] theorem walk_widen (word : List Nat) : (store.widen wide).walk id word = store.walk id word := by
  induction word generalizing id with
  | nil => rfl
  | cons symbol word ih =>
    unfold walk
    rw [fetch_widen]
    cases store.fetch id with
    | error fault => rfl
    | ok state =>
      simp only [Except.map, bind, Except.bind, State.widen, Row.edge?_widen]
      cases state.row.edge? symbol with
      | none => rfl
      | some edge => simp only [ih]

@[simp] theorem widen_widen (more : Nat) :
    (store.widen wide).widen more = store.widen (max wide more) := by
  unfold widen
  simp only [Array.map_map, mk.injEq, and_true]
  refine Array.map_congr_left fun slot _ => ?_
  cases slot with
  | none => rfl
  | some state =>
    exact congrArg (fun row => some (State.mk row state.incoming)) (state.row.widen_widen wide more)

/-! ## Rows of one arity -/

def Uniform (store : Store α) (arity : Nat) : Prop :=
  ∀ id row, store.row? id = some row → row.arity = arity

namespace Uniform

variable {store} {arity : Nat} (h : store.Uniform arity)

include h

theorem of_fetch (state : State α) (hfetch : store.fetch id = .ok state) :
    state.row.arity = arity := by
  unfold fetch at hfetch
  cases hget : store.get? id with
  | none =>
    rw [hget] at hfetch
    cases hfetch
  | some found =>
    rw [hget] at hfetch
    obtain rfl : found = state := Except.ok.inj hfetch
    exact h id found.row (store.row?_of_get? id found hget)

theorem set (slot : Option (State α)) (vacant : List StateId)
    (hslot : ∀ state ∈ slot, state.row.arity = arity) :
    Uniform ⟨store.slots.setIfInBounds id.index slot, vacant⟩ arity := by
  intro other row hrow
  obtain ⟨state, hstate, rfl⟩ := get?_of_row? _ other row hrow
  unfold get? at hstate
  rw [Array.getElem?_setIfInBounds] at hstate
  split at hstate
  · split at hstate
    · exact hslot state hstate
    · cases hstate
  · exact h other state.row (store.row?_of_get? other state hstate)

theorem put (state : State α) (hstate : state.row.arity = arity) :
    (store.put id state).Uniform arity :=
  h.set id (some state) store.vacant fun _ hmem => Option.some.inj hmem ▸ hstate

theorem alloc (after : Store α) (state : State α) (hstate : state.row.arity = arity)
    (halloc : store.alloc state = .ok (after, id)) : after.Uniform arity := by
  intro other row hrow
  rw [store.row?_alloc after state id halloc other] at hrow
  split at hrow
  · cases hrow
    exact hstate
  · exact h other row hrow

theorem free (after : Store α) (state : State α) (hfree : store.free id = .ok (after, state)) :
    after.Uniform arity := by
  unfold Store.free at hfree
  split at hfree
  · cases hfree
  · cases hfree
  · cases hfree
    exact h.set id none _ fun _ hmem => nomatch hmem

theorem gainEdge (after : Store α) (hgain : store.gainEdge id = .ok after) :
    after.Uniform arity := by
  unfold Store.gainEdge at hgain
  cases hfetch : store.fetch id with
  | error fault =>
    rw [hfetch] at hgain
    cases hgain
  | ok state =>
    rw [hfetch] at hgain
    cases hgain
    exact h.put id state.gain (h.of_fetch id state hfetch)

omit h in
theorem gainEdges (store after : Store α) (h : store.Uniform arity) (ids : List StateId)
    (hgain : store.gainEdges ids = .ok after) : after.Uniform arity := by
  induction ids generalizing store with
  | nil =>
    cases hgain
    exact h
  | cons id ids ih =>
    unfold Store.gainEdges at ih hgain
    rw [List.foldlM_cons] at hgain
    obtain ⟨mid, hmid, hgain⟩ := exists_ok_of_bind hgain
    exact ih mid (h.gainEdge id mid hmid) hgain

theorem loseEdge (after : Store α) (remaining : Nat)
    (hlose : store.loseEdge id = .ok (after, remaining)) : after.Uniform arity := by
  obtain ⟨state, hfetch, hlose⟩ := exists_ok_of_bind hlose
  obtain ⟨lesser, hlesser, hlose⟩ := exists_ok_of_bind hlose
  cases hlose
  have hrow : lesser.row = state.row := by
    unfold State.lose at hlesser
    split at hlesser
    · cases hlesser
    · cases hlesser
      rfl
  exact h.put id lesser (hrow ▸ h.of_fetch id state hfetch)

theorem edit (after : Store α) (change : Edit α) (displaced : Option StateId)
    (hedit : store.edit id change = .ok (after, displaced)) : after.Uniform arity := by
  obtain ⟨state, new, hfetch, hnew, rfl⟩ := store.edit_cases id after change displaced hedit
  refine h.put id _ ?_
  exact (state.row.arity_edit new change displaced hnew).trans (h.of_fetch id state hfetch)

/-- Padding to the arity that all rows have changes nothing. -/
theorem widen_eq (wide : Nat) (hle : wide ≤ arity) : store.widen wide = store := by
  unfold Store.widen
  have hsame : store.slots.map (fun slot => slot.map fun state => state.widen wide) =
      store.slots := by
    refine Array.ext_getElem? fun index => ?_
    rw [Array.getElem?_map]
    cases hslot : store.slots[index]? with
    | none => rfl
    | some slot =>
      cases slot with
      | none => rfl
      | some state =>
        have hget : store.get? ⟨index⟩ = some state := by
          unfold get?
          rw [hslot]
          rfl
        have harity := h ⟨index⟩ state.row (store.row?_of_get? _ state hget)
        have hrow := state.row.widen_of_le wide (by omega)
        exact congrArg (fun row => some (some (State.mk row state.incoming))) hrow
  rw [hsame]

end Uniform

end Store

/-! ## Canons -/

namespace Canon

section

variable (canon : Canon α) (wide : Nat) (id : StateId)

@[simp] theorem widen_widen (more : Nat) :
    (canon.widen wide).widen more = canon.widen (max wide more) := by
  refine ext_key? _ _ fun id => ?_
  simp only [key?_widen, Option.map_map, Function.comp_def, Row.widen_widen]

theorem erase_widen : (canon.widen wide).erase id = (canon.erase id).widen wide := by
  refine ext_key? _ _ fun other => ?_
  rw [key?_erase, key?_widen, key?_widen, key?_erase]
  split
  · rfl
  · rfl

theorem insert_widen (row : Row α) :
    (canon.widen wide).insert id (row.widen wide) = (canon.insert id row).widen wide := by
  refine ext_key? _ _ fun other => ?_
  rw [key?_insert, key?_widen, key?_widen, key?_insert]
  split
  · rfl
  · rfl

end

/-- All filed rows have the arity `arity`. -/
def Uniform (canon : Canon α) (arity : Nat) : Prop :=
  ∀ id row, canon.key? id = some row → row.arity = arity

namespace Uniform

variable {canon : Canon α} {arity : Nat} (h : canon.Uniform arity)

include h

theorem erase (id : StateId) : (canon.erase id).Uniform arity := by
  intro other row hkey
  rw [key?_erase] at hkey
  split at hkey
  · cases hkey
  · exact h other row hkey

theorem insert (id : StateId) (row : Row α) (hrow : row.arity = arity) :
    (canon.insert id row).Uniform arity := by
  intro other found hkey
  rw [key?_insert] at hkey
  split at hkey
  · cases hkey
    exact hrow
  · exact h other found hkey

/-- Padding to the arity that all rows have changes nothing. -/
theorem widen_eq (wide : Nat) (hle : wide ≤ arity) : canon.widen wide = canon := by
  refine ext_key? _ _ fun id => ?_
  rw [key?_widen]
  cases hkey : canon.key? id with
  | none => rfl
  | some row =>
    have harity := h id row hkey
    rw [Option.map_some, row.widen_of_le wide (by omega)]

end Uniform

section

variable [DecidableEq α] (canon after : Canon α) (store : Store α) (arity wide : Nat)
  (h : canon.Uniform arity) (hstore : store.Uniform arity)

include hstore

theorem firstWith_widen (row : Row α) (hrow : row.arity = arity) (entries : List (Nat × Row α))
    (hkeys : ∀ entry ∈ entries, entry.2.arity = arity) :
    firstWith (store.widen wide) (row.widen wide)
      (entries.map fun entry => (entry.1, entry.2.widen wide)) = firstWith store row entries := by
  have hsame : ∀ key : Row α, key.arity = arity → (key.widen wide = row.widen wide ↔ key = row) :=
    fun key hkey => ⟨key.widen_injective row wide (hkey.trans hrow.symm), fun he => he ▸ rfl⟩
  induction entries with
  | nil => rfl
  | cons entry entries ih =>
    obtain ⟨hkey, hrest⟩ := List.forall_mem_cons.mp hkeys
    simp only [List.map_cons, firstWith, hsame entry.2 hkey, ih hrest, Store.fetch_widen]
    cases hfetch : store.fetch ⟨entry.1⟩ with
    | error fault => rfl
    | ok state =>
      simp only [Except.map, State.widen, hsame state.row (hstore.of_fetch _ state hfetch)]

include h

theorem find_widen (row : Row α) (hrow : row.arity = arity) :
    (canon.widen wide).find (store.widen wide) (row.widen wide) = canon.find store row :=
  firstWith_widen store arity wide hstore row hrow canon.entries fun entry hmem =>
    h ⟨entry.1⟩ entry.2 ((canon.mem_entries ⟨entry.1⟩ entry.2).mp hmem)

theorem enroll_widen (id : StateId) : (canon.widen wide).enroll (store.widen wide) id =
    (canon.enroll store id).map fun filed => (filed.1.widen wide, filed.2) := by
  unfold enroll
  rw [Store.fetch_widen]
  cases hfetch : store.fetch id with
  | error fault => rfl
  | ok state =>
    have hfind := canon.find_widen store arity wide h hstore state.row
      (hstore.of_fetch id state hfetch)
    simp only [Except.map, bind, Except.bind, State.widen, hfind, insert_widen]
    cases canon.find store state.row with
    | error fault => rfl
    | ok found =>
      cases found with
      | none => rfl
      | some owner => rfl

theorem withdraw_widen (id : StateId) : (canon.widen wide).withdraw (store.widen wide) id =
    (canon.withdraw store id).map fun left => (left.1.widen wide, left.2) := by
  unfold withdraw
  rw [Store.fetch_widen]
  cases hfetch : store.fetch id with
  | error fault => rfl
  | ok state =>
    have hsame : (canon.widen wide).key? id = some (state.row.widen wide) ↔
        canon.key? id = some state.row := by
      rw [key?_widen]
      cases hkey : canon.key? id with
      | none => exact ⟨nofun, nofun⟩
      | some row =>
        have harity := (h id row hkey).trans (hstore.of_fetch id state hfetch).symm
        rw [Option.map_some, Option.some.injEq, Option.some.injEq]
        exact ⟨row.widen_injective state.row wide harity, fun he => he ▸ rfl⟩
    simp only [Except.map, bind, Except.bind, State.widen, hsame, erase_widen]
    split
    · rfl
    · rfl

theorem uniform_enroll (id owner : StateId)
    (henroll : canon.enroll store id = .ok (after, owner)) : after.Uniform arity := by
  obtain ⟨state, hfetch, henroll⟩ := exists_ok_of_bind henroll
  obtain ⟨found, hfind, henroll⟩ := exists_ok_of_bind henroll
  cases found with
  | some other =>
    cases henroll
    exact h
  | none =>
    cases henroll
    exact h.insert id state.row (hstore.of_fetch id state hfetch)

omit hstore in
theorem uniform_withdraw (id : StateId) (filed : Bool)
    (hwithdraw : canon.withdraw store id = .ok (after, filed)) : after.Uniform arity := by
  obtain ⟨state, _, hwithdraw⟩ := exists_ok_of_bind hwithdraw
  split at hwithdraw
  · cases hwithdraw
    exact h.erase id
  · cases hwithdraw
    exact h

end

end Canon

end TraceGraph
