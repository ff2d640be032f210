import TraceGraph.Proofs.Store.Size

/-! # The account of slots

A store is filled, changed and vacated slot by slot, and all that it shows can be read off this
history: which states are live and with which contents, which slots are vacant and in what order
they will be handed out again, and which number the next new slot has. -/
namespace TraceGraph
set_option autoImplicit false

namespace Store

variable {α : Type}

/-! ## Histories -/

/-- A slot gets a state, be it a new one or the old one changed, or its state leaves. -/
inductive Move (α : Type) where
  | stored (id : StateId) (state : State α)
  | vacated (id : StateId)

/-- Some state was stored in slot `id`.  A history has the latest move in front. -/
def Used (moves : List (Move α)) (id : StateId) : Prop := ∃ state, .stored id state ∈ moves

/-- The last state that was stored in slot `id` is `state`, and it is still there. -/
def Holds (moves : List (Move α)) (id : StateId) (state : State α) : Prop :=
  ∃ later earlier, moves = later ++ .stored id state :: earlier ∧
    ¬ Used later id ∧ .vacated id ∉ later

/-- Slot `id` was vacated and has not been used since. -/
def Open (moves : List (Move α)) (id : StateId) : Prop :=
  ∃ later earlier, moves = later ++ .vacated id :: earlier ∧ ¬ Used later id

/-- Slot `id` is open, and every slot that was vacated later has been used again. -/
def OpenLast (moves : List (Move α)) (id : StateId) : Prop :=
  ∃ later earlier, moves = later ++ .vacated id :: earlier ∧ ¬ Used later id ∧
    ∀ other, ¬ Open later other

theorem not_used_nil (id : StateId) : ¬ Used ([] : List (Move α)) id :=
  fun ⟨_, hmem⟩ => absurd hmem List.not_mem_nil

theorem used_stored (moves : List (Move α)) (id other : StateId) (state : State α) :
    Used (.stored id state :: moves) other ↔ other = id ∨ Used moves other := by
  constructor
  · rintro ⟨found, hmem⟩
    rcases List.mem_cons.mp hmem with heq | hmem
    · cases heq
      exact .inl rfl
    · exact .inr ⟨found, hmem⟩
  · rintro (rfl | ⟨found, hmem⟩)
    · exact ⟨state, List.mem_cons_self⟩
    · exact ⟨found, List.mem_cons_of_mem _ hmem⟩

theorem used_vacated (moves : List (Move α)) (id other : StateId) :
    Used (.vacated id :: moves) other ↔ Used moves other := by
  constructor
  · rintro ⟨found, hmem⟩
    exact ⟨found, (List.mem_cons.mp hmem).resolve_left nofun⟩
  · rintro ⟨found, hmem⟩
    exact ⟨found, List.mem_cons_of_mem _ hmem⟩

theorem not_holds_nil (id : StateId) (state : State α) : ¬ Holds [] id state := by
  rintro ⟨later, earlier, heq, _⟩
  exact List.append_ne_nil_of_right_ne_nil later (List.cons_ne_nil _ earlier) heq.symm

theorem holds_stored (moves : List (Move α)) (id other : StateId) (state found : State α) :
    Holds (.stored id state :: moves) other found ↔
      if other = id then found = state else Holds moves other found := by
  constructor
  · rintro ⟨later, earlier, heq, hused, hvacated⟩
    rcases List.cons_eq_append_iff.mp heq with ⟨rfl, hhead⟩ | ⟨later, rfl, rfl⟩
    · cases hhead
      rw [if_pos rfl]
    · rw [used_stored, not_or] at hused
      rw [if_neg hused.1]
      exact ⟨later, earlier, rfl, hused.2, fun hmem => hvacated (List.mem_cons_of_mem _ hmem)⟩
  · split
    · next he =>
      rintro rfl
      exact ⟨[], moves, by rw [he]; rfl, not_used_nil other, List.not_mem_nil⟩
    · next hne =>
      rintro ⟨later, earlier, rfl, hused, hvacated⟩
      refine ⟨.stored id state :: later, earlier, rfl, ?_, ?_⟩
      · rw [used_stored, not_or]
        exact ⟨hne, hused⟩
      · exact fun hmem => hvacated ((List.mem_cons.mp hmem).resolve_left nofun)

theorem holds_vacated (moves : List (Move α)) (id other : StateId) (found : State α) :
    Holds (.vacated id :: moves) other found ↔ other ≠ id ∧ Holds moves other found := by
  constructor
  · rintro ⟨later, earlier, heq, hused, hvacated⟩
    rcases List.cons_eq_append_iff.mp heq with ⟨_, hhead⟩ | ⟨later, rfl, rfl⟩
    · cases hhead
    · rw [used_vacated] at hused
      exact ⟨fun he => hvacated (by rw [he]; exact List.mem_cons_self),
        later, earlier, rfl, hused, fun hmem => hvacated (List.mem_cons_of_mem _ hmem)⟩
  · rintro ⟨hne, later, earlier, rfl, hused, hvacated⟩
    refine ⟨.vacated id :: later, earlier, rfl, by rwa [used_vacated], fun hmem => ?_⟩
    rcases List.mem_cons.mp hmem with heq | hmem
    · cases heq
      exact hne rfl
    · exact hvacated hmem

/-! ## Open slots -/

/-- The open slots, the one vacated last in front. -/
def waiting : List (Move α) → List StateId
  | [] => []
  | .stored id _ :: moves => (waiting moves).filter fun other => other ≠ id
  | .vacated id :: moves => id :: waiting moves

/-- Slots that were vacated later come first. -/
theorem waiting_vacated (later earlier : List (Move α)) (id : StateId) (h : ¬ Used later id) :
    ∃ rest, waiting (later ++ .vacated id :: earlier) = waiting later ++ id :: rest := by
  induction later with
  | nil => exact ⟨waiting earlier, rfl⟩
  | cons move later ih =>
    cases move with
    | stored other state =>
      rw [used_stored, not_or] at h
      obtain ⟨rest, hrest⟩ := ih h.2
      refine ⟨rest.filter fun another => another ≠ other, ?_⟩
      rw [List.cons_append, waiting, waiting, hrest, List.filter_append,
        List.filter_cons_of_pos (by simpa using h.1)]
    | vacated other =>
      rw [used_vacated] at h
      obtain ⟨rest, hrest⟩ := ih h
      exact ⟨rest, by rw [List.cons_append, waiting, waiting, hrest, List.cons_append]⟩

theorem mem_waiting (moves : List (Move α)) (id : StateId) : id ∈ waiting moves ↔ Open moves id := by
  constructor
  · intro h
    induction moves with
    | nil => exact absurd h List.not_mem_nil
    | cons move moves ih =>
      cases move with
      | stored other state =>
        obtain ⟨hmem, hne⟩ := List.mem_filter.mp h
        obtain ⟨later, earlier, rfl, hused⟩ := ih hmem
        refine ⟨.stored other state :: later, earlier, rfl, ?_⟩
        rw [used_stored, not_or]
        exact ⟨of_decide_eq_true hne, hused⟩
      | vacated other =>
        rcases List.mem_cons.mp h with rfl | hmem
        · exact ⟨[], moves, rfl, not_used_nil id⟩
        · obtain ⟨later, earlier, rfl, hused⟩ := ih hmem
          exact ⟨.vacated other :: later, earlier, rfl, by rwa [used_vacated]⟩
  · rintro ⟨later, earlier, rfl, hused⟩
    obtain ⟨rest, hrest⟩ := waiting_vacated later earlier id hused
    rw [hrest]
    exact List.mem_append_right _ List.mem_cons_self

/-- The first open slot is the one vacated last. -/
theorem openLast_of_waiting (moves : List (Move α)) (id : StateId) (rest : List StateId)
    (h : waiting moves = id :: rest) : OpenLast moves id := by
  have hopen : Open moves id := (mem_waiting moves id).mp (by rw [h]; exact List.mem_cons_self)
  obtain ⟨later, earlier, rfl, hused⟩ := hopen
  obtain ⟨older, holder⟩ := waiting_vacated later earlier id hused
  rw [holder] at h
  -- the move found may be an earlier vacation of `id`; then `id` is first among the later moves too
  cases hlater : waiting later with
  | nil =>
    refine ⟨later, earlier, rfl, hused, fun other ho => ?_⟩
    rw [← mem_waiting, hlater] at ho
    exact List.not_mem_nil ho
  | cons first tail =>
    rw [hlater, List.cons_append] at h
    cases h
    obtain ⟨newer, between, rfl, hunused, hnone⟩ := openLast_of_waiting later id tail hlater
    exact ⟨newer, between ++ .vacated id :: earlier, by rw [List.append_assoc]; rfl, hunused, hnone⟩
termination_by moves.length
decreasing_by
  subst_vars
  simp only [List.length_append, List.length_cons]
  omega

/-! ## Stores with a history -/

/-- The stores that come about from the empty one when states get slots, change where they are and
leave, with what happened. -/
inductive After : List (Move α) → Store α → Prop
  | start : After [] empty
  | alloc (moves : List (Move α)) (store after : Store α) (id : StateId) (state : State α)
      (h : After moves store) (halloc : store.alloc state = .ok (after, id)) :
      After (.stored id state :: moves) after
  | put (moves : List (Move α)) (store : Store α) (id : StateId) (state : State α)
      (h : After moves store) (hlive : store.Live id) :
      After (.stored id state :: moves) (store.put id state)
  | free (moves : List (Move α)) (store after : Store α) (id : StateId) (state : State α)
      (h : After moves store) (hfree : store.free id = .ok (after, state)) :
      After (.vacated id :: moves) after

/-- Slot by slot and in the list of vacant slots, the store agrees with the history.  Every move
keeps this. -/
structure Tracked (moves : List (Move α)) (store : Store α) : Prop where
  accounted : store.Accounted
  held : ∀ id state, store.slots[id.index]? = some (some state) ↔ Holds moves id state
  unused : ∀ id, store.slots[id.index]? = none ↔ ¬ Used moves id
  vacant : store.vacant = waiting moves

theorem filter_ne_of_not_mem (ids : List StateId) (id : StateId) (h : id ∉ ids) :
    (ids.filter fun other => other ≠ id) = ids := by
  refine List.filter_eq_self.mpr fun other hmem => decide_eq_true ?_
  rintro rfl
  exact h hmem

theorem vacant_alloc (store after : Store α) (state : State α) (id : StateId)
    (h : store.Accounted) (halloc : store.alloc state = .ok (after, id)) :
    after.vacant = store.vacant.filter fun other => other ≠ id := by
  rcases store.alloc_cases after state id halloc with ⟨hv, hpush⟩ | ⟨vacant, hv, _, rfl⟩
  · cases hpush
    exact hv.trans (by rw [hv]; rfl)
  · have hnodup := h.nodup
    rw [hv, List.nodup_cons] at hnodup
    rw [hv, List.filter_cons_of_neg (by simp), filter_ne_of_not_mem vacant id hnodup.1]

theorem vacant_free (store after : Store α) (id : StateId) (state : State α)
    (h : store.free id = .ok (after, state)) : after.vacant = id :: store.vacant := by
  unfold free at h
  split at h
  · cases h
  · cases h
  · cases h
    rfl

namespace Tracked

theorem stored (moves : List (Move α)) (store after : Store α) (id : StateId) (state : State α)
    (h : Tracked moves store) (hacc : after.Accounted)
    (hslots : ∀ other, after.slots[other.index]? =
      if other = id then some (some state) else store.slots[other.index]?)
    (hvacant : after.vacant = store.vacant.filter fun other => other ≠ id) :
    Tracked (.stored id state :: moves) after where
  accounted := hacc
  held other found := by
    rw [hslots other, holds_stored]
    split
    · rw [Option.some.injEq, Option.some.injEq]
      exact eq_comm
    · exact h.held other found
  unused other := by
    rw [hslots other, used_stored, not_or]
    split
    · next he => exact ⟨nofun, fun hnot => absurd he hnot.1⟩
    · next hne =>
      rw [h.unused other]
      exact ⟨fun hnot => ⟨hne, hnot⟩, And.right⟩
  vacant := by rw [hvacant, h.vacant, waiting]

theorem vacated (moves : List (Move α)) (store after : Store α) (id : StateId) (state : State α)
    (h : Tracked moves store) (hfree : store.free id = .ok (after, state)) :
    Tracked (.vacated id :: moves) after where
  accounted := by
    obtain ⟨freed, hfreed, hacc⟩ := store.free_eq id state
      (store.get?_free after id id state hfree).1
    rw [hfree] at hfreed
    cases hfreed
    exact hacc h.accounted
  held other found := by
    rw [(store.slots_free after id other state hfree).2, holds_vacated]
    split
    · next he => exact ⟨nofun, fun hnot => absurd he hnot.1⟩
    · next hne =>
      rw [h.held other found]
      exact ⟨fun hholds => ⟨hne, hholds⟩, And.right⟩
  unused other := by
    obtain ⟨hold, hnew⟩ := store.slots_free after id other state hfree
    rw [hnew, used_vacated, ← h.unused other]
    split
    · next he =>
      rw [he, hold]
      exact ⟨nofun, nofun⟩
    · rfl
  vacant := by rw [store.vacant_free after id state hfree, h.vacant, waiting]

end Tracked

namespace After

theorem tracked (moves : List (Move α)) (store : Store α) (h : After moves store) :
    Tracked moves store := by
  induction h with
  | start =>
    refine ⟨accounted_empty, fun id state => ?_, fun id => ?_, rfl⟩
    · exact ⟨fun hslot => by simp [empty] at hslot, fun hholds =>
        absurd hholds (not_holds_nil id state)⟩
    · exact ⟨fun _ => not_used_nil id, fun _ => by simp [empty]⟩
  | alloc moves store after id state _ halloc ih =>
    exact ih.stored moves store after id state
      (store.accounted_alloc after state id ih.accounted halloc)
      (store.slots_alloc after state id halloc)
      (store.vacant_alloc after state id ih.accounted halloc)
  | put moves store id state _ hlive ih =>
    -- a live slot is not vacant, so the list of vacant slots stays as it is
    obtain ⟨old, hold⟩ := (store.live_iff id).mp hlive
    refine ih.stored moves store _ id state (store.accounted_put id old state ih.accounted hold)
      (fun other => store.slots_set id other (some state) (store.index_lt_of_get? id old hold)) ?_
    refine (filter_ne_of_not_mem store.vacant id fun hmem => ?_).symm
    rw [get?, (ih.accounted.mem_vacant id).mp hmem] at hold
    cases hold
  | free moves store after id state _ hfree ih => exact ih.vacated moves store after id state hfree

end After

namespace Tracked

theorem get?_iff (moves : List (Move α)) (store : Store α) (h : Tracked moves store) (id : StateId)
    (state : State α) : store.get? id = some state ↔ Holds moves id state :=
  (store.get?_eq_some_iff id state).trans (h.held id state)

theorem used_iff (moves : List (Move α)) (store : Store α) (h : Tracked moves store)
    (id : StateId) : Used moves id ↔ id.index < store.slots.size := by
  rw [← not_iff_not, ← h.unused id, Array.getElem?_eq_none_iff, Nat.not_lt]

/-- A new state goes to the slot vacated last, and to the next one if no slot is open. -/
theorem alloc (moves : List (Move α)) (store after : Store α) (h : Tracked moves store)
    (state : State α) (id : StateId) (halloc : store.alloc state = .ok (after, id)) :
    OpenLast moves id ∨
      (∀ other, ¬ Open moves other) ∧ id = ⟨store.slots.size⟩ ∧
        ∀ other, Used moves other ↔ other < ⟨store.slots.size⟩ := by
  have hvacant := h.vacant
  rcases store.alloc_cases after state id halloc with ⟨hv, hpush⟩ | ⟨vacant, hv, _, _⟩
  · cases hpush
    refine .inr ⟨fun other hopen => ?_, rfl, h.used_iff moves store⟩
    rw [← mem_waiting, ← hvacant, hv] at hopen
    exact List.not_mem_nil hopen
  · exact .inl (openLast_of_waiting moves id vacant (hvacant.symm.trans hv))

end Tracked

/-- What the operations of a store come to, told by its history. -/
structure Exact (moves : List (Move α)) (store : Store α) : Prop where
  accounted : store.Accounted
  vacant_le : store.vacant.length ≤ store.slots.size
  size : {id | store.Live id}.encard = store.size
  held : ∀ id state, store.get? id = some state ↔ Holds moves id state
  alloc : ∀ state, ∃ after id, store.alloc state = .ok (after, id) ∧ ¬ store.Live id ∧
    (OpenLast moves id ∨
      (∀ other, ¬ Open moves other) ∧ id = ⟨store.slots.size⟩ ∧
        ∀ other, Used moves other ↔ other < ⟨store.slots.size⟩) ∧
    ∀ other, after.slots[other.index]? =
      if other = id then some (some state) else store.slots[other.index]?
  free_held : ∀ id state, Holds moves id state →
    ∃ after, store.free id = .ok (after, state) ∧
      ∀ other, after.slots[other.index]? =
        if other = id then some none else store.slots[other.index]?
  free_fails : ∀ id, ¬ store.Live id →
    store.free id = .error (if id ∈ store.vacant then .alreadyVacant
      else .indexOutOfBounds store.slots.size id.index)
  ascending : (store.live.map Prod.fst).Pairwise (· < ·)
  mem_live : ∀ id state, (id, state) ∈ store.live ↔ Holds moves id state

/-- A store shows its history: each operation does what the moves so far call for. -/
theorem account_exact (moves : List (Move α)) (store : Store α) (h : After moves store) :
    Exact moves store := by
  have htracked := h.tracked
  have hacc := htracked.accounted
  refine ⟨hacc, ?_, store.encard_live hacc, htracked.get?_iff, fun state => ?_, ?_,
    fun id => store.free_of_not_live id hacc, store.live_ascending, fun id state => ?_⟩
  · have hcard := store.card_liveSlots_add hacc
    omega
  · obtain ⟨after, id, halloc⟩ := store.exists_alloc state hacc
    exact ⟨after, id, halloc, (store.not_live_iff id).mpr (store.get?_alloc after state id halloc).1,
      htracked.alloc moves store after state id halloc, store.slots_alloc after state id halloc⟩
  · intro id state hholds
    have hstate := (htracked.get?_iff moves store id state).mpr hholds
    obtain ⟨after, hfree, _⟩ := store.free_eq id state hstate
    exact ⟨after, hfree, fun other => (store.slots_free after id other state hfree).2⟩
  · rw [store.mem_live, htracked.get?_iff]

/-- Three slots are filled, the second is changed, then the second and the first are vacated, and
the first is filled again. -/
def refilled : List (Move Char) :=
  [.stored ⟨0⟩ ⟨.blank 4, 0⟩, .vacated ⟨0⟩, .vacated ⟨1⟩, .stored ⟨1⟩ ⟨.blank 2, 1⟩,
    .stored ⟨2⟩ ⟨.blank 3, 0⟩, .stored ⟨1⟩ ⟨.blank 2, 0⟩, .stored ⟨0⟩ ⟨.blank 1, 0⟩]

/-- Two states are live, with the new one in the first slot; the second slot is the next to be
filled and cannot be freed. -/
theorem account_of_refilled :
    ∃ store, After refilled store ∧ {id | store.Live id}.encard = 2 ∧
      Holds refilled ⟨0⟩ ⟨.blank 4, 0⟩ ∧ OpenLast refilled ⟨1⟩ ∧
      store.free ⟨1⟩ = .error .alreadyVacant := by
  have hfirst := After.alloc [] empty _ ⟨0⟩ (⟨.blank 1, 0⟩ : State Char) .start rfl
  have hsecond := After.alloc _ _ _ ⟨1⟩ ⟨.blank 2, 0⟩ hfirst rfl
  have hthird := After.alloc _ _ _ ⟨2⟩ ⟨.blank 3, 0⟩ hsecond rfl
  have hchanged := After.put _ _ ⟨1⟩ ⟨.blank 2, 1⟩ hthird ⟨.blank 2, rfl⟩
  have hvacated := After.free _ _ _ ⟨1⟩ ⟨.blank 2, 1⟩ hchanged rfl
  have hboth := After.free _ _ _ ⟨0⟩ ⟨.blank 1, 0⟩ hvacated rfl
  have hafter : After refilled ⟨#[some ⟨.blank 4, 0⟩, none, some ⟨.blank 3, 0⟩], [⟨1⟩]⟩ :=
    After.alloc _ _ _ ⟨0⟩ ⟨.blank 4, 0⟩ hboth rfl
  have hexact := account_exact refilled _ hafter
  refine ⟨_, hafter, hexact.size, (hexact.held _ _).mp rfl, ?_, hexact.free_fails ⟨1⟩ ?_⟩
  · obtain ⟨after, id, halloc, _, hnext, _⟩ := hexact.alloc ⟨.blank 1, 0⟩
    obtain rfl : ⟨1⟩ = id := congrArg Prod.snd (Except.ok.inj halloc)
    exact hnext.resolve_right fun hnone => nomatch hnone.2.1
  · exact (not_live_iff _ _).mpr rfl

end Store

end TraceGraph
