/-! # Ascending entries

A finite map from numbers is the list of its entries with the numbers ascending, so every map has
one list. -/
namespace TraceGraph
set_option autoImplicit false

variable {β : Type}

/-- The value that `entries` hold at `key`. -/
def valueAt (key : Nat) : List (Nat × β) → Option β
  | [] => none
  | (other, value) :: entries => if key = other then some value else valueAt key entries

/-- The entries with `value` at `key`, in place of the value that was there. -/
def putAt (key : Nat) (value : β) : List (Nat × β) → List (Nat × β)
  | [] => [(key, value)]
  | (other, old) :: entries =>
    if key < other then (key, value) :: (other, old) :: entries
    else if key = other then (key, value) :: entries
    else (other, old) :: putAt key value entries

/-- The entries without the one at `key`. -/
def dropAt (key : Nat) (entries : List (Nat × β)) : List (Nat × β) :=
  entries.filter fun entry => entry.1 ≠ key

/-! ## Values after a change -/

theorem valueAt_putAt (key other : Nat) (value : β) (entries : List (Nat × β)) :
    valueAt other (putAt key value entries) =
      if other = key then some value else valueAt other entries := by
  induction entries with
  | nil => rfl
  | cons head entries ih =>
    simp only [putAt]
    split
    · rfl
    · split
      · next hs =>
        by_cases ho : other = key
        · simp only [valueAt, if_pos ho]
        · simp only [valueAt, if_neg ho, if_neg (hs ▸ ho)]
      · next hs =>
        simp only [valueAt, ih]
        by_cases ho : other = head.1
        · simp only [if_pos ho, if_neg fun he : other = key => hs (he.symm.trans ho)]
        · simp only [if_neg ho]

theorem valueAt_dropAt (key other : Nat) (entries : List (Nat × β)) :
    valueAt other (dropAt key entries) = if other = key then none else valueAt other entries := by
  induction entries with
  | nil => simp [dropAt, valueAt]
  | cons head entries ih =>
    unfold dropAt at ih ⊢
    rw [List.filter_cons]
    split
    · next hne =>
      have hkey : head.1 ≠ key := by simpa using hne
      simp only [valueAt, ih]
      by_cases ho : other = head.1
      · simp only [if_pos ho, if_neg fun he : other = key => hkey (ho.symm.trans he)]
      · simp only [if_neg ho]
    · next heq =>
      have hkey : head.1 = key := by simpa using heq
      simp only [valueAt, ih, hkey]
      by_cases ho : other = key
      · simp only [if_pos ho]
      · simp only [if_neg ho]

theorem valueAt_map {γ : Type} (f : β → γ) (key : Nat) (entries : List (Nat × β)) :
    valueAt key (entries.map fun entry => (entry.1, f entry.2)) = (valueAt key entries).map f := by
  induction entries with
  | nil => rfl
  | cons head entries ih =>
    simp only [List.map_cons, valueAt, ih]
    by_cases hk : key = head.1
    · simp only [if_pos hk, Option.map_some]
    · simp only [if_neg hk]

/-! ## Order -/

theorem mem_putAt (key : Nat) (value : β) (entries : List (Nat × β)) (entry : Nat × β)
    (h : entry ∈ putAt key value entries) : entry = (key, value) ∨ entry ∈ entries := by
  induction entries with
  | nil => exact .inl (List.mem_singleton.mp h)
  | cons head entries ih =>
    simp only [putAt] at h
    split at h
    · exact List.mem_cons.mp h
    · split at h
      · exact (List.mem_cons.mp h).imp_right (List.mem_cons_of_mem head)
      · rcases List.mem_cons.mp h with heq | h
        · exact .inr (heq ▸ List.mem_cons_self)
        · exact (ih h).imp_right (List.mem_cons_of_mem head)

theorem putAt_pairwise (key : Nat) (value : β) (entries : List (Nat × β))
    (h : entries.Pairwise fun a b => a.1 < b.1) :
    (putAt key value entries).Pairwise fun a b => a.1 < b.1 := by
  induction entries with
  | nil => exact List.pairwise_singleton _ _
  | cons head entries ih =>
    have hhead := (List.pairwise_cons.mp h).1
    have htail := (List.pairwise_cons.mp h).2
    simp only [putAt]
    split
    · next hlt =>
      refine List.pairwise_cons.mpr ⟨fun entry hmem => ?_, h⟩
      rcases List.mem_cons.mp hmem with heq | hmem
      · exact heq ▸ hlt
      · exact Nat.lt_trans hlt (hhead entry hmem)
    · next hge =>
      split
      · next hs => exact List.pairwise_cons.mpr ⟨fun entry hmem => hs ▸ hhead entry hmem, htail⟩
      · next hs =>
        refine List.pairwise_cons.mpr ⟨fun entry hmem => ?_, ih htail⟩
        rcases mem_putAt key value entries entry hmem with heq | hmem
        · rw [heq]
          exact Nat.lt_of_le_of_ne (Nat.le_of_not_lt hge) (Ne.symm hs)
        · exact hhead entry hmem

/-- In ascending order the first entry at a number is the only one. -/
theorem mem_iff_valueAt (entries : List (Nat × β)) (h : entries.Pairwise fun a b => a.1 < b.1)
    (key : Nat) (value : β) : (key, value) ∈ entries ↔ valueAt key entries = some value := by
  induction entries with
  | nil => simp [valueAt]
  | cons head entries ih =>
    have hhead := (List.pairwise_cons.mp h).1
    have htail := (List.pairwise_cons.mp h).2
    simp only [valueAt, List.mem_cons]
    by_cases hs : key = head.1
    · have hnot : (key, value) ∉ entries := fun hmem =>
        Nat.lt_irrefl key (Nat.lt_of_le_of_lt (Nat.le_of_eq hs) (hhead _ hmem))
      simp only [hnot, or_false, if_pos hs, Option.some.injEq]
      exact ⟨fun he => by rw [← he], fun he => Prod.ext hs he.symm⟩
    · have hne : (key, value) ≠ head := fun he => hs (by rw [← he])
      simp only [hne, false_or, if_neg hs]
      exact ih htail

/-- Ascending entries are determined by their values. -/
theorem eq_of_valueAt (entries entries' : List (Nat × β))
    (h : entries.Pairwise fun a b => a.1 < b.1) (h' : entries'.Pairwise fun a b => a.1 < b.1)
    (heq : ∀ key, valueAt key entries = valueAt key entries') : entries = entries' := by
  have nodup (l : List (Nat × β)) (hl : l.Pairwise fun a b => a.1 < b.1) : l.Nodup :=
    hl.imp fun hlt he => by
      rw [he] at hlt
      exact Nat.lt_irrefl _ hlt
  have hperm : entries.Perm entries' :=
    (List.perm_ext_iff_of_nodup (nodup entries h) (nodup entries' h')).mpr fun entry => by
      obtain ⟨key, value⟩ := entry
      rw [mem_iff_valueAt entries h, mem_iff_valueAt entries' h', heq]
  exact hperm.eq_of_pairwise (fun _ _ _ _ hab hba => absurd hab (Nat.lt_asymm hba)) h h'

end TraceGraph
