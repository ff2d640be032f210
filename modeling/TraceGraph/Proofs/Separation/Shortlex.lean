import Mathlib.Data.List.Shortlex
import Mathlib.Order.Basic

/-! # The order of a breadth-first search

A search that takes short words first, and words of one length symbol by symbol, meets them in
shortlex order.  The order is kept when words are gone on from by one symbol each, and that is all
that a search does to them. -/
namespace TraceGraph
set_option autoImplicit false

/-- `u` is shorter than `v`, or as long and first in the order of symbols. -/
abbrev Before (u v : List Nat) : Prop := List.Shortlex (· < ·) u v

namespace Before

instance decidableBefore (u v : List Nat) : Decidable (Before u v) :=
  decidable_of_iff (u.length < v.length ∨ u.length = v.length ∧ List.Lex (· < ·) u v)
    List.shortlex_def.symm

theorem trans {u v w : List Nat} (h : Before u v) (h' : Before v w) : Before u w := by
  rcases List.shortlex_def.mp h with hlt | ⟨hlen, hlex⟩
  · rcases List.shortlex_def.mp h' with hlt' | ⟨hlen', _⟩
    · exact .of_length_lt (hlt.trans hlt')
    · exact .of_length_lt (hlen' ▸ hlt)
  · rcases List.shortlex_def.mp h' with hlt' | ⟨hlen', hlex'⟩
    · exact .of_length_lt (hlen ▸ hlt')
    · exact .of_lex (hlen.trans hlen') (List.lt_trans hlex hlex')

theorem irrefl (u : List Nat) : ¬ Before u u := fun h => List.Shortlex.asymm.asymm u u h h

theorem length_le {u v : List Nat} (h : Before u v) : u.length ≤ v.length := by
  rcases List.shortlex_def.mp h with hlt | ⟨hlen, _⟩
  · exact hlt.le
  · exact hlen.le

/-- Where words of one length differ, nothing behind that place matters. -/
theorem lex_append {u v : List Nat} (h : List.Lex (· < ·) u v) (hlen : u.length = v.length)
    (s t : List Nat) : List.Lex (· < ·) (u ++ s) (v ++ t) := by
  induction h with
  | nil => simp at hlen
  | cons _ ih => exact .cons (ih (by simpa using hlen))
  | rel hlt => exact .rel hlt

theorem concat {u v : List Nat} (h : Before u v) (a b : Nat) : Before (u ++ [a]) (v ++ [b]) := by
  rcases List.shortlex_def.mp h with hlt | ⟨hlen, hlex⟩
  · exact .of_length_lt (by simpa using hlt)
  · exact .of_lex (by simpa using hlen) (lex_append hlex hlen [a] [b])

theorem concat_symbol (u : List Nat) (a b : Nat) (h : a < b) : Before (u ++ [a]) (u ++ [b]) :=
  List.Shortlex.append_left ((List.shortlex_singleton_iff a b).mpr h) u

end Before

/-- `u` comes no later than `v`. -/
def UpTo (u v : List Nat) : Prop := u = v ∨ Before u v

namespace UpTo

instance decidableUpTo (u v : List Nat) : Decidable (UpTo u v) :=
  inferInstanceAs (Decidable (u = v ∨ Before u v))

theorem trans {u v w : List Nat} (h : UpTo u v) (h' : UpTo v w) : UpTo u w := by
  rcases h with rfl | h
  · exact h'
  · rcases h' with rfl | h'
    · exact .inr h
    · exact .inr (h.trans h')

theorem antisymm {u v : List Nat} (h : UpTo u v) (h' : UpTo v u) : u = v := by
  rcases h with rfl | hlt
  · rfl
  · rcases h' with rfl | hgt
    · rfl
    · exact absurd (hlt.trans hgt) (Before.irrefl u)

theorem length_le {u v : List Nat} (h : UpTo u v) : u.length ≤ v.length := by
  rcases h with rfl | h
  · exact Nat.le_refl _
  · exact h.length_le

theorem concat_self (u : List Nat) (a : Nat) : UpTo u (u ++ [a]) :=
  .inr (.of_length_lt (by simp))

theorem concat {u v : List Nat} (h : UpTo u v) (a : Nat) : UpTo (u ++ [a]) (v ++ [a]) :=
  h.imp (fun he => by rw [he]) fun hlt => hlt.concat a a

end UpTo

/-- The words of one length. -/
def wordsOf (arity : Nat) : Nat → List (List Nat)
  | 0 => [[]]
  | length + 1 => (List.range arity).flatMap fun symbol =>
      (wordsOf arity length).map fun word => symbol :: word

theorem mem_wordsOf (arity : Nat) (word : List Nat) (h : ∀ symbol ∈ word, symbol < arity) :
    word ∈ wordsOf arity word.length := by
  induction word with
  | nil => exact List.mem_singleton_self []
  | cons symbol word ih =>
    rw [List.forall_mem_cons] at h
    exact List.mem_flatMap.mpr ⟨symbol, List.mem_range.mpr h.1, List.mem_map_of_mem (ih h.2)⟩

theorem length_wordsOf (arity length : Nat) : (wordsOf arity length).length = arity ^ length := by
  induction length with
  | zero => rfl
  | succ length ih => simp [wordsOf, List.length_flatMap, ih, Nat.pow_succ, Nat.mul_comm]

/-- The words that are no longer than `bound`. -/
def wordsUpTo (arity bound : Nat) : List (List Nat) :=
  (List.range (bound + 1)).flatMap (wordsOf arity)

theorem mem_wordsUpTo (arity bound : Nat) (word : List Nat) (h : ∀ symbol ∈ word, symbol < arity)
    (hle : word.length ≤ bound) : word ∈ wordsUpTo arity bound :=
  List.mem_flatMap.mpr ⟨word.length, List.mem_range.mpr (Nat.lt_succ_of_le hle),
    mem_wordsOf arity word h⟩

theorem length_wordsUpTo_le (arity bound : Nat) :
    (wordsUpTo arity bound).length ≤ (arity + 1) ^ bound := by
  induction bound with
  | zero => simp [wordsUpTo, wordsOf]
  | succ bound ih =>
    have hsplit : (wordsUpTo arity (bound + 1)).length =
        (wordsUpTo arity bound).length + arity ^ (bound + 1) := by
      rw [wordsUpTo, List.range_succ, List.flatMap_append, List.length_append,
        List.flatMap_singleton, length_wordsOf]
      rfl
    have hpow := Nat.pow_le_pow_left (Nat.le_succ arity) bound
    calc (wordsUpTo arity (bound + 1)).length
      _ = (wordsUpTo arity bound).length + arity ^ bound * arity := by rw [hsplit, Nat.pow_succ]
      _ ≤ (arity + 1) ^ bound + (arity + 1) ^ bound * arity :=
        Nat.add_le_add ih (Nat.mul_le_mul_right arity hpow)
      _ = (arity + 1) ^ (bound + 1) := by rw [Nat.pow_succ, Nat.mul_succ, Nat.add_comm]

end TraceGraph
