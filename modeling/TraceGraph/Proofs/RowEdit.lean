import Mathlib.Data.Finset.Card
import TraceGraph.Row

/-! # Edited rows

What an edit makes of a row: the slot of one symbol has a new edge, the other slots are as before.
The edges to a state are counted by the symbols they stand on, so an edit gains one edge, to its
target, and loses the one it displaces. -/
namespace TraceGraph
set_option autoImplicit false

namespace Edit

variable {α : Type}

def symbol : Edit α → Nat
  | add symbol _ => symbol
  | redirect symbol _ => symbol

def target : Edit α → StateId
  | add _ edge => edge.target
  | redirect _ target => target

/-- The output of the edge that the edit leaves in `row`; a redirection keeps the one it finds. -/
def output? (row : Row α) : Edit α → Option α
  | add _ edge => some edge.output
  | redirect symbol _ => (row.edge? symbol).map Edge.output

end Edit

namespace Row

variable {α : Type}

/-! ## The edited row -/

/-- An edit that succeeds writes one edge, and answers with the target that stood there. -/
theorem edit_eq_write (row new : Row α) (change : Edit α) (displaced : Option StateId)
    (h : row.edit change = .ok (new, displaced)) :
    ∃ (hlt : change.symbol < row.arity) (output : α),
      change.output? row = some output ∧
      new = row.write change.symbol ⟨change.target, output⟩ hlt ∧
      displaced = (row.edge? change.symbol).map Edge.target := by
  cases change with
  | add symbol edge =>
    simp only [edit] at h
    split at h
    · next hlt =>
      cases he : row.edge? symbol with
      | some old =>
        rw [he] at h
        cases h
      | none =>
        rw [he] at h
        cases h
        exact ⟨hlt, edge.output, rfl, rfl, by simp [Edit.symbol, he]⟩
    · cases h
  | redirect symbol next =>
    simp only [edit] at h
    split at h
    · next hlt =>
      cases he : row.edge? symbol with
      | none =>
        rw [he] at h
        cases h
      | some old =>
        rw [he] at h
        cases h
        exact ⟨hlt, old.output, by simp [Edit.output?, he], rfl, by simp [Edit.symbol, he]⟩
    · cases h

theorem edit_add (row : Row α) (symbol : Nat) (edge : Edge α) (hlt : symbol < row.arity)
    (h : row.edge? symbol = none) : ∃ new, row.edit (.add symbol edge) = .ok (new, none) := by
  refine ⟨row.write symbol edge hlt, ?_⟩
  rw [edit, dif_pos hlt, h]

theorem edit_redirect (row : Row α) (symbol : Nat) (target : StateId) (edge : Edge α)
    (h : row.edge? symbol = some edge) :
    ∃ new, row.edit (.redirect symbol target) = .ok (new, some edge.target) := by
  have hlt := row.lt_arity symbol edge h
  refine ⟨row.write symbol ⟨target, edge.output⟩ hlt, ?_⟩
  rw [edit, dif_pos hlt, h]

section

variable (row new : Row α) (change : Edit α) (displaced : Option StateId)
  (h : row.edit change = .ok (new, displaced))

include h

theorem arity_edit : new.arity = row.arity := by
  obtain ⟨hlt, output, _, rfl, _⟩ := edit_eq_write row new change displaced h
  rfl

theorem edge?_edit :
    ∃ output, change.output? row = some output ∧ ∀ symbol, new.edge? symbol =
      if symbol = change.symbol then some ⟨change.target, output⟩ else row.edge? symbol := by
  obtain ⟨hlt, output, houtput, rfl, _⟩ := edit_eq_write row new change displaced h
  exact ⟨output, houtput, fun symbol => row.edge?_write change.symbol symbol _ hlt⟩

theorem displaced_edit : displaced = (row.edge? change.symbol).map Edge.target := by
  obtain ⟨_, _, _, _, hdisplaced⟩ := edit_eq_write row new change displaced h
  exact hdisplaced

/-- An edit that displaces the target it sets changes nothing. -/
theorem edit_eq_self (hsame : displaced = some change.target) : new = row := by
  cases change with
  | add symbol edge =>
    -- an edge is only added where none stood
    simp only [edit, hsame] at h
    split at h
    · split at h
      · cases h
      · cases h
    · cases h
  | redirect symbol next =>
    have hdisplaced := displaced_edit row new _ displaced h
    obtain ⟨output, houtput, hedges⟩ := edge?_edit row new _ displaced h
    obtain ⟨edge, hedge, htarget⟩ := Option.map_eq_some_iff.mp (hdisplaced.symm.trans hsame)
    obtain ⟨found, hfound, hout⟩ := Option.map_eq_some_iff.mp houtput
    obtain rfl : edge = found := Option.some.inj (hedge.symm.trans hfound)
    refine new.ext_edge? row (arity_edit row new _ displaced h) fun other => ?_
    rw [hedges other, ← htarget, ← hout]
    split
    · next hs => rw [hs, hedge]
    · rfl

end

/-! ## Edges to one state -/

theorem mem_successors (row : Row α) (target : StateId) :
    target ∈ row.successors ↔ ∃ symbol edge, row.edge? symbol = some edge ∧
      edge.target = target := by
  constructor
  · intro hmem
    obtain ⟨⟨symbol, edge⟩, hentry, heq⟩ := List.mem_map.mp hmem
    exact ⟨symbol, edge, (row.mem_edges symbol edge).mp hentry, heq⟩
  · rintro ⟨symbol, edge, hedge, heq⟩
    exact heq ▸ row.target_mem_successors symbol edge hedge

def symbolsTo (row : Row α) (target : StateId) : Finset Nat :=
  ((row.edges.filter fun entry => entry.2.target = target).map Prod.fst).toFinset

theorem mem_symbolsTo (row : Row α) (target : StateId) (symbol : Nat) :
    symbol ∈ row.symbolsTo target ↔ (row.edge? symbol).map Edge.target = some target := by
  rw [Option.map_eq_some_iff, symbolsTo, List.mem_toFinset, List.mem_map]
  constructor
  · rintro ⟨⟨_, edge⟩, hmem, heq⟩
    obtain ⟨hentry, htarget⟩ := List.mem_filter.mp hmem
    cases heq
    exact ⟨edge, (row.mem_edges _ edge).mp hentry, of_decide_eq_true htarget⟩
  · rintro ⟨edge, hedge, htarget⟩
    have hentry := (row.mem_edges symbol edge).mpr hedge
    exact ⟨(symbol, edge), List.mem_filter.mpr ⟨hentry, decide_eq_true htarget⟩, rfl⟩

theorem card_symbolsTo (row : Row α) (target : StateId) :
    (row.symbolsTo target).card = row.successors.count target := by
  have hnodup : ((row.edges.filter fun entry => entry.2.target = target).map Prod.fst).Nodup := by
    have hsub := (List.filter_sublist (p := fun entry => decide (entry.2.target = target))
      (l := row.edges)).map Prod.fst
    exact hsub.nodup (row.symbols_ascending.imp fun hlt => Nat.ne_of_lt hlt)
  rw [symbolsTo, List.toFinset_card_of_nodup hnodup, List.length_map, successors, List.count,
    List.countP_map, List.countP_eq_length_filter]
  rfl

/-- With the slot of `symbol` left out, a row and its edited form lead to the same states. -/
theorem count_eq_erase (row : Row α) (symbol : Nat) (target : StateId) :
    row.successors.count target = ((row.symbolsTo target).erase symbol).card +
      ((row.edge? symbol).map Edge.target).toList.count target := by
  rw [← card_symbolsTo]
  by_cases hmem : symbol ∈ row.symbolsTo target
  · have hslot := (row.mem_symbolsTo target symbol).mp hmem
    rw [hslot, Option.toList_some, List.count_singleton_self]
    exact (Finset.card_erase_add_one hmem).symm
  · rw [Finset.erase_eq_of_notMem hmem]
    have hslot : target ∉ ((row.edge? symbol).map Edge.target).toList := fun hin =>
      hmem ((row.mem_symbolsTo target symbol).mpr (Option.mem_toList.mp hin))
    rw [List.count_eq_zero_of_not_mem hslot]
    rfl

section

variable (row new : Row α) (change : Edit α) (displaced : Option StateId)
  (h : row.edit change = .ok (new, displaced))

include h

/-- An edit gains an edge to its target and loses the one to the displaced target. -/
theorem count_edit (target : StateId) :
    new.successors.count target + displaced.toList.count target =
      row.successors.count target + [change.target].count target := by
  obtain ⟨output, _, hedge⟩ := edge?_edit row new change displaced h
  have hsame : (new.symbolsTo target).erase change.symbol =
      (row.symbolsTo target).erase change.symbol := by
    ext symbol
    rw [Finset.mem_erase, Finset.mem_erase, mem_symbolsTo, mem_symbolsTo, hedge symbol]
    refine and_congr_right fun hne => ?_
    rw [if_neg hne]
  have hnew : new.edge? change.symbol = some ⟨change.target, output⟩ := by
    rw [hedge change.symbol, if_pos rfl]
  rw [count_eq_erase new change.symbol, count_eq_erase row change.symbol, hsame, hnew,
    displaced_edit row new change displaced h]
  simp only [Option.map_some, Option.toList_some]
  omega

theorem mem_successors_edit (target : StateId) (hmem : target ∈ new.successors) :
    target = change.target ∨ target ∈ row.successors := by
  obtain ⟨output, _, hedge⟩ := edge?_edit row new change displaced h
  obtain ⟨symbol, edge, hnew, rfl⟩ := (mem_successors new target).mp hmem
  rw [hedge symbol] at hnew
  split at hnew
  · cases hnew
    exact .inl rfl
  · exact .inr (row.target_mem_successors symbol edge hnew)

theorem target_mem_edit : change.target ∈ new.successors := by
  obtain ⟨output, _, hedge⟩ := edge?_edit row new change displaced h
  refine new.target_mem_successors change.symbol ⟨change.target, output⟩ ?_
  rw [hedge change.symbol, if_pos rfl]

theorem displaced_mem_successors (target : StateId) (hmem : target ∈ displaced.toList) :
    target ∈ row.successors := by
  rw [displaced_edit row new change displaced h, Option.mem_toList] at hmem
  obtain ⟨edge, hedge, rfl⟩ := Option.map_eq_some_iff.mp hmem
  exact row.target_mem_successors change.symbol edge hedge

end

end Row

end TraceGraph
