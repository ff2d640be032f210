import TraceGraph.Text.Quoted

/-! # Output symbols

Outputs can be of any type with decidable equality.  Where a message has to show one, the type
says how it is written. -/
namespace TraceGraph
set_option autoImplicit false

/-- The written form of an output. -/
class OutputText (α : Type) where
  text : α → String

instance : OutputText Char := ⟨Text.quotedChar⟩

instance : OutputText String := ⟨Text.quotedString⟩

instance : OutputText Nat := ⟨Nat.repr⟩

instance : OutputText Int := ⟨fun n => if n < 0 then "-" ++ n.natAbs.repr else n.natAbs.repr⟩

instance : OutputText Bool := ⟨fun b => if b then "true" else "false"⟩

instance {α : Type} [OutputText α] : OutputText (Option α) :=
  ⟨fun o => match o with
    | none => "None"
    | some a => "Some(" ++ OutputText.text a ++ ")"⟩

end TraceGraph
