/-! # Words

A word is a finite sequence of symbols, kept as a list.  Input symbols are positions in an
alphabet, so they are plain numbers; outputs may be of any type. -/
namespace TraceGraph
set_option autoImplicit false

/-- A type whose values spell words over `α`. -/
class Spells (ω : Type) (α : outParam Type) where
  word : ω → List α

export Spells (word)

/-- A text spells its characters. -/
instance : Spells String Char := ⟨String.toList⟩

instance {α : Type} : Spells (List α) α := ⟨id⟩

instance {α : Type} : Spells (Array α) α := ⟨Array.toList⟩

end TraceGraph
