/-! # State numbers

States live in numbered slots, and the number of its slot names a state. -/
namespace TraceGraph
set_option autoImplicit false

structure StateId where
  index : Nat
deriving DecidableEq, Hashable

namespace StateId

/-- Numbers are ordered as their slots are. -/
instance : LT StateId := ⟨fun a b => a.index < b.index⟩

theorem lt_iff (a b : StateId) : a < b ↔ a.index < b.index := Iff.rfl

theorem ext_iff (a b : StateId) : a = b ↔ a.index = b.index := by
  cases a; cases b; simp

instance (a b : StateId) : Decidable (a < b) := inferInstanceAs (Decidable (a.index < b.index))

def text (id : StateId) : String := "StateId(" ++ Nat.repr id.index ++ ")"

end StateId

end TraceGraph
