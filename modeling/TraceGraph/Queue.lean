/-! # Queues

First in, first out.  A queue keeps what was pushed last in front of its second list, and turns that
list round when the first one is used up; so no operation walks through all that waits. -/
namespace TraceGraph
set_option autoImplicit false

structure Queue (β : Type) where
  front : List β
  back : List β

namespace Queue

variable {β : Type}

/-- What waits, the next one first. -/
def toList (queue : Queue β) : List β := queue.front ++ queue.back.reverse

def singleton (a : β) : Queue β := ⟨[a], []⟩

def push (queue : Queue β) (a : β) : Queue β := { queue with back := a :: queue.back }

/-- The next one, and the queue without it. -/
def pop? (queue : Queue β) : Option (β × Queue β) :=
  match queue.front with
  | a :: front => some (a, { queue with front })
  | [] =>
    match queue.back.reverse with
    | a :: front => some (a, ⟨front, []⟩)
    | [] => none

theorem toList_push (queue : Queue β) (a : β) : (queue.push a).toList = queue.toList ++ [a] := by
  simp [toList, push]

theorem pop?_eq_none_iff (queue : Queue β) : queue.pop? = none ↔ queue.toList = [] := by
  obtain ⟨front, back⟩ := queue
  cases front with
  | cons a front => simp [pop?, toList]
  | nil =>
    simp only [pop?, toList, List.nil_append]
    cases back.reverse with
    | cons a front => simp
    | nil => simp

theorem toList_of_pop? (queue rest : Queue β) (a : β) (h : queue.pop? = some (a, rest)) :
    queue.toList = a :: rest.toList := by
  obtain ⟨front, back⟩ := queue
  cases front with
  | cons b front =>
    cases h
    rfl
  | nil =>
    simp only [pop?] at h
    cases hb : back.reverse with
    | nil => simp [hb] at h
    | cons b front =>
      simp only [hb, Option.some.injEq, Prod.mk.injEq] at h
      obtain ⟨rfl, rfl⟩ := h
      simp [toList, hb]

end Queue

end TraceGraph
