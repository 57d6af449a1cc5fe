/-!
# Double buffer

Two values of which one is the current and the other one is the next; they
change their places.
-/

namespace Eagine

structure DoubleBuffer (α : Type) where
  first : α
  second : α
  idx : Bool := false
  deriving DecidableEq, Repr

namespace DoubleBuffer

variable {α : Type}

def swap (b : DoubleBuffer α) : DoubleBuffer α :=
  { b with idx := !b.idx }

def current (b : DoubleBuffer α) : α :=
  if b.idx then b.second else b.first

def next (b : DoubleBuffer α) : α :=
  if b.idx then b.first else b.second

/-- The assignment to `next`. -/
def setNext (a : α) (b : DoubleBuffer α) : DoubleBuffer α :=
  if b.idx then { b with first := a } else { b with second := a }

@[simp]
theorem current_swap (b : DoubleBuffer α) : b.swap.current = b.next := by
  rcases b with ⟨first, second, idx⟩
  cases idx <;> rfl

@[simp]
theorem current_setNext (a : α) (b : DoubleBuffer α) : (b.setNext a).current = b.current := by
  rcases b with ⟨first, second, idx⟩
  cases idx <;> rfl

@[simp]
theorem next_setNext (a : α) (b : DoubleBuffer α) : (b.setNext a).next = a := by
  rcases b with ⟨first, second, idx⟩
  cases idx <;> rfl

end DoubleBuffer

end Eagine
