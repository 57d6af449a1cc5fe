import Mathlib.Algebra.BigOperators.Group.List.Basic

/-!
# Rings of cells

A ring is a list of cells with a current one. Its cells are seen from the current one backwards.
To write the current cell is to replace the first one in this view. To write the next cell and to
move there drops the last one and puts a new first one in front of the others.
-/

open List

namespace Theory.Ring

universe u

variable {α : Type u}

/-- The cells from the current one backwards -/
def view (cells : List α) (current : Nat) : List α :=
  (cells.take (current + 1)).reverse ++ (cells.drop (current + 1)).reverse

/-- The position behind the current one -/
def next (cells : List α) (current : Nat) : Nat :=
  (current + 1) % cells.length

theorem view_perm (cells : List α) (current : Nat) : (view cells current).Perm cells := by
  have joined : (view cells current).Perm
      (cells.take (current + 1) ++ cells.drop (current + 1)) :=
    (reverse_perm _).append (reverse_perm _)
  rwa [take_append_drop] at joined

theorem view_replicate (count : Nat) (a : α) (current : Nat) :
    view (List.replicate count a) current = List.replicate count a :=
  perm_replicate.mp (view_perm _ current)

variable {cells : List α} {current : Nat}

theorem view_eq_cons (h : current < cells.length) :
    view cells current =
      cells[current] :: ((cells.take current).reverse ++ (cells.drop (current + 1)).reverse) := by
  rw [view, take_succ_eq_append_getElem h, reverse_append]
  rfl

/-- The first cell of the view is the current one. -/
theorem getElem?_eq_head?_view (h : current < cells.length) :
    cells[current]? = (view cells current).head? := by
  rw [view_eq_cons h, head?_cons, getElem?_eq_getElem h]

theorem view_set (h : current < cells.length) (a : α) :
    view (cells.set current a) current = a :: (view cells current).tail := by
  have h' : current < (cells.set current a).length := by
    rwa [length_set]
  rw [view_eq_cons h', view_eq_cons h, getElem_set_self, tail_cons,
    take_set_of_le (Nat.le_refl current), drop_set_of_lt (Nat.lt_succ_self current)]

theorem next_lt (h : current < cells.length) : next cells current < cells.length :=
  Nat.mod_lt _ (Nat.zero_lt_of_lt h)

/-- The view from the next cell is the last cell and the others. -/
theorem tail_view_next (h : current < cells.length) :
    (view cells (next cells current)).tail = (view cells current).dropLast := by
  rw [view_eq_cons (next_lt h), tail_cons, next, view]
  rcases Nat.lt_or_ge (current + 1) cells.length with within | last
  · rw [Nat.mod_eq_of_lt within, drop_eq_getElem_cons within, reverse_cons,
      ← append_assoc, dropLast_concat]
  · have wrapped : current + 1 = cells.length := Nat.le_antisymm h last
    rw [wrapped, Nat.mod_self, take_length, drop_length, take_zero, reverse_nil,
      nil_append, append_nil, dropLast_reverse, drop_one]

/-- The next cell is written, and it is the current one then. -/
theorem view_set_next (h : current < cells.length) (a : α) :
    view (cells.set (next cells current) a) (next cells current) =
      a :: (view cells current).dropLast := by
  rw [view_set (next_lt h), tail_view_next h]

theorem sum_view {M : Type u} [AddCommMonoid M] (cells : List M) (current : Nat) :
    (view cells current).sum = cells.sum :=
  (view_perm cells current).sum_eq

end Theory.Ring
