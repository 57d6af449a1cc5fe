import Eagine.Theory.EditScript
import Eagine.Theory.Refinement

/-!
# Edit distance

The distance of two sequences is computed with a single column. In the middle of a step to the
next element of the second sequence, the column has new numbers at the top and old ones below,
and the one to the upper left of the next number is carried along.
-/

namespace Eagine.Memory

open Theory

universe u

variable {α : Type u}

/-- One number of the column, and the diagonal for the next one. -/
def columnStep (getDistance : α → α → Nat) (s1 : List α) (other : α)
    (state : Vector Nat (s1.length + 1) × Nat) (y : Fin s1.length) :
    Vector Nat (s1.length + 1) × Nat :=
  let (column, prevDiagonal) := state
  let currDiagonal := column.get y.succ
  let prevMin := min (column.get y.succ + 1) (column.get y.castSucc + 1)
  let newDist := prevDiagonal + getDistance (s1.get y) other
  (column.setIfInBounds y.succ (min prevMin newDist), currDiagonal)

/-- The column for one more element of the second sequence -/
def nextColumn (getDistance : α → α → Nat) (s1 s2 : List α) (column : Vector Nat (s1.length + 1))
    (x : Fin s2.length) : Vector Nat (s1.length + 1) :=
  ((List.finRange s1.length).foldl (columnStep getDistance s1 (s2.get x))
    (column.setIfInBounds 0 (x + 1), x.val)).1

/-- `basic_edit_distance` -/
def basicEditDistance (s1 s2 : List α) (getDistance : α → α → Nat) : Nat :=
  let column := Vector.ofFn fun y : Fin (s1.length + 1) => y.val
  ((List.finRange s2.length).foldl (nextColumn getDistance s1 s2) column).get (Fin.last s1.length)

/-- `default_edit_distance` -/
def defaultEditDistance [DecidableEq α] (s1 s2 : List α) : Nat :=
  basicEditDistance s1 s2 fun e1 e2 => if e1 = e2 then 0 else 1

variable [DecidableEq α] {s1 s2 : List α}

/-- The distance of the first elements. The recurrence goes by the last ones of them. -/
def prefixDistance (s1 s2 : List α) (y x : Nat) : Nat :=
  distance (s1.take y).reverse (s2.take x).reverse

omit [DecidableEq α] in
theorem reverse_take_succ (list : List α) (i : Fin list.length) :
    (list.take (i + 1)).reverse = list.get i :: (list.take i).reverse := by
  rw [List.take_succ_eq_append_getElem i.isLt, List.reverse_append, List.reverse_singleton]
  rfl

theorem prefixDistance_succ (y : Fin s1.length) (x : Fin s2.length) :
    prefixDistance s1 s2 (y + 1) (x + 1) =
      min (min (prefixDistance s1 s2 (y + 1) x + 1) (prefixDistance s1 s2 y (x + 1) + 1))
        (prefixDistance s1 s2 y x + replacing (s1.get y) (s2.get x)) := by
  simp only [prefixDistance, reverse_take_succ]
  rw [distance_cons, Nat.min_comm (_ + 1) (_ + 1)]

theorem prefixDistance_zero_left {x : Nat} (inside : x ≤ s2.length) :
    prefixDistance s1 s2 0 x = x := by
  rw [prefixDistance, List.take_zero, List.reverse_nil, distance_nil_left, List.length_reverse,
    List.length_take_of_le inside]

theorem prefixDistance_zero_right {y : Nat} (inside : y ≤ s1.length) :
    prefixDistance s1 s2 y 0 = y := by
  rw [prefixDistance, List.take_zero, List.reverse_nil, distance_nil_right, List.length_reverse,
    List.length_take_of_le inside]

/-- The column has the distances to so many elements of the second sequence. -/
def HoldsColumn (s1 s2 : List α) (x : Nat) (column : Vector Nat (s1.length + 1)) : Prop :=
  ∀ j, column.get j = prefixDistance s1 s2 j x

/-- Up to some place the column is the next one, and the diagonal is of the place. -/
structure HoldsBoth (s1 s2 : List α) (x y : Nat) (state : Vector Nat (s1.length + 1) × Nat) :
    Prop where
  new : ∀ j : Fin (s1.length + 1), j.val ≤ y →
    state.1.get j = prefixDistance s1 s2 j (x + 1)
  old : ∀ j : Fin (s1.length + 1), y < j.val → state.1.get j = prefixDistance s1 s2 j x
  diagonal : state.2 = prefixDistance s1 s2 y x

theorem get_setIfInBounds {size : Nat} (column : Vector Nat size) (i j : Fin size) (value : Nat) :
    (column.setIfInBounds i value).get j = if i = j then value else column.get j := by
  have read : (column.setIfInBounds i value)[j.val] =
      if i.val = j.val then value else column[j.val] :=
    Vector.getElem_setIfInBounds j.isLt
  simp only [← Fin.ext_iff] at read
  exact read

theorem HoldsBoth.step {x : Fin s2.length} {y : Fin s1.length}
    {state : Vector Nat (s1.length + 1) × Nat} (holds : HoldsBoth s1 s2 x y state) :
    HoldsBoth s1 s2 x (y + 1) (columnStep replacing s1 (s2.get x) state y) := by
  rcases state with ⟨column, prevDiagonal⟩
  have left : column.get y.succ = prefixDistance s1 s2 (y + 1) x :=
    holds.old y.succ (Nat.lt_succ_self y)
  have above : column.get y.castSucc = prefixDistance s1 s2 y (x + 1) :=
    holds.new y.castSucc (Nat.le_refl y)
  have diagonal : prevDiagonal = prefixDistance s1 s2 y x := holds.diagonal
  constructor
  case new =>
      intro j upTo
      rw [columnStep, get_setIfInBounds]
      split
      case isTrue here =>
          rw [← here, left, above, diagonal]
          exact (prefixDistance_succ y x).symm
      case isFalse apart =>
          have before : j.val ≤ y := by
            have other : y.val + 1 ≠ j.val := fun same => apart (Fin.ext same)
            omega
          exact holds.new j before
  case old =>
      intro j behind
      have apart : y.succ ≠ j := fun same => absurd behind (same ▸ Nat.lt_irrefl _)
      rw [columnStep, get_setIfInBounds, if_neg apart]
      exact holds.old j (Nat.lt_of_succ_lt behind)
  case diagonal => exact left

theorem HoldsColumn.next {x : Fin s2.length} {column : Vector Nat (s1.length + 1)}
    (holds : HoldsColumn s1 s2 x column) :
    HoldsColumn s1 s2 (x + 1) (nextColumn replacing s1 s2 column x) := by
  have start : HoldsBoth s1 s2 x 0 (column.setIfInBounds 0 (x + 1), x.val) := by
    constructor
    case new =>
        intro j isTop
        have top : (0 : Fin (s1.length + 1)) = j := Fin.ext (Nat.le_zero.mp isTop).symm
        have read := get_setIfInBounds column 0 j (x + 1)
        rw [if_pos top, ← top] at read
        rw [← top]
        exact read.trans (prefixDistance_zero_left x.isLt).symm
    case old =>
        intro j below
        have apart : (0 : Fin (s1.length + 1)) ≠ j := fun same =>
          absurd below (same ▸ Nat.lt_irrefl 0)
        have read := get_setIfInBounds column 0 j (x + 1)
        rw [if_neg apart] at read
        exact read.trans (holds j)
    case diagonal => exact (prefixDistance_zero_left x.isLt.le).symm
  have done := foldl_finRange_invariant (fun _ _ => HoldsBoth.step) start
  intro j
  exact done.new j (Nat.le_of_lt_succ j.isLt)

/-- The last number is the distance of the whole sequences. -/
theorem defaultEditDistance_eq (s1 s2 : List α) :
    defaultEditDistance s1 s2 = distance s1.reverse s2.reverse := by
  have start : HoldsColumn s1 s2 0 (Vector.ofFn fun y : Fin (s1.length + 1) => y.val) := by
    intro j
    rw [prefixDistance_zero_right (Nat.le_of_lt_succ j.isLt)]
    exact Vector.getElem_ofFn j.isLt
  have done := foldl_finRange_invariant (fun _ _ => HoldsColumn.next) start
  have last := done (Fin.last s1.length)
  rw [prefixDistance, Fin.val_last, List.take_length, List.take_length] at last
  exact last

/-- The least number of insertions, deletions and substitutions, and what follows from that. -/
structure IsEditDistance (editDistance : List α → List α → Nat) : Prop where
  isLeast : ∀ s1 s2, IsLeast {count | Edits count s1 s2} (editDistance s1 s2)
  eq_zero_iff : ∀ s1 s2, editDistance s1 s2 = 0 ↔ s1 = s2
  symmetric : ∀ s1 s2, editDistance s1 s2 = editDistance s2 s1
  triangle : ∀ s1 s2 s3, editDistance s1 s3 ≤ editDistance s1 s2 + editDistance s2 s3

theorem isLeast_defaultEditDistance (s1 s2 : List α) :
    IsLeast {count | Edits count s1 s2} (defaultEditDistance s1 s2) := by
  have least := isLeast_edits_reverse (isLeast_distance s1.reverse s2.reverse)
  rw [List.reverse_reverse, List.reverse_reverse, ← defaultEditDistance_eq] at least
  exact least

/-- The single column gives the least number of edits. -/
theorem defaultEditDistance_isEditDistance :
    IsEditDistance (defaultEditDistance : List α → List α → Nat) where
  isLeast := isLeast_defaultEditDistance
  eq_zero_iff s1 s2 := by
    have least := isLeast_defaultEditDistance s1 s2
    constructor
    · intro none
      rw [none] at least
      exact eq_of_no_edits least.1
    · rintro rfl
      exact Nat.le_zero.mp (least.2 (Edits.refl s1))
  symmetric s1 s2 :=
    (isLeast_defaultEditDistance s1 s2).unique
      (isLeast_edits_symm (isLeast_defaultEditDistance s2 s1))
  triangle s1 s2 s3 :=
    isLeast_edits_triangle (isLeast_defaultEditDistance s1 s2) (isLeast_defaultEditDistance s2 s3)
      (isLeast_defaultEditDistance s1 s3)

example : defaultEditDistance [1, 2, 3, 4] [2, 3, 5, 4, 6] = 3 := by
  decide

end Eagine.Memory
