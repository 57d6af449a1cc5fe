import Mathlib.Algebra.Group.Pi.Units
import Mathlib.LinearAlgebra.Matrix.Swap

/-!
# Row reduction

A linear system has a square matrix and the right-hand sides that go with it. A row operation
multiplies both by the same invertible matrix; whatever a sequence of them does, a system whose
matrix has become the identity holds the solution, and one whose matrix has become singular was
singular.
-/

namespace Theory

open Matrix

/-- A square matrix and the right-hand sides that go with it. -/
@[ext]
structure LinearSystem (K rows sides : Type) where
  matrix : Matrix rows rows K
  rhs : Matrix rows sides K

namespace LinearSystem

variable {K rows sides : Type} [Field K] [Fintype rows] [DecidableEq rows]

/-- Both matrices multiplied by a matrix from the left. -/
def mul (factor : Matrix rows rows K) (system : LinearSystem K rows sides) :
    LinearSystem K rows sides where
  matrix := factor * system.matrix
  rhs := factor * system.rhs

omit [DecidableEq rows] in
@[simp]
theorem mul_matrix (factor : Matrix rows rows K) (system : LinearSystem K rows sides) :
    (system.mul factor).matrix = factor * system.matrix :=
  rfl

/-- The second system is the first one multiplied by an invertible matrix. -/
def ReducesTo (before after : LinearSystem K rows sides) : Prop :=
  ∃ factor : Matrix rows rows K, IsUnit factor ∧ after = before.mul factor

namespace ReducesTo

variable {first second third : LinearSystem K rows sides}

@[refl]
theorem refl (system : LinearSystem K rows sides) : system.ReducesTo system :=
  ⟨1, isUnit_one, by rw [mul, Matrix.one_mul, Matrix.one_mul]⟩

theorem trans (one : first.ReducesTo second) (two : second.ReducesTo third) :
    first.ReducesTo third := by
  rcases one with ⟨factor, unit, rfl⟩
  rcases two with ⟨nextFactor, nextUnit, rfl⟩
  refine ⟨nextFactor * factor, nextUnit.mul unit, ?_⟩
  rw [mul, mul, mul, Matrix.mul_assoc, Matrix.mul_assoc]

/-- Row operations change nothing about whether the matrix is invertible. -/
theorem isUnit_iff (reduces : first.ReducesTo second) :
    IsUnit second.matrix ↔ IsUnit first.matrix := by
  rcases reduces with ⟨factor, unit, rfl⟩
  rcases unit with ⟨factor, rfl⟩
  exact Units.isUnit_units_mul factor first.matrix

/-- A system that has been reduced to the identity holds the solution. -/
theorem rhs_eq (reduces : first.ReducesTo second) (isOne : second.matrix = 1) :
    second.rhs = first.matrix⁻¹ * first.rhs := by
  rcases reduces with ⟨factor, unit, rfl⟩
  have inverse : first.matrix⁻¹ = factor := inv_eq_left_inv isOne
  rw [inverse, mul]

end ReducesTo

/-- Two rows trade places. -/
theorem reducesTo_swap (system : LinearSystem K rows sides) (first second : rows) :
    system.ReducesTo (system.mul (Matrix.swap K first second)) :=
  ⟨_, (Matrix.GeneralLinearGroup.swap K first second).isUnit, rfl⟩

/-- A row is multiplied by a number other than zero. -/
theorem reducesTo_scale (system : LinearSystem K rows sides) (row : rows) {scale : K}
    (nonzero : scale ≠ 0) :
    system.ReducesTo (system.mul (Matrix.diagonal (Function.update 1 row scale))) := by
  refine ⟨_, ?_, rfl⟩
  rw [isUnit_diagonal, Pi.isUnit_iff]
  intro other
  by_cases same : other = row
  · rw [same, Function.update_self]
    exact isUnit_iff_ne_zero.mpr nonzero
  · rw [Function.update_of_ne same]
    exact isUnit_one

/-- A multiple of one row is added to another one. -/
theorem reducesTo_transvection (system : LinearSystem K rows sides) {row other : rows}
    (apart : row ≠ other) (multiple : K) :
    system.ReducesTo (system.mul (Matrix.transvection row other multiple)) := by
  refine ⟨_, (isUnit_iff_isUnit_det _).mpr ?_, rfl⟩
  rw [det_transvection_of_ne _ _ apart]
  exact isUnit_one

end LinearSystem

section Staircases

variable {K : Type} [Field K] {size : Nat}

/-- The first columns have ones on the diagonal and zeros below it. -/
def Staircase (steps : Nat) (matrix : Matrix (Fin size) (Fin size) K) : Prop :=
  ∀ column : Fin size, column.val < steps →
    matrix column column = 1 ∧ ∀ row, column < row → matrix row column = 0

namespace Staircase

variable {matrix : Matrix (Fin size) (Fin size) K} {next : Fin size}

/-- Rows behind the steps trade places. -/
theorem swap (staircase : Staircase next.val matrix) {other : Fin size} (behind : next < other) :
    Staircase next.val (Matrix.swap K other next * matrix) := by
  intro column before
  have beforeNext : column < next := before
  have zeros := (staircase column before).2
  constructor
  · rw [swap_mul_of_ne (beforeNext.trans behind).ne beforeNext.ne]
    exact (staircase column before).1
  · intro row below
    by_cases isOther : row = other
    · rw [isOther, swap_mul_apply_left]
      exact zeros next beforeNext
    · by_cases isNext : row = next
      · rw [isNext, swap_mul_apply_right]
        exact zeros other (beforeNext.trans behind)
      · rw [swap_mul_of_ne isOther isNext]
        exact zeros row below

/-- A row behind the steps is multiplied. -/
theorem scale (staircase : Staircase next.val matrix) (factor : K) :
    Staircase next.val (Matrix.diagonal (Function.update 1 next factor) * matrix) := by
  intro column before
  have beforeNext : column < next := before
  constructor
  · rw [diagonal_mul, Function.update_of_ne beforeNext.ne, Pi.one_apply, one_mul]
    exact (staircase column before).1
  · intro row below
    rw [diagonal_mul, (staircase column before).2 row below, mul_zero]

/-- A staircase that does not find a pivot for its next step is a singular matrix. -/
theorem not_isUnit (staircase : Staircase next.val matrix)
    (noPivot : ∀ row, next ≤ row → matrix row next = 0) : ¬IsUnit matrix := by
  -- Below the staircase, the columns in front of the step are zero: the determinant is the one of
  -- the staircase times the one of what is right below it, where the step's column is zero.
  have blocks : ∀ row, ¬row < next → ∀ column, column < next → matrix row column = 0 := by
    intro row below column before
    exact (staircase column before).2 row (lt_of_lt_of_le before (not_lt.mp below))
  have lower : (matrix.toSquareBlockProp fun row => ¬row < next).det = 0 := by
    apply det_eq_zero_of_column_eq_zero ⟨next, lt_irrefl next⟩
    rintro ⟨row, below⟩
    exact noPivot row (not_lt.mp below)
  rw [isUnit_iff_isUnit_det, matrix.twoBlockTriangular_det (fun row => row < next) blocks,
    lower, mul_zero]
  exact not_isUnit_zero

end Staircase

/-- The columns from a place on have nothing but zeros above the diagonal. -/
def ClearedFrom (place : Nat) (matrix : Matrix (Fin size) (Fin size) K) : Prop :=
  ∀ column : Fin size, place ≤ column.val → ∀ row, row < column → matrix row column = 0

/-- A whole staircase that is cleared above the diagonal is the identity. -/
theorem Staircase.eq_one {matrix : Matrix (Fin size) (Fin size) K}
    (staircase : Staircase size matrix) (cleared : ClearedFrom 0 matrix) : matrix = 1 := by
  ext row column
  rcases lt_trichotomy row column with above | rfl | below
  · rw [cleared column (Nat.zero_le _) row above, one_apply_ne above.ne]
  · rw [(staircase row row.isLt).1, one_apply_eq]
  · rw [(staircase column column.isLt).2 row below, one_apply_ne below.ne']

/-- Some rows, minus as much of the pivot's row as they have in its column. -/
def clearColumn (matrix : Matrix (Fin size) (Fin size) K) (pivot : Fin size)
    (rows : Fin size → Prop) [DecidablePred rows] : Matrix (Fin size) (Fin size) K :=
  Matrix.of fun row column =>
    if rows row then
      matrix row column - matrix row pivot * matrix pivot column
    else
      matrix row column

theorem clearColumn_congr (matrix : Matrix (Fin size) (Fin size) K) (pivot : Fin size)
    {rows sameRows : Fin size → Prop} [DecidablePred rows] [DecidablePred sameRows]
    (same : ∀ row, rows row ↔ sameRows row) :
    clearColumn matrix pivot rows = clearColumn matrix pivot sameRows := by
  ext row column
  simp only [clearColumn, of_apply, same]

section Clearing

variable {matrix : Matrix (Fin size) (Fin size) K} {pivot : Fin size}

/-- Clearing what is below a pivot is a step of the staircase. -/
theorem Staircase.clearBelow (staircase : Staircase pivot.val matrix)
    (isOne : matrix pivot pivot = 1) :
    Staircase (pivot.val + 1) (clearColumn matrix pivot (pivot < ·)) := by
  intro column upTo
  rcases Nat.lt_succ_iff_lt_or_eq.mp upTo with before | isPivot
  case inl =>
      have beforePivot : column < pivot := before
      constructor
      · rw [clearColumn, of_apply, if_neg beforePivot.not_gt]
        exact (staircase column before).1
      · intro row below
        have zeros := (staircase column before).2
        rw [clearColumn, of_apply, zeros row below, zeros pivot beforePivot]
        simp
  case inr =>
      rw [Fin.ext isPivot]
      constructor
      · rw [clearColumn, of_apply, if_neg (lt_irrefl pivot), isOne]
      · intro row below
        rw [clearColumn, of_apply, if_pos below, isOne]
        simp

/-- Clearing what is above a pivot keeps the staircase. -/
theorem Staircase.clearAbove (staircase : Staircase size matrix) :
    Staircase size (clearColumn matrix pivot (· < pivot)) := by
  intro column upTo
  rcases staircase column upTo with ⟨isOne, zeros⟩
  constructor
  · by_cases before : column < pivot
    · rw [clearColumn, of_apply, zeros pivot before, isOne]
      simp
    · rw [clearColumn, of_apply, if_neg before, isOne]
  · intro row below
    by_cases above : row < pivot
    · rw [clearColumn, of_apply, zeros row below, zeros pivot (below.trans above)]
      simp
    · rw [clearColumn, of_apply, if_neg above, zeros row below]

/-- Clearing what is above a pivot clears one more column. -/
theorem ClearedFrom.clearAbove (cleared : ClearedFrom (pivot.val + 1) matrix)
    (isOne : matrix pivot pivot = 1) :
    ClearedFrom pivot.val (clearColumn matrix pivot (· < pivot)) := by
  intro column onward row above
  rcases Nat.eq_or_lt_of_le onward with isPivot | behind
  case inl =>
      have same : column = pivot := (Fin.ext isPivot).symm
      rw [same] at above ⊢
      rw [clearColumn, of_apply, if_pos above, isOne]
      simp
  case inr =>
      have zeros := cleared column behind
      rw [clearColumn, of_apply, zeros row above, zeros pivot behind]
      simp

end Clearing

end Staircases

end Theory
