import Eagine.Math.Matrix
import Eagine.Theory.RowReduction

/-!
# Gauss-Jordan elimination

The elimination works in place on the rows of two row-major matrices; matrices that are stored
the other way are reordered first, and back again if they could be eliminated. Numbers are those
of a field whose zero can be told exactly.
-/

namespace Eagine.Math

open Theory

variable {K : Type} [Field K] {Ca Cb C R : Nat}

/-- Some columns of a row-major matrix. -/
def columnsOf {n : Nat} (column : Fin n → Fin C) (v : MajorVectors K R C) :
    Matrix (Fin R) (Fin n) K :=
  Matrix.of fun r c => (v.get r).get (column c)

/-- `swap(v[k], v[i])` -/
def swapRows (k i : Fin R) (v : MajorVectors K R C) : MajorVectors K R C :=
  v.swap k i k.isLt i.isLt

/-- `v[i] *= c` -/
def scaleRow (i : Fin R) (c : K) (v : MajorVectors K R C) : MajorVectors K R C :=
  v.set i ((v.get i).map fun element => element * c) i.isLt

/-- `v[k] -= v[i] * d` -/
def subtractRow (k i : Fin R) (d : K) (v : MajorVectors K R C) : MajorVectors K R C :=
  v.set k (Vector.zipWith (fun element other => element - other * d) (v.get k) (v.get i)) k.isLt

theorem get_eq_getElem {α : Type} {size : Nat} (v : Vector α size) (i : Fin size)
    (inside : i.val < size) : v.get i = v[i.val] :=
  rfl

section Columns

variable {n : Nat} (column : Fin n → Fin C) (v : MajorVectors K R C)

theorem columnsOf_swapRows (k i : Fin R) :
    columnsOf column (swapRows k i v) = Matrix.swap K k i * columnsOf column v := by
  ext r c
  by_cases isK : r = k
  · rw [isK, Matrix.swap_mul_apply_left]
    simp [columnsOf, get_eq_getElem, swapRows]
  · by_cases isI : r = i
    · rw [isI, Matrix.swap_mul_apply_right]
      simp [columnsOf, get_eq_getElem, swapRows]
    · rw [Matrix.swap_mul_of_ne isK isI]
      simp [columnsOf, get_eq_getElem, swapRows, Vector.getElem_swap, Fin.val_inj, isK, isI]

theorem columnsOf_scaleRow (i : Fin R) (scale : K) :
    columnsOf column (scaleRow i scale v) =
      Matrix.diagonal (Function.update 1 i scale) * columnsOf column v := by
  ext r c
  rw [Matrix.diagonal_mul]
  by_cases isI : r = i
  · rw [isI, Function.update_self, mul_comm]
    simp [columnsOf, get_eq_getElem, scaleRow]
  · rw [Function.update_of_ne isI, Pi.one_apply, one_mul]
    simp [columnsOf, get_eq_getElem, scaleRow, Vector.getElem_set, Fin.val_inj, Ne.symm isI]

theorem columnsOf_subtractRow (k i : Fin R) (d : K) :
    columnsOf column (subtractRow k i d v) =
      Matrix.transvection k i (-d) * columnsOf column v := by
  ext r c
  by_cases isK : r = k
  · rw [isK, Matrix.transvection_mul_apply_same]
    simp [columnsOf, get_eq_getElem, subtractRow, sub_eq_add_neg, mul_comm]
  · rw [Matrix.transvection_mul_apply_of_ne _ _ _ _ isK]
    simp [columnsOf, get_eq_getElem, subtractRow, Vector.getElem_set, Fin.val_inj, Ne.symm isK]

end Columns

/-- The matrices that are eliminated, by their rows. -/
structure Rows (K : Type) (Ca Cb R : Nat) where
  a : MajorVectors K R Ca
  b : MajorVectors K R Cb

/-- The rows `k` with `i < k < R` -/
def rowsBelow (i : Fin R) : List (Fin R) :=
  (List.finRange R).filter (i < ·)

/-- The rows `k` with `0 <= k < i` -/
def rowsAbove (i : Fin R) : List (Fin R) :=
  (List.finRange R).filter (· < i)

namespace Rows

def swapRows (k i : Fin R) (rows : Rows K Ca Cb R) : Rows K Ca Cb R where
  a := Math.swapRows k i rows.a
  b := Math.swapRows k i rows.b

def scaleRow (i : Fin R) (c : K) (rows : Rows K Ca Cb R) : Rows K Ca Cb R where
  a := Math.scaleRow i c rows.a
  b := Math.scaleRow i c rows.b

def subtractRow (k i : Fin R) (d : K) (rows : Rows K Ca Cb R) : Rows K Ca Cb R where
  a := Math.subtractRow k i d rows.a
  b := Math.subtractRow k i d rows.b

variable [DecidableEq K] (wide : R ≤ Ca)

/-- `a._v[k][i]`: `i` is a row that is used as a column. -/
def element (k i : Fin R) (rows : Rows K Ca Cb R) : K :=
  (rows.a.get k).get (i.castLE wide)

/-- The search for a row with something in the column to be eliminated, and the swap -/
def pivot (i : Fin R) (rows : Rows K Ca Cb R) : Rows K Ca Cb R :=
  if rows.element wide i i = 0 then
    match (rowsBelow i).find? fun k => decide (rows.element wide k i ≠ 0) with
    | some k => rows.swapRows k i
    | none => rows
  else
    rows

/-- The elimination of one element -/
def eliminate (i k : Fin R) (rows : Rows K Ca Cb R) : Rows K Ca Cb R :=
  let d := rows.element wide k i
  if d = 0 then rows else rows.subtractRow k i d

/-- One step of the outer loop; nothing is left to be done if there is no pivot. -/
def gaussStep (i : Fin R) (rows : Rows K Ca Cb R) : Bool × Rows K Ca Cb R :=
  let rows := rows.pivot wide i
  let d := rows.element wide i i
  if d = 0 then
    (false, rows)
  else
    (true, (rowsBelow i).foldl (fun rows k => rows.eliminate wide i k) (rows.scaleRow i (1 / d)))

/-- The outer loop -/
def gaussSteps : List (Fin R) → Rows K Ca Cb R → Bool × Rows K Ca Cb R
  | [], rows => (true, rows)
  | i :: is, rows =>
      match rows.gaussStep wide i with
      | (true, rows) => gaussSteps is rows
      | (false, rows) => (false, rows)

/-- `gauss_elimination` of row-major matrices -/
def gaussElimination (rows : Rows K Ca Cb R) : Bool × Rows K Ca Cb R :=
  gaussSteps wide (List.finRange R) rows

/-- The loops over `R > i > 0` and `0 <= k < i` -/
def clearUpwards (rows : Rows K Ca Cb R) : Rows K Ca Cb R :=
  ((List.finRange R).drop 1).reverse.foldl
    (fun rows i => (rowsAbove i).foldl (fun rows k => rows.eliminate wide i k) rows) rows

/-- `gauss_jordan_elimination` of row-major matrices -/
def gaussJordanElimination (rows : Rows K Ca Cb R) : Bool × Rows K Ca Cb R :=
  match rows.gaussElimination wide with
  | (true, rows) => (true, rows.clearUpwards wide)
  | (false, rows) => (false, rows)

/-- The leading block of the first matrix, and the second one. -/
def system (rows : Rows K Ca Cb R) : LinearSystem K (Fin R) (Fin Cb) where
  matrix := columnsOf (Fin.castLE wide) rows.a
  rhs := columnsOf id rows.b

omit [DecidableEq K] in
theorem system_swapRows (k i : Fin R) (rows : Rows K Ca Cb R) :
    (rows.swapRows k i).system wide = (rows.system wide).mul (Matrix.swap K k i) :=
  LinearSystem.ext (columnsOf_swapRows _ _ k i) (columnsOf_swapRows _ _ k i)

omit [DecidableEq K] in
theorem system_scaleRow (i : Fin R) (scale : K) (rows : Rows K Ca Cb R) :
    (rows.scaleRow i scale).system wide =
      (rows.system wide).mul (Matrix.diagonal (Function.update 1 i scale)) :=
  LinearSystem.ext (columnsOf_scaleRow _ _ i scale) (columnsOf_scaleRow _ _ i scale)

omit [DecidableEq K] in
theorem system_subtractRow (k i : Fin R) (d : K) (rows : Rows K Ca Cb R) :
    (rows.subtractRow k i d).system wide =
      (rows.system wide).mul (Matrix.transvection k i (-d)) :=
  LinearSystem.ext (columnsOf_subtractRow _ _ k i d) (columnsOf_subtractRow _ _ k i d)

/-- The outcome of the search. -/
theorem pivot_cases (i : Fin R) (rows : Rows K Ca Cb R) :
    (∃ k, i < k ∧ rows.element wide k i ≠ 0 ∧ rows.pivot wide i = rows.swapRows k i) ∨
      (rows.pivot wide i = rows ∧
        (rows.element wide i i = 0 → ∀ k, i ≤ k → rows.element wide k i = 0)) := by
  rw [pivot]
  split
  case isFalse nonzero => exact Or.inr ⟨rfl, fun isZero => absurd isZero nonzero⟩
  case isTrue isZero =>
      split
      case h_1 k found =>
          have below := List.mem_of_find?_eq_some found
          rw [rowsBelow, List.mem_filter, decide_eq_true_eq] at below
          exact Or.inl ⟨k, below.2, by simpa using List.find?_some found, rfl⟩
      case h_2 notFound =>
          refine Or.inr ⟨rfl, fun _ k notAbove => ?_⟩
          rcases eq_or_lt_of_le notAbove with rfl | below
          · exact isZero
          · have member : k ∈ rowsBelow i := by
              rw [rowsBelow, List.mem_filter, decide_eq_true_eq]
              exact ⟨List.mem_finRange k, below⟩
            simpa using List.find?_eq_none.mp notFound k member

section Elimination

variable {i : Fin R} {rows : Rows K Ca Cb R}

theorem reducesTo_pivot :
    (rows.system wide).ReducesTo ((rows.pivot wide i).system wide) := by
  rcases pivot_cases wide i rows with ⟨k, -, -, swapped⟩ | ⟨same, -⟩
  · rw [swapped, system_swapRows]
    exact LinearSystem.reducesTo_swap _ k i
  · rw [same]

theorem staircase_pivot (staircase : Staircase i.val (rows.system wide).matrix) :
    Staircase i.val ((rows.pivot wide i).system wide).matrix := by
  rcases pivot_cases wide i rows with ⟨k, below, -, swapped⟩ | ⟨same, -⟩
  · rw [swapped, system_swapRows]
    exact staircase.swap below
  · rw [same]
    exact staircase

/-- There is no pivot only if the column is zero from the row on. -/
theorem column_pivot (isZero : (rows.pivot wide i).element wide i i = 0) (k : Fin R)
    (notAbove : i ≤ k) : (rows.pivot wide i).element wide k i = 0 := by
  rcases pivot_cases wide i rows with ⟨other, below, nonzero, swapped⟩ | ⟨same, zeros⟩
  · have moved : (rows.pivot wide i).element wide i i = rows.element wide other i := by
      have entry := congrArg (fun system => system.matrix i i) (system_swapRows wide other i rows)
      rw [swapped]
      exact entry.trans (Matrix.swap_mul_apply_right other i i _)
    exact absurd (moved.symm.trans isZero) nonzero
  · rw [same] at isZero ⊢
    exact zeros isZero k notAbove

theorem reducesTo_eliminate {k : Fin R} (apart : k ≠ i) :
    (rows.system wide).ReducesTo ((rows.eliminate wide i k).system wide) := by
  rw [eliminate]
  split
  · rfl
  · rw [system_subtractRow]
    exact LinearSystem.reducesTo_transvection _ apart _

theorem matrix_eliminate (k row column : Fin R) :
    ((rows.eliminate wide i k).system wide).matrix row column =
      if row = k then
        (rows.system wide).matrix row column -
          (rows.system wide).matrix row i * (rows.system wide).matrix i column
      else
        (rows.system wide).matrix row column := by
  rw [eliminate]
  split
  case isTrue isZero =>
      split
      · subst row
        rw [show (rows.system wide).matrix k i = 0 from isZero]
        simp
      · rfl
  case isFalse =>
      rw [system_subtractRow]
      split
      · subst row
        exact (Matrix.transvection_mul_apply_same k i column _ _).trans (by
          rw [neg_mul, ← sub_eq_add_neg]; rfl)
      · exact Matrix.transvection_mul_apply_of_ne k i row column ‹_› _ _

/-- The elimination of one element in every one of some rows. -/
theorem eliminate_rows (rows : Rows K Ca Cb R) {ks : List (Fin R)} (apart : ∀ k ∈ ks, k ≠ i)
    (distinct : ks.Nodup) :
    let after := ks.foldl (fun rows k => rows.eliminate wide i k) rows
    (rows.system wide).ReducesTo (after.system wide) ∧
      (after.system wide).matrix = clearColumn (rows.system wide).matrix i (· ∈ ks) := by
  induction ks generalizing rows with
  | nil =>
      refine ⟨by rfl, ?_⟩
      ext row column
      simp [clearColumn]
  | cons k ks ih =>
      rcases List.forall_mem_cons.mp apart with ⟨headApart, restApart⟩
      rcases List.nodup_cons.mp distinct with ⟨headFresh, restDistinct⟩
      rcases @ih (rows.eliminate wide i k) restApart restDistinct with
        ⟨reduces, cleared⟩
      refine ⟨(reducesTo_eliminate wide headApart).trans reduces, ?_⟩
      rw [List.foldl_cons, cleared]
      ext row column
      -- The pivot's row is not eliminated, and the head's row only once.
      simp only [clearColumn, Matrix.of_apply, matrix_eliminate, List.mem_cons,
        if_neg headApart.symm]
      by_cases isHead : row = k
      · simp [isHead, headFresh]
      · simp [isHead]

/-- The inner loops of the elimination and of what follows it. -/
theorem eliminate_filter (i : Fin R) (rows : Rows K Ca Cb R) {ks : List (Fin R)}
    {apart : Fin R → Prop} [DecidablePred apart]
    (filtered : ks = (List.finRange R).filter fun k => decide (apart k))
    (others : ∀ k, apart k → k ≠ i) :
    let after := ks.foldl (fun rows k => rows.eliminate wide i k) rows
    (rows.system wide).ReducesTo (after.system wide) ∧
      (after.system wide).matrix = clearColumn (rows.system wide).matrix i apart := by
  subst filtered
  have mem_iff : ∀ k, k ∈ (List.finRange R).filter (fun k => decide (apart k)) ↔ apart k := by
    simp
  rcases eliminate_rows wide rows (fun k member => others k ((mem_iff k).mp member))
    ((List.nodup_finRange R).filter _) with ⟨reduces, cleared⟩
  exact ⟨reduces, cleared.trans (clearColumn_congr _ i mem_iff)⟩

end Elimination

/-- What an elimination has to be: it reduces the system to one with a staircase, or to a
singular one, and says which. -/
structure Eliminates (steps : Nat) (before : Rows K Ca Cb R) (result : Bool × Rows K Ca Cb R) :
    Prop where
  reduces : (before.system wide).ReducesTo (result.2.system wide)
  staircase : result.1 = true → Staircase steps (result.2.system wide).matrix
  singular : result.1 = false → ¬IsUnit (result.2.system wide).matrix

/-- One step of the outer loop takes one more step of the staircase. -/
theorem gaussStep_eliminates {i : Fin R} {rows : Rows K Ca Cb R}
    (staircase : Staircase i.val (rows.system wide).matrix) :
    Eliminates wide (i.val + 1) rows (rows.gaussStep wide i) := by
  have pivoted := staircase_pivot wide staircase
  rw [gaussStep]
  split
  case isTrue isZero =>
      exact {
        reduces := reducesTo_pivot wide
        staircase := fun no => absurd no Bool.false_ne_true
        singular := fun _ => pivoted.not_isUnit (column_pivot wide isZero) }
  case isFalse nonzero =>
      let scale := 1 / (rows.pivot wide i).element wide i i
      let scaled := (rows.pivot wide i).scaleRow i scale
      have scaledSystem : scaled.system wide =
          ((rows.pivot wide i).system wide).mul (Matrix.diagonal (Function.update 1 i scale)) :=
        system_scaleRow wide i scale _
      have reduces : (rows.system wide).ReducesTo (scaled.system wide) := by
        rw [scaledSystem]
        exact (reducesTo_pivot wide).trans
          (LinearSystem.reducesTo_scale _ i (one_div_ne_zero nonzero))
      have scaledStaircase : Staircase i.val (scaled.system wide).matrix := by
        rw [scaledSystem]
        exact pivoted.scale scale
      have isOne : (scaled.system wide).matrix i i = 1 := by
        rw [scaledSystem, LinearSystem.mul_matrix, Matrix.diagonal_mul, Function.update_self]
        exact one_div_mul_cancel nonzero
      rcases eliminate_filter wide i scaled (rfl : rowsBelow i = _) fun _ => ne_of_gt with
        ⟨cleared, matrixEq⟩
      exact {
        reduces := reduces.trans cleared
        staircase := fun _ => by
          rw [matrixEq]
          exact scaledStaircase.clearBelow isOne
        singular := fun no => absurd no.symm Bool.false_ne_true }

theorem drop_finRange {start : Nat} (inside : start < R) :
    (List.finRange R).drop start = ⟨start, inside⟩ :: (List.finRange R).drop (start + 1) := by
  rw [List.drop_eq_getElem_cons (by simpa using inside), List.getElem_finRange]
  rfl

/-- The outer loop goes on from any row to the last one. -/
theorem gaussSteps_eliminates {rest start : Nat} (rows : Rows K Ca Cb R)
    (upTo : start + rest = R) (staircase : Staircase start (rows.system wide).matrix) :
    Eliminates wide R rows (gaussSteps wide ((List.finRange R).drop start) rows) := by
  induction rest generalizing start rows with
  | zero =>
      have isLast : start = R := by omega
      rw [isLast] at staircase ⊢
      rw [List.drop_of_length_le (by simp)]
      exact {
        reduces := by rfl
        staircase := fun _ => staircase
        singular := fun no => absurd no.symm Bool.false_ne_true }
  | succ rest ih =>
      have inside : start < R := by omega
      have step := gaussStep_eliminates wide (i := ⟨start, inside⟩) staircase
      rw [drop_finRange inside, gaussSteps]
      rcases stepEq : rows.gaussStep wide ⟨start, inside⟩ with ⟨answer, stepped⟩
      rw [stepEq] at step
      cases answer with
      | false =>
          exact {
            reduces := step.reduces
            staircase := fun no => absurd no Bool.false_ne_true
            singular := step.singular }
      | true =>
          have onwardTo : start + 1 + rest = R := by omega
          have onward := ih stepped onwardTo (step.staircase rfl)
          exact { onward with reduces := step.reduces.trans onward.reduces }

theorem gaussElimination_eliminates (rows : Rows K Ca Cb R) :
    Eliminates wide R rows (rows.gaussElimination wide) :=
  gaussSteps_eliminates wide rows (zero_add R) (fun _ before => absurd before (Nat.not_lt_zero _))

/-- The rows are used from the last one up to clear what is above them. -/
theorem clearUpwards_from {count start : Nat} (rows : Rows K Ca Cb R) (upTo : start + count = R)
    (staircase : Staircase R (rows.system wide).matrix) :
    let after := ((List.finRange R).drop start).foldr
      (fun i rows => (rowsAbove i).foldl (fun rows k => rows.eliminate wide i k) rows) rows
    (rows.system wide).ReducesTo (after.system wide) ∧
      Staircase R (after.system wide).matrix ∧ ClearedFrom start (after.system wide).matrix := by
  induction count generalizing start with
  | zero =>
      have isLast : start = R := by omega
      rw [isLast, List.drop_of_length_le (by simp)]
      exact ⟨by rfl, staircase, fun column behind => absurd behind (not_le.mpr column.isLt)⟩
  | succ count ih =>
      have inside : start < R := by omega
      have onwardTo : start + 1 + count = R := by omega
      rcases ih onwardTo with ⟨reduces, stairs, cleared⟩
      rw [drop_finRange inside, List.foldr_cons]
      let below := ((List.finRange R).drop (start + 1)).foldr
        (fun i rows => (rowsAbove i).foldl (fun rows k => rows.eliminate wide i k) rows) rows
      rcases eliminate_filter wide ⟨start, inside⟩ below (rfl : rowsAbove _ = _)
        fun _ => ne_of_lt with ⟨clears, matrixEq⟩
      refine ⟨reduces.trans clears, ?_, ?_⟩
      · rw [matrixEq]
        exact stairs.clearAbove
      · rw [matrixEq]
        exact cleared.clearAbove (stairs ⟨start, inside⟩ inside).1

/-- There is nothing above the first row, so that the loops leave the identity. -/
theorem clearUpwards_identity (rows : Rows K Ca Cb R)
    (staircase : Staircase R (rows.system wide).matrix) :
    (rows.system wide).ReducesTo ((rows.clearUpwards wide).system wide) ∧
      ((rows.clearUpwards wide).system wide).matrix = 1 := by
  rw [clearUpwards, List.foldl_reverse]
  cases R with
  | zero =>
      refine ⟨by rfl, ?_⟩
      ext row
      exact row.elim0
  | succ last =>
      rcases clearUpwards_from wide rows (Nat.add_comm 1 last) staircase with
        ⟨reduces, stairs, cleared⟩
      refine ⟨reduces, stairs.eq_one fun column _ row above => ?_⟩
      exact cleared column (Nat.one_le_iff_ne_zero.mpr (Nat.ne_zero_of_lt above)) row above

end Rows

/-- What a Gauss-Jordan elimination has to be: it says whether the system has a solution, and
then has replaced the matrix by the identity and the right-hand sides by the solution. -/
structure Solves (before after : LinearSystem K (Fin R) (Fin Cb)) (solved : Bool) : Prop where
  solved_iff : solved = true ↔ IsUnit before.matrix
  identity : solved = true → after.matrix = 1
  solution : solved = true → after.rhs = before.matrix⁻¹ * before.rhs

theorem Rows.solves_gaussJordan [DecidableEq K] (wide : R ≤ Ca)
    (rows : Rows K Ca Cb R) :
    Solves (rows.system wide) ((rows.gaussJordanElimination wide).2.system wide)
      (rows.gaussJordanElimination wide).1 := by
  have eliminates := gaussElimination_eliminates wide rows
  rw [Rows.gaussJordanElimination]
  rcases eliminated : rows.gaussElimination wide with ⟨answer, stairs⟩
  rw [eliminated] at eliminates
  cases answer with
  | false =>
      have singular := eliminates.singular rfl
      rw [eliminates.reduces.isUnit_iff] at singular
      exact {
        solved_iff := ⟨fun no => absurd no Bool.false_ne_true, fun unit => absurd unit singular⟩
        identity := fun no => absurd no Bool.false_ne_true
        solution := fun no => absurd no Bool.false_ne_true }
  | true =>
      rcases clearUpwards_identity wide stairs (eliminates.staircase rfl) with
        ⟨cleared, identity⟩
      have reduces := eliminates.reduces.trans cleared
      have unit : IsUnit (rows.system wide).matrix := by
        rw [← reduces.isUnit_iff, identity]
        exact isUnit_one
      exact {
        solved_iff := ⟨fun _ => unit, fun _ => rfl⟩
        identity := fun _ => identity
        solution := fun _ => reduces.rhs_eq identity }

section StorageOrders

variable [DecidableEq K] (wide : R ≤ Ca)

/-- The rows of two row-major matrices -/
def rowsOf (a : StoredMatrix K Ca R true) (b : StoredMatrix K Cb R true) : Rows K Ca Cb R where
  a := a
  b := b

/-- The first of the overloads of `gauss_jordan_elimination`, with matrices for the rows -/
def gaussJordanRowMajor (a : StoredMatrix K Ca R true) (b : StoredMatrix K Cb R true) :
    Bool × StoredMatrix K Ca R true × StoredMatrix K Cb R true :=
  match (rowsOf a b).gaussJordanElimination wide with
  | (answer, rows) => (answer, rows.a, rows.b)

/-- `gauss_jordan_elimination`: matrices that are not row-major are assigned if it succeeds. -/
def gaussJordanElimination : {aRowMajor bRowMajor : Bool} →
    StoredMatrix K Ca R aRowMajor → StoredMatrix K Cb R bRowMajor →
    Bool × StoredMatrix K Ca R aRowMajor × StoredMatrix K Cb R bRowMajor
  | true, true, a, b => gaussJordanRowMajor wide a b
  | false, true, a, b =>
      match gaussJordanRowMajor wide a.reordered b with
      | (true, ta, b) => (true, ta.reordered, b)
      | (false, _, b) => (false, a, b)
  | true, false, a, b =>
      match gaussJordanRowMajor wide a b.reordered with
      | (true, a, tb) => (true, a, tb.reordered)
      | (false, a, _) => (false, a, b)
  | false, false, a, b =>
      match gaussJordanRowMajor wide a.reordered b.reordered with
      | (true, ta, tb) => (true, ta.reordered, tb.reordered)
      | (false, _, _) => (false, a, b)

/-- The leading block of the first matrix, and the second one, however they are stored. -/
def systemOf {aRowMajor bRowMajor : Bool} (a : StoredMatrix K Ca R aRowMajor)
    (b : StoredMatrix K Cb R bRowMajor) : LinearSystem K (Fin R) (Fin Cb) where
  matrix := a.toMatrix.submatrix id (Fin.castLE wide)
  rhs := b.toMatrix

theorem gaussJordanRowMajor_solves (wide : R ≤ Ca) (a : StoredMatrix K Ca R true)
    (b : StoredMatrix K Cb R true) :
    Solves (systemOf wide a b)
      (systemOf wide (gaussJordanRowMajor wide a b).2.1 (gaussJordanRowMajor wide a b).2.2)
      (gaussJordanRowMajor wide a b).1 :=
  (rowsOf a b).solves_gaussJordan wide

omit [DecidableEq K] in
/-- The elimination of other matrices that hold the same system, which are assigned if it
succeeds. -/
theorem Solves.of_rowMajor {before after same stored : LinearSystem K (Fin R) (Fin Cb)}
    {solved answer : Bool} (solves : Solves before after answer) (sameSystem : same = before)
    (sameAnswer : solved = answer) (assigned : answer = true → stored = after) :
    Solves same stored solved := by
  subst same solved
  exact {
    solved_iff := solves.solved_iff
    identity := fun yes => by rw [assigned yes]; exact solves.identity yes
    solution := fun yes => by rw [assigned yes]; exact solves.solution yes }

/-- Gauss-Jordan elimination solves exactly the systems that have a solution, whatever the
storage order of the matrices is. -/
theorem gaussJordanElimination_solves (wide : R ≤ Ca) {aRowMajor bRowMajor : Bool}
    (a : StoredMatrix K Ca R aRowMajor) (b : StoredMatrix K Cb R bRowMajor) :
    Solves (systemOf wide a b)
      (systemOf wide (gaussJordanElimination wide a b).2.1 (gaussJordanElimination wide a b).2.2)
      (gaussJordanElimination wide a b).1 := by
  cases aRowMajor <;> cases bRowMajor
  case true.true => exact gaussJordanRowMajor_solves wide a b
  case false.true =>
      have solves := gaussJordanRowMajor_solves wide a.reordered b
      rw [gaussJordanElimination]
      rcases eliminated : gaussJordanRowMajor wide a.reordered b with ⟨answer, ta, after⟩
      rw [eliminated] at solves
      cases answer <;>
        refine solves.of_rowMajor ?_ rfl ?_ <;> simp [systemOf, StoredMatrix.toMatrix_reordered]
  case true.false =>
      have solves := gaussJordanRowMajor_solves wide a b.reordered
      rw [gaussJordanElimination]
      rcases eliminated : gaussJordanRowMajor wide a b.reordered with ⟨answer, after, tb⟩
      rw [eliminated] at solves
      cases answer <;>
        refine solves.of_rowMajor ?_ rfl ?_ <;> simp [systemOf, StoredMatrix.toMatrix_reordered]
  case false.false =>
      have solves := gaussJordanRowMajor_solves wide a.reordered b.reordered
      rw [gaussJordanElimination]
      rcases eliminated : gaussJordanRowMajor wide a.reordered b.reordered with ⟨answer, ta, tb⟩
      rw [eliminated] at solves
      cases answer <;>
        refine solves.of_rowMajor ?_ rfl ?_ <;> simp [systemOf, StoredMatrix.toMatrix_reordered]

/-- Columns that need a swap of the rows, and rows to be solved for. -/
theorem gaussJordanElimination_solves_columns :
    let wide : 2 ≤ 3 := by decide
    let a : StoredMatrix Rat 3 2 false := (#v[#v[0, 2], #v[1, 0], #v[5, 7]] : MajorVectors Rat 3 2)
    let b : StoredMatrix Rat 1 2 true := (#v[#v[3], #v[4]] : MajorVectors Rat 2 1)
    let result := gaussJordanElimination wide a b
    result.1 = true ∧ Solves (systemOf wide a b) (systemOf wide result.2.1 result.2.2) result.1 :=
  ⟨by decide +kernel, gaussJordanElimination_solves _ _ _⟩

end StorageOrders

end Eagine.Math
