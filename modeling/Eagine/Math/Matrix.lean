import Mathlib.Algebra.Field.Defs
import Mathlib.Data.Fintype.Basic
import Mathlib.LinearAlgebra.Matrix.Defs
import Mathlib.Tactic.FinCases

/-!
# Matrices and their storage order

A matrix is stored as an array of rows (row-major) or of columns (column-major). `reordered`
switches between the two and keeps the matrix; the transposition of four by four values is done
with vector shuffles instead of element by element.
-/

namespace Eagine.Math

/-- `simd::data_t`, one after the other: the rows or the columns of a matrix. -/
abbrev MajorVectors (K : Type) (majors minors : Nat) :=
  Vector (Vector K minors) majors

/-- `matrix`: the rows of a row-major matrix, the columns of a column-major one. -/
def StoredMatrix (K : Type) (columns rows : Nat) : Bool → Type
  | true => MajorVectors K rows columns
  | false => MajorVectors K columns rows

namespace StoredMatrix

variable {K : Type} {columns rows : Nat}

/-- `get_rm` -/
def getRm : {rowMajor : Bool} → StoredMatrix K columns rows rowMajor →
    Fin rows → Fin columns → K
  | true, (v : MajorVectors K rows columns), ri, ci => v[ri][ci]
  | false, (v : MajorVectors K columns rows), ri, ci => v[ci][ri]

/-- `set_rm` -/
def setRm : {rowMajor : Bool} → StoredMatrix K columns rows rowMajor →
    Fin rows → Fin columns → K → StoredMatrix K columns rows rowMajor
  | true, (v : MajorVectors K rows columns), ri, ci, value => v.set ri (v[ri].set ci value)
  | false, (v : MajorVectors K columns rows), ri, ci, value => v.set ci (v[ci].set ri value)

/-- The default constructor makes the identity matrix. -/
def identity [Zero K] [One K] : (rowMajor : Bool) → StoredMatrix K columns rows rowMajor
  | true => Vector.ofFn fun i : Fin rows => Vector.ofFn fun j : Fin columns =>
      if i.val = j.val then 1 else 0
  | false => Vector.ofFn fun j : Fin columns => Vector.ofFn fun i : Fin rows =>
      if i.val = j.val then 1 else 0

/-- The matrix that is stored. -/
def toMatrix {rowMajor : Bool} (m : StoredMatrix K columns rows rowMajor) :
    Matrix (Fin rows) (Fin columns) K :=
  Matrix.of m.getRm

variable {rowMajor : Bool}

theorem getRm_setRm (m : StoredMatrix K columns rows rowMajor) (ri row : Fin rows)
    (ci column : Fin columns) (value : K) :
    (m.setRm ri ci value).getRm row column =
      if row = ri ∧ column = ci then value else m.getRm row column := by
  cases rowMajor <;>
    simp only [setRm, getRm, Fin.getElem_fin, Fin.ext_iff] <;>
    grind

/-- `shuffle2` with a mask of four places: the ones from four on are of the second vector. -/
def shuffle2 (v1 v2 : Vector K 4) (mask : Vector Nat 4) : Vector K 4 :=
  mask.map fun place => if low : place < 4 then v1[place] else v2[place % 4]

/-- `_transpose_tpl_hlp_4x4` -/
def transposeTplHlp4x4 (q0 q1 q2 q3 : Vector K 4) : MajorVectors K 4 4 :=
  #v[shuffle2 q0 q2 #v[0, 2, 4, 6],
    shuffle2 q0 q2 #v[1, 3, 5, 7],
    shuffle2 q1 q3 #v[0, 2, 4, 6],
    shuffle2 q1 q3 #v[1, 3, 5, 7]]

/-- The four vectors, transposed with two rounds of shuffles -/
def transposeVectors4x4 (v : MajorVectors K 4 4) : MajorVectors K 4 4 :=
  transposeTplHlp4x4
    (shuffle2 v[0] v[1] #v[0, 1, 4, 5])
    (shuffle2 v[0] v[1] #v[2, 3, 6, 7])
    (shuffle2 v[2] v[3] #v[0, 1, 4, 5])
    (shuffle2 v[2] v[3] #v[2, 3, 6, 7])

/-- `_transpose_tpl` of a matrix with four rows and four columns, into the other storage order -/
def transposeTpl4x4 : {rowMajor : Bool} → StoredMatrix K 4 4 rowMajor →
    StoredMatrix K 4 4 (!rowMajor)
  | true, v => transposeVectors4x4 v
  | false, v => transposeVectors4x4 v

/-- `_transpose_tpl` of any other matrix: element by element -/
def transposeTpl [Zero K] [One K] {rowMajor : Bool} (m : StoredMatrix K columns rows rowMajor) :
    StoredMatrix K columns rows (!rowMajor) :=
  (List.finRange rows).foldl
    (fun r i => (List.finRange columns).foldl (fun r j => r.setRm i j (m.getRm i j)) r)
    (identity !rowMajor)

/-- `reordered` -/
def reordered [Zero K] [One K] {rowMajor : Bool} (m : StoredMatrix K columns rows rowMajor) :
    StoredMatrix K columns rows (!rowMajor) :=
  if fourByFour : rows = 4 ∧ columns = 4 then
    cast (by rw [fourByFour.1, fourByFour.2])
      (transposeTpl4x4 (cast (by rw [fourByFour.1, fourByFour.2]) m : StoredMatrix K 4 4 rowMajor))
  else
    transposeTpl m

theorem getRm_transposeRow (value : Fin columns → K) (i row : Fin rows) (js : List (Fin columns))
    (r : StoredMatrix K columns rows rowMajor) (column : Fin columns) :
    (js.foldl (fun r j => r.setRm i j (value j)) r).getRm row column =
      if row = i ∧ column ∈ js then value column else r.getRm row column := by
  induction js generalizing r with
  | nil => simp
  | cons j js ih =>
      rw [List.foldl_cons, ih, getRm_setRm]
      grind

theorem getRm_transposeRows (value : Fin rows → Fin columns → K) (is : List (Fin rows))
    (r : StoredMatrix K columns rows rowMajor) (row : Fin rows) (column : Fin columns) :
    (is.foldl (fun r i =>
        (List.finRange columns).foldl (fun r j => r.setRm i j (value i j)) r) r).getRm row column =
      if row ∈ is then value row column else r.getRm row column := by
  induction is generalizing r with
  | nil => simp
  | cons i is ih =>
      rw [List.foldl_cons, ih, getRm_transposeRow]
      have member := List.mem_finRange column
      grind

theorem getRm_transposeTpl [Zero K] [One K] (m : StoredMatrix K columns rows rowMajor)
    (row : Fin rows) (column : Fin columns) :
    (transposeTpl m).getRm row column = m.getRm row column := by
  rw [transposeTpl, getRm_transposeRows, if_pos (List.mem_finRange row)]

/-- The shuffles transpose. -/
theorem getElem_transposeVectors4x4 (v : MajorVectors K 4 4) (i j : Fin 4) :
    (transposeVectors4x4 v)[i][j] = v[j][i] := by
  fin_cases i <;> fin_cases j <;> simp [transposeVectors4x4, transposeTplHlp4x4, shuffle2]

theorem getRm_transposeTpl4x4 (m : StoredMatrix K 4 4 rowMajor) (row column : Fin 4) :
    (transposeTpl4x4 m).getRm row column = m.getRm row column := by
  cases rowMajor with
  | true => exact getElem_transposeVectors4x4 m column row
  | false => exact getElem_transposeVectors4x4 m row column

/-- Reordering keeps the matrix. -/
theorem toMatrix_reordered [Zero K] [One K] (m : StoredMatrix K columns rows rowMajor) :
    m.reordered.toMatrix = m.toMatrix := by
  ext row column
  change m.reordered.getRm row column = m.getRm row column
  rw [reordered]
  split
  case isTrue fourByFour =>
      rcases fourByFour with ⟨rfl, rfl⟩
      exact getRm_transposeTpl4x4 m row column
  case isFalse => exact getRm_transposeTpl m row column

end StoredMatrix

end Eagine.Math
