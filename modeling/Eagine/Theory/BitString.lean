import Mathlib.Data.BitVec

/-!
# Bit strings

The lowest bits of a bit vector as a list, the highest of them first.  Shifting bits
into a vector appends them to its list, and shifting them out takes them from the end
of it.  A list of vectors of one width is known from the string of all its bits.
-/

open List

namespace Theory

variable {v w : Nat}

/-- The lowest `n` bits, the highest of them first. -/
def lowBits : Nat → BitVec w → List Bool
  | 0, _ => []
  | n + 1, x => x.getLsbD n :: lowBits n x

@[simp]
theorem length_lowBits (n : Nat) (x : BitVec w) : (lowBits n x).length = n := by
  induction n with
  | zero => rfl
  | succ n ih => rw [lowBits, length_cons, ih]

/-- The list is about the bits alone, not about the width of the vector. -/
theorem lowBits_eq_iff {n : Nat} {x : BitVec v} {y : BitVec w} :
    lowBits n x = lowBits n y ↔ ∀ k < n, x.getLsbD k = y.getLsbD k := by
  induction n with
  | zero =>
      constructor
      · intro _ k inside
        exact absurd inside (Nat.not_lt_zero k)
      · intro _
        rfl
  | succ n ih =>
      rw [lowBits, lowBits, cons_eq_cons, ih]
      constructor
      · rintro ⟨highest, lower⟩ k inside
        rcases Nat.lt_succ_iff_lt_or_eq.mp inside with below | rfl
        · exact lower k below
        · exact highest
      · intro same
        constructor
        · exact same n (Nat.lt_succ_self n)
        · intro k inside
          exact same k (Nat.lt_succ_of_lt inside)

/-- The last bits of the list are the lowest ones. -/
theorem lowBits_add (m n : Nat) (x : BitVec w) :
    lowBits (m + n) x = lowBits m (x >>> n) ++ lowBits n x := by
  induction m with
  | zero => rw [Nat.zero_add, lowBits, nil_append]
  | succ m ih =>
      rw [Nat.succ_add, lowBits, lowBits, ih, BitVec.getLsbD_ushiftRight, Nat.add_comm n m,
        cons_append]

/-- Bits that are shifted in are appended, if the vector is wide enough for all. -/
theorem lowBits_append {m n : Nat} (x y : BitVec w) (wide : m + n ≤ w)
    (short : ∀ k, n ≤ k → y.getLsbD k = false) :
    lowBits (m + n) (x <<< n ||| y) = lowBits m x ++ lowBits n y := by
  rw [lowBits_add]
  congr 1
  · rw [lowBits_eq_iff]
    intro k inside
    have room : n + k < w := by omega
    rw [BitVec.getLsbD_ushiftRight, BitVec.getLsbD_or, BitVec.getLsbD_shiftLeft,
      short (n + k) (Nat.le_add_right n k)]
    simp [room]
  · rw [lowBits_eq_iff]
    intro k inside
    rw [BitVec.getLsbD_or, BitVec.getLsbD_shiftLeft]
    simp [inside]

/-- Shifting in nothing appends zeros. -/
theorem lowBits_shiftLeft {m n : Nat} (x : BitVec w) (wide : m + n ≤ w) :
    lowBits (m + n) (x <<< n) = lowBits m x ++ List.replicate n false := by
  have zeros : lowBits n (0 : BitVec w) = List.replicate n false := by
    induction n with
    | zero => rfl
    | succ n ih =>
        rw [lowBits, ih (by omega), replicate_succ]
        exact congrArg (· :: _) BitVec.getLsbD_zero
  have appended := lowBits_append x 0 wide fun _ _ => BitVec.getLsbD_zero
  rwa [zeros, BitVec.ofNat_eq_ofNat, BitVec.or_zero] at appended

/-- A vector is known from all its bits. -/
theorem lowBits_injective : Function.Injective (lowBits w : BitVec w → List Bool) := by
  intro x y same
  apply BitVec.eq_of_getLsbD_eq
  exact lowBits_eq_iff.mp same

/-- Two lists of vectors whose bits begin in the same way are the same, where less than
a vector is left behind either. -/
theorem eq_of_flatMap_lowBits {xs ys : List (BitVec w)} {left left' : List Bool}
    (same : xs.flatMap (lowBits w) ++ left = ys.flatMap (lowBits w) ++ left')
    (less : left.length < w) (less' : left'.length < w) : xs = ys := by
  induction xs generalizing ys with
  | nil =>
      rcases ys with _ | ⟨y, ys⟩
      · rfl
      · have lengths := congrArg List.length same
        simp only [flatMap_nil, flatMap_cons, length_append, length_nil,
          length_lowBits] at lengths
        omega
  | cons x xs ih =>
      rcases ys with _ | ⟨y, ys⟩
      · have lengths := congrArg List.length same
        simp only [flatMap_nil, flatMap_cons, length_append, length_nil,
          length_lowBits] at lengths
        omega
      · rw [flatMap_cons, flatMap_cons, append_assoc, append_assoc] at same
        rcases append_inj same (by rw [length_lowBits, length_lowBits]) with ⟨first, rest⟩
        rw [lowBits_injective first, ih rest]

end Theory

/-!
## Bits by pieces

A sequence of bits is stored in units of a fixed size, with the first bits being the
highest ones. The bits of a range are collected into a bit vector by pieces, one for
every unit that the range meets, and there may be fewer pieces than units.
-/

namespace Theory

variable {w : Nat}

/-- Collects the bits from `bb` to `be`; `extract` gives some of the bits of a unit. -/
def collect (size : Nat) (extract : Nat → Nat → Nat → BitVec w) :
    Nat → BitVec w → Nat → Nat → Nat → BitVec w
  | 0, state, _, _, _ => state
  | pieces + 1, state, bb, be, cb =>
      if be ≤ bb then state
      else
        let bo := bb - cb * size
        let bl := min (be - bb) (size - bo)
        collect size extract pieces (state <<< bl ||| extract cb bo bl) (bb + bl) be (cb + 1)

/-- The end of the bits that a number of pieces reaches. -/
def reach (size pieces bb be : Nat) : Nat :=
  max bb (min be (size * (bb / size + pieces)))

/-- A bit vector holds the bits of a range, the last one being its lowest bit. -/
def HoldsBits (bit : Nat → Bool) (first last : Nat) (state : BitVec w) : Prop :=
  ∀ k < w, state.getLsbD k = (decide (k < last - first) && bit (last - 1 - k))

/-- The bits that are extracted are those of the sequence. -/
def Extracts (size : Nat) (bit : Nat → Bool) (extract : Nat → Nat → Nat → BitVec w) : Prop :=
  ∀ cb ofs len, ofs + len ≤ size → ∀ k < w,
    (extract cb ofs len).getLsbD k = (decide (k < len) && bit (cb * size + ofs + len - 1 - k))

theorem holdsBits_zero (bit : Nat → Bool) (first : Nat) :
    HoldsBits bit first first (0 : BitVec w) := by
  intro k _
  rw [Nat.sub_self, decide_eq_false (Nat.not_lt_zero k), Bool.false_and]
  exact BitVec.getLsbD_zero

/-- A piece appends its bits. -/
theorem HoldsBits.append {bit : Nat → Bool} {first bb bl : Nat} {state piece : BitVec w}
    (holds : HoldsBits bit first bb state) (ordered : first ≤ bb)
    (appended : ∀ k < w, piece.getLsbD k = (decide (k < bl) && bit (bb + bl - 1 - k))) :
    HoldsBits bit first (bb + bl) (state <<< bl ||| piece) := by
  intro k inside
  rw [BitVec.getLsbD_or, BitVec.getLsbD_shiftLeft, appended k inside]
  by_cases inPiece : k < bl
  · have inRange : k < bb + bl - first := by omega
    simp [inPiece, inRange]
  · have before := holds (k - bl) (by omega)
    have position : bb - 1 - (k - bl) = bb + bl - 1 - k := by omega
    have range : (k - bl < bb - first) = (k < bb + bl - first) := by
      apply propext
      omega
    simp only [inside, inPiece, before, position, range]
    simp

section Reach

variable {size pieces bb be : Nat}

theorem reach_of_le (past : be ≤ bb) : reach size pieces bb be = bb :=
  Nat.max_eq_left ((Nat.min_le_left be _).trans past)

theorem reach_zero : reach size 0 bb be = bb :=
  Nat.max_eq_left ((Nat.min_le_right be _).trans (Nat.mul_div_le bb size))

theorem le_reach : bb ≤ reach size pieces bb be :=
  Nat.le_max_left _ _

theorem reach_le (ordered : bb ≤ be) : reach size pieces bb be ≤ be :=
  Nat.max_le.mpr ⟨ordered, Nat.min_le_left _ _⟩

/-- All the bits are reached if there are pieces for all the units. -/
theorem reach_eq (ordered : bb ≤ be) (enough : be ≤ size * (bb / size + pieces)) :
    reach size pieces bb be = be := by
  rw [reach, Nat.min_eq_left enough, Nat.max_eq_right ordered]

/-- The piece of the first unit ends with it or with the range, and the others start
there. -/
theorem reach_succ (positive : 0 < size) (more : bb < be) :
    reach size (pieces + 1) bb be =
      reach size pieces (bb + min (be - bb) (size - bb % size)) be := by
  have split : size * (bb / size) + bb % size = bb := Nat.div_add_mod bb size
  have remainder : bb % size < size := Nat.mod_lt bb positive
  by_cases last : be - bb ≤ size - bb % size
  · have whole : be ≤ size * (bb / size + (pieces + 1)) := by
      rw [Nat.mul_add, Nat.mul_succ]
      omega
    rw [Nat.min_eq_left last, Nat.add_sub_cancel' more.le, reach_of_le le_rfl,
      reach_eq more.le whole]
  · have next : bb + (size - bb % size) = size * (bb / size + 1) := by
      rw [Nat.mul_succ]
      omega
    have unit : size * (bb / size + 1) / size = bb / size + 1 :=
      Nat.mul_div_cancel_left _ positive
    have further : size * (bb / size + 1) ≤ size * (bb / size + 1 + pieces) :=
      Nat.mul_le_mul_left size (Nat.le_add_right _ _)
    rw [Nat.min_eq_right (Nat.le_of_not_le last), next, reach, reach, unit,
      Nat.add_right_comm (bb / size) 1 pieces, Nat.add_assoc (bb / size) pieces 1]
    rw [Nat.add_assoc, Nat.add_comm 1 pieces] at further
    omega

end Reach

/-- The bits that the pieces reach are collected. -/
theorem collect_holds {size : Nat} (positive : 0 < size) {bit : Nat → Bool}
    {extract : Nat → Nat → Nat → BitVec w} (extracts : Extracts size bit extract) {first be : Nat}
    (pieces : Nat) {bb cb : Nat} {state : BitVec w} (ordered : first ≤ bb)
    (unit : bb < be → cb = bb / size) (holds : HoldsBits bit first bb state) :
    HoldsBits bit first (reach size pieces bb be) (collect size extract pieces state bb be cb) := by
  induction pieces generalizing bb cb state with
  | zero => rwa [reach_zero, collect]
  | succ pieces ih =>
      by_cases more : bb < be
      · obtain rfl := unit more
        have split : bb / size * size + bb % size = bb := by
          rw [Nat.mul_comm]
          exact Nat.div_add_mod bb size
        have remainder : bb - bb / size * size = bb % size := Nat.sub_eq_of_eq_add' split.symm
        have below : bb % size < size := Nat.mod_lt bb positive
        rw [reach_succ positive more, collect, if_neg (Nat.not_le.mpr more)]
        simp only [remainder]
        refine ih (ordered.trans (Nat.le_add_right _ _)) (fun still => ?_) ?_
        · have next : bb + min (be - bb) (size - bb % size) = (bb / size + 1) * size := by
            rw [Nat.succ_mul]
            omega
          rw [next, Nat.mul_div_cancel _ positive]
        · refine holds.append ordered fun k inside => ?_
          have piece : bb % size + min (be - bb) (size - bb % size) ≤ size := by omega
          rw [extracts _ _ _ piece k inside, split]
      · have past : be ≤ bb := Nat.le_of_not_lt more
        rwa [reach_of_le past, collect, if_pos past]

end Theory
