import Mathlib.Algebra.Order.Group.Int

/-!
# Packing

Extents on a line that are apart from each other do not cover more than there is between two
bounds. Where they cover all of it, they cover all of every part.
-/

namespace Theory

/-- What is from the first position on, without the one past the last. -/
structure Extent where
  first : Int
  past : Int
deriving DecidableEq

variable {lower upper : Int}

namespace Extent

/-- Nothing of one is in the other. -/
def Apart (e other : Extent) : Prop :=
  e.past ≤ other.first ∨ other.past ≤ e.first

theorem Apart.symm {e other : Extent} (apart : e.Apart other) : other.Apart e :=
  Or.symm apart

/-- How much of the extent is between the bounds. -/
def amount (lower upper : Int) (e : Extent) : Int :=
  max 0 (min e.past upper - max e.first lower)

theorem amount_nonneg (lower upper : Int) (e : Extent) : 0 ≤ e.amount lower upper :=
  Int.le_max_left _ _

theorem amount_add {lower middle upper : Int} (above : lower ≤ middle) (below : middle ≤ upper)
    (e : Extent) : e.amount lower upper = e.amount lower middle + e.amount middle upper := by
  simp only [amount]
  omega

theorem amount_inside {e : Extent} (ordered : e.first ≤ e.past)
    (above : lower ≤ e.first) (below : e.past ≤ upper) :
    e.amount lower upper = e.past - e.first := by
  rw [amount]
  omega

theorem amount_outside {e : Extent}
    (outside : e.past ≤ lower ∨ upper ≤ e.first) : e.amount lower upper = 0 := by
  rw [amount]
  omega

/-- An extent that is cut in two. -/
theorem amount_cut {first middle past : Int} (above : first ≤ middle) (below : middle ≤ past)
    (lower upper : Int) :
    (Extent.mk first past).amount lower upper =
      (Extent.mk first middle).amount lower upper + (Extent.mk middle past).amount lower upper := by
  simp only [amount]
  omega

end Extent

/-- How much of the extents is between the bounds. -/
def covered (lower upper : Int) : List Extent → Int
  | [] => 0
  | e :: es => e.amount lower upper + covered lower upper es

@[simp]
theorem covered_nil (lower upper : Int) : covered lower upper [] = 0 :=
  rfl

@[simp]
theorem covered_cons (lower upper : Int) (e : Extent) (es : List Extent) :
    covered lower upper (e :: es) = e.amount lower upper + covered lower upper es :=
  rfl

theorem covered_perm {es others : List Extent} (same : es.Perm others) (lower upper : Int) :
    covered lower upper es = covered lower upper others := by
  induction same with
  | nil => rfl
  | cons e _ ih => rw [covered_cons, covered_cons, ih]
  | swap e other es => simp only [covered_cons, Int.add_left_comm]
  | trans _ _ ih ihNext => rw [ih, ihNext]

theorem covered_nonneg (lower upper : Int) (es : List Extent) : 0 ≤ covered lower upper es := by
  induction es with
  | nil => exact le_rfl
  | cons e es ih =>
      rw [covered_cons]
      exact Int.add_nonneg (e.amount_nonneg lower upper) ih

theorem covered_add {lower middle upper : Int} (above : lower ≤ middle) (below : middle ≤ upper)
    (es : List Extent) :
    covered lower upper es = covered lower middle es + covered middle upper es := by
  induction es with
  | nil => rfl
  | cons e es ih =>
      simp only [covered_cons]
      rw [ih, e.amount_add above below]
      omega

variable {es : List Extent}

theorem covered_outside
    (outside : ∀ e ∈ es, e.past ≤ lower ∨ upper ≤ e.first) : covered lower upper es = 0 := by
  induction es with
  | nil => rfl
  | cons e es ih =>
      rcases List.forall_mem_cons.mp outside with ⟨first, others⟩
      rw [covered_cons, Extent.amount_outside first, ih others, Int.add_zero]

/-- What is in front of the first extent, in it and behind it is covered by the others at most
where the first does not. -/
theorem covered_le (apart : es.Pairwise Extent.Apart)
    (ordered : lower ≤ upper) : covered lower upper es ≤ upper - lower := by
  induction es generalizing lower upper with
  | nil =>
      rw [covered_nil]
      omega
  | cons e es ih =>
      rcases List.pairwise_cons.mp apart with ⟨first, others⟩
      rw [covered_cons]
      by_cases nothing : e.amount lower upper = 0
      · rw [nothing, Int.zero_add]
        exact ih others ordered
      · have inside : max e.first lower < min e.past upper := by
          rw [Extent.amount] at nothing
          omega
        have start : lower ≤ max e.first lower := le_max_right _ _
        have stop : min e.past upper ≤ upper := min_le_right _ _
        have front := ih others start
        have back := ih others stop
        have between : covered (max e.first lower) (min e.past upper) es = 0 := by
          apply covered_outside
          intro other mem
          have otherApart := first other mem
          rw [Extent.Apart] at otherApart
          omega
        have whole := covered_add start (inside.le.trans stop) es
        have behind := covered_add inside.le stop es
        rw [Extent.amount]
        omega

/-- All of a part is covered if all of the whole is. -/
theorem covered_part (apart : es.Pairwise Extent.Apart)
    {lower middle upper : Int} (above : lower ≤ middle) (below : middle ≤ upper)
    (full : covered lower upper es = upper - lower) :
    covered lower middle es = middle - lower ∧ covered middle upper es = upper - middle := by
  have front := covered_le apart above
  have back := covered_le apart below
  have whole := covered_add above below es
  omega

end Theory
