import Mathlib.Analysis.Calculus.Deriv.Polynomial
import Mathlib.RingTheory.Polynomial.Bernstein
import Mathlib.Topology.Algebra.Module.ModuleTopology

/-!
# Bernstein form

A polynomial with values in a space is a sum of points with Bernstein polynomials as their
weights. Its derivative has the differences of neighbouring points for its own points.
-/

namespace Theory

open Finset Polynomial

section Weights

variable {K : Type*} [CommRing K]

/-- The value of a Bernstein polynomial. -/
def bernsteinWeight (n i : ℕ) (t : K) : K :=
  t ^ i * (1 - t) ^ (n - i) * n.choose i

theorem bernsteinWeight_eq_eval (n i : ℕ) (t : K) :
    bernsteinWeight n i t = (bernsteinPolynomial K n i).eval t := by
  rw [bernsteinWeight, bernsteinPolynomial, eval_mul, eval_mul,
    eval_natCast, eval_pow, eval_X, eval_pow,
    eval_sub, eval_one, eval_X]
  ring

theorem bernsteinWeight_of_lt {n i : ℕ} (less : n < i) (t : K) : bernsteinWeight n i t = 0 := by
  rw [bernsteinWeight, Nat.choose_eq_zero_of_lt less, Nat.cast_zero, mul_zero]

end Weights

section Derivatives

variable {K : Type*} [NontriviallyNormedField K]

theorem hasDerivAt_bernsteinWeight (n i : ℕ) (t : K) :
    HasDerivAt (bernsteinWeight n i) ((bernsteinPolynomial K n i).derivative.eval t) t := by
  have eval : bernsteinWeight n i = fun t : K => (bernsteinPolynomial K n i).eval t :=
    funext (bernsteinWeight_eq_eval n i)
  rw [eval]
  exact Polynomial.hasDerivAt _ t

theorem hasDerivAt_bernsteinWeight_zero (n : ℕ) (t : K) :
    HasDerivAt (bernsteinWeight (n + 1) 0) (-((n + 1 : ℕ) * bernsteinWeight n 0 t)) t := by
  apply (hasDerivAt_bernsteinWeight (n + 1) 0 t).congr_deriv
  rw [bernsteinPolynomial.derivative_zero, bernsteinWeight_eq_eval, eval_mul,
    eval_neg, eval_natCast, Nat.add_sub_cancel, neg_mul]

theorem hasDerivAt_bernsteinWeight_succ (n i : ℕ) (t : K) :
    HasDerivAt (bernsteinWeight (n + 1) (i + 1))
      ((n + 1 : ℕ) * (bernsteinWeight n i t - bernsteinWeight n (i + 1) t)) t := by
  apply (hasDerivAt_bernsteinWeight (n + 1) (i + 1) t).congr_deriv
  rw [bernsteinPolynomial.derivative_succ, bernsteinWeight_eq_eval, bernsteinWeight_eq_eval,
    eval_mul, eval_sub, eval_natCast, Nat.add_sub_cancel]

variable {V : Type*} [NormedAddCommGroup V] [NormedSpace K V]

/-- The points from `0` to `n`, with their weights. -/
def bernsteinForm (n : ℕ) (points : ℕ → V) (t : K) : V :=
  ∑ i ∈ range (n + 1), bernsteinWeight n i t • points i

/-- The weights of the derivatives are those of the differences. -/
theorem sum_derivative_weights (n : ℕ) (points : ℕ → V) (weight : ℕ → K)
    (last : weight (n + 1) = 0) (factor : K) :
    ∑ i ∈ range (n + 1), (factor * (weight i - weight (i + 1))) • points (i + 1) +
        -(factor * weight 0) • points 0 =
      ∑ i ∈ range (n + 1), weight i • factor • (points (i + 1) - points i) := by
  have shifted : ∑ i ∈ range (n + 1), weight i • factor • points i =
      ∑ i ∈ range (n + 1), weight (i + 1) • factor • points (i + 1) +
        weight 0 • factor • points 0 := by
    have terms := sum_range_succ' (fun i => weight i • factor • points i) (n + 1)
    rw [sum_range_succ, last, zero_smul, add_zero] at terms
    exact terms
  calc ∑ i ∈ range (n + 1), (factor * (weight i - weight (i + 1))) • points (i + 1) +
        -(factor * weight 0) • points 0
      = ∑ i ∈ range (n + 1), weight i • factor • points (i + 1) -
          (∑ i ∈ range (n + 1), weight (i + 1) • factor • points (i + 1) +
            weight 0 • factor • points 0) := by
        rw [← sub_sub, ← sum_sub_distrib, sub_eq_add_neg _ (weight 0 • _), neg_smul]
        congr 2
        · funext i
          rw [smul_smul, smul_smul, ← sub_smul, ← sub_mul, mul_comm]
        · rw [smul_smul, mul_comm]
    _ = ∑ i ∈ range (n + 1), weight i • factor • (points (i + 1) - points i) := by
        rw [← shifted, ← sum_sub_distrib]
        simp only [smul_sub]

theorem hasDerivAt_bernsteinForm (n : ℕ) (points : ℕ → V) (t : K) :
    HasDerivAt (bernsteinForm (n + 1) points)
      (bernsteinForm n (fun i => (n + 1) • (points (i + 1) - points i)) t) t := by
  have terms : HasDerivAt (bernsteinForm (n + 1) points)
      (∑ i ∈ range (n + 1), ((n + 1 : ℕ) * (bernsteinWeight n i t - bernsteinWeight n (i + 1) t)) •
          points (i + 1) + -((n + 1 : ℕ) * bernsteinWeight n 0 t) • points 0) t := by
    have split : bernsteinForm (n + 1) points = fun t : K =>
        ∑ i ∈ range (n + 1), bernsteinWeight (n + 1) (i + 1) t • points (i + 1) +
          bernsteinWeight (n + 1) 0 t • points 0 := by
      funext t
      exact sum_range_succ' _ (n + 1)
    rw [split]
    apply HasDerivAt.add
    · apply HasDerivAt.fun_sum
      intro i _
      exact (hasDerivAt_bernsteinWeight_succ n i t).smul_const _
    · exact (hasDerivAt_bernsteinWeight_zero n t).smul_const _
  apply terms.congr_deriv
  have last := bernsteinWeight_of_lt (Nat.lt_succ_self n) t
  rw [sum_derivative_weights n points (bernsteinWeight n · t) last, bernsteinForm]
  simp only [Nat.cast_smul_eq_nsmul]

end Derivatives

end Theory
