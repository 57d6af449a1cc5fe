import Eagine.Theory.BernsteinForm

/-!
# Bezier curves

A sequence of curves is made from the control points of its segments, which are connected or
separated. The number of the points tells which it is. A segment is evaluated in Bernstein form,
with binomial coefficients that are integers of 32 bits.
-/

namespace Eagine.Math

open Theory List Nat

/-- A positive product of two integers of type `int`. It is undefined beyond the limit. -/
def intProduct (value : Nat) : Option Nat :=
  if value < 2 ^ 31 then some value else none

/-- `factorial` -/
def factorial : Nat → Option Nat
  | 0 => some 1
  | n + 1 => (factorial n).bind fun product => intProduct ((n + 1) * product)

/-- `binomial` -/
def binomial (n k : Nat) : Option Nat :=
  if k ≤ n then do
    let all ← factorial n
    let chosen ← factorial k
    let others ← factorial (n - k)
    let product ← intProduct (chosen * others)
    return all / product
  else some 0

section Segments

variable {K : Type*} [Field K]

/-- `bezier_t::_coef` -/
def coef (m i : Nat) (t : K) : Option K :=
  (binomial m i).map fun coefficient : Nat => t ^ i * (1 - t) ^ (m - i) * (coefficient : K)

variable {V : Type*} [AddCommGroup V] [Module K V]

/-- `bezier_t::_calc` from the point with the index. -/
def calcFrom (m : Nat) (t : K) : Nat → List V → Option V
  | _, [] => some 0
  | i, first :: rest =>
      (coef m i t).bind fun coefficient =>
        (calcFrom m t (i + 1) rest).map fun others => coefficient • first + others

/-- `bezier_t` of so many points at the start of a span. -/
def bezier (count : Nat) (t : K) (p : List V) : Option V :=
  ((range count).mapM fun i => p[i]?).bind (calcFrom (count - 1) t 0)

end Segments

section Points

variable {V : Type*} (order : Nat) (points : List V)

def areConnected : Bool :=
  decide (points.length - 1 ≠ order) && (points.length - 1) % order == 0

def areSeparated : Bool :=
  points.length % (order + 1) == 0

def pointsAreOk : Bool :=
  !points.isEmpty && (areConnected order points || areSeparated order points)

end Points

/-- `bezier_curves`, as its constructors make them. -/
structure BezierCurves (V : Type*) (order : Nat) where
  points : List V
  connected : Bool
  pointsOk : pointsAreOk order points = true
  isConnected : areConnected order points = connected

namespace BezierCurves

variable {V : Type*} {order : Nat}

/-- The constructor from points that are said to be connected or not, with its assertions. -/
def make (points : List V) (connected : Bool) : Option (BezierCurves V order) :=
  if accepted : pointsAreOk order points = true ∧ areConnected order points = connected then
    some ⟨points, connected, accepted.1, accepted.2⟩
  else none

def segmentStep (curves : BezierCurves V order) : Nat :=
  if curves.connected then order else order + 1

def segmentCount (curves : BezierCurves V order) : Nat :=
  if curves.connected then (curves.points.length - 1) / order
  else curves.points.length / (order + 1)

variable [AddCommGroup V]

/-- The value of a segment at a parameter, as in `position01` and in `approximate`. -/
def evaluate {K : Type*} [Field K] [Module K V] (curves : BezierCurves V order) (segment : Nat)
    (t : K) : Option V :=
  bezier (order + 1) t (curves.points.drop (segment * curves.segmentStep))

/-- The first one of the two points for each new point of `derivative`. -/
def differenceIndices (curves : BezierCurves V order) : List Nat :=
  (range curves.segmentCount).flatMap fun i =>
    (range order).map fun j => i * curves.segmentStep + j

/-- The points that `derivative` makes. -/
def newPoints (curves : BezierCurves V order) : Option (List V) :=
  curves.differenceIndices.mapM fun k => do
    let next ← curves.points[k + 1]?
    let this ← curves.points[k]?
    return order • (next - this)

/-- `derivative` -/
def derivative (curves : BezierCurves V (order + 1)) : Option (BezierCurves V order) :=
  curves.newPoints.bind fun points => make points false

end BezierCurves

/-- The segments of other curves are the derivatives of those of some curves. -/
structure IsDerivative (K : Type*) [NontriviallyNormedField K] {V : Type*}
    [NormedAddCommGroup V] [NormedSpace K V] {order : Nat}
    (curves : BezierCurves V (order + 1)) (derivative : BezierCurves V order) : Prop where
  segmentCount : derivative.segmentCount = curves.segmentCount
  evaluate : ∀ segment < curves.segmentCount, ∃ curve slope : K → V,
    (∀ t, curves.evaluate segment t = some (curve t)) ∧
      (∀ t, derivative.evaluate segment t = some (slope t)) ∧
        ∀ t, HasDerivAt curve (slope t) t

theorem mapM_eq_some {α β : Type*} {f : α → Option β} {g : α → β} {values : List α}
    (defined : ∀ value ∈ values, f value = some (g value)) :
    values.mapM f = some (values.map g) := by
  induction values with
  | nil => rfl
  | cons value values ih =>
      rcases forall_mem_cons.mp defined with ⟨here, behind⟩
      rw [mapM_cons, here, ih behind]
      rfl

theorem factorial_eq_none {n : Nat} (large : 13 ≤ n) : factorial n = none := by
  induction n, large using le_induction with
  | base => decide
  | succ n _ ih => rw [factorial, ih, Option.bind_none]

theorem binomial_eq {n k : Nat} (small : n ≤ 12) (atMost : k ≤ n) :
    binomial n k = some (n.choose k) := by
  have all : ∀ n ≤ 12, ∀ k ≤ n, binomial n k = some (n.choose k) := by decide
  exact all n small k atMost

section Evaluation

variable {K : Type*} [NontriviallyNormedField K]

theorem coef_eq {m i : Nat} (small : m ≤ 12) (atMost : i ≤ m) (t : K) :
    coef m i t = some (bernsteinWeight m i t) := by
  rw [coef, binomial_eq small atMost]
  rfl

theorem coef_eq_none {m i : Nat} (large : 13 ≤ m) (atMost : i ≤ m) (t : K) :
    coef m i t = none := by
  rw [coef, binomial, if_pos atMost, factorial_eq_none large]
  rfl

variable {V : Type*} [NormedAddCommGroup V] [NormedSpace K V]

theorem calcFrom_eq {m : Nat} (small : m ≤ 12) (t : K) (points : Nat → V) (count i : Nat)
    (atMost : i + count ≤ m + 1) :
    calcFrom m t i ((List.range' i count).map points) =
      some (∑ j ∈ Finset.range count, bernsteinWeight m (i + j) t • points (i + j)) := by
  induction count generalizing i with
  | zero => rfl
  | succ count ih =>
      rw [range'_succ, map_cons, calcFrom, coef_eq small (by omega), ih (i + 1) (by omega),
        Option.bind_some, Option.map_some, Finset.sum_range_succ']
      simp only [add_right_comm i 1, add_zero, ← add_assoc]
      rw [add_comm]

theorem bezier_eq {order : Nat} (small : order ≤ 12) (t : K) {p : List V} {points : Nat → V}
    (inside : ∀ i ≤ order, p[i]? = some (points i)) :
    bezier (order + 1) t p = some (bernsteinForm order points t) := by
  have taken : (range (order + 1)).mapM (fun i => p[i]?) =
      some ((range (order + 1)).map points) := by
    apply mapM_eq_some
    intro i mem
    exact inside i (le_of_lt_succ (mem_range.mp mem))
  rw [bezier, taken, Option.bind_some, range_eq_range', Nat.add_sub_cancel,
    calcFrom_eq small t points (order + 1) 0 (zero_add _).le]
  simp only [zero_add]
  rfl

theorem bezier_eq_none {order : Nat} (large : 13 ≤ order) (t : K) (p : List V) :
    bezier (order + 1) t p = none := by
  have failed : ∀ first rest, calcFrom order t 0 (first :: rest) = (none : Option V) := by
    intro first rest
    rw [calcFrom, coef_eq_none large (zero_le order), Option.bind_none]
  rw [bezier, range_succ_eq_map, mapM_cons]
  cases p[0]? with
  | none => rfl
  | some first =>
      cases ((range order).map Nat.succ).mapM fun i => p[i]? with
      | none => rfl
      | some rest => exact failed first rest

end Evaluation

namespace BezierCurves

variable {V : Type*} {order : Nat} (curves : BezierCurves V order)

theorem points_ne_nil : curves.points ≠ [] := by
  have accepted := curves.pointsOk
  rw [pointsAreOk, Bool.and_eq_true, Bool.not_eq_true'] at accepted
  exact isEmpty_eq_false_iff.mp accepted.1

/-- The points of a segment are among the points. -/
theorem segment_lt {segment : Nat} (inside : segment < curves.segmentCount) :
    segment * curves.segmentStep + order < curves.points.length := by
  have positive := length_pos_of_ne_nil curves.points_ne_nil
  rw [segmentCount] at inside
  rw [segmentStep]
  split at inside
  · rename_i connected
    rw [if_pos connected]
    have last := (mul_le_mul_right order (succ_le_of_lt inside)).trans
      (div_mul_le_self (curves.points.length - 1) order)
    rw [succ_mul] at last
    omega
  · rename_i separated
    rw [if_neg separated]
    have last := (mul_le_mul_right (order + 1) (succ_le_of_lt inside)).trans
      (div_mul_le_self curves.points.length (order + 1))
    rw [succ_mul] at last
    omega

/-- The points from the first one of a segment on. -/
def segmentPoints [Zero V] (segment j : Nat) : V :=
  curves.points.getD (segment * curves.segmentStep + j) 0

theorem getElem?_segment [Zero V] {segment j : Nat} (inside : segment < curves.segmentCount)
    (atMost : j ≤ order) :
    curves.points[segment * curves.segmentStep + j]? = some (curves.segmentPoints segment j) := by
  have bound := curves.segment_lt inside
  rw [segmentPoints, getD_eq_getElem?_getD,
    getElem?_eq_getElem (show segment * curves.segmentStep + j < _ by omega)]
  rfl

section Evaluation

variable {K : Type*} [NontriviallyNormedField K] {V : Type*} [NormedAddCommGroup V]
  [NormedSpace K V] (curves : BezierCurves V order)

theorem evaluate_eq (small : order ≤ 12) {segment : Nat} (inside : segment < curves.segmentCount)
    (t : K) :
    curves.evaluate segment t = some (bernsteinForm order (curves.segmentPoints segment) t) := by
  apply bezier_eq small
  intro j atMost
  rw [getElem?_drop]
  exact curves.getElem?_segment inside atMost

theorem evaluate_eq_none (large : 13 ≤ order) (segment : Nat) (t : K) :
    curves.evaluate segment t = none :=
  bezier_eq_none large t _

end Evaluation

section Derivative

variable [AddCommGroup V] (curves : BezierCurves V order)

/-- The difference of two neighbouring points of a segment. -/
def difference (segment j : Nat) : V :=
  order • (curves.segmentPoints segment (j + 1) - curves.segmentPoints segment j)

theorem newPoints_eq : curves.newPoints =
    some ((range curves.segmentCount).flatMap fun segment =>
      (range order).map (curves.difference segment)) := by
  let point (k : Nat) : V := curves.points.getD k 0
  have defined : ∀ k ∈ curves.differenceIndices,
      (do
        let next ← curves.points[k + 1]?
        let this ← curves.points[k]?
        return order • (next - this)) = some (order • (point (k + 1) - point k)) := by
    intro k mem
    rcases mem_flatMap.mp mem with ⟨segment, inside, mem⟩
    rcases mem_map.mp mem with ⟨j, less, rfl⟩
    have next := curves.getElem?_segment (mem_range.mp inside)
      (succ_le_of_lt (mem_range.mp less))
    have this := curves.getElem?_segment (mem_range.mp inside)
      (le_of_lt (mem_range.mp less))
    rw [add_succ] at next
    rw [next, this]
    rfl
  rw [newPoints, mapM_eq_some defined, differenceIndices, map_flatMap]
  simp only [map_map]
  rfl

/-! ### Points -/

omit [AddCommGroup V] in
theorem length_rows (entry : Nat → Nat → V) (count width : Nat) :
    ((range count).flatMap fun i => (range width).map (entry i)).length =
      count * width := by
  induction count with
  | zero => rw [zero_mul]; rfl
  | succ count ih =>
      rw [range_succ, flatMap_append, length_append, ih, flatMap_singleton,
        length_map, length_range, succ_mul]

omit [AddCommGroup V] in
theorem getElem?_rows (entry : Nat → Nat → V) {count width i j : Nat} (row : i < count)
    (column : j < width) :
    ((range count).flatMap fun i => (range width).map (entry i))[i * width + j]? =
      some (entry i j) := by
  induction count with
  | zero => exact absurd row (not_lt_zero i)
  | succ count ih =>
      rw [range_succ, flatMap_append, flatMap_singleton]
      rcases Nat.lt_succ_iff_lt_or_eq.mp row with before | rfl
      · rw [getElem?_append_left, ih before]
        rw [length_rows]
        have last := mul_le_mul_right width (succ_le_of_lt before)
        rw [succ_mul] at last
        omega
      · rw [getElem?_append_right (by rw [length_rows]; exact le_add_right _ _),
          length_rows, Nat.add_sub_cancel_left, getElem?_map, getElem?_range column]
        rfl

end Derivative

/-! ### Constructor -/

/-- So many segments of the next lower order, when they are separated, are not taken for
connected ones. -/
def IsSeparable (order count : Nat) : Prop :=
  1 ≤ count ∧ (count = 1 ∨ ¬order ∣ count - 1)

theorem accepted_iff {order count : Nat} {points : List V}
    (size : points.length = count * (order + 1)) :
    pointsAreOk order points = true ∧ areConnected order points = false ↔
      IsSeparable order count := by
  have separated : areSeparated order points = true := by
    rw [areSeparated, size, mul_mod_left, beq_self_eq_true]
  have nonempty : points.isEmpty = false ↔ 1 ≤ count := by
    rw [isEmpty_eq_false_iff, ← length_pos_iff, size, mul_pos_iff_of_pos_right
      (Nat.succ_pos order), succ_le_iff]
  rw [pointsAreOk, separated, Bool.or_true, Bool.and_true, Bool.not_eq_true', nonempty,
    IsSeparable]
  apply and_congr_right
  intro positive
  rcases Nat.exists_eq_add_of_le' positive with ⟨others, rfl⟩
  have split : points.length - 1 = others * (order + 1) + order := by
    rw [size, succ_mul]
    omega
  have single : others * (order + 1) + order = order ↔ others = 0 := by
    rw [add_eq_right, mul_eq_zero, or_iff_left (succ_ne_zero order)]
  have remainder : (others * (order + 1) + order) % order = others % order := by
    rw [add_mod_right, mul_succ, mul_add_mod_self_right]
  rw [areConnected, split, Bool.and_eq_false_iff, decide_eq_false_iff_not, Decidable.not_not,
    single, remainder, beq_eq_false_iff_ne, Nat.add_sub_cancel, dvd_iff_mod_eq_zero,
    add_eq_right]

section Derivative

variable [AddCommGroup V] (curves : BezierCurves V (order + 1))

theorem derivative_eq_some_iff (derivative : BezierCurves V order) :
    curves.derivative = some derivative ↔
      IsSeparable order curves.segmentCount ∧ derivative.connected = false ∧
        derivative.points = (range curves.segmentCount).flatMap fun segment =>
          (range (order + 1)).map (curves.difference segment) := by
  rw [BezierCurves.derivative, newPoints_eq, Option.bind_some, make]
  have accepted := accepted_iff (length_rows curves.difference curves.segmentCount (order + 1))
  constructor
  · intro made
    split at made
    · rename_i isAccepted
      cases made
      exact ⟨accepted.mp isAccepted, rfl, rfl⟩
    · cases made
  · rintro ⟨separable, notConnected, points⟩
    rw [dif_pos (accepted.mpr separable)]
    rcases derivative with ⟨_, _, _, _⟩
    cases points
    cases notConnected
    rfl

theorem exists_derivative (separable : IsSeparable order curves.segmentCount) :
    ∃ derivative, curves.derivative = some derivative := by
  have accepted := (accepted_iff
    (length_rows curves.difference curves.segmentCount (order + 1))).mpr separable
  exact ⟨⟨_, false, accepted.1, accepted.2⟩,
    (derivative_eq_some_iff curves _).mpr ⟨separable, rfl, rfl⟩⟩

variable {curves} {derivative : BezierCurves V order}

theorem segmentCount_derivative (derived : curves.derivative = some derivative) :
    derivative.segmentCount = curves.segmentCount := by
  rcases (derivative_eq_some_iff curves derivative).mp derived with ⟨-, separated, points⟩
  rw [segmentCount, separated, points, length_rows]
  exact Nat.mul_div_cancel _ (Nat.succ_pos order)

theorem segmentPoints_derivative (derived : curves.derivative = some derivative)
    {segment j : Nat} (inside : segment < curves.segmentCount) (atMost : j ≤ order) :
    derivative.segmentPoints segment j = curves.difference segment j := by
  rcases (derivative_eq_some_iff curves derivative).mp derived with ⟨-, separated, points⟩
  have step : derivative.segmentStep = order + 1 := by
    rw [segmentStep, separated]
    rfl
  rw [segmentPoints, step, points, getD_eq_getElem?_getD,
    getElem?_rows curves.difference inside (lt_succ_of_le atMost)]
  rfl

end Derivative

end BezierCurves

section HasDerivative

variable (K : Type*) [NontriviallyNormedField K] {V : Type*} [NormedAddCommGroup V]
  [NormedSpace K V] {order : Nat}

theorem isDerivative_derivative {curves : BezierCurves V (order + 1)} (small : order + 1 ≤ 12)
    {derivative : BezierCurves V order} (derived : curves.derivative = some derivative) :
    IsDerivative K curves derivative where
  segmentCount := BezierCurves.segmentCount_derivative derived
  evaluate := by
    intro segment inside
    have insideToo : segment < derivative.segmentCount :=
      (BezierCurves.segmentCount_derivative derived).symm ▸ inside
    refine ⟨_, _, curves.evaluate_eq small inside,
      derivative.evaluate_eq (le_of_succ_le small) insideToo, fun t => ?_⟩
    apply (hasDerivAt_bernsteinForm order (curves.segmentPoints segment) t).congr_deriv
    apply Finset.sum_congr rfl
    intro j mem
    rw [BezierCurves.segmentPoints_derivative derived inside
      (le_of_lt_succ (Finset.mem_range.mp mem))]
    rfl

/-- `derivative` gets past the assertions of the constructor, and what it returns is the
derivative. -/
def HasDerivative (curves : BezierCurves V (order + 1)) : Prop :=
  ∃ derivative, curves.derivative = some derivative ∧ IsDerivative K curves derivative

/-- The segments of the derivative are separated, and the constructor must not take them for
connected ones. Beyond the order 12 the coefficients are not integers of 32 bits. -/
theorem hasDerivative_iff (curves : BezierCurves V (order + 2)) :
    HasDerivative K curves ↔
      BezierCurves.IsSeparable (order + 1) curves.segmentCount ∧ order + 2 ≤ 12 := by
  constructor
  · rintro ⟨derivative, derived, isDerivative⟩
    have separable := ((curves.derivative_eq_some_iff derivative).mp derived).1
    refine ⟨separable, Nat.le_of_not_lt fun large => ?_⟩
    rcases isDerivative.evaluate 0 separable.1 with ⟨curve, _, evaluates, -⟩
    have undefined := curves.evaluate_eq_none large 0 (0 : K)
    rw [evaluates] at undefined
    cases undefined
  · rintro ⟨separable, small⟩
    rcases curves.exists_derivative separable with ⟨derivative, derived⟩
    exact ⟨derivative, derived, isDerivative_derivative K small derived⟩

end HasDerivative

/-- Two quadratic curves that are connected. -/
def twoParabolas : BezierCurves ℚ 2 where
  points := [0, 1, 2, 3, 4]
  connected := true
  pointsOk := rfl
  isConnected := rfl

/-- The four new points of two separated lines are as many as those of three connected ones. -/
theorem not_forall_hasDerivative :
    ¬∀ (order : Nat) (curves : BezierCurves ℚ (order + 2)), HasDerivative ℚ curves := by
  intro hasDerivative
  rcases hasDerivative 0 twoParabolas with ⟨derivative, derived, -⟩
  rcases ((twoParabolas.derivative_eq_some_iff derivative).mp derived).1 with ⟨-, single | apart⟩
  · exact absurd single (by decide)
  · exact apart (one_dvd _)

end Eagine.Math
