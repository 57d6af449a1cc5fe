import Mathlib.Algebra.Order.Ring.Int

/-!
# Limits of integral types

`are_safe_to_add` is meant to tell if a sum fits the type of its summands. Numbers of types that
are narrower than `int` are promoted, and what overflows a signed type is undefined.
-/

namespace Eagine

/-- An integral type, by the bits that it has for the value. -/
structure IntegralType where
  signed : Bool
  valueBits : Nat
  positive : 0 < valueBits

namespace IntegralType

def int : IntegralType where
  signed := true
  valueBits := 31
  positive := by decide

/-- `std::numeric_limits::max` -/
def max (type : IntegralType) : Int :=
  2 ^ type.valueBits - 1

/-- `std::numeric_limits::min` -/
def min (type : IntegralType) : Int :=
  if type.signed then -2 ^ type.valueBits else 0

def Fits (type : IntegralType) (number : Int) : Prop :=
  type.min ≤ number ∧ number ≤ type.max

instance (type : IntegralType) (number : Int) : Decidable (type.Fits number) :=
  inferInstanceAs (Decidable (_ ∧ _))

/-- The numbers of the type -/
abbrev Value (type : IntegralType) :=
  { number : Int // type.Fits number }

/-- The type of an arithmetic expression with operands of the type. -/
def promoted (type : IntegralType) : IntegralType :=
  if type.valueBits < int.valueBits then int else type

/-- The conversion of a number to the type -/
def convert (type : IntegralType) (number : Int) : Int :=
  (number - type.min) % (type.max - type.min + 1) + type.min

/-- The result of an operation in the type. Unsigned numbers are reduced to the range. -/
def compute (type : IntegralType) (number : Int) : Option Int :=
  if type.Fits number then some number
  else if type.signed then none
  else some (type.convert number)

/-- What is left up to the limit is compared with the other summand. -/
def areFarFromMax (type : IntegralType) (l r : Int) : Option Bool := do
  let left ← type.promoted.compute (type.max - l)
  pure (decide (left > r))

def areSafeToAdd (type : IntegralType) (l r : Int) : Option Bool :=
  if type.signed then
    if decide (l < 0) ≠ decide (r < 0) then some true
    else do
      let l ← type.promoted.compute |l|
      let r ← type.promoted.compute |r|
      type.areFarFromMax (type.convert l) (type.convert r)
  else type.areFarFromMax l r

/-- `safe_add`. There is no result if the assertion fails. -/
def safeAdd (type : IntegralType) (l r : Int) : Option Int := do
  let safe ← type.areSafeToAdd l r
  if safe then type.promoted.compute (l + r) else none

/-- What `safe_add_eq`, `safe_add_lt` and `safe_add_gt` do with a comparison. -/
def safeAddCompare (compares : Int → Int → Bool) (type : IntegralType) (l r c : Int) :
    Option Bool := do
  let safe ← type.areSafeToAdd l r
  if safe then
    let sum ← type.promoted.compute (l + r)
    pure (compares sum c)
  else pure false

def safeAddEq : (type : IntegralType) → (l r c : Int) → Option Bool :=
  safeAddCompare fun sum c => decide (sum = c)

def safeAddLt : (type : IntegralType) → (l r c : Int) → Option Bool :=
  safeAddCompare fun sum c => decide (sum < c)

def safeAddGt : (type : IntegralType) → (l r c : Int) → Option Bool :=
  safeAddCompare fun sum c => decide (sum > c)

/-- What the functions are meant to tell about a sum -/
structure ExactSum (type : IntegralType) (l r : Int) : Prop where
  areSafe : type.areSafeToAdd l r = some (decide (type.Fits (l + r)))
  sum : type.Fits (l + r) → type.safeAdd l r = some (l + r)
  eq : ∀ c, type.Fits c → type.safeAddEq l r c = some (decide (l + r = c))
  lt : ∀ c, type.Fits c → type.safeAddLt l r c = some (decide (l + r < c))
  gt : ∀ c, type.Fits c → type.safeAddGt l r c = some (decide (l + r > c))

variable {type : IntegralType} {number l r : Int}

theorem max_pos (type : IntegralType) : 0 < type.max := by
  have large : (2 : Int) ^ 1 ≤ 2 ^ type.valueBits :=
    pow_le_pow_right₀ (by decide) type.positive
  rw [max]
  omega

theorem min_of_signed (isSigned : type.signed = true) : type.min = -type.max - 1 := by
  rw [min, if_pos isSigned, max]
  omega

theorem min_of_unsigned (isUnsigned : type.signed = false) : type.min = 0 := by
  rw [min, isUnsigned]
  rfl

theorem min_le_zero (type : IntegralType) : type.min ≤ 0 := by
  have positive := type.max_pos
  cases sign : type.signed with
  | true =>
      rw [min_of_signed sign]
      omega
  | false => exact (min_of_unsigned sign).le

theorem fits_of_nonneg (nonneg : 0 ≤ number) (atMost : number ≤ type.max) : type.Fits number :=
  ⟨type.min_le_zero.trans nonneg, atMost⟩

/-- Promotion keeps numbers. -/
theorem Fits.promoted (fits : type.Fits number) : type.promoted.Fits number := by
  rw [IntegralType.promoted]
  split
  case isFalse => exact fits
  case isTrue narrow =>
      have most : type.max ≤ int.max :=
        sub_le_sub_right (pow_le_pow_right₀ (by decide) narrow.le) 1
      have least : int.min ≤ type.min := by
        rw [min_of_signed rfl]
        cases sign : type.signed with
        | true =>
            rw [min_of_signed sign]
            omega
        | false =>
            have positive := int.max_pos
            rw [min_of_unsigned sign]
            omega
      exact ⟨least.trans fits.1, fits.2.trans most⟩

theorem compute_of_fits (fits : type.Fits number) :
    type.promoted.compute number = some number := by
  rw [compute, if_pos fits.promoted]

theorem convert_of_fits (fits : type.Fits number) : type.convert number = number := by
  have nonneg : 0 ≤ number - type.min := sub_nonneg.mpr fits.1
  have small : number - type.min < type.max - type.min + 1 := by
    have atMost := fits.2
    omega
  rw [convert, Int.emod_eq_of_lt nonneg small, sub_add_cancel]

theorem areFarFromMax_eq (nonneg : 0 ≤ l) (fits : type.Fits l) (r : Int) :
    type.areFarFromMax l r = some (decide (l + r < type.max)) := by
  have left : type.Fits (type.max - l) :=
    fits_of_nonneg (sub_nonneg.mpr fits.2) (sub_le_self _ nonneg)
  rw [areFarFromMax, compute_of_fits left]
  change some (decide (type.max - l > r)) = _
  rw [decide_eq_decide.mpr]
  constructor <;> omega

theorem areSafeToAdd_of_apart (isSigned : type.signed = true) (apart : l < 0 ↔ ¬r < 0) :
    type.areSafeToAdd l r = some true := by
  have differ : decide (l < 0) ≠ decide (r < 0) := by
    intro same
    exact not_iff_self (apart.symm.trans (decide_eq_decide.mp same))
  rw [areSafeToAdd, if_pos isSigned, if_pos differ]

theorem areSafeToAdd_of_nonneg (left : 0 ≤ l) (right : 0 ≤ r) (fitsLeft : type.Fits l)
    (fitsRight : type.Fits r) :
    type.areSafeToAdd l r = some (decide (l + r < type.max)) := by
  rw [areSafeToAdd]
  split
  case isFalse => exact areFarFromMax_eq left fitsLeft r
  case isTrue =>
      rw [if_neg (by simp [left.not_gt, right.not_gt]), abs_of_nonneg left, abs_of_nonneg right,
        compute_of_fits fitsLeft, compute_of_fits fitsRight]
      simp only [Option.bind_eq_bind, Option.bind_some, convert_of_fits fitsLeft,
        convert_of_fits fitsRight]
      exact areFarFromMax_eq left fitsLeft r

theorem areSafeToAdd_of_neg (left : l < 0) (right : r < 0) (isSigned : type.signed = true)
    (leastLeft : -type.max ≤ l) (leastRight : -type.max ≤ r) :
    type.areSafeToAdd l r = some (decide (-type.max < l + r)) := by
  have fitsLeft : type.Fits (-l) := fits_of_nonneg (by omega) (by omega)
  have fitsRight : type.Fits (-r) := fits_of_nonneg (by omega) (by omega)
  rw [areSafeToAdd, if_pos isSigned, if_neg (by simp [left, right]), abs_of_neg left,
    abs_of_neg right, compute_of_fits fitsLeft, compute_of_fits fitsRight]
  simp only [Option.bind_eq_bind, Option.bind_some, convert_of_fits fitsLeft,
    convert_of_fits fitsRight]
  rw [areFarFromMax_eq (by omega) fitsLeft, decide_eq_decide.mpr]
  constructor <;> omega

theorem safeAddCompare_of_safe (compares : Int → Int → Bool)
    (safe : type.areSafeToAdd l r = some true) (fits : type.Fits (l + r)) (c : Int) :
    safeAddCompare compares type l r c = some (compares (l + r) c) := by
  rw [safeAddCompare, safe]
  simp only [Option.bind_eq_bind, Option.bind_some, if_true, compute_of_fits fits]
  rfl

theorem safeAddCompare_of_not_safe (compares : Int → Int → Bool)
    (isUnsafe : type.areSafeToAdd l r = some false) (c : Int) :
    safeAddCompare compares type l r c = some false := by
  rw [safeAddCompare, isUnsafe]
  rfl

theorem exactSum_of_safe (safe : type.areSafeToAdd l r = some true) (fits : type.Fits (l + r)) :
    type.ExactSum l r where
  areSafe := by rw [safe, decide_eq_true fits]
  sum _ := by
    rw [safeAdd, safe]
    exact compute_of_fits fits
  eq c _ := safeAddCompare_of_safe _ safe fits c
  lt c _ := safeAddCompare_of_safe _ safe fits c
  gt c _ := safeAddCompare_of_safe _ safe fits c

/-- A sum that does not fit is beyond a limit, which is told from no number. -/
theorem ExactSum.fits (isExact : type.ExactSum l r) : type.Fits (l + r) := by
  by_contra outside
  have positive := type.max_pos
  have isUnsafe := isExact.areSafe
  rw [decide_eq_false outside] at isUnsafe
  have zero : type.Fits 0 := fits_of_nonneg le_rfl positive.le
  have notLess := (isExact.lt 0 zero).symm.trans (safeAddCompare_of_not_safe _ isUnsafe 0)
  have notGreater := (isExact.gt 0 zero).symm.trans (safeAddCompare_of_not_safe _ isUnsafe 0)
  simp only [Option.some.injEq, decide_eq_false_iff_not] at notLess notGreater
  have isZero : l + r = 0 := by omega
  exact outside (isZero ▸ zero)

/-- Summands with the same sign are told from the limits by what is next to them. -/
theorem areSafeToAdd_of_alike (fitsLeft : type.Fits l) (fitsRight : type.Fits r)
    (alike : ¬(type.signed = true ∧ (l < 0 ↔ ¬r < 0))) (fits : type.Fits (l + r)) :
    type.areSafeToAdd l r = some (decide (-type.max < l + r ∧ l + r < type.max)) := by
  have positive := type.max_pos
  by_cases left : l < 0
  · have isSigned : type.signed = true := by
      by_contra isUnsigned
      have least := fitsLeft.1
      rw [min_of_unsigned (Bool.eq_false_iff.mpr isUnsigned)] at least
      omega
    have right : r < 0 := by
      by_contra nonneg
      exact alike ⟨isSigned, iff_of_true left nonneg⟩
    have least := fits.1
    rw [min_of_signed isSigned] at least
    rw [areSafeToAdd_of_neg left right isSigned (by omega) (by omega), decide_eq_decide.mpr]
    constructor <;> omega
  · have right : ¬r < 0 := by
      intro negative
      cases sign : type.signed with
      | true => exact alike ⟨sign, iff_of_false left (not_not.mpr negative)⟩
      | false =>
          have least := fitsRight.1
          rw [min_of_unsigned sign] at least
          omega
    rw [areSafeToAdd_of_nonneg (not_lt.mp left) (not_lt.mp right) fitsLeft fitsRight,
      decide_eq_decide.mpr]
    constructor <;> omega

theorem fits_of_apart (fitsLeft : type.Fits l) (fitsRight : type.Fits r) (apart : l < 0 ↔ ¬r < 0) :
    type.Fits (l + r) := by
  have leastLeft := fitsLeft.1
  have leastRight := fitsRight.1
  have mostLeft := fitsLeft.2
  have mostRight := fitsRight.2
  constructor <;> omega

theorem fits_of_far (fitsLeft : type.Fits l) (fitsRight : type.Fits r)
    (far : -type.max < l + r ∧ l + r < type.max) : type.Fits (l + r) := by
  have leastLeft := fitsLeft.1
  have leastRight := fitsRight.1
  refine ⟨?_, far.2.le⟩
  cases sign : type.signed with
  | true =>
      rw [min_of_signed sign]
      omega
  | false =>
      rw [min_of_unsigned sign] at leastLeft leastRight ⊢
      omega

/-- A sum is told exactly if the summands have different signs, or if the sum is neither the
greatest number nor its opposite, nor beyond them. -/
theorem exactSum_iff (type : IntegralType) (l r : type.Value) :
    type.ExactSum l r ↔
      (type.signed = true ∧ ((l : Int) < 0 ↔ ¬(r : Int) < 0)) ∨
        (-type.max < (l : Int) + r ∧ (l : Int) + r < type.max) := by
  rcases l with ⟨l, fitsLeft⟩
  rcases r with ⟨r, fitsRight⟩
  constructor
  · intro isExact
    refine or_iff_not_imp_left.mpr fun alike => ?_
    have told := areSafeToAdd_of_alike fitsLeft fitsRight alike isExact.fits
    rw [isExact.areSafe, decide_eq_true isExact.fits, Option.some.injEq] at told
    exact of_decide_eq_true told.symm
  · intro regular
    by_cases apart : type.signed = true ∧ (l < 0 ↔ ¬r < 0)
    · exact exactSum_of_safe (areSafeToAdd_of_apart apart.1 apart.2)
        (fits_of_apart fitsLeft fitsRight apart.2)
    · have far := regular.resolve_left apart
      have fits := fits_of_far fitsLeft fitsRight far
      have told := areSafeToAdd_of_alike fitsLeft fitsRight apart fits
      rw [decide_eq_true far] at told
      exact exactSum_of_safe told fits

/-- The greatest number and zero -/
theorem not_forall_exactSum :
    ¬∀ (type : IntegralType) (l r : type.Value), type.ExactSum l r := by
  intro isExact
  have told := (isExact int ⟨int.max, by decide⟩ ⟨0, by decide⟩).areSafe
  exact absurd told (by decide)

end IntegralType

end Eagine
