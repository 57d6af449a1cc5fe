import Mathlib.Data.Nat.Log
import Mathlib.Tactic.Ring

/-!
# Decomposed floating-point numbers

`decompose` makes two integers of a floating-point number, and `compose` makes a number of
them, with the roundings of its arithmetic.
-/

namespace Eagine.Serialization

/-- `n / 2 ^ drop`, rounded to the nearest number, and to the even one of two. -/
def roundEven (n drop : Nat) : Nat :=
  let rest := 2 * (n % 2 ^ drop)
  n / 2 ^ drop + if rest < 2 ^ drop ∨ rest = 2 ^ drop ∧ n / 2 ^ drop % 2 = 0 then 0 else 1

theorem roundEven_mul (n drop : Nat) : roundEven (n * 2 ^ drop) drop = n := by
  have positive := Nat.two_pow_pos drop
  simp [roundEven, Nat.mul_div_cancel n positive, positive]

/-- The rounded number is at most a half away. -/
theorem roundEven_le (n drop : Nat) : 2 * (roundEven n drop * 2 ^ drop) ≤ 2 * n + 2 ^ drop := by
  have parts := Nat.div_add_mod n (2 ^ drop)
  have small := Nat.mod_lt n (Nat.two_pow_pos drop)
  rw [roundEven, Nat.add_mul, Nat.mul_comm (n / 2 ^ drop)]
  split
  · omega
  · omega

inductive FloatType where
  | float
  | double
deriving DecidableEq

namespace FloatType

def width : FloatType → Nat
  | float => 32
  | double => 64

def exponentWidth : FloatType → Nat
  | float => 16
  | double => 32

/-- The bits of the significand behind the first one. -/
def digits : FloatType → Nat
  | float => 23
  | double => 52

/-- The exponents of the smallest and the largest normal number from `frexp`. -/
def minExponent : FloatType → Int
  | float => -125
  | double => -1021

def maxExponent : FloatType → Int
  | float => 128
  | double => 1024

variable (type : FloatType)

/-- A number with this fraction behind a one and this exponent is in the type; subnormal
numbers have fewer digits. -/
def Fits (fraction : Nat) (exponent : Int) : Prop :=
  fraction < 2 ^ type.digits ∧ exponent ≤ type.maxExponent ∧
    type.minExponent - type.digits ≤ exponent ∧
    2 ^ (type.minExponent - exponent).toNat ∣ fraction

instance (fraction : Nat) (exponent : Int) : Decidable (type.Fits fraction exponent) :=
  inferInstanceAs (Decidable (_ ∧ _))

/-- A number of the type; the payload of a NaN is left out. -/
inductive Floating where
  | zero (negative : Bool)
  | infinite (negative : Bool)
  | nan (negative : Bool)
  | finite (negative : Bool) (fraction : Nat) (exponent : Int) (fits : type.Fits fraction exponent)
deriving DecidableEq

structure Decomposed where
  fraction : BitVec type.width
  exponent : BitVec type.exponentWidth

/-- The bits of a fraction word behind those of the significand. -/
def spare : Nat :=
  type.width - 1 - type.digits

/-- `std::ldexp` of a significand from a half to one, rounded where the result is subnormal. -/
def ldexp (negative : Bool) (significand : Nat) (exponent : Int) : type.Floating :=
  let drop := (type.minExponent - exponent).toNat
  let kept := roundEven significand drop
  let fraction := kept * 2 ^ (type.digits - kept.log2) % 2 ^ type.digits
  let exponent := exponent + drop + kept.log2 - type.digits
  if kept = 0 then .zero negative
  else if fits : type.Fits fraction exponent then .finite negative fraction exponent fits
  else .infinite negative

/-- The conversion of an integer. -/
def convert (n : Nat) : Nat :=
  roundEven n (n.log2 - type.digits) * 2 ^ (n.log2 - type.digits)

variable {type}

def decompose : type.Floating → type.Decomposed
  | .zero negative => ⟨0, .ofNat _ negative.toNat⟩
  | .infinite negative => ⟨0, .ofNat _ (2 + negative.toNat)⟩
  | .nan negative => ⟨0, .ofNat _ (4 + negative.toNat)⟩
  | .finite negative fraction exponent _ =>
      ⟨.ofNat _ (2 * (fraction * 2 ^ type.spare) + negative.toNat), .ofInt _ exponent⟩

/-- What a fraction of zero stands for with this exponent. -/
def special : Int → Option type.Floating
  | 0 => some (.zero false)
  | 1 => some (.zero true)
  | 2 => some (.infinite false)
  | 3 => some (.infinite true)
  | 4 => some (.nan false)
  | 5 => some (.nan true)
  | _ => none

def compose (parts : type.Decomposed) : type.Floating :=
  let fre := parts.fraction.toNat
  let exponent := parts.exponent.toInt
  let sum := roundEven (type.convert (fre / 2) + 2 ^ (type.width - 1)) type.spare
  let composed := type.ldexp (fre % 2 == 1) sum exponent
  if fre = 0 then (special exponent).getD composed else composed

/-- Not a positive power of two with an exponent that stands for something else. -/
def Floating.Kept : type.Floating → Prop
  | .finite false 0 exponent _ => ¬(0 ≤ exponent ∧ exponent ≤ 5)
  | _ => True

variable {fraction : Nat} {exponent : Int}

theorem convert_mul (small : fraction < 2 ^ type.digits) :
    type.convert (fraction * 2 ^ type.spare) = fraction * 2 ^ type.spare := by
  have below : (fraction * 2 ^ type.spare).log2 - type.digits ≤ type.spare := by
    by_cases none : fraction * 2 ^ type.spare = 0
    · simp [none]
    · have bound : (fraction * 2 ^ type.spare).log2 < type.digits + type.spare := by
        rw [Nat.log2_lt none, Nat.pow_add]
        exact Nat.mul_lt_mul_of_pos_right small (Nat.two_pow_pos _)
      omega
  rw [convert]
  generalize (fraction * 2 ^ type.spare).log2 - type.digits = drop at below
  rcases Nat.exists_eq_add_of_le' below with ⟨more, spareEq⟩
  rw [spareEq, Nat.pow_add, ← Nat.mul_assoc, roundEven_mul]

theorem convert_le (n : Nat) : type.convert n ≤ 2 * n := by
  rw [convert]
  by_cases large : type.digits < n.log2
  · have nonzero : n ≠ 0 := by
      rintro rfl
      exact absurd large (by simp)
    have rounded := roundEven_le n (n.log2 - type.digits)
    have step : 2 ^ (n.log2 - type.digits) ≤ 2 ^ n.log2 :=
      Nat.pow_le_pow_right Nat.two_pos (Nat.sub_le _ _)
    have below := Nat.log2_self_le nonzero
    omega
  · have short : n.log2 - type.digits = 0 := by omega
    simp [short, roundEven, Nat.mod_one]
    omega

/-- A significand that has its fraction is rounded to itself. -/
theorem roundEven_significand {drop : Nat} (small : fraction < 2 ^ type.digits)
    (short : drop ≤ type.digits) (dvd : 2 ^ drop ∣ fraction) :
    let kept := roundEven (fraction + 2 ^ type.digits) drop
    kept ≠ 0 ∧ kept.log2 = type.digits - drop ∧ kept * 2 ^ drop = fraction + 2 ^ type.digits := by
  rcases dvd with ⟨count, rfl⟩
  have split := Nat.pow_add 2 drop (type.digits - drop)
  rw [Nat.add_sub_cancel' short] at split
  have positive := Nat.two_pow_pos (type.digits - drop)
  have bound : count < 2 ^ (type.digits - drop) := by
    rw [split] at small
    exact Nat.lt_of_mul_lt_mul_left small
  have sum : 2 ^ drop * count + 2 ^ type.digits =
      (count + 2 ^ (type.digits - drop)) * 2 ^ drop := by
    rw [split, ← Nat.mul_add, Nat.mul_comm]
  rw [sum, roundEven_mul]
  refine ⟨by omega, ?_, rfl⟩
  rw [Nat.log2_eq_iff (by omega)]
  omega

/-- The number of a fraction and an exponent is exact. -/
theorem ldexp_eq (negative : Bool) (fits : type.Fits fraction exponent) :
    type.ldexp negative (fraction + 2 ^ type.digits) exponent =
      .finite negative fraction exponent fits := by
  have short : (type.minExponent - exponent).toNat ≤ type.digits := by
    have above := fits.2.2.1
    omega
  rcases roundEven_significand fits.1 short fits.2.2.2 with ⟨nonzero, log2Eq, restored⟩
  have fractionEq : roundEven (fraction + 2 ^ type.digits) (type.minExponent - exponent).toNat *
      2 ^ (type.digits - (type.digits - (type.minExponent - exponent).toNat)) %
        2 ^ type.digits = fraction := by
    rw [Nat.sub_sub_self short, restored, Nat.add_mod_right, Nat.mod_eq_of_lt fits.1]
  have exponentEq : exponent + (type.minExponent - exponent).toNat +
      (type.digits - (type.minExponent - exponent).toNat : Nat) - type.digits = exponent := by
    omega
  simp only [ldexp, if_neg nonzero, log2Eq, fractionEq, exponentEq, dif_pos fits]

theorem two_pow_width (type : FloatType) :
    2 ^ (type.width - 1) = 2 ^ type.digits * 2 ^ type.spare ∧
      2 ^ type.width = 2 * 2 ^ (type.width - 1) := by
  cases type with
  | float => exact ⟨rfl, rfl⟩
  | double => exact ⟨rfl, rfl⟩

/-- The first bit of the fraction word is the sign. -/
theorem toNat_decompose (negative : Bool) (fits : type.Fits fraction exponent) :
    (decompose (.finite negative fraction exponent fits)).fraction.toNat =
      2 * (fraction * 2 ^ type.spare) + negative.toNat := by
  have numberLt : fraction * 2 ^ type.spare < 2 ^ (type.width - 1) := by
    rw [(two_pow_width type).1]
    exact Nat.mul_lt_mul_of_pos_right fits.1 (Nat.two_pow_pos _)
  have bit := negative.toNat_lt
  have double := (two_pow_width type).2
  rw [decompose, BitVec.toNat_ofNat, Nat.mod_eq_of_lt]
  omega

theorem toInt_decompose (negative : Bool) (fits : type.Fits fraction exponent) :
    (decompose (.finite negative fraction exponent fits)).exponent.toInt = exponent := by
  rcases fits with ⟨_, below, above, _⟩
  apply BitVec.toInt_ofInt_eq_self
  · cases type <;> decide
  · cases type <;> simp [minExponent, digits, exponentWidth] at above ⊢ <;> omega
  · cases type <;> simp [maxExponent, exponentWidth] at below ⊢ <;> omega

theorem compose_decompose_iff (value : type.Floating) :
    compose (decompose value) = value ↔ value.Kept := by
  cases value with
  | zero negative => exact iff_of_true (by cases type <;> cases negative <;> rfl) trivial
  | infinite negative => exact iff_of_true (by cases type <;> cases negative <;> rfl) trivial
  | nan negative => exact iff_of_true (by cases type <;> cases negative <;> rfl) trivial
  | finite negative fraction exponent fits =>
      have bit := negative.toNat_lt
      have half : (2 * (fraction * 2 ^ type.spare) + negative.toNat) / 2 =
          fraction * 2 ^ type.spare := by omega
      have sign : ((2 * (fraction * 2 ^ type.spare) + negative.toNat) % 2 == 1) = negative := by
        cases negative <;> simp
      have zero : 2 * (fraction * 2 ^ type.spare) + negative.toNat = 0 ↔
          fraction = 0 ∧ negative = false := by
        cases negative <;> simp
      simp only [compose, toNat_decompose, toInt_decompose, half, sign, zero, convert_mul fits.1]
      rw [(two_pow_width type).1, ← Nat.add_mul, roundEven_mul, ldexp_eq negative fits]
      by_cases lost : fraction = 0 ∧ negative = false
      · rw [if_pos lost]
        rcases lost with ⟨rfl, rfl⟩
        unfold special
        split
        all_goals simp [Floating.Kept]
        grind
      · rw [if_neg lost]
        cases negative with
        | true => exact iff_of_true rfl trivial
        | false =>
            cases fraction with
            | zero => exact absurd ⟨rfl, rfl⟩ lost
            | succ fraction => exact iff_of_true rfl trivial

/-- The rounded significand has its fraction behind a one. -/
theorem significand_of_ldexp {negative sign : Bool} {significand : Nat}
    {fits : type.Fits fraction exponent}
    (composed : type.ldexp sign significand exponent = .finite negative fraction exponent fits) :
    roundEven significand (type.minExponent - exponent).toNat *
      2 ^ (type.minExponent - exponent).toNat = fraction + 2 ^ type.digits := by
  have short : (type.minExponent - exponent).toNat ≤ type.digits := by
    have above := fits.2.2.1
    omega
  simp only [ldexp] at composed
  generalize (type.minExponent - exponent).toNat = drop at composed short ⊢
  generalize roundEven significand drop = kept at composed ⊢
  split at composed
  · cases composed
  · rename_i nonzero
    split at composed
    · injection composed with _ fractionEq exponentEq
      have log2Eq : kept.log2 = type.digits - drop := by omega
      rcases (Nat.log2_eq_iff nonzero).mp log2Eq with ⟨above, below⟩
      have double : 2 ^ type.digits = 2 ^ (type.digits - drop) * 2 ^ drop := by
        rw [← Nat.pow_add, Nat.sub_add_cancel short]
      rw [log2Eq, Nat.sub_sub_self short] at fractionEq
      have least : 2 ^ type.digits ≤ kept * 2 ^ drop := by
        rw [double]
        exact Nat.mul_le_mul_right _ above
      have most : kept * 2 ^ drop < 2 * 2 ^ type.digits := by
        rw [double, ← Nat.mul_assoc, ← Nat.pow_succ']
        exact Nat.mul_lt_mul_of_pos_right below (Nat.two_pow_pos drop)
      rw [← fractionEq, Nat.mod_eq_sub_mod least, Nat.mod_eq_of_lt (by omega)]
      omega
    · cases composed

/-- A number is not composed of a shorter fraction. -/
theorem compose_ne {value : type.Floating} {parts : type.Decomposed}
    (exponentEq : parts.exponent = (decompose value).exponent)
    (positive : 0 < parts.fraction.toNat)
    (less : 16 * parts.fraction.toNat ≤ (decompose value).fraction.toNat) :
    compose parts ≠ value := by
  have nonzero : (decompose value).fraction.toNat ≠ 0 := by omega
  intro composed
  cases value with
  | zero negative => exact nonzero BitVec.toNat_zero
  | infinite negative => exact nonzero BitVec.toNat_zero
  | nan negative => exact nonzero BitVec.toNat_zero
  | finite negative fraction exponent fits =>
      have bit := negative.toNat_lt
      simp only [compose, exponentEq, toInt_decompose, if_neg positive.ne'] at composed
      have restored := significand_of_ldexp composed
      have rounded := roundEven_le (type.convert (parts.fraction.toNat / 2) + 2 ^ (type.width - 1))
        type.spare
      generalize roundEven _ type.spare = sum at restored rounded
      have converted := @convert_le type (parts.fraction.toNat / 2)
      have spareEq : 2 ^ type.spare = 8 * 2 ^ (type.spare - 3) := by cases type <;> rfl
      have spared := Nat.two_pow_pos (type.spare - 3)
      rw [toNat_decompose, spareEq] at less
      rw [(two_pow_width type).1, spareEq] at rounded
      generalize 2 ^ (type.spare - 3) = word at less rounded spared
      have below : type.convert (parts.fraction.toNat / 2) ≤ fraction * word := by
        have regrouped : fraction * (8 * word) = 8 * (fraction * word) := by ring
        omega
      have short : 16 * sum ≤ 2 * fraction + 16 * 2 ^ type.digits + 8 := by
        apply Nat.le_of_mul_le_mul_right _ spared
        calc 16 * sum * word = 2 * (sum * (8 * word)) := by ring
          _ ≤ 2 * (fraction * word + 2 ^ type.digits * (8 * word)) + 8 * word := by omega
          _ = (2 * fraction + 16 * 2 ^ type.digits + 8) * word := by ring
      have fractionPos : 0 < fraction := by
        rcases Nat.eq_zero_or_pos fraction with rfl | some
        · omega
        · exact some
      have dropped := Nat.le_of_dvd fractionPos fits.2.2.2
      have nearest := roundEven_le sum (type.minExponent - exponent).toNat
      omega

end FloatType

end Eagine.Serialization
