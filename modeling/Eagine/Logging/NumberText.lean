import Eagine.Theory.Json
import Eagine.Theory.Numeral

/-!
# Numbers in a log

The texts that `std::to_chars` makes of integers and of floating-point numbers. They are numbers
of JSON, unless they stand for infinity or for no number.
-/

open List

namespace Eagine.Logging

open Theory Theory.Json

def digitChar (digit : Nat) : Char :=
  Char.ofNat ('0'.toNat + digit)

def unsignedText (value : Nat) : List Char :=
  numeral digitChar 10 value

def signedText (value : Int) : List Char :=
  if value < 0 then '-' :: unsignedText value.natAbs else unsignedText value.natAbs

/-- A number of the type `float`, by the shortest representation that `std::to_chars` chooses for
it: the fixed or the scientific one. -/
inductive FloatValue where
  | fixed (negative : Bool) (integer : Nat) (fraction : List (Fin 10))
  | scientific (negative : Bool) (first : Fin 10) (fraction : List (Fin 10)) (exponent : Int)
  | infinity (negative : Bool)
  | notANumber (negative : Bool)
deriving DecidableEq

namespace FloatValue

def isFinite : FloatValue → Bool
  | fixed _ _ _ => true
  | scientific _ _ _ _ => true
  | _ => false

def signText (negative : Bool) : List Char :=
  if negative then ['-'] else []

def digitsText (digits : List (Fin 10)) : List Char :=
  digits.map fun digit : Fin 10 => digitChar digit

def fractionText (fraction : List (Fin 10)) : List Char :=
  if fraction = [] then [] else '.' :: digitsText fraction

/-- The exponent has at least two digits. -/
def exponentText (exponent : Int) : List Char :=
  'e' :: (if exponent < 0 then '-' else '+') ::
    (if exponent.natAbs < 10 then '0' :: unsignedText exponent.natAbs
    else unsignedText exponent.natAbs)

def text : FloatValue → List Char
  | fixed negative integer fraction =>
      signText negative ++ (unsignedText integer ++ fractionText fraction)
  | scientific negative first fraction exponent =>
      signText negative ++ ([digitChar first] ++ (fractionText fraction ++ exponentText exponent))
  | infinity negative => signText negative ++ ['i', 'n', 'f']
  | notANumber negative => signText negative ++ ['n', 'a', 'n']

end FloatValue

theorem isDigit_digitChar {digit : Nat} (small : digit < 10) : (digitChar digit).isDigit = true := by
  interval_cases digit <;> rfl

theorem isDigit_unsignedText (value : Nat) : ∀ c ∈ unsignedText value, c.isDigit = true := by
  intro c within
  rcases mem_map.mp within with ⟨digit, inDigits, rfl⟩
  exact isDigit_digitChar (digitsOf_lt (by decide) digit (mem_reverse.mp inDigits))

/-- A numeral begins with zero only when it is zero. -/
theorem unsignedText_normal (value : Nat) :
    ∃ c others, unsignedText value = c :: others ∧ (c = '0' → others = []) := by
  have whole : unsignedText value =
      ((Nat.digits 10 (value / 10)).reverse.map digitChar) ++ [digitChar (value % 10)] := by
    simp [unsignedText, numeral, digitsOf]
  cases tens : (Nat.digits 10 (value / 10)).reverse with
  | nil => exact ⟨digitChar (value % 10), [], by simp [whole, tens], fun _ => rfl⟩
  | cons digit digits =>
      refine ⟨digitChar digit, digits.map digitChar ++ [digitChar (value % 10)], ?_, ?_⟩
      · simp [whole, tens]
      · intro zero
        have notNil : Nat.digits 10 (value / 10) ≠ [] := by
          intro nothing
          rw [nothing] at tens
          exact absurd tens (by simp)
        have last : (Nat.digits 10 (value / 10)).getLast notNil = digit := by
          rw [← head_reverse (by simpa using notNil)]
          simp [tens]
        have nonzero : value / 10 ≠ 0 := by
          intro nothing
          exact notNil (by rw [nothing, Nat.digits_zero])
        have significant := Nat.getLast_digit_ne_zero 10 nonzero
        rw [last] at significant
        have small : digit < 10 := Nat.digits_lt_base (by decide)
          (mem_reverse.mp (tens ▸ mem_cons_self))
        interval_cases digit <;> first | exact absurd rfl significant | exact absurd zero (by decide)

theorem isNumberChar_of_isDigit {c : Char} (digit : c.isDigit = true) : isNumberChar c = true := by
  simp [isNumberChar, digit]

/-- The digits before a point or an exponent. -/
theorem isUnsigned_append {integer tail : List Char}
    (digits : ∀ c ∈ integer, c.isDigit = true)
    (normal : ∃ c others, integer = c :: others ∧ (c = '0' → others = []))
    (isTail : isFraction tail = true) (notDigit : ∀ c ∈ tail.head?, c.isDigit = false) :
    isUnsigned (integer ++ tail) = true := by
  rcases normal with ⟨c, others, rfl, alone⟩
  rcases forall_mem_cons.mp digits with ⟨first, rest⟩
  by_cases zero : c = '0'
  · rw [zero, alone zero]
    simpa [isUnsigned] using isTail
  · have stop : tail.dropWhile Char.isDigit = tail := by
      cases tail with
      | nil => rfl
      | cons d tail => simp [notDigit d rfl]
    rw [cons_append, isUnsigned]
    · rw [dropWhile_append_of_pos rest, stop, first, isTail]
      rfl
    · simpa using zero

theorem isNumber_append (negative : Bool) {magnitude : List Char}
    (isMagnitude : isUnsigned magnitude = true) :
    isNumber (FloatValue.signText negative ++ magnitude) = true := by
  cases negative with
  | true => exact isMagnitude
  | false =>
      cases magnitude with
      | nil => exact absurd isMagnitude (by decide)
      | cons c others =>
          have notMinus : c ≠ '-' := by
            rintro rfl
            exact absurd isMagnitude (by simp [isUnsigned])
          simpa [FloatValue.signText, isNumber, notMinus] using isMagnitude

theorem parses_unsigned (value : Nat) :
    Parses (.number (unsignedText value)) (unsignedText value) := by
  apply parses_number
  · have isMagnitude := isUnsigned_append (isDigit_unsignedText value) (unsignedText_normal value)
      (by rfl : isFraction [] = true) (by simp)
    rw [append_nil] at isMagnitude
    exact isNumber_append false isMagnitude
  · exact fun c within => isNumberChar_of_isDigit (isDigit_unsignedText value c within)

theorem parses_signed (value : Int) : Parses (.number (signedText value)) (signedText value) := by
  have isMagnitude := isUnsigned_append (isDigit_unsignedText value.natAbs)
    (unsignedText_normal value.natAbs) (by rfl : isFraction [] = true) (by simp)
  rw [append_nil] at isMagnitude
  rw [signedText]
  split
  · apply parses_number
    · exact isNumber_append true isMagnitude
    · exact forall_mem_cons.mpr
        ⟨rfl, fun c within => isNumberChar_of_isDigit (isDigit_unsignedText _ c within)⟩
  · exact parses_unsigned _

namespace FloatValue

theorem isDigit_digitsText (digits : List (Fin 10)) : ∀ c ∈ digitsText digits, c.isDigit = true := by
  intro c within
  rcases mem_map.mp within with ⟨digit, _, rfl⟩
  exact isDigit_digitChar digit.isLt

theorem isExponent_exponentText (exponent : Int) : isExponent (exponentText exponent) = true := by
  have digits : isDigits (if exponent.natAbs < 10 then '0' :: unsignedText exponent.natAbs
      else unsignedText exponent.natAbs) = true := by
    rcases unsignedText_normal exponent.natAbs with ⟨c, others, text, _⟩
    have all := isDigit_unsignedText exponent.natAbs
    rw [text] at all ⊢
    have allDigits : (c :: others).all Char.isDigit = true := all_eq_true.mpr all
    split
    · simpa [isDigits] using allDigits
    · simpa [isDigits] using allDigits
  rw [exponentText]
  split
  · exact digits
  · exact digits

/-- A fraction, when there is one, and what follows it. -/
theorem isFraction_append (fraction : List (Fin 10)) {tail : List Char}
    (isTail : isExponent tail = true) (notDigit : ∀ c ∈ tail.head?, c.isDigit = false)
    (notPoint : ∀ c ∈ tail.head?, c ≠ '.') :
    isFraction (fractionText fraction ++ tail) = true := by
  cases fraction with
  | nil =>
      cases tail with
      | nil => rfl
      | cons c tail =>
          have different : c ≠ '.' := notPoint c rfl
          simpa [fractionText, isFraction, different] using isTail
  | cons digit digits =>
      have stop : tail.dropWhile Char.isDigit = tail := by
        cases tail with
        | nil => rfl
        | cons d tail => simp [notDigit d rfl]
      have rest : (digitsText digits ++ tail).dropWhile Char.isDigit = tail := by
        rw [dropWhile_append_of_pos (isDigit_digitsText digits), stop]
      have first := isDigit_digitChar digit.isLt
      change isFraction ('.' :: digitChar digit :: (digitsText digits ++ tail)) = true
      rw [isFraction, first, rest, isTail]
      rfl

theorem isNumberChar_signText (negative : Bool) : ∀ c ∈ signText negative, isNumberChar c = true := by
  cases negative <;> simp [signText, isNumberChar]

theorem isNumberChar_fractionText (fraction : List (Fin 10)) :
    ∀ c ∈ fractionText fraction, isNumberChar c = true := by
  rw [fractionText]
  split
  · simp
  · exact forall_mem_cons.mpr
      ⟨rfl, fun c within => isNumberChar_of_isDigit (isDigit_digitsText _ c within)⟩

theorem isNumberChar_exponentText (exponent : Int) :
    ∀ c ∈ exponentText exponent, isNumberChar c = true := by
  have digits := fun c within =>
    isNumberChar_of_isDigit (isDigit_unsignedText exponent.natAbs c within)
  rw [exponentText]
  refine forall_mem_cons.mpr ⟨rfl, forall_mem_cons.mpr ⟨?_, ?_⟩⟩
  · split <;> rfl
  · split
    · exact forall_mem_cons.mpr ⟨rfl, digits⟩
    · exact digits

theorem parses_text {value : FloatValue} (finite : value.isFinite = true) :
    Parses (.number value.text) value.text := by
  cases value with
  | fixed negative integer fraction =>
      have isTail := isFraction_append fraction (by rfl : isExponent [] = true) (by simp) (by simp)
      rw [append_nil] at isTail
      have notDigit : ∀ c ∈ (fractionText fraction).head?, c.isDigit = false := by
        cases fraction <;> simp [fractionText]
      apply parses_number
      · exact isNumber_append negative (isUnsigned_append (isDigit_unsignedText integer)
          (unsignedText_normal integer) isTail notDigit)
      · rw [text, forall_mem_append, forall_mem_append]
        exact ⟨isNumberChar_signText negative,
          fun c within => isNumberChar_of_isDigit (isDigit_unsignedText integer c within),
          isNumberChar_fractionText fraction⟩
  | scientific negative first fraction exponent =>
      have isTail := isFraction_append fraction (isExponent_exponentText exponent)
        (by simp [exponentText]) (by simp [exponentText])
      have notDigit : ∀ c ∈ (fractionText fraction ++ exponentText exponent).head?,
          c.isDigit = false := by
        cases fraction <;> simp [fractionText, exponentText]
      have isFirst : ∀ c ∈ [digitChar first], c.isDigit = true := by
        intro c within
        rw [mem_singleton.mp within]
        exact isDigit_digitChar first.isLt
      apply parses_number
      · exact isNumber_append negative (isUnsigned_append isFirst
          ⟨digitChar first, [], rfl, fun _ => rfl⟩ isTail notDigit)
      · rw [text, forall_mem_append, forall_mem_append, forall_mem_append]
        exact ⟨isNumberChar_signText negative,
          fun c within => isNumberChar_of_isDigit (isFirst c within),
          isNumberChar_fractionText fraction, isNumberChar_exponentText exponent⟩
  | infinity negative => exact absurd finite Bool.false_ne_true
  | notANumber negative => exact absurd finite Bool.false_ne_true

end FloatValue

end Eagine.Logging
