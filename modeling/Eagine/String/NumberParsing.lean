import Eagine.String.FromString

/-!
# Numbers from strings

A number is a sign, decimal digits and the symbol of a multiple. The digits are converted to
the widest integer and multiplied there, and what is obtained is compared with the limits of the
type. The product of two signed integers is undefined where it is not in their range, thus it
can be any value.
-/

namespace Eagine.FromString

open Theory Serialization

/-- The types of the functions in `string_traits` that convert with the standard library. -/
inductive IntegerType where
  | short
  | int
  | long
  | longLong
  | unsignedShort
  | unsignedInt
  | unsignedLong
  | unsignedLongLong

namespace IntegerType

def width : IntegerType → IntWidth
  | short | unsignedShort => .w16
  | int | unsignedInt => .w32
  | long | longLong | unsignedLong | unsignedLongLong => .w64

def isSigned : IntegerType → Bool
  | short | int | long | longLong => true
  | unsignedShort | unsignedInt | unsignedLong | unsignedLongLong => false

def fits (type : IntegerType) : Int → Bool :=
  if type.isSigned then intFits type.width else uintFits type.width

/-- `from_string` in a build without the parser of expressions. The product of signed integers
is a function of the product of their values. -/
def fromString (product : Int → Int) (type : IntegerType) (src : Block) : Option Int :=
  letI := noExpressions
  if type.isSigned then convertFromStringWith strtol product (intFits type.width) src
  else fromUint type.width src

end IntegerType

/-- The products in the range are exact, and the others are undefined. -/
structure IsSignedProduct (product : Int → Int) : Prop where
  fits : ∀ value, intFits .w64 (product value) = true
  exact : ∀ value, intFits .w64 value = true → product value = value

inductive Sign where
  | none
  | plus
  | minus

def Sign.text : Sign → Block
  | none => []
  | plus => [byteOf '+']
  | minus => [byteOf '-']

def Sign.isMinus : Sign → Bool
  | none | plus => false
  | minus => true

inductive Multiple where
  | one
  | k
  | M
  | G
  | Ki
  | Mi
  | Gi

namespace Multiple

def text : Multiple → Block
  | one => []
  | k => textOf "k"
  | M => textOf "M"
  | G => textOf "G"
  | Ki => textOf "Ki"
  | Mi => textOf "Mi"
  | Gi => textOf "Gi"

def factor : Multiple → Nat
  | one => 1
  | k => 10 ^ 3
  | M => 10 ^ 6
  | G => 10 ^ 9
  | Ki => 2 ^ 10
  | Mi => 2 ^ 20
  | Gi => 2 ^ 30

end Multiple

structure Number where
  sign : Sign
  digits : List (Fin 10)
  nonempty : digits ≠ []
  multiple : Multiple

namespace Number

variable (number : Number)

def text : Block :=
  number.sign.text ++ ((number.digits.map Fin.val).map digitChar ++ number.multiple.text)

def magnitude : Nat :=
  valueOf 10 (number.digits.map Fin.val)

/-- The value of the sign and the digits. -/
def signed : Int :=
  if number.sign.isMinus then -number.magnitude else number.magnitude

def value : Int :=
  number.signed * number.multiple.factor

end Number

/-- A number is converted to its value if that is in the range of the type, and else to nothing,
whatever the undefined products are. -/
def ParsesExactly (type : IntegerType) (number : Number) : Prop :=
  ∀ product, IsSignedProduct product → ∀ value,
    type.fromString product number.text = some value ↔
      type.fits number.value = true ∧ value = number.value

/-- A signed product is in the range of the words if its number is, and an unsigned one, when
the digits are in their range, is not a multiple of the range away from a value of the type. -/
def NoWrap (type : IntegerType) (number : Number) : Prop :=
  if type.isSigned then intFits .w64 number.signed = true → intFits .w64 number.value = true
  else uintFits .w64 number.magnitude = true →
    ∀ k : Int, k ≠ 0 → ¬uintFits type.width (number.value - k * 2 ^ 64) = true

theorem multiple_text (multiple : Multiple) :
    FromString.multiple multiple.text = some (multiple.factor : Int) := by
  cases multiple <;> decide

theorem multiple_cases (multiple : Multiple) :
    multiple.text = [] ∨
      ∃ char rest, multiple.text = char :: rest ∧ digitValue 10 char = none := by
  cases multiple with
  | one => exact .inl rfl
  | k | M | G | Ki | Mi | Gi => exact .inr ⟨_, _, rfl, by decide⟩

theorem nonzero_of_mem_sign (sign : Sign) : ∀ char ∈ sign.text, char ≠ 0 := by
  have all : sign.text.all (· != 0) = true := by
    cases sign <;> decide
  intro char mem
  exact bne_iff_ne.mp (List.all_eq_true.mp all char mem)

theorem nonzero_of_mem_multiple (multiple : Multiple) : ∀ char ∈ multiple.text, char ≠ 0 := by
  have all : multiple.text.all (· != 0) = true := by
    cases multiple <;> decide
  intro char mem
  exact bne_iff_ne.mp (List.all_eq_true.mp all char mem)

variable (number : Number)

theorem nonzero_of_mem_text : ∀ char ∈ number.text, char ≠ 0 := by
  intro char mem
  rcases List.mem_append.mp mem with inSign | mem
  · exact nonzero_of_mem_sign number.sign char inSign
  rcases List.mem_append.mp mem with inDigits | inMultiple
  · rcases List.mem_map.mp inDigits with ⟨digit, digitMem, rfl⟩
    rcases List.mem_map.mp digitMem with ⟨small, -, rfl⟩
    exact (digitChar_apart (lt_trans small.isLt (by decide))).1
  · exact nonzero_of_mem_multiple number.multiple char inMultiple

theorem cString_text : cString number.text = number.text := by
  rw [cString, List.takeWhile_eq_self_iff]
  intro char mem
  exact bne_iff_ne.mpr (nonzero_of_mem_text number char mem)

theorem scanSign_text : scanSign (number.text.dropWhile Portable.isSpace) =
    (number.sign.isMinus, (number.digits.map Fin.val).map digitChar ++ number.multiple.text) := by
  rcases number with ⟨sign, digits, nonempty, multiple⟩
  cases sign with
  | none =>
      rcases List.exists_cons_of_ne_nil nonempty with ⟨first, others, rfl⟩
      rcases digitChar_apart (lt_trans first.isLt (by decide)) with
        ⟨_, noSpace, noMinus, noPlus, _⟩
      simp [Number.text, Sign.text, Sign.isMinus, noSpace, scanSign, noMinus, noPlus]
  | plus => rfl
  | minus => rfl

theorem leadingDigits_text :
    leadingDigits (digitValue 10) ((number.digits.map Fin.val).map digitChar ++
      number.multiple.text) = number.digits.map Fin.val := by
  have decodes := fun digit (below : digit < 10) => digitValue_digitChar below (by decide)
  have small : ∀ digit ∈ number.digits.map Fin.val, digit < 10 := by
    intro digit mem
    rcases List.mem_map.mp mem with ⟨digit, -, rfl⟩
    exact digit.isLt
  rcases multiple_cases number.multiple with empty | ⟨char, rest, symbol, stops⟩
  · rw [empty, List.append_nil]
    exact leadingDigits_map_nil decodes small
  · rw [symbol]
    exact leadingDigits_map decodes small stops rest

theorem scanDecimal_text : scanDecimal number.text =
    some (number.sign.isMinus, number.magnitude, number.sign.text.length + number.digits.length) := by
  have filled : (number.digits.map Fin.val).isEmpty = false := by
    rw [List.isEmpty_eq_false_iff]
    exact mt List.map_eq_nil_iff.mp number.nonempty
  have stop : number.text.length -
      ((number.digits.map Fin.val).map digitChar ++ number.multiple.text).length +
        (number.digits.map Fin.val).length = number.sign.text.length + number.digits.length := by
    rw [Number.text, List.length_append, Nat.add_sub_cancel, List.length_map]
  rw [scanDecimal, scanSign_text]
  dsimp only
  rw [leadingDigits_text, filled, stop]
  rfl

theorem drop_text :
    number.text.drop (number.sign.text.length + number.digits.length) = number.multiple.text := by
  rw [Number.text, List.drop_length_add_append]
  apply List.drop_left'
  rw [List.length_map, List.length_map]

/-- What the standard library converts is multiplied and compared with the limits. -/
theorem convertFromStringWith_text {converter : Block → Option (Int × Nat)}
    (product : Int → Int) (fits : Int → Bool) {converted : Option Int}
    (converts : converter number.text = converted.map fun result =>
      (result, number.sign.text.length + number.digits.length)) :
    @convertFromStringWith noExpressions converter product fits number.text =
      converted.bind fun result =>
        convertIfFits fits (product (result * number.multiple.factor)) := by
  simp only [convertFromStringWith, cString_text, converts]
  cases converted with
  | none => rfl
  | some result =>
      simp only [Option.map_some, Option.bind_some, drop_text, multiple_text]
      cases convertIfFits fits (product (result * number.multiple.factor)) with
      | none => rfl
      | some value => rfl

theorem strtol_text : strtol number.text =
    (convertIfFits (intFits .w64) number.signed).map fun result =>
      (result, number.sign.text.length + number.digits.length) := by
  rw [strtol, scanDecimal_text, Option.bind_some, convertIfFits]
  dsimp only
  rw [← Number.signed]
  split
  · rfl
  · rfl

theorem strtoul_text : strtoul number.text =
    (if uintFits .w64 number.magnitude then some (number.signed % 2 ^ 64) else none).map
      fun result => (result, number.sign.text.length + number.digits.length) := by
  rw [strtoul, scanDecimal_text, Option.bind_some]
  dsimp only
  split
  · rename_i fits
    rw [uintFits, decide_eq_true_eq] at fits
    rw [Option.map_some, Number.signed]
    split
    · rfl
    · rw [Int.emod_eq_of_lt fits.1 (show (number.magnitude : Int) < 2 ^ 64 from fits.2)]
  · rfl

variable {type : IntegerType}

theorem fromString_signed (signed : type.isSigned = true) (product : Int → Int) :
    type.fromString product number.text =
      if intFits .w64 number.signed then convertIfFits type.fits (product number.value)
      else none := by
  rw [IntegerType.fromString, if_pos signed,
    convertFromStringWith_text number product _ (strtol_text number), convertIfFits,
    IntegerType.fits, if_pos signed]
  split
  · rfl
  · rfl

theorem fromString_unsigned (signed : ¬type.isSigned = true) (product : Int → Int) :
    type.fromString product number.text =
      if uintFits .w64 number.magnitude then convertIfFits type.fits (number.value % 2 ^ 64)
      else none := by
  simp only [IntegerType.fromString, if_neg signed, fromUint, IntegerType.fits]
  rw [convertFromStringWith_text number _ _ (strtoul_text number)]
  split
  · rw [Option.bind_some, Int.mul_emod, Int.emod_emod_of_dvd _ (dvd_refl _), ← Int.mul_emod]
    rfl
  · rfl

theorem convertIfFits_eq_some {fits : Int → Bool} {value converted : Int} :
    convertIfFits fits value = some converted ↔ fits value = true ∧ converted = value := by
  rw [convertIfFits]
  split
  · rename_i inRange
    rw [Option.some.injEq, eq_comm, inRange, eq_self, true_and]
  · rename_i outside
    exact iff_of_false (Option.some_ne_none converted).symm fun inRange => outside inRange.1

variable {width : IntWidth} {value : Int}

theorem intFits_iff :
    intFits width value = true ↔ -2 ^ (width.bits - 1) ≤ value ∧ value < 2 ^ (width.bits - 1) :=
  decide_eq_true_iff

theorem uintFits_iff :
    uintFits width value = true ↔ 0 ≤ value ∧ value < 2 ^ width.bits :=
  decide_eq_true_iff

theorem intFits_w64 (fits : intFits width value = true) :
    intFits .w64 value = true := by
  have bound : (2 : Int) ^ (width.bits - 1) ≤ 2 ^ (IntWidth.w64.bits - 1) := by
    cases width <;> decide
  rw [intFits_iff] at fits ⊢
  exact ⟨(neg_le_neg bound).trans fits.1, fits.2.trans_le bound⟩

theorem uintFits_w64 (fits : uintFits width value = true) :
    uintFits .w64 value = true := by
  have bound : (2 : Int) ^ width.bits ≤ 2 ^ IntWidth.w64.bits := by
    cases width <;> decide
  rw [uintFits_iff] at fits ⊢
  exact ⟨fits.1, fits.2.trans_le bound⟩

theorem intFits_zero (width : IntWidth) : intFits width 0 = true := by
  cases width <;> decide

theorem one_le_factor (multiple : Multiple) : (1 : Int) ≤ multiple.factor := by
  cases multiple <;> decide

/-- What fits with the multiple fits without it. -/
theorem intFits_signed_of_value (fits : intFits .w64 number.value = true) :
    intFits .w64 number.signed = true := by
  have factor := one_le_factor number.multiple
  rw [intFits_iff, Number.value] at fits
  rw [intFits_iff]
  rcases Int.le_total 0 number.signed with positive | negative
  · have larger := le_mul_of_one_le_right positive factor
    exact ⟨(by decide : -2 ^ (IntWidth.w64.bits - 1) ≤ (0 : Int)).trans positive,
      larger.trans_lt fits.2⟩
  · have smaller := mul_le_of_one_le_right negative factor
    exact ⟨fits.1.trans smaller, negative.trans_lt (by decide)⟩

theorem uintFits_magnitude_of_value (fits : uintFits .w64 number.value = true) :
    uintFits .w64 number.magnitude = true := by
  have factor := one_le_factor number.multiple
  rw [uintFits_iff, Number.value, Number.signed] at fits
  rw [uintFits_iff]
  refine ⟨Int.natCast_nonneg _, ?_⟩
  have atLeast := le_mul_of_one_le_right (Int.natCast_nonneg number.magnitude) factor
  split at fits
  · rw [neg_mul] at fits
    omega
  · exact atLeast.trans_lt fits.2

/-- A value with the undefined products. -/
def anyProduct (value : Int) : Int :=
  if intFits .w64 value then value else 0

theorem isSignedProduct_anyProduct : IsSignedProduct anyProduct where
  fits value := by
    rw [anyProduct]
    split
    · assumption
    · exact intFits_zero .w64
  exact value inRange := if_pos inRange

theorem parsesExactly_signed_iff (signed : type.isSigned = true) :
    ParsesExactly type number ↔
      (intFits .w64 number.signed = true → intFits .w64 number.value = true) := by
  have limits : type.fits = intFits type.width := if_pos signed
  constructor
  · intro exactly inRange
    by_contra overflows
    have converted : type.fromString anyProduct number.text = some 0 := by
      rw [fromString_signed number signed, if_pos inRange, anyProduct, if_neg overflows, limits]
      exact if_pos (intFits_zero _)
    have represented := ((exactly anyProduct isSignedProduct_anyProduct 0).mp converted).1
    exact overflows (intFits_w64 (limits ▸ represented))
  · intro defined product isProduct value
    rw [fromString_signed number signed]
    split
    · rename_i inRange
      rw [isProduct.exact number.value (defined inRange)]
      exact convertIfFits_eq_some
    · rename_i outside
      apply iff_of_false nofun
      rintro ⟨represented, -⟩
      exact outside (intFits_signed_of_value number (intFits_w64 (limits ▸ represented)))

theorem parsesExactly_unsigned_iff (signed : ¬type.isSigned = true) :
    ParsesExactly type number ↔
      (uintFits .w64 number.magnitude = true →
        ∀ k : Int, k ≠ 0 → ¬uintFits type.width (number.value - k * 2 ^ 64) = true) := by
  have limits : type.fits = uintFits type.width := if_neg signed
  have split := Int.emod_def number.value (2 ^ 64)
  constructor
  · intro exactly inRange k shifted represented
    have reduced : number.value % 2 ^ 64 = number.value - k * 2 ^ 64 := by
      rcases uintFits_iff.mp (uintFits_w64 represented) with ⟨lower, upper⟩
      have upper : number.value - k * 2 ^ 64 < 2 ^ 64 := upper
      omega
    have converted : type.fromString anyProduct number.text =
        some (number.value - k * 2 ^ 64) := by
      rw [fromString_unsigned number signed, if_pos inRange, reduced, limits]
      exact if_pos represented
    have same := ((exactly anyProduct isSignedProduct_anyProduct _).mp converted).2
    omega
  · intro apart product isProduct value
    rw [fromString_unsigned number signed]
    split
    · rename_i inRange
      rw [convertIfFits_eq_some]
      by_cases wraps : number.value / 2 ^ 64 = 0
      · rw [split, wraps, mul_zero, sub_zero]
      · apply iff_of_false
        · rintro ⟨represented, -⟩
          rw [split, mul_comm, limits] at represented
          exact apart inRange _ wraps represented
        · rintro ⟨represented, -⟩
          rcases uintFits_iff.mp (uintFits_w64 (limits ▸ represented)) with ⟨lower, upper⟩
          exact wraps (Int.ediv_eq_zero_of_lt lower upper)
    · rename_i outside
      apply iff_of_false nofun
      rintro ⟨represented, -⟩
      exact outside (uintFits_magnitude_of_value number (uintFits_w64 (limits ▸ represented)))

/-- The conversions are exact unless the product of the digits and the multiple wraps, as the
limits of the type are compared with what is left of it. -/
theorem parsesExactly_iff_noWrap (type : IntegerType) (number : Number) :
    ParsesExactly type number ↔ NoWrap type number := by
  rw [NoWrap]
  split
  · rename_i signed
    exact parsesExactly_signed_iff number signed
  · rename_i unsigned
    exact parsesExactly_unsigned_iff number unsigned

/-- The product of `18446744073709552k` is larger than the range by 384. -/
theorem not_forall_parsesExactly :
    ¬∀ (type : IntegerType) (number : Number), ParsesExactly type number := by
  intro exactly
  let number : Number :=
    ⟨.none, [1, 8, 4, 4, 6, 7, 4, 4, 0, 7, 3, 7, 0, 9, 5, 5, 2], List.cons_ne_nil _ _, .k⟩
  have converted : IntegerType.unsignedShort.fromString anyProduct number.text = some 384 := by
    decide +kernel
  have same := ((exactly .unsignedShort number anyProduct isSignedProduct_anyProduct 384).mp
    converted).2
  exact absurd same (by decide +kernel)

end Eagine.FromString
