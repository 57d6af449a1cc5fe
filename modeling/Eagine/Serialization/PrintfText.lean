import Eagine.Serialization.PortableRoundTrip
import Eagine.Theory.Numeral

/-!
# Formatted numbers

The integers as `std::snprintf` formats them and `std::sscanf` scans them: decimal, or
hexadecimal for a byte. A number is scanned from the source itself, but only after its
delimiter was found there.
-/

open List

namespace Eagine.Serialization

open Theory

def digitChar (digit : Nat) : UInt8 :=
  if digit < 10 then UInt8.ofNat ('0'.toNat + digit) else UInt8.ofNat ('a'.toNat + (digit - 10))

/-- The value of a digit character in a base. -/
def digitValue (base : Nat) (char : UInt8) : Option Nat :=
  let value :=
    if byteOf '0' ≤ char ∧ char ≤ byteOf '9' then char.toNat - '0'.toNat
    else if byteOf 'a' ≤ char ∧ char ≤ byteOf 'f' then 10 + (char.toNat - 'a'.toNat)
    else if byteOf 'A' ≤ char ∧ char ≤ byteOf 'F' then 10 + (char.toNat - 'A'.toNat)
    else base
  if value < base then some value else none

/-- The text of a number in the formats `%d` and `%u`, whatever their lengths. -/
def numberText (number : Int) : Block :=
  if number < 0 then byteOf '-' :: numeral digitChar 10 number.natAbs
  else numeral digitChar 10 number.natAbs

/-- The text of a byte in the format `%02hhx`. -/
def byteText (byte : UInt8) : Block :=
  [digitChar (byte.toNat / 16), digitChar (byte.toNat % 16)]

/-- The sign that a scanned number may begin with. -/
def scanSign : Block → Bool × Block
  | [] => (false, [])
  | char :: text =>
      if char = byteOf '-' then (true, text)
      else if char = byteOf '+' then (false, text)
      else (false, char :: text)

/-- The prefix that a scanned hexadecimal number may begin with. -/
def skipHexPrefix : Block → Block
  | zero :: x :: text =>
      if zero = byteOf '0' ∧ (x = byteOf 'x' ∨ x = byteOf 'X') then text else zero :: x :: text
  | text => text

/-- The integer at the start of a null-terminated string, if there is one. -/
def scanNumber (base : Nat) (input : Block) : Option Int :=
  let signed := scanSign ((input.takeWhile (· != 0)).dropWhile Portable.isSpace)
  let text := if base = 16 then skipHexPrefix signed.2 else signed.2
  let digits := leadingDigits (digitValue base) text
  if digits.isEmpty then none
  else some (if signed.1 then -(valueOf base digits : Int) else valueOf base digits)

/-- `_sscanf_one`. What is scanned is stored in the width of the target. -/
def sscanfOne {width : Nat} (base : Nat) (target : BitVec width) (delimiter : UInt8) :
    SourceM (DeserializationErrors × BitVec width) := fun source =>
  let src := source.stringBefore delimiter 128
  if src.isEmpty then some ((.ofBit .notEnoughData, target), source)
  else
    match scanNumber base source.remaining with
    | some value => some ((∅, BitVec.ofInt width value), source.pop (src.length + 1))
    | none => some ((.ofBit .invalidFormat, target), source)

theorem digitValue_digitChar {base digit : Nat} (small : digit < base) (atMost : base ≤ 16) :
    digitValue base (digitChar digit) = some digit := by
  have values : ∀ digit < 16, ∀ base ≤ 16, digit < base →
      digitValue base (digitChar digit) = some digit := by
    decide
  exact values digit (by omega) base atMost small

/-- Digit characters are neither blanks nor signs nor the end of a string. -/
theorem digitChar_apart {digit : Nat} (small : digit < 16) :
    digitChar digit ≠ 0 ∧ Portable.isSpace (digitChar digit) = false ∧ digitChar digit ≠ byteOf '-' ∧
      digitChar digit ≠ byteOf '+' ∧ digitChar digit ≠ byteOf 'x' ∧
      digitChar digit ≠ byteOf 'X' := by
  revert digit
  decide

/-- A character that ends a number but not the string it is in. -/
structure Delimits (char : UInt8) : Prop where
  nonzero : char ≠ 0
  noDigit : ∀ base ≤ 16, digitValue base char = none
  noSign : char ≠ byteOf '-'
  noPrefix : char ≠ byteOf 'x' ∧ char ≠ byteOf 'X'

theorem delimits_semicolon : Delimits (byteOf ';') where
  nonzero := by decide
  noDigit := by decide
  noSign := by decide
  noPrefix := by decide

theorem delimits_bar : Delimits (byteOf '|') where
  nonzero := by decide
  noDigit := by decide
  noSign := by decide
  noPrefix := by decide

section Scanned

variable {delimiter : UInt8} (delimits : Delimits delimiter)

include delimits

/-- The null character, if there is one, is behind the delimiter. -/
theorem takeWhile_text {text : Block} (nonzero : ∀ char ∈ text, char ≠ 0) (rest : Block) :
    (text ++ delimiter :: rest).takeWhile (· != 0) =
      text ++ delimiter :: rest.takeWhile (· != 0) := by
  have kept : ∀ char ∈ text, (char != 0) = true := by
    intro char mem
    exact bne_iff_ne.mpr (nonzero char mem)
  rw [takeWhile_append_of_pos kept, takeWhile_cons,
    if_pos (bne_iff_ne.mpr delimits.nonzero)]

variable {digits : List Nat}

/-- Digits are no hexadecimal prefix. -/
theorem skipHexPrefix_digits (small : ∀ digit ∈ digits, digit < 16)
    (nonempty : digits ≠ []) (rest : Block) :
    skipHexPrefix (digits.map digitChar ++ delimiter :: rest) =
      digits.map digitChar ++ delimiter :: rest := by
  rcases digits with _ | ⟨first, _ | ⟨second, others⟩⟩
  · exact absurd rfl nonempty
  · simp [skipHexPrefix, delimits.noPrefix]
  · rcases digitChar_apart (small second (by simp)) with ⟨_, _, _, _, lower, upper⟩
    simp [skipHexPrefix, lower, upper]

/-- Digits without a sign are the number with these digits. -/
theorem scanNumber_digits {base : Nat} (atMost : base ≤ 16)
    (small : ∀ digit ∈ digits, digit < base) (nonempty : digits ≠ []) (rest : Block) :
    scanNumber base (digits.map digitChar ++ delimiter :: rest) =
      some (valueOf base digits : Int) := by
  have smaller : ∀ digit ∈ digits, digit < 16 := fun digit mem =>
    lt_of_lt_of_le (small digit mem) atMost
  have nonzero : ∀ char ∈ digits.map digitChar, char ≠ 0 := by
    intro char mem
    rcases mem_map.mp mem with ⟨digit, digitMem, rfl⟩
    exact (digitChar_apart (smaller digit digitMem)).1
  have decodes := fun digit (below : digit < base) => digitValue_digitChar below atMost
  have scanned := leadingDigits_map decodes small (delimits.noDigit base atMost)
    (rest.takeWhile (· != 0))
  have unsigned : scanSign ((digits.map digitChar ++ delimiter :: rest.takeWhile (· != 0)).dropWhile
      Portable.isSpace) =
        (false, digits.map digitChar ++ delimiter :: rest.takeWhile (· != 0)) := by
    rcases digits with _ | ⟨first, others⟩
    · exact absurd rfl nonempty
    · rcases digitChar_apart (smaller first mem_cons_self) with
        ⟨_, noSpace, noMinus, noPlus, _⟩
      simp [noSpace, scanSign, noMinus, noPlus]
  have kept : (if base = 16 then
      skipHexPrefix (digits.map digitChar ++ delimiter :: rest.takeWhile (· != 0))
      else digits.map digitChar ++ delimiter :: rest.takeWhile (· != 0)) =
        digits.map digitChar ++ delimiter :: rest.takeWhile (· != 0) := by
    split
    · exact skipHexPrefix_digits delimits smaller nonempty _
    · rfl
  have filled : digits.isEmpty = false := isEmpty_eq_false_iff.mpr nonempty
  simp only [scanNumber, takeWhile_text delimits nonzero, unsigned, kept, scanned, filled,
    Bool.false_eq_true, if_false]

/-- Digits behind a minus sign are the negative number. -/
theorem scanNumber_negative (small : ∀ digit ∈ digits, digit < 10)
    (nonempty : digits ≠ []) (rest : Block) :
    scanNumber 10 (byteOf '-' :: digits.map digitChar ++ delimiter :: rest) =
      some (-(valueOf 10 digits : Int)) := by
  have nonzero : ∀ char ∈ byteOf '-' :: digits.map digitChar, char ≠ 0 := by
    intro char mem
    rcases mem_cons.mp mem with rfl | digitMem
    · decide
    · rcases mem_map.mp digitMem with ⟨digit, inDigits, rfl⟩
      have smaller : digit < 16 := lt_trans (small digit inDigits) (by decide)
      exact (digitChar_apart smaller).1
  have decodes := fun digit (below : digit < 10) => digitValue_digitChar below (by decide)
  have scanned := leadingDigits_map decodes small (delimits.noDigit 10 (by decide))
    (rest.takeWhile (· != 0))
  have filled : digits.isEmpty = false := isEmpty_eq_false_iff.mpr nonempty
  have signed : scanSign ((byteOf '-' :: digits.map digitChar ++
      delimiter :: rest.takeWhile (· != 0)).dropWhile Portable.isSpace) =
        (true, digits.map digitChar ++ delimiter :: rest.takeWhile (· != 0)) := by
    rw [cons_append, dropWhile_cons_of_neg (by decide), scanSign, if_pos rfl]
  have noPrefix : ¬10 = 16 := by decide
  simp only [scanNumber, takeWhile_text delimits nonzero, signed, noPrefix, if_false, scanned,
    filled, if_true, Bool.false_eq_true]

/-- A decimal number is scanned as it was formatted. -/
theorem scanNumber_numberText (number : Int) (rest : Block) :
    scanNumber 10 (numberText number ++ delimiter :: rest) = some number := by
  have small : ∀ digit ∈ (digitsOf 10 number.natAbs).reverse, digit < 10 := by
    intro digit mem
    exact digitsOf_lt (by decide) digit (mem_reverse.mp mem)
  have nonempty : (digitsOf 10 number.natAbs).reverse ≠ [] := by
    simp [digitsOf]
  have value : valueOf 10 (digitsOf 10 number.natAbs).reverse = number.natAbs := by
    rw [valueOf_reverse, ofDigits_digitsOf]
  unfold numberText numeral
  split
  · rw [scanNumber_negative delimits small nonempty, value]
    congr 1
    omega
  · rw [scanNumber_digits delimits (by decide) small nonempty, value]
    congr 1
    omega

/-- A byte is scanned as it was formatted. -/
theorem scanNumber_byteText (byte : UInt8) (rest : Block) :
    scanNumber 16 (byteText byte ++ delimiter :: rest) = some byte.toNat := by
  have bound := byte.toNat_lt
  have small : ∀ digit ∈ [byte.toNat / 16, byte.toNat % 16], digit < 16 := by
    intro digit mem
    rcases mem_cons.mp mem with rfl | last
    · omega
    · rw [mem_singleton.mp last]
      omega
  have scanned := scanNumber_digits delimits le_rfl small (cons_ne_nil _ _) rest
  have value : valueOf 16 [byte.toNat / 16, byte.toNat % 16] = byte.toNat := by
    simp only [valueOf, foldl_cons, foldl_nil]
    omega
  rw [value] at scanned
  exact scanned

end Scanned

/-- A number up to its delimiter, wherever it comes from. -/
structure Formatted (base : Nat) (delimiter : UInt8) (text : Block) (number : Int) : Prop where
  nonempty : text ≠ []
  short : text.length < scanStep
  absent : delimiter ∉ text
  scanned : ∀ rest, scanNumber base (text ++ delimiter :: rest) = some number

/-- A formatted number is read with its delimiter. -/
theorem sscanfOne_reads {base width : Nat} {delimiter : UInt8} {text : Block} {number : Int}
    (formatted : Formatted base delimiter text number) {value : BitVec width}
    (stored : BitVec.ofInt width number = value) (target : BitVec width) :
    Reads (sscanfOne base target delimiter) (.exact (text ++ [delimiter])) True (∅, value) := by
  apply Reads.ofExact
  intro source rest starts
  rw [append_assoc, singleton_append] at starts
  have srcEq := stringBefore_of_append starts formatted.absent formatted.short 128
  have filled : text.isEmpty = false := isEmpty_eq_false_iff.mpr formatted.nonempty
  simp [sscanfOne, srcEq, filled, starts, formatted.scanned, stored]

theorem formatted_numberText {delimiter : UInt8} (delimits : Delimits delimiter) {number : Int}
    (bounded : number.natAbs < 10 ^ 20) : Formatted 10 delimiter (numberText number) number where
  nonempty := by
    unfold numberText
    split
    · exact cons_ne_nil _ _
    · exact numeral_ne_nil _ _ _
  short := by
    have length : (digitsOf 10 number.natAbs).length ≤ 19 + 1 :=
      length_digitsOf_le (by decide) bounded
    have bound : (numberText number).length ≤ 21 := by
      unfold numberText
      split
      · rw [length_cons, length_numeral]
        omega
      · rw [length_numeral]
        omega
    exact lt_of_le_of_lt bound (by decide)
  absent := by
    have noDigit : delimiter ∉ numeral digitChar 10 number.natAbs := by
      intro mem
      rcases exists_digit_of_mem_numeral (by decide) mem with ⟨digit, small, rfl⟩
      have none := delimits.noDigit 10 (by decide)
      rw [digitValue_digitChar small (by decide)] at none
      cases none
    unfold numberText
    split
    · intro mem
      rcases mem_cons.mp mem with sign | digit
      · exact delimits.noSign sign
      · exact noDigit digit
    · exact noDigit
  scanned := scanNumber_numberText delimits number

theorem formatted_byteText {delimiter : UInt8} (delimits : Delimits delimiter) (byte : UInt8) :
    Formatted 16 delimiter (byteText byte) byte.toNat where
  nonempty := cons_ne_nil _ _
  short := by
    have two : (byteText byte).length = 2 := rfl
    rw [two]
    decide
  absent := by
    have noDigit : ∀ digit < 16, delimiter ≠ digitChar digit := by
      rintro digit small rfl
      have none := delimits.noDigit 16 le_rfl
      rw [digitValue_digitChar small le_rfl] at none
      cases none
    have bound := byte.toNat_lt
    intro mem
    rcases mem_cons.mp mem with high | low
    · exact noDigit (byte.toNat / 16) (by omega) high
    · exact noDigit (byte.toNat % 16) (by omega) (mem_singleton.mp low)
  scanned := scanNumber_byteText delimits byte

end Eagine.Serialization
