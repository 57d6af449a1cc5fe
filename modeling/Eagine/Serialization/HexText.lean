import Eagine.Serialization.Reading
import Mathlib.Data.Nat.Digits.Lemmas

/-!
# Hexadecimal numbers

The numbers of the portable format: hexadecimal digits, the least significant
one first, up to a delimiter.  Signed numbers have a sign in front of their
magnitude.
-/

namespace Eagine.Serialization

open Theory Nat
open BlockDataSink (write write_bind write_write)
open BitVec (ofNat toNat_ofNat)

/-- The digit characters of the writer. -/
def hexDigitChars : List Char :=
  ['0', '1', '2', '3', '4', '5', '6', '7', '8', '9', 'A', 'B', 'C', 'D', 'E', 'F']

def hexDigit (nibble : Nat) : UInt8 :=
  byteOf (hexDigitChars.getD nibble '0')

/-- The value of a digit character, as the reader takes it. -/
def hexDigitValue (char : UInt8) : Option Nat :=
  if byteOf '0' ≤ char ∧ char ≤ byteOf '9' then some (char.toNat - '0'.toNat)
  else if byteOf 'A' ≤ char ∧ char ≤ byteOf 'F' then some (10 + char.toNat - 'A'.toNat)
  else none

variable {width : Nat}

/-- The loop of the unsigned `_write_one`.  Every iteration removes bits, so a
fuel of as many iterations as there are bits suffices. -/
def unsignedWriteWhile : Nat → SerializationErrors → BitVec width → SinkM SerializationErrors
  | 0, errors, _ => pure errors
  | fuel + 1, errors, value =>
      if errors.isEmpty && value != 0 then do
        let sunk ← write [hexDigit (value &&& 15).toNat]
        unsignedWriteWhile fuel (errors ||| sunk) (value >>> 4)
      else
        pure errors

/-- `_write_one` of an unsigned integer. -/
def unsignedWrite (value : BitVec width) : SinkM SerializationErrors := do
  let errors ← write [hexDigit (value &&& 15).toNat]
  unsignedWriteWhile width errors (value >>> 4)

/-- The magnitude of a signed integer, as its unsigned counterpart. -/
def magnitude (value : BitVec width) : BitVec width :=
  if value.msb then -value else value

def signOf (value : BitVec width) : UInt8 :=
  if value.msb then byteOf '-' else byteOf '+'

/-- `_write_one` of a signed integer. -/
def signedWrite (value : BitVec width) : SinkM SerializationErrors := do
  let errors ← write [signOf value]
  let more ← unsignedWrite (magnitude value)
  pure (errors ||| more)

/-- The text of a number: at least one digit, the least significant one first. -/
def hexText (number : Nat) : Block :=
  (number % 16 :: Nat.digits 16 (number / 16)).map hexDigit

def signedText (value : BitVec width) : Block :=
  signOf value :: hexText (magnitude value).toNat

theorem toNat_nibble (value : BitVec width) (wide : 4 ≤ width) :
    (value &&& 15).toNat = value.toNat % 16 := by
  have fifteen : (15 : BitVec width).toNat = 2 ^ 4 - 1 := by
    rw [show (15 : BitVec width) = ofNat width 15 from rfl, toNat_ofNat]
    apply mod_eq_of_lt
    exact lt_of_lt_of_le (by decide) (Nat.pow_le_pow_right (Nat.zero_lt_two) wide)
  rw [BitVec.toNat_and, fifteen, and_two_pow_sub_one_eq_mod]

theorem toNat_shift (value : BitVec width) : (value >>> 4).toNat = value.toNat / 16 := by
  rw [BitVec.toNat_ushiftRight, shiftRight_eq_div_pow]

theorem unsignedWriteWhile_incomplete (fuel : Nat) (value : BitVec width) :
    unsignedWriteWhile fuel incomplete value = pure incomplete := by
  cases fuel <;> rfl

theorem unsignedWriteWhile_eq (wide : 4 ≤ width) (fuel : Nat) (value : BitVec width)
    (enough : value.toNat < 16 ^ fuel) :
    unsignedWriteWhile fuel ∅ value =
      write ((Nat.digits 16 value.toNat).map hexDigit) := by
  induction fuel generalizing value with
  | zero =>
      have isZero : value.toNat = 0 := by simpa using enough
      rw [isZero, digits_zero]
      exact BlockDataSink.write_nil.symm
  | succ fuel ih =>
      by_cases isZero : value = 0
      · simp [isZero, unsignedWriteWhile]
      · have nonzero : value.toNat ≠ 0 := by
          intro toNatZero
          exact isZero (BitVec.eq_of_toNat_eq (by simpa using toNatZero))
        have less : (value >>> 4).toNat < 16 ^ fuel := by
          rw [toNat_shift]
          exact Nat.div_lt_of_lt_mul (by rwa [Nat.pow_succ, Nat.mul_comm] at enough)
        have digitsEq : (Nat.digits 16 value.toNat).map hexDigit =
            [hexDigit (value &&& 15).toNat] ++
              (Nat.digits 16 (value >>> 4).toNat).map hexDigit := by
          rw [digits_def' (by decide) (pos_of_ne_zero nonzero), toNat_nibble value wide,
            toNat_shift]
          rfl
        rw [digitsEq]
        simp only [unsignedWriteWhile, (Bitfield.isEmpty_iff _).mpr rfl, Bool.true_and, bne_iff_ne,
          ne_eq, isZero, not_false_eq_true, if_true, Bitfield.empty_or]
        exact write_bind _ (ih _ less) (unsignedWriteWhile_incomplete fuel _)

/-- An unsigned number is written as its text, digit by digit. -/
theorem unsignedWrite_eq (wide : 4 ≤ width) (value : BitVec width) :
    unsignedWrite value = write (hexText value.toNat) := by
  have enough : (value >>> 4).toNat < 16 ^ width := by
    rw [toNat_shift]
    have bound := value.isLt
    have grows : 2 ^ width ≤ 16 ^ width := Nat.pow_le_pow_left (by decide) width
    exact lt_of_le_of_lt (div_le_self _ _) (lt_of_lt_of_le bound grows)
  have textEq : hexText value.toNat = [hexDigit (value &&& 15).toNat] ++
      (Nat.digits 16 (value >>> 4).toNat).map hexDigit := by
    rw [toNat_nibble value wide, toNat_shift]
    rfl
  rw [textEq]
  exact write_bind _ (unsignedWriteWhile_eq wide width _ enough)
    (unsignedWriteWhile_incomplete width _)

theorem signedWrite_eq (wide : 4 ≤ width) (value : BitVec width) :
    signedWrite value = write (signedText value) := by
  unfold signedWrite
  rw [unsignedWrite_eq wide]
  exact write_write _ _

/-- The digit loop of the unsigned `_read_one`. -/
def decodeDigits : BitVec width → Nat → Block → DeserializationErrors × BitVec width
  | value, _, [] => (∅, value)
  | value, shift, char :: src =>
      match hexDigitValue char with
      | some frag => decodeDigits (value ||| ofNat width frag <<< shift) (shift + 4) src
      | none => (.ofBit .invalidFormat, value)

/-- `_read_one` of an unsigned integer.  The value is zero from the start, and
the text is consumed only after a success. -/
def unsignedRead (delimiter : UInt8) : SourceM (DeserializationErrors × BitVec width) := do
  let source ← get
  let src := source.stringBefore delimiter 48
  if src.isEmpty then
    pure (.ofBit .notEnoughData, 0)
  else
    let (errors, value) := decodeDigits 0 0 src
    if errors.isEmpty then
      popTop (src.length + 1)
      pure (errors, value)
    else
      pure (errors, value)

/-- `_read_one` of a signed integer; the sign is consumed in any case. -/
def signedRead (target : BitVec width) (delimiter : UInt8) :
    SourceM (DeserializationErrors × BitVec width) := do
  let sign ← topString 1
  if sign = [byteOf '+'] ∨ sign = [byteOf '-'] then
    popTop 1
    let (errors, temp) ← unsignedRead delimiter
    if temp.toNat < 2 ^ (width - 1) then
      pure (errors, if sign = [byteOf '-'] then -temp else temp)
    else
      pure (errors ||| .ofBit .invalidFormat, target)
  else
    pure (.ofBit .invalidFormat, target)

theorem hexDigitValue_hexDigit {nibble : Nat} (small : nibble < 16) :
    hexDigitValue (hexDigit nibble) = some nibble := by
  revert nibble
  decide

/-- Digit by digit, the bits of the number are put in place. -/
theorem decodeDigits_map (digits : List Nat) (small : ∀ digit ∈ digits, digit < 16)
    (done shift : Nat) (doneBits : done < 2 ^ shift) :
    decodeDigits (ofNat width done) shift (digits.map hexDigit) =
      (∅, ofNat width (done + 2 ^ shift * Nat.ofDigits 16 digits)) := by
  induction digits generalizing done shift with
  | nil => simp [decodeDigits]
  | cons digit digits ih =>
      have digitSmall := small digit List.mem_cons_self
      have joined : ofNat width done ||| ofNat width digit <<< shift =
          ofNat width (done + 2 ^ shift * digit) := by
        have sum : done + 2 ^ shift * digit = digit <<< shift ||| done := by
          rw [← shiftLeft_add_eq_or_of_lt doneBits, Nat.shiftLeft_eq, add_comm,
            Nat.mul_comm]
        apply BitVec.eq_of_toNat_eq
        rw [sum, BitVec.toNat_or, BitVec.toNat_shiftLeft, toNat_ofNat, toNat_ofNat,
          toNat_ofNat, Nat.or_mod_two_pow, Nat.or_comm, Nat.shiftLeft_eq, Nat.shiftLeft_eq,
          mod_mul_mod]
      have nextBits : done + 2 ^ shift * digit < 2 ^ (shift + 4) := by
        rw [pow_add]
        nlinarith
      rw [List.map_cons, decodeDigits, hexDigitValue_hexDigit digitSmall]
      dsimp only
      rw [joined, ih (fun other mem => small other (List.mem_cons_of_mem digit mem)) _ _ nextBits,
        ofDigits_cons, pow_add]
      congr 2
      push_cast
      ring

/-- The digits of a number, as `hexText` writes them. -/
theorem ofDigits_hexText (number : Nat) :
    Nat.ofDigits 16 (number % 16 :: Nat.digits 16 (number / 16)) = number := by
  rw [ofDigits_cons, ofDigits_digits]
  exact_mod_cast mod_add_div number 16

theorem hexText_small {number : Nat} :
    ∀ digit ∈ number % 16 :: Nat.digits 16 (number / 16), digit < 16 := by
  intro digit mem
  rcases List.mem_cons.mp mem with rfl | later
  · exact mod_lt _ (by decide)
  · exact digits_lt_base (by decide) later

theorem decodeDigits_hexText (number : Nat) :
    decodeDigits (0 : BitVec width) 0 (hexText number) = (∅, ofNat width number) := by
  have decoded := @decodeDigits_map width (number % 16 :: Nat.digits 16 (number / 16))
    hexText_small 0 0 (by decide)
  rw [ofDigits_hexText] at decoded
  simpa [hexText] using decoded

variable {delimiter : UInt8} {source : BlockDataSource}

/-- A digit character is no delimiter. -/
theorem notMem_hexText (notDigit : hexDigitValue delimiter = none) (number : Nat) :
    delimiter ∉ hexText number := by
  intro mem
  rcases List.mem_map.mp mem with ⟨digit, digitMem, rfl⟩
  rw [hexDigitValue_hexDigit (hexText_small digit digitMem)] at notDigit
  cases notDigit

theorem length_hexText_le {number digits : Nat} (fits : number < 16 ^ digits)
    (positive : 0 < digits) : (hexText number).length ≤ digits := by
  rcases exists_eq_add_one_of_ne_zero positive.ne' with ⟨more, rfl⟩
  have quotient : number / 16 < 16 ^ more := by
    apply Nat.div_lt_of_lt_mul
    rwa [Nat.pow_succ, Nat.mul_comm] at fits
  have short := (digits_length_le_iff (b := 16) (by decide) (number / 16)).mpr quotient
  simpa [hexText] using short

theorem hexText_ne_nil (number : Nat) : hexText number ≠ [] :=
  List.cons_ne_nil _ _

/-- An unsigned number is read back from its text up to the delimiter. -/
theorem unsignedRead_reads (notDigit : hexDigitValue delimiter = none) (value : BitVec width)
    (narrow : width ≤ 64) :
    Reads (unsignedRead delimiter) (.exact (hexText value.toNat ++ [delimiter])) True
      (∅, value) := by
  apply Reads.ofExact
  intro source rest starts
  rw [List.append_assoc, List.singleton_append] at starts
  have bound : value.toNat < 16 ^ 16 :=
    lt_of_lt_of_le value.isLt (Nat.pow_le_pow_right (by decide) narrow)
  have short : (hexText value.toNat).length < scanStep :=
    lt_of_le_of_lt (length_hexText_le bound (by decide)) (by decide)
  have srcEq := stringBefore_of_append starts (notMem_hexText notDigit value.toNat) short 48
  have nonempty : (hexText value.toNat).isEmpty = false := by
    rw [List.isEmpty_eq_false_iff]
    exact hexText_ne_nil value.toNat
  have decoded : decodeDigits (0 : BitVec width) 0 (hexText value.toNat) = (∅, value) := by
    rw [decodeDigits_hexText, BitVec.ofNat_toNat, BitVec.setWidth_eq]
  have run : unsignedRead delimiter source =
      some ((∅, value), source.pop ((hexText value.toNat).length + 1)) := by
    change (if (source.stringBefore delimiter 48).isEmpty then _ else _ : SourceM _) source = _
    rw [srcEq, nonempty, decoded]
    rfl
  rw [run, List.length_append]
  rfl

/-- The text of a signed number is consumed in any case. -/
theorem signedRead_of_append (notDigit : hexDigitValue delimiter = none)
    (value target : BitVec width) (narrow : width ≤ 64) {rest : Block}
    (starts : source.remaining = signedText value ++ [delimiter] ++ rest) :
    signedRead target delimiter source =
      some (if (magnitude value).toNat < 2 ^ (width - 1) then (∅, value)
        else (.ofBit .invalidFormat, target),
        source.pop (signedText value ++ [delimiter]).length) := by
  have signEq : source.top 1 = [signOf value] := by
    rw [BlockDataSource.top, starts]
    rfl
  have behind : (source.pop 1).remaining =
      (hexText (magnitude value).toNat ++ [delimiter]) ++ rest := by
    rw [BlockDataSource.remaining_pop, starts]
    rfl
  have unsignedRun := (unsignedRead_reads notDigit (magnitude value) narrow).accept trivial
    (source.pop 1) rest behind
  have restored : (if [signOf value] = [byteOf '-'] then -magnitude value else magnitude value) =
      value := by
    unfold signOf magnitude
    cases value.msb
    · simp [byteOf]
    · simp
  have isSign : [signOf value] = [byteOf '+'] ∨ [signOf value] = [byteOf '-'] := by
    unfold signOf
    cases value.msb
    · exact Or.inl rfl
    · exact Or.inr rfl
  have consumed : (source.pop 1).pop (hexText (magnitude value).toNat ++ [delimiter]).length =
      source.pop (signedText value ++ [delimiter]).length := by
    rw [BlockDataSource.pop_pop]
    simp [signedText, add_comm]
  simp only [signedRead, topString, popTop, read_bind_apply, Option.bind_some, signEq, isSign,
    if_true, unsignedRun, Payload.length, Payload.exact_elems, consumed]
  split
  · rw [restored]
    rfl
  · rw [Bitfield.empty_or]
    rfl

/-- A signed number is read back unless its magnitude is not representable. -/
theorem signedRead_reads (notDigit : hexDigitValue delimiter = none) (value target : BitVec width)
    (narrow : width ≤ 64) (moderate : (magnitude value).toNat < 2 ^ (width - 1)) :
    Reads (signedRead target delimiter) (.exact (signedText value ++ [delimiter])) True
      (∅, value) := by
  apply Reads.ofExact
  intro source rest starts
  rw [signedRead_of_append notDigit value target narrow starts, if_pos moderate]

/-- Without its delimiter a number is not read, and becomes zero. -/
theorem unsignedRead_of_absent (absent : delimiter ∉ source.remaining)
    (short : source.remaining.length < scanStep) :
    unsignedRead delimiter source = some ((.ofBit .notEnoughData, (0 : BitVec width)), source) := by
  have srcEq := stringBefore_of_absent absent short 48
  change (if (source.stringBefore delimiter 48).isEmpty then _ else _ : SourceM _) source = _
  rw [srcEq]
  rfl

/-- A signed number without its delimiter is no number. -/
theorem signedRead_of_absent (absent : delimiter ∉ source.remaining)
    (short : source.remaining.length < scanStep) (target : BitVec width) :
    ∃ errors value after, signedRead target delimiter source = some ((errors, value), after) ∧
      errors ≠ ∅ := by
  by_cases isSign : source.top 1 = [byteOf '+'] ∨ source.top 1 = [byteOf '-']
  · have behindAbsent : delimiter ∉ (source.pop 1).remaining := by
      rw [BlockDataSource.remaining_pop]
      exact fun mem => absent (List.mem_of_mem_drop mem)
    have behindShort : (source.pop 1).remaining.length < scanStep := by
      rw [BlockDataSource.remaining_pop, List.length_drop]
      omega
    have unsignedRun := @unsignedRead_of_absent width delimiter _ behindAbsent behindShort
    simp only [signedRead, topString, popTop, read_bind_apply, Option.bind_some, if_pos isSign,
      unsignedRun]
    split
    · exact ⟨_, _, _, rfl, by decide⟩
    · exact ⟨_, _, _, rfl, by decide⟩
  · simp only [signedRead, topString, read_bind_apply, Option.bind_some, if_neg isSign]
    exact ⟨_, _, _, rfl, by decide⟩

end Eagine.Serialization
