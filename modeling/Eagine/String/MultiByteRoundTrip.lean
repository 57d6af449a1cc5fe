import Eagine.String.MultiByte
import Mathlib.Tactic.IntervalCases

/-!
# Round trip of multi-byte sequences

A code point is encoded as the sequence of its required length, and the sequence
is decoded as the code point, if something follows it.
-/

open List

namespace Eagine.MultiByte

def tailByte (len : Nat) (cp : CodePoint) (idx : Nat) : UInt8 :=
  doEncodeCodePointByte cp tailCode tailDataMask ((len - idx - 1) * 6)

def tailBytes (len : Nat) (cp : CodePoint) (idx count : Nat) : List UInt8 :=
  (List.range' idx count).map (tailByte len cp)

/-- The bytes of a code point. -/
def sequenceOf (len : Nat) (cp : CodePoint) : List UInt8 :=
  encodeCodePointHead len cp :: tailBytes len cp 1 (len - 1)

theorem length_tailBytes (len : Nat) (cp : CodePoint) (idx count : Nat) :
    (tailBytes len cp idx count).length = count := by
  rw [tailBytes, length_map, length_range']

variable {len : Nat} {cp : CodePoint}

theorem length_sequenceOf (positive : 1 ≤ len) (cp : CodePoint) :
    (sequenceOf len cp).length = len := by
  rw [sequenceOf, length_cons, length_tailBytes]
  exact Nat.sub_add_cancel positive

theorem tailBytes_succ (len : Nat) (cp : CodePoint) (idx count : Nat) :
    tailBytes len cp idx (count + 1) =
      tailByte len cp idx :: tailBytes len cp (idx + 1) count := by
  rw [tailBytes, range'_succ, map_cons]
  rfl

variable {idx : Nat}

theorem tailDataBitshift_eq (first : 1 ≤ idx) (inside : idx < len) (atMost : len ≤ 6) :
    tailDataBitshift idx len = some ((len - idx - 1) * 6) := by
  have idxLe : idx ≤ 6 := inside.le.trans atMost
  have lenPos : 1 ≤ len := first.trans inside.le
  rw [tailDataBitshift, isSequenceLength, isSequenceLength, if_pos]
  simp only [first, idxLe, lenPos, atMost, decide_true, Bool.and_self, Bool.true_and,
    decide_eq_true_eq]
  exact inside

theorem encodeCodePointTail_eq (first : 1 ≤ idx) (inside : idx < len) (atMost : len ≤ 6)
    (cp : CodePoint) : encodeCodePointTail len cp idx = some (tailByte len cp idx) := by
  rw [encodeCodePointTail, tailDataBitshift_eq first inside atMost]
  rfl

theorem take_succ_set {α : Type} {dest : List α} (inside : idx < dest.length)
    (a : α) : (dest.set idx a).take (idx + 1) = dest.take idx ++ [a] := by
  have takeLength : (dest.take idx).length = idx := length_take_of_le inside.le
  rw [set_eq_take_append_cons_drop, if_pos inside, take_append, takeLength,
    Nat.add_sub_cancel_left, take_of_length_le (takeLength.le.trans (Nat.le_succ idx))]
  rfl

theorem encodeTailFrom_eq (atMost : len ≤ 6) (cp : CodePoint) (count idx : Nat) (dest : List UInt8)
    (first : 1 ≤ idx) (inside : idx + count ≤ len) (room : idx + count ≤ dest.length) :
    encodeTailFrom len cp count idx dest =
      (true, dest.take idx ++ tailBytes len cp idx count ++ dest.drop (idx + count)) := by
  induction count generalizing idx dest with
  | zero => simp [encodeTailFrom, tailBytes]
  | succ count ih =>
      have tailEq := encodeCodePointTail_eq first (show idx < len by omega) atMost cp
      have rest := ih (idx + 1) (dest.set idx (tailByte len cp idx)) (by omega) (by omega) (by
        rw [length_set]
        omega)
      simp only [encodeTailFrom, tailEq]
      rw [rest, take_succ_set (by omega), drop_set_of_lt (by omega), tailBytes_succ,
        append_assoc, append_assoc, append_assoc, Nat.add_right_comm idx 1 count]
      rfl

theorem doEncodeCodePointInto_eq (positive : 1 ≤ len) (atMost : len ≤ 6) (cp : CodePoint)
    {dest : List UInt8} (room : len ≤ dest.length) :
    doEncodeCodePointInto len cp dest = (true, sequenceOf len cp ++ dest.drop len) := by
  have nonempty : 0 < dest.length := by omega
  have whole : 1 + (len - 1) = len := Nat.add_sub_cancel' positive
  rw [doEncodeCodePointInto, encodeTailFrom_eq atMost cp (len - 1) 1 _ le_rfl whole.le (by
      rw [length_set, whole]
      exact room), take_succ_set nonempty, whole, drop_set_of_lt positive]
  rfl

/-- A code point is encoded as its bytes, in place of the first ones of the
destination. -/
theorem encodeCodePoint_eq (positive : 1 ≤ len) (atMost : len ≤ 6)
    (required : requiredSequenceLength cp = some len) {dest : List UInt8}
    (room : len ≤ dest.length) :
    encodeCodePoint (some cp) dest = (some len, sequenceOf len cp ++ dest.drop len) := by
  have inside : len - 1 < dest.length := by omega
  rw [encodeCodePoint, Option.bind_some, required]
  simp only [doEncodeCodePoint, if_pos inside, doEncodeCodePointInto_eq positive atMost cp room,
    if_true]

/-- The number of the bits that the head byte of a sequence holds. -/
def headBits : Nat → Nat
  | 1 => 7
  | len => 7 - len

theorem masked_data {code mask : BitVec 8} (apart : code &&& mask = 0) (data : BitVec 8) :
    (code ||| (mask &&& data)) &&& mask = mask &&& data := by
  rw [BitVec.and_comm, BitVec.and_or_distrib_left, BitVec.and_comm mask code, apart,
    ← BitVec.and_assoc, BitVec.and_self]
  exact BitVec.zero_or

theorem headCode_apart (len : Nat) : headCode len &&& headDataMask len = 0 := by
  unfold headDataMask headCode headCodeMask
  split <;> decide

theorem headDataMask_toNat (positive : 1 ≤ len) (atMost : len ≤ 6) :
    (headDataMask len).toNat = 2 ^ headBits len - 1 := by
  interval_cases len <;> rfl

theorem tailDataMask_getLsbD (i : Nat) : tailDataMask.getLsbD i = decide (i < 6) := by
  have mask : tailDataMask = BitVec.ofNat 8 (2 ^ 6 - 1) := rfl
  rw [mask, BitVec.getLsbD_ofNat, Nat.testBit_two_pow_sub_one]
  simp
  omega

theorem headBits_le (positive : 1 ≤ len) (atMost : len ≤ 6) : headBits len ≤ 7 := by
  interval_cases len <;> decide

theorem decodeCodePointHead_eq (positive : 1 ≤ len) (atMost : len ≤ 6)
    (fits : cp.toNat < 2 ^ (headBits len + (len - 1) * 6)) :
    decodeCodePointHead len (encodeCodePointHead len cp) =
      (cp >>> ((len - 1) * 6)) <<< ((len - 1) * 6) := by
  have high : (cp >>> ((len - 1) * 6)).toNat < 2 ^ headBits len := by
    rw [BitVec.toNat_ushiftRight, Nat.shiftRight_eq_div_pow, Nat.div_lt_iff_lt_mul (by positivity),
      ← Nat.pow_add]
    exact fits
  have byte : (2 : Nat) ^ headBits len ≤ 2 ^ 8 :=
    Nat.pow_le_pow_right (by decide) ((headBits_le positive atMost).trans (by decide))
  have data : ((headDataMask len &&& (cp >>> ((len - 1) * 6)).setWidth 8).setWidth 32) =
      cp >>> ((len - 1) * 6) := by
    apply BitVec.eq_of_toNat_eq
    rw [BitVec.toNat_setWidth, BitVec.toNat_and, BitVec.toNat_setWidth,
      headDataMask_toNat positive atMost, Nat.mod_eq_of_lt (high.trans_le byte), Nat.and_comm,
      Nat.and_two_pow_sub_one_eq_mod, Nat.mod_eq_of_lt high]
    exact Nat.mod_eq_of_lt (BitVec.isLt _)
  rw [decodeCodePointHead, headDataBitshift, encodeCodePointHead, doEncodeCodePointByte,
    headDataBitshift]
  simp only [masked_data (headCode_apart len), data]

/-- Every tail byte restores the next six bits. -/
theorem tail_step (cp : CodePoint) (s : Nat) :
    (cp >>> (s + 6)) <<< (s + 6) |||
      (tailDataMask &&& (cp >>> s).setWidth 8).setWidth 32 <<< s = (cp >>> s) <<< s := by
  apply BitVec.eq_of_getLsbD_eq
  intro i inside
  simp [BitVec.getLsbD_shiftLeft, tailDataMask_getLsbD]
  grind

theorem decodeCodePointTail_eq (first : 1 ≤ idx) (inside : idx < len) (atMost : len ≤ 6)
    (cp : CodePoint) :
    decodeCodePointTail len (tailByte len cp idx) idx =
      some ((tailDataMask &&& (cp >>> ((len - idx - 1) * 6)).setWidth 8).setWidth 32 <<<
        ((len - idx - 1) * 6)) := by
  rw [decodeCodePointTail, tailDataBitshift_eq first inside atMost, tailByte,
    doEncodeCodePointByte, Option.map_some, masked_data (show tailCode &&& tailDataMask = 0 from rfl)]

theorem decodeTailFrom_eq (atMost : len ≤ 6) (cp : CodePoint) (src : List UInt8) (count idx : Nat)
    (first : 1 ≤ idx) (whole : idx + count = len)
    (tails : ∀ i, idx ≤ i → i < len → src.getD i 0 = tailByte len cp i) :
    decodeTailFrom len src count idx ((cp >>> (count * 6)) <<< (count * 6)) = cp := by
  induction count generalizing idx with
  | zero => simp [decodeTailFrom]
  | succ count ih =>
      have inside : idx < len := by omega
      have rest : len - idx - 1 = count := by omega
      rw [decodeTailFrom, tails idx le_rfl inside, decodeCodePointTail_eq first inside atMost]
      simp only [rest]
      rw [Nat.succ_mul, tail_step]
      exact ih (idx + 1) (by omega) (by omega) fun i after => tails i (by omega)

theorem isValidHeadByte_eq {l : Nat} (positive : 1 ≤ l) (upTo : l ≤ len) (atMost : len ≤ 6)
    (cp : CodePoint) : isValidHeadByte l (encodeCodePointHead len cp) = decide (l = len) := by
  have apart : headDataMask len &&& headCodeMask l = 0 := by
    interval_cases len <;> interval_cases l <;> rfl
  have codes : (headCode len &&& headCodeMask l == headCode l) = decide (l = len) := by
    interval_cases len <;> interval_cases l <;> rfl
  rw [isValidHeadByte, isValidMaskedCode, encodeCodePointHead, doEncodeCodePointByte, ← codes]
  congr 1
  rw [BitVec.and_comm, BitVec.and_or_distrib_left, ← BitVec.and_assoc,
    BitVec.and_comm (headCodeMask l) (headDataMask len), apart, BitVec.and_comm]
  simp

theorem getD_sequenceOf (cp : CodePoint) (rest : List UInt8) {i : Nat} (first : 1 ≤ i)
    (inside : i < len) : (sequenceOf len cp ++ rest).getD i 0 = tailByte len cp i := by
  obtain ⟨j, rfl⟩ : ∃ j, i = j + 1 := ⟨i - 1, (Nat.sub_add_cancel first).symm⟩
  have before : j < (tailBytes len cp 1 (len - 1)).length := by
    rw [length_tailBytes]
    omega
  rw [sequenceOf, cons_append, getD_cons_succ, getD_append _ _ _ _ before,
    getD_eq_getElem _ _ before]
  simp [tailBytes, Nat.add_comm]

theorem doDecodeCodePointFrom_eq (positive : 1 ≤ len) (atMost : len ≤ 6) (valid : isValid cp)
    (fits : cp.toNat < 2 ^ (headBits len + (len - 1) * 6)) (rest : List UInt8) :
    doDecodeCodePointFrom len (sequenceOf len cp ++ rest) = some cp := by
  have head : (sequenceOf len cp ++ rest).getD 0 0 = encodeCodePointHead len cp := rfl
  rw [doDecodeCodePointFrom, head, decodeCodePointHead_eq positive atMost fits,
    decodeTailFrom_eq atMost cp _ (len - 1) 1 le_rfl (Nat.add_sub_cancel' positive)
      fun i first inside => getD_sequenceOf cp rest first inside]
  exact if_pos valid

/-- The bytes of a code point are decoded as it, provided that they are not the
last ones of the source. -/
theorem doDecodeCodePointC_eq (positive : 1 ≤ len) (atMost : len ≤ 6) (valid : isValid cp)
    (fits : cp.toNat < 2 ^ (headBits len + (len - 1) * 6)) (rest : List UInt8) :
    doDecodeCodePointC len (sequenceOf len cp ++ rest) =
      if rest = [] then none else some cp := by
  rw [doDecodeCodePointC, length_append, length_sequenceOf positive]
  cases rest with
  | nil => exact if_neg (Nat.lt_irrefl len)
  | cons b rest =>
      have more : len < len + (b :: rest).length := Nat.lt_add_of_pos_right (Nat.succ_pos _)
      rw [if_pos more, if_neg (cons_ne_nil b rest)]
      exact doDecodeCodePointFrom_eq positive atMost valid fits (b :: rest)

theorem doDecodeLengthAndCodePoint_eq (positive : 1 ≤ len) (atMost : len ≤ 6) (valid : isValid cp)
    (fits : cp.toNat < 2 ^ (headBits len + (len - 1) * 6)) (rest : List UInt8) :
    doDecodeLengthAndCodePoint (sequenceOf len cp ++ rest) =
      (some len, if rest = [] then none else some cp) := by
  have decoded := doDecodeCodePointC_eq positive atMost valid fits rest
  have byLength {l : Nat} (from1 : 1 ≤ l) (upTo : l ≤ len) :=
    isValidHeadByte_eq from1 upTo atMost cp
  rw [← decoded, sequenceOf, cons_append, doDecodeLengthAndCodePoint]
  interval_cases len <;> simp [byLength]

theorem isValid_of_codePoint {valid : CodePoint} (made : codePoint cp = some valid) :
    isValid valid = true := by
  rw [codePoint, Option.ite_none_right_eq_some, Option.some_inj] at made
  obtain ⟨isValidCp, rfl⟩ := made
  exact isValidCp

theorem isValid_of_doDecodeCodePointC {src : List UInt8}
    (decoded : doDecodeCodePointC len src = some cp) : isValid cp = true := by
  rw [doDecodeCodePointC, Option.ite_none_right_eq_some] at decoded
  obtain ⟨-, from_bytes⟩ := decoded
  exact isValid_of_codePoint from_bytes

/-- What is decoded is a positive length and a valid code point. -/
theorem valid_of_doDecodeLengthAndCodePoint {s : List UInt8}
    (decoded : doDecodeLengthAndCodePoint s = (some len, some cp)) :
    1 ≤ len ∧ isValid cp = true := by
  have ofLength {l : Nat} (positive : 1 ≤ l)
      (result : (some l, doDecodeCodePointC l s) = (some len, some cp)) :
      1 ≤ len ∧ isValid cp = true := by
    rw [Prod.mk.injEq, Option.some_inj] at result
    obtain ⟨rfl, point⟩ := result
    exact ⟨positive, isValid_of_doDecodeCodePointC point⟩
  cases s with
  | nil => simp [doDecodeLengthAndCodePoint] at decoded
  | cons b s =>
      rw [doDecodeLengthAndCodePoint] at decoded
      split_ifs at decoded
      · exact ofLength (by decide) decoded
      · exact ofLength (by decide) decoded
      · exact ofLength (by decide) decoded
      · exact ofLength (by decide) decoded
      · exact ofLength (by decide) decoded
      · exact ofLength (by decide) decoded
      · simp at decoded

theorem toNat_lt_of_lt_maxCodePoint (positive : 1 ≤ len) (atMost : len ≤ 6)
    (below : cp < maxCodePoint len) : cp.toNat < 2 ^ (headBits len + (len - 1) * 6) := by
  have bound : (maxCodePoint len).toNat < 2 ^ (headBits len + (len - 1) * 6) := by
    interval_cases len <;> decide
  exact (BitVec.lt_def.mp below).trans bound

/-- Every valid code point has a sequence with enough bits for it. -/
theorem exists_requiredSequenceLength (valid : isValid cp) :
    ∃ len, requiredSequenceLength cp = some len ∧ 1 ≤ len ∧ len ≤ 6 ∧
      cp.toNat < 2 ^ (headBits len + (len - 1) * 6) := by
  have last : cp < maxCodePoint 6 := BitVec.lt_def.mpr (of_decide_eq_true valid)
  have found {len : Nat} (positive : 1 ≤ len) (atMost : len ≤ 6)
      (below : cp < maxCodePoint len) :
      ∃ len', some len = some len' ∧ 1 ≤ len' ∧ len' ≤ 6 ∧
        cp.toNat < 2 ^ (headBits len' + (len' - 1) * 6) :=
    ⟨len, rfl, positive, atMost, toNat_lt_of_lt_maxCodePoint positive atMost below⟩
  unfold requiredSequenceLength
  split_ifs with below1 below2 below3 below4 below5
  · exact found le_rfl (by decide) below1
  · exact found (by decide) (by decide) below2
  · exact found (by decide) (by decide) below3
  · exact found (by decide) (by decide) below4
  · exact found (by decide) (by decide) below5
  · exact found (by decide) le_rfl last

end Eagine.MultiByte

/-!
## Texts of multi-byte sequences

A text is encoded as the sequences of its code points, one after another. The
functions that measure, validate and decode it walk the same bytes and agree on
where every sequence starts.
-/

namespace Eagine.MultiByte

/-- The sequence of a code point by its required length. -/
def bytesOf (cp : CodePoint) : List UInt8 :=
  match requiredSequenceLength cp with
  | some len => sequenceOf len cp
  | none => []

/-- A valid code point has a sequence of one to six bytes with enough bits for
it. -/
theorem exists_bytesOf {cp : CodePoint} (valid : isValid cp) :
    ∃ len, requiredSequenceLength cp = some len ∧ 1 ≤ len ∧ len ≤ 6 ∧
      cp.toNat < 2 ^ (headBits len + (len - 1) * 6) ∧ bytesOf cp = sequenceOf len cp ∧
      (bytesOf cp).length = len := by
  obtain ⟨len, required, positive, atMost, fits⟩ := exists_requiredSequenceLength valid
  have bytes : bytesOf cp = sequenceOf len cp := by
    rw [bytesOf, required]
  exact ⟨len, required, positive, atMost, fits, bytes,
    bytes.symm ▸ length_sequenceOf positive cp⟩

theorem doDecodeSequenceLength_eq {len : Nat} (positive : 1 ≤ len) (atMost : len ≤ 6)
    (cp : CodePoint) : doDecodeSequenceLength (encodeCodePointHead len cp) = some len := by
  have byLength {l : Nat} (from1 : 1 ≤ l) (upTo : l ≤ len) :=
    isValidHeadByte_eq from1 upTo atMost cp
  rw [doDecodeSequenceLength]
  interval_cases len <;> simp [byLength]

theorem decodeSequenceLength_eq {len : Nat} (positive : 1 ≤ len) (atMost : len ≤ 6)
    (cp : CodePoint) (rest : List UInt8) :
    decodeSequenceLength (sequenceOf len cp ++ rest) = some len :=
  doDecodeSequenceLength_eq positive atMost cp

/-- Two masked codes that do not fit together are not those of one byte. -/
theorem isValidMaskedCode_apart {b : UInt8} {mask code otherMask otherCode : BitVec 8}
    (matched : isValidMaskedCode b mask code = true)
    (apart : code &&& otherMask ≠ otherCode &&& mask) :
    isValidMaskedCode b otherMask otherCode = false := by
  rw [isValidMaskedCode, beq_iff_eq] at matched
  rw [isValidMaskedCode, beq_eq_false_iff_ne]
  intro other
  apply apart
  rw [← matched, ← other, BitVec.and_assoc, BitVec.and_assoc, BitVec.and_comm mask]

theorem isValidTailByte_tailByte (len : Nat) (cp : CodePoint) (idx : Nat) :
    isValidTailByte (tailByte len cp idx) = true := by
  have apart : tailDataMask &&& tailCodeMask = 0 := rfl
  have code : tailCodeMask &&& tailCode = tailCode := rfl
  rw [isValidTailByte, isValidMaskedCode, tailByte, doEncodeCodePointByte, BitVec.and_comm,
    BitVec.and_or_distrib_left, ← BitVec.and_assoc, BitVec.and_comm tailCodeMask tailDataMask,
    apart, code]
  simp

/-- The encoding is valid at the start of every sequence. -/
theorem isValidEncoding_eq {len : Nat} (positive : 1 ≤ len) (atMost : len ≤ 6) (cp : CodePoint)
    (rest : List UInt8) : isValidEncoding (sequenceOf len cp ++ rest) = true := by
  have head : isValidHeadByte len ((sequenceOf len cp ++ rest).getD 0 0) = true := by
    rw [sequenceOf, cons_append, getD_cons_zero,
      isValidHeadByte_eq positive le_rfl atMost, decide_eq_true rfl]
  have room : ¬(sequenceOf len cp ++ rest).length < len := by
    rw [length_append, length_sequenceOf positive]
    exact Nat.not_lt.mpr (Nat.le_add_right len rest.length)
  rw [isValidEncoding, decodeSequenceLength_eq positive atMost]
  simp only [head, if_neg room]
  rw [Bool.not_true, if_neg Bool.false_ne_true, all_eq_true]
  intro i within
  obtain ⟨first, inside⟩ := mem_range'_1.mp within
  have before : i < len := by omega
  rw [getD_sequenceOf cp rest first before]
  exact isValidTailByte_tailByte len cp i

theorem doDecodeCodePoint_eq {len : Nat} (positive : 1 ≤ len) (atMost : len ≤ 6)
    {cp : CodePoint} (valid : isValid cp)
    (fits : cp.toNat < 2 ^ (headBits len + (len - 1) * 6)) (rest : List UInt8) :
    doDecodeCodePoint (sequenceOf len cp ++ rest) (some len) = some cp := by
  have room : len - 1 < (sequenceOf len cp ++ rest).length := by
    rw [length_append, length_sequenceOf positive]
    omega
  rw [doDecodeCodePoint, if_pos room]
  exact doDecodeCodePointFrom_eq positive atMost valid fits rest

def textOf (cps : List CodePoint) : List UInt8 :=
  cps.flatMap bytesOf

theorem textOf_cons (cp : CodePoint) (cps : List CodePoint) :
    textOf (cp :: cps) = bytesOf cp ++ textOf cps :=
  flatMap_cons

theorem textOf_append (before after : List CodePoint) :
    textOf (before ++ after) = textOf before ++ textOf after :=
  flatMap_append

theorem encodingBytesRequired_eq (cps : List CodePoint) (valid : ∀ cp ∈ cps, isValid cp = true) :
    encodingBytesRequired (cps.map some) = some (textOf cps).length := by
  induction cps with
  | nil => rfl
  | cons cp cps ih =>
      obtain ⟨validHead, validTail⟩ := forall_mem_cons.mp valid
      obtain ⟨len, required, -, -, -, -, bytesLength⟩ := exists_bytesOf validHead
      rw [map_cons, encodingBytesRequired, Option.bind_some, required, ih validTail,
        textOf_cons, length_append, bytesLength]
      rfl

theorem encodeCodePoints_eq (cps : List CodePoint) (valid : ∀ cp ∈ cps, isValid cp = true)
    (dest : List UInt8) (room : (textOf cps).length ≤ dest.length) :
    encodeCodePoints (cps.map some) dest =
      (true, textOf cps ++ dest.drop (textOf cps).length) := by
  induction cps generalizing dest with
  | nil => rfl
  | cons cp cps ih =>
      obtain ⟨validHead, validTail⟩ := forall_mem_cons.mp valid
      obtain ⟨len, required, positive, atMost, fits, bytes, bytesLength⟩ := exists_bytesOf validHead
      rw [textOf_cons, length_append, bytesLength] at room
      have headRoom : len ≤ dest.length := (Nat.le_add_right len _).trans room
      have tailRoom : (textOf cps).length ≤ (dest.drop len).length := by
        rw [length_drop]
        exact Nat.le_sub_of_add_le' room
      have nonempty : ¬dest.length = 0 := Nat.pos_iff_ne_zero.mp (positive.trans headRoom)
      have made : codePoint cp = some cp := if_pos validHead
      have takeSequence : (sequenceOf len cp ++ dest.drop len).take len = bytesOf cp := by
        rw [take_left' (length_sequenceOf positive cp), bytes]
      have dropSequence : (sequenceOf len cp ++ dest.drop len).drop len = dest.drop len :=
        drop_left' (length_sequenceOf positive cp)
      simp only [map_cons, encodeCodePoints, if_neg nonempty, made,
        encodeCodePoint_eq positive atMost required headRoom, takeSequence, dropSequence,
        ih validTail (dest.drop len) tailRoom, textOf_cons, length_append, bytesLength,
        drop_drop, append_assoc]

theorem decodingCodePointsFrom_eq (cps : List CodePoint) (valid : ∀ cp ∈ cps, isValid cp = true)
    (fuel : Nat) (enough : (textOf cps).length ≤ fuel) (result : Nat) :
    decodingCodePointsFrom fuel (textOf cps) result = some (result + cps.length) := by
  induction cps generalizing fuel result with
  | nil =>
      have emptyText : textOf [] = [] := rfl
      rw [emptyText, decodingCodePointsFrom, length_nil, Nat.add_zero]
  | cons cp cps ih =>
      obtain ⟨validHead, validTail⟩ := forall_mem_cons.mp valid
      obtain ⟨len, -, positive, atMost, -, bytes, bytesLength⟩ := exists_bytesOf validHead
      rw [textOf_cons, length_append, bytesLength] at enough
      obtain ⟨fuel, rfl⟩ : ∃ fewer, fuel = fewer + 1 :=
        Nat.exists_eq_add_one.mpr (positive.trans ((Nat.le_add_right len _).trans enough))
      have dropSequence : (sequenceOf len cp ++ textOf cps).drop len = textOf cps :=
        drop_left' (length_sequenceOf positive cp)
      have notPast : ¬(tailBytes len cp 1 (len - 1) ++ textOf cps).length + 1 < len := by
        rw [length_append, length_tailBytes]
        omega
      have fewerEnough : (textOf cps).length ≤ fuel := by omega
      rw [textOf_cons, bytes, sequenceOf, cons_append, decodingCodePointsFrom,
        doDecodeSequenceLength_eq positive atMost]
      simp only [if_neg notPast]
      rw [← cons_append, ← sequenceOf, dropSequence, ih validTail fuel fewerEnough,
        length_cons, Nat.add_right_comm, Nat.add_assoc]

theorem decodeCodePoints_eq (cps : List CodePoint) (valid : ∀ cp ∈ cps, isValid cp = true)
    (out : List (Option CodePoint)) (same : out.length = cps.length) :
    decodeCodePoints (textOf cps) out = (true, cps.map some) := by
  induction cps generalizing out with
  | nil =>
      obtain rfl := length_eq_zero_iff.mp same
      rfl
  | cons cp cps ih =>
      obtain ⟨validHead, validTail⟩ := forall_mem_cons.mp valid
      obtain ⟨len, -, positive, atMost, fits, bytes, bytesLength⟩ := exists_bytesOf validHead
      cases out with
      | nil => exact absurd same (Nat.succ_ne_zero _).symm
      | cons old out =>
          have nonempty : ¬(sequenceOf len cp ++ textOf cps).length = 0 := by
            rw [sequenceOf]
            exact Nat.succ_ne_zero _
          have dropSequence : (sequenceOf len cp ++ textOf cps).drop len = textOf cps :=
            drop_left' (length_sequenceOf positive cp)
          rw [textOf_cons, bytes, decodeCodePoints, if_neg nonempty,
            decodeSequenceLength_eq positive atMost]
          simp only [doDecodeCodePoint_eq positive atMost validHead fits, dropSequence,
            ih validTail out (Nat.succ_injective same), map_cons]

/-- The code points of a text fill a buffer of the required size, whatever it
holds, with a text that starts a valid encoding at each of them and is decoded as
the same code points. -/
theorem codePoints_roundTrip (cps : List CodePoint) (valid : ∀ cp ∈ cps, isValid cp = true) :
    ∃ size text, encodingBytesRequired (cps.map some) = some size ∧
      (∀ dest, dest.length = size → encodeCodePoints (cps.map some) dest = (true, text)) ∧
      text.length = size ∧
      (∀ before cp after, cps = before ++ cp :: after →
        ∃ start, encodingBytesRequired (before.map some) = some start ∧
          isValidEncoding (text.drop start) = true) ∧
      decodingCodePointsRequired text = some cps.length ∧
      ∀ out, out.length = cps.length → decodeCodePoints text out = (true, cps.map some) := by
  refine ⟨(textOf cps).length, textOf cps, encodingBytesRequired_eq cps valid, ?_, rfl, ?_, ?_,
    decodeCodePoints_eq cps valid⟩
  · intro dest exact_size
    rw [encodeCodePoints_eq cps valid dest exact_size.ge, ← exact_size, drop_length,
      append_nil]
  · rintro before cp after rfl
    have validBefore : ∀ other ∈ before, isValid other = true := fun other within =>
      valid other (mem_append_left _ within)
    have validHere : isValid cp = true := valid cp (by simp)
    obtain ⟨len, -, positive, atMost, -, bytes, -⟩ := exists_bytesOf validHere
    refine ⟨(textOf before).length, encodingBytesRequired_eq before validBefore, ?_⟩
    rw [textOf_append, drop_left, textOf_cons, bytes]
    exact isValidEncoding_eq positive atMost cp (textOf after)
  · rw [decodingCodePointsRequired, decodingCodePointsFrom_eq cps valid _ le_rfl, Nat.zero_add]

theorem codePoints_roundTrip_three :
    ∃ size text, encodingBytesRequired ([0x24, 0x20AC, 0x7FFFFFFE].map some) = some size ∧
      (∀ dest, dest.length = size →
        encodeCodePoints ([0x24, 0x20AC, 0x7FFFFFFE].map some) dest = (true, text)) ∧
      text.length = size ∧
      (∀ before cp after, ([0x24, 0x20AC, 0x7FFFFFFE] : List CodePoint) = before ++ cp :: after →
        ∃ start, encodingBytesRequired (before.map some) = some start ∧
          isValidEncoding (text.drop start) = true) ∧
      decodingCodePointsRequired text = some 3 ∧
      ∀ out, out.length = 3 →
        decodeCodePoints text out = (true, [0x24, 0x20AC, 0x7FFFFFFE].map some) :=
  codePoints_roundTrip [0x24, 0x20AC, 0x7FFFFFFE] (by simp [isValid])

end Eagine.MultiByte
