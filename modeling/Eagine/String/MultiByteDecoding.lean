import Eagine.String.MultiByteRoundTrip

/-!
# Decoding of multi-byte sequences

The head byte of a sequence determines its length, and the bits that are decoded are those
of its bytes. The only sequences of a sufficient length that are not decoded are the ones
in which all the 31 bits are set.
-/

namespace Eagine.MultiByte

variable {len : Nat}

theorem isValidHeadByte_of_ne {other : Nat} {b : UInt8} (positive : 1 ≤ len) (atMost : len ≤ 6)
    (otherPositive : 1 ≤ other) (otherAtMost : other ≤ 6) (head : isValidHeadByte len b = true)
    (different : other ≠ len) : isValidHeadByte other b = false := by
  apply isValidMaskedCode_apart head
  interval_cases len <;> interval_cases other <;>
    first | exact absurd rfl different | decide

/-- A byte is the head byte of the sequences of one length at most. -/
theorem doDecodeSequenceLength_eq_some_iff {b : UInt8} :
    doDecodeSequenceLength b = some len ↔
      1 ≤ len ∧ len ≤ 6 ∧ isValidHeadByte len b = true := by
  constructor
  · intro decoded
    have found {l : Nat} (positive : 1 ≤ l) (atMost : l ≤ 6)
        (head : isValidHeadByte l b = true) (same : some l = some len) :
        1 ≤ len ∧ len ≤ 6 ∧ isValidHeadByte len b = true := by
      cases same
      exact ⟨positive, atMost, head⟩
    rw [doDecodeSequenceLength] at decoded
    split_ifs at decoded with head1 head2 head3 head4 head5 head6
    · exact found le_rfl (by decide) head1 decoded
    · exact found (by decide) (by decide) head2 decoded
    · exact found (by decide) (by decide) head3 decoded
    · exact found (by decide) (by decide) head4 decoded
    · exact found (by decide) (by decide) head5 decoded
    · exact found (by decide) le_rfl head6 decoded
  · rintro ⟨positive, atMost, head⟩
    have others {l : Nat} (from1 : 1 ≤ l) (upTo : l ≤ 6) (different : l ≠ len) :=
      isValidHeadByte_of_ne positive atMost from1 upTo head different
    rw [doDecodeSequenceLength]
    interval_cases len <;> simp [head, others]

theorem doDecodeSequenceLength_eq_none_iff {b : UInt8} :
    doDecodeSequenceLength b = none ↔ isValidHeadByteOfAny b = false := by
  rw [doDecodeSequenceLength, isValidHeadByteOfAny]
  split_ifs with head1 head2 head3 head4 head5 head6
  · simp [head1]
  · simp [head2]
  · simp [head3]
  · simp [head4]
  · simp [head5]
  · simp [head6]
  · simp [head1, head2, head3, head4, head5, head6]

variable {s : List UInt8}

/-- What the decoder that looks for the length by itself finds. -/
theorem doDecodeLengthAndCodePoint_of_some
    (decoded : decodeSequenceLength s = some len) (nonempty : s ≠ []) :
    doDecodeLengthAndCodePoint s = (some len, doDecodeCodePointC len s) := by
  cases s with
  | nil => exact absurd rfl nonempty
  | cons b rest =>
      rcases doDecodeSequenceLength_eq_some_iff.mp decoded with ⟨positive, atMost, head⟩
      have others {l : Nat} (from1 : 1 ≤ l) (upTo : l ≤ 6) (different : l ≠ len) :=
        isValidHeadByte_of_ne positive atMost from1 upTo head different
      rw [doDecodeLengthAndCodePoint]
      rw [List.getD_cons_zero] at head others
      interval_cases len <;> simp [head, others]

theorem doDecodeLengthAndCodePoint_of_none (undecoded : decodeSequenceLength s = none) :
    doDecodeLengthAndCodePoint s = (none, none) := by
  cases s with
  | nil => rfl
  | cons b rest =>
      rw [decodeSequenceLength, doDecodeSequenceLength] at undecoded
      split_ifs at undecoded
      rw [doDecodeLengthAndCodePoint]
      simp_all

theorem headDataMask_getLsbD (positive : 1 ≤ len) (atMost : len ≤ 6) (i : Nat) :
    (headDataMask len).getLsbD i = decide (i < headBits len) := by
  have small := headBits_le positive atMost
  have mask : headDataMask len = BitVec.ofNat 8 (2 ^ headBits len - 1) := by
    interval_cases len <;> rfl
  rw [mask, BitVec.getLsbD_ofNat, Nat.testBit_two_pow_sub_one]
  by_cases inside : i < headBits len
  · simp [inside, (inside.trans_le small).trans_le (by decide : 7 ≤ 8)]
  · simp [inside]

theorem getLsbD_decodeCodePointHead (positive : 1 ≤ len) (atMost : len ≤ 6) (b : UInt8) {i : Nat}
    (inside : i < 32) :
    (decodeCodePointHead len b).getLsbD i =
      (decide ((len - 1) * 6 ≤ i) && b.toBitVec.getLsbD (i - (len - 1) * 6) &&
        decide (i - (len - 1) * 6 < headBits len)) := by
  rw [decodeCodePointHead, headDataBitshift, BitVec.getLsbD_shiftLeft, BitVec.getLsbD_setWidth,
    BitVec.getLsbD_and, headDataMask_getLsbD positive atMost]
  by_cases above : (len - 1) * 6 ≤ i
  · have within : i - (len - 1) * 6 < 32 := (Nat.sub_le _ _).trans_lt inside
    simp [above, inside, within]
  · simp [above, Nat.lt_of_not_le above]

/-- The bits that one of the tail bytes adds. -/
theorem getLsbD_tail (b : UInt8) (count : Nat) {i : Nat} (inside : i < 32) :
    ((b.toBitVec &&& tailDataMask).setWidth 32 <<< (count * 6)).getLsbD i =
      (decide (count * 6 ≤ i ∧ i < (count + 1) * 6) && b.toBitVec.getLsbD (i % 6)) := by
  rw [BitVec.getLsbD_shiftLeft, BitVec.getLsbD_setWidth, BitVec.getLsbD_and, tailDataMask_getLsbD]
  by_cases above : count * 6 ≤ i
  · by_cases below : i < (count + 1) * 6
    · have position : i - count * 6 = i % 6 := by omega
      have small : i % 6 < 6 := Nat.mod_lt _ (by decide)
      simp [above, below, inside, position, small, small.trans (by decide : 6 < 32)]
    · have past : ¬i - count * 6 < 6 := by omega
      simp [below, past]
  · simp [above, Nat.lt_of_not_le above]

/-- The lowest bits are those of the tail bytes, six of each, and the highest ones those of
the head byte. -/
theorem getLsbD_decodeTailFrom (atMost : len ≤ 6) (src : List UInt8) (count idx : Nat)
    (first : 1 ≤ idx) (whole : idx + count = len) (cp : CodePoint)
    (low : ∀ i < count * 6, cp.getLsbD i = false) {i : Nat} (inside : i < 32) :
    (decodeTailFrom len src count idx cp).getLsbD i =
      if i < count * 6 then (src.getD (len - 1 - i / 6) 0).toBitVec.getLsbD (i % 6)
      else cp.getLsbD i := by
  induction count generalizing idx cp with
  | zero => rw [decodeTailFrom, if_neg (by rw [Nat.zero_mul]; exact Nat.not_lt_zero i)]
  | succ count ih =>
      have before : idx < len := by omega
      have shift : len - idx - 1 = count := by omega
      have nextLow : ∀ j < count * 6, (cp ||| ((src.getD idx 0).toBitVec &&&
          tailDataMask).setWidth 32 <<< (count * 6)).getLsbD j = false := by
        intro j below
        have within : j < 32 := by omega
        rw [BitVec.getLsbD_or, getLsbD_tail _ _ within, low j (by omega)]
        simp [Nat.not_le.mpr below]
      have rest := ih (idx + 1) (by omega) (by omega) _ nextLow
      rw [decodeTailFrom, decodeCodePointTail, tailDataBitshift_eq first before atMost,
        Option.map_some]
      dsimp only
      rw [shift, rest, BitVec.getLsbD_or, getLsbD_tail _ _ inside]
      by_cases lowest : i < count * 6
      · rw [if_pos lowest, if_pos (by omega)]
      · rw [if_neg lowest]
        by_cases here : i < (count + 1) * 6
        · have position : len - 1 - i / 6 = idx := by omega
          rw [if_pos here, low i here, position]
          simp [Nat.le_of_not_lt lowest, here]
        · rw [if_neg here]
          simp [here]

/-- All the 31 bits of a sequence of six bytes are set, as in the invalid code point. -/
def HasAllBits (seq : List UInt8) : Prop :=
  (seq.getD 0 0).toBitVec.getLsbD 0 = true ∧
    ∀ idx, 1 ≤ idx → idx < 6 → (seq.getD idx 0).toBitVec &&& tailDataMask = tailDataMask

theorem isValid_iff_ne {cp : CodePoint} (top : cp.getLsbD 31 = false) :
    isValid cp = true ↔ cp ≠ invalidCodePoint := by
  have below : cp.toNat < 2 ^ 31 := by
    have msb : cp.msb = false := (BitVec.msb_eq_getLsbD_last cp).trans top
    exact BitVec.toNat_lt_of_msb_false msb
  rw [isValid, decide_eq_true_iff, Ne, BitVec.toNat_eq]
  have limit : invalidCodePoint.toNat = 0x7FFFFFFF := rfl
  omega

theorem invalidCodePoint_getLsbD (i : Nat) : invalidCodePoint.getLsbD i = decide (i < 31) := by
  have bits : invalidCodePoint = BitVec.ofNat 32 (2 ^ 31 - 1) := rfl
  rw [bits, BitVec.getLsbD_ofNat, Nat.testBit_two_pow_sub_one]
  by_cases inside : i < 31
  · simp [inside, inside.trans (by decide : 31 < 32)]
  · simp [inside]

theorem and_tailDataMask_eq_iff (b : BitVec 8) :
    b &&& tailDataMask = tailDataMask ↔ ∀ k < 6, b.getLsbD k = true := by
  constructor
  · intro all k inside
    have bit := congrArg (fun x : BitVec 8 => x.getLsbD k) all
    simpa [tailDataMask_getLsbD, inside] using bit
  · intro all
    apply BitVec.eq_of_getLsbD_eq
    intro k inside
    rw [BitVec.getLsbD_and, tailDataMask_getLsbD]
    by_cases low : k < 6
    · rw [all k low, Bool.true_and]
    · simp [low]

/-- The code point that the bytes of a sequence stand for. -/
def dataOf (len : Nat) (src : List UInt8) : CodePoint :=
  decodeTailFrom len src (len - 1) 1 (decodeCodePointHead len (src.getD 0 0))

theorem getLsbD_dataOf (positive : 1 ≤ len) (atMost : len ≤ 6) (src : List UInt8) {i : Nat}
    (inside : i < 32) :
    (dataOf len src).getLsbD i =
      if i < (len - 1) * 6 then (src.getD (len - 1 - i / 6) 0).toBitVec.getLsbD (i % 6)
      else (src.getD 0 0).toBitVec.getLsbD (i - (len - 1) * 6) &&
        decide (i - (len - 1) * 6 < headBits len) := by
  have low : ∀ j < (len - 1) * 6,
      (decodeCodePointHead len (src.getD 0 0)).getLsbD j = false := by
    intro j below
    have within : j < 32 := by omega
    rw [getLsbD_decodeCodePointHead positive atMost _ within]
    simp [Nat.not_le.mpr below]
  rw [dataOf, getLsbD_decodeTailFrom atMost src (len - 1) 1 le_rfl
    (Nat.add_sub_cancel' positive) _ low inside]
  by_cases tail : i < (len - 1) * 6
  · rw [if_pos tail, if_pos tail]
  · rw [if_neg tail, if_neg tail, getLsbD_decodeCodePointHead positive atMost _ inside]
    simp [Nat.le_of_not_lt tail]

theorem headBits_sum (positive : 1 ≤ len) (atMost : len ≤ 6) :
    headBits len + (len - 1) * 6 ≤ 31 := by
  interval_cases len <;> decide

/-- Only a sequence of six bytes has 31 bits. -/
theorem dataOf_eq_invalidCodePoint_iff (positive : 1 ≤ len) (atMost : len ≤ 6) (src : List UInt8) :
    dataOf len src = invalidCodePoint ↔ len = 6 ∧ HasAllBits src := by
  constructor
  · intro invalid
    have bit {i : Nat} (inside : i < 31) : (dataOf len src).getLsbD i = true := by
      rw [invalid, invalidCodePoint_getLsbD, decide_eq_true inside]
    have longest : len = 6 := by
      have top := bit (show 30 < 31 by decide)
      rw [getLsbD_dataOf positive atMost src (by decide)] at top
      interval_cases len <;> simp [headBits] at top ⊢
    subst longest
    refine ⟨rfl, ?_, ?_⟩
    · have top := bit (show 30 < 31 by decide)
      rw [getLsbD_dataOf positive atMost src (by decide)] at top
      simpa [headBits] using top
    · intro idx first inside
      rw [and_tailDataMask_eq_iff]
      intro k small
      have position : (5 - idx) * 6 + k < 30 := by omega
      have tail := bit (show (5 - idx) * 6 + k < 31 by omega)
      rw [getLsbD_dataOf positive atMost src (by omega), if_pos position] at tail
      have byte : 6 - 1 - ((5 - idx) * 6 + k) / 6 = idx := by omega
      have offset : ((5 - idx) * 6 + k) % 6 = k := by omega
      rwa [byte, offset] at tail
  · rintro ⟨rfl, head, tails⟩
    apply BitVec.eq_of_getLsbD_eq
    intro i inside
    rw [invalidCodePoint_getLsbD, getLsbD_dataOf positive atMost src inside]
    by_cases tail : i < 30
    · have byte := (and_tailDataMask_eq_iff _).mp (tails (5 - i / 6) (by omega) (by omega))
      rw [if_pos tail, byte (i % 6) (Nat.mod_lt i (by decide)),
        decide_eq_true (tail.trans (by decide))]
    · rw [if_neg tail]
      by_cases top : i = 30
      · subst top
        simpa [headBits] using head
      · have last : i = 31 := by omega
        subst last
        simp [headBits]

theorem doDecodeCodePointFrom_eq_none_iff (positive : 1 ≤ len) (atMost : len ≤ 6)
    (src : List UInt8) : doDecodeCodePointFrom len src = none ↔ len = 6 ∧ HasAllBits src := by
  have top : (dataOf len src).getLsbD 31 = false := by
    have sum := headBits_sum positive atMost
    have above : ¬31 < (len - 1) * 6 := by omega
    have past : ¬31 - (len - 1) * 6 < headBits len := by omega
    rw [getLsbD_dataOf positive atMost src (by decide), if_neg above, decide_eq_false past,
      Bool.and_false]
  rw [← dataOf_eq_invalidCodePoint_iff positive atMost, ← not_iff_not, ← Ne, ← Ne,
    ← isValid_iff_ne top, doDecodeCodePointFrom, ← dataOf, codePoint]
  split_ifs with valid
  · simp [valid]
  · simp [valid]

/-- A decoder reads the code point, if there are enough bytes and not all the bits are
set. -/
theorem isSome_doDecodeCodePoint_iff (positive : 1 ≤ len) (atMost : len ≤ 6) (src : List UInt8) :
    (doDecodeCodePoint src (some len)).isSome = true ↔
      len ≤ src.length ∧ ¬(len = 6 ∧ HasAllBits src) := by
  have room : len - 1 < src.length ↔ len ≤ src.length := by omega
  rw [doDecodeCodePoint, ← doDecodeCodePointFrom_eq_none_iff positive atMost, ← Ne,
    Option.ne_none_iff_isSome, ← room]
  split_ifs with enough
  · simp [enough]
  · simp [enough]

/-- Both decoders find the same length and the same code point. -/
def DecodersAgree (s : List UInt8) : Prop :=
  doDecodeLengthAndCodePoint s = (decodeSequenceLength s, decodeCodePoint s)

instance (s : List UInt8) : Decidable (DecodersAgree s) :=
  inferInstanceAs (Decidable (_ = _))

/-- A sequence that is exactly as long as the span, by the head byte. -/
def EndsWithSpan (s : List UInt8) : Prop :=
  isSequenceLength s.length = true ∧ isValidHeadByte s.length (s.getD 0 0) = true

theorem endsWithSpan_iff :
    EndsWithSpan s ↔ decodeSequenceLength s = some s.length := by
  rw [decodeSequenceLength, doDecodeSequenceLength_eq_some_iff, EndsWithSpan, isSequenceLength,
    Bool.and_eq_true, decide_eq_true_iff, decide_eq_true_iff, and_assoc]

/-- The decoder that looks for the length by itself wants a byte behind the sequence. -/
theorem doDecodeCodePointC_eq_iff (positive : 1 ≤ len) (atMost : len ≤ 6) (s : List UInt8) :
    doDecodeCodePointC len s = doDecodeCodePoint s (some len) ↔
      (len = s.length → len = 6 ∧ HasAllBits s) := by
  rw [doDecodeCodePointC, doDecodeCodePoint]
  by_cases here : len = s.length
  · have notLess : ¬len < s.length := Nat.not_lt.mpr here.ge
    have enough : len - 1 < s.length := by
      rw [← here]
      exact Nat.sub_lt positive Nat.one_pos
    rw [if_neg notLess]
    rw [if_pos enough, eq_comm, doDecodeCodePointFrom_eq_none_iff positive atMost]
    exact ⟨fun excepted _ => excepted, fun excepted => excepted here⟩
  · have same : len < s.length ↔ len - 1 < s.length := by omega
    rw [if_congr same rfl rfl]
    exact iff_of_true rfl fun there => absurd there here

/-- The decoders agree, unless a sequence that can be decoded ends with the span. -/
theorem decodersAgree_iff (b : UInt8) (rest : List UInt8) :
    DecodersAgree (b :: rest) ↔
      (EndsWithSpan (b :: rest) → (b :: rest).length = 6 ∧ HasAllBits (b :: rest)) := by
  rw [DecodersAgree, decodeCodePoint, endsWithSpan_iff]
  cases decoded : decodeSequenceLength (b :: rest) with
  | none =>
      rw [doDecodeLengthAndCodePoint_of_none decoded]
      exact iff_of_true rfl fun impossible => nomatch impossible
  | some len =>
      rcases doDecodeSequenceLength_eq_some_iff.mp decoded with ⟨positive, atMost, _⟩
      rw [doDecodeLengthAndCodePoint_of_some decoded (List.cons_ne_nil b rest), Prod.mk.injEq,
        eq_self_iff_true, true_and, doDecodeCodePointC_eq_iff positive atMost, Option.some_inj]
      constructor
      · intro excepted here
        exact here ▸ excepted here
      · intro excepted here
        exact here.symm ▸ excepted here

/-- A single byte is a sequence that ends with the span. -/
theorem not_forall_decodersAgree : ¬∀ s : List UInt8, s ≠ [] → DecodersAgree s := by
  intro agree
  exact absurd (agree [0x41] (List.cons_ne_nil _ _)) (by decide)

end Eagine.MultiByte
