import Eagine.Serialization.PortableRoundTrip

/-!
# Unsigned integers in the portable format

What the reader takes for a number. It scans for the delimiter in whole steps, and adds every digit
in its place whether or not the type has that many bits: a text that is too long, or that has no
delimiter, may be read as another number.
-/

namespace Eagine.Serialization

open Theory List

/-- A digit character is the one of its value. -/
theorem hexDigit_hexDigitValue {char : UInt8} {nibble : Nat}
    (isDigit : hexDigitValue char = some nibble) : nibble < 16 ∧ hexDigit nibble = char := by
  have all : ∀ code < 256, (hexDigitValue (UInt8.ofNat code)).all fun nibble =>
      decide (nibble < 16 ∧ hexDigit nibble = UInt8.ofNat code) := by
    decide +kernel
  have here := all char.toNat char.toNat_lt
  rw [UInt8.ofNat_toNat, isDigit, Option.all_some] at here
  exact of_decide_eq_true here

/-- A text of digits. -/
structure IsHexOf (digits : List Nat) (text : Block) : Prop where
  small : ∀ digit ∈ digits, digit < 16
  text_eq : digits.map hexDigit = text

theorem IsHexOf.unique {first second : List Nat} {text : Block} (one : IsHexOf first text)
    (two : IsHexOf second text) : first = second := by
  have values {digits : List Nat} (isHex : IsHexOf digits text) :
      text.map hexDigitValue = digits.map some := by
    rw [← isHex.text_eq, map_map]
    apply map_congr_left
    intro digit member
    exact hexDigitValue_hexDigit (isHex.small digit member)
  exact map_injective_iff.mpr (Option.some_injective _) ((values one).symm.trans (values two))

variable {width : Nat}

/-- Digits in their places are a number, as far as it fits. -/
theorem IsHexOf.decodeDigits {digits : List Nat} {text : Block} (isHex : IsHexOf digits text) :
    Serialization.decodeDigits (0 : BitVec width) 0 text =
      (∅, BitVec.ofNat width (Nat.ofDigits 16 digits)) := by
  have decoded := @decodeDigits_map width digits isHex.small 0 0 (by decide)
  rw [isHex.text_eq] at decoded
  simpa using decoded

/-- What is decoded without an error consists of digits. -/
theorem exists_isHexOf {text : Block} {value : BitVec width} {shift : Nat}
    (clean : (decodeDigits value shift text).1 = ∅) : ∃ digits, IsHexOf digits text := by
  induction text generalizing value shift with
  | nil => exact ⟨[], by simp, rfl⟩
  | cons char text ih =>
      rw [decodeDigits] at clean
      cases isDigit : hexDigitValue char with
      | none =>
          have invalid : (.ofBit .invalidFormat : DeserializationErrors) ≠ ∅ := by decide
          rw [isDigit] at clean
          exact absurd clean invalid
      | some nibble =>
          rw [isDigit] at clean
          rcases ih clean with ⟨digits, small, textEq⟩
          rcases hexDigit_hexDigitValue isDigit with ⟨nibbleSmall, charEq⟩
          refine ⟨nibble :: digits, forall_mem_cons.mpr ⟨nibbleSmall, small⟩, ?_⟩
          rw [map_cons, textEq, charEq]

section Scanning

variable {source : BlockDataSource} {delimiter : UInt8}

/-- The first step of a scan is decisive if it goes behind the maximum. -/
theorem scanFor_eq (source : BlockDataSource) (delimiter : UInt8) {max : Nat}
    (short : max < scanStep) :
    source.scanFor delimiter max scanStep =
      match (source.remaining.take scanStep).findIdx? (· == delimiter) with
      | some found => some found
      | none => if source.remaining.length < scanStep then none else some max := by
  simp only [BlockDataSource.scanFor, BlockDataSource.scanUntil, BlockDataSource.scanUntilFrom,
    BlockDataSource.top, drop_zero, Nat.zero_add]
  by_cases empty : source.remaining = []
  · rw [empty]
    rfl
  · have nonempty : (source.remaining.take scanStep).isEmpty = false := by
      rw [isEmpty_eq_false_iff, Ne, take_eq_nil_iff]
      exact not_or.mpr ⟨by decide, empty⟩
    rw [nonempty, if_neg Bool.false_ne_true]
    cases (source.remaining.take scanStep).findIdx? (· == delimiter) with
    | some found => rfl
    | none =>
        have sameTest : (source.remaining.take scanStep).length < scanStep ↔
            source.remaining.length < scanStep := by
          rw [length_take]
          omega
        simp only [sameTest, if_pos short]

/-- Without a delimiter in the first step the text is as long as the maximum. -/
theorem stringBefore_of_undelimited (absent : delimiter ∉ source.remaining.take scanStep)
    (long : scanStep ≤ source.remaining.length) {max : Nat} (short : max < scanStep) :
    source.stringBefore delimiter max = source.remaining.take max := by
  have notFound : (source.remaining.take scanStep).findIdx? (· == delimiter) = none := by
    rw [findIdx?_eq_none_iff]
    intro byte member
    rw [beq_eq_false_iff_ne]
    rintro rfl
    exact absent member
  rw [BlockDataSource.stringBefore, scanFor_eq source delimiter short, notFound]
  simp only [if_neg (Nat.not_lt.mpr long), Option.getD_some, BlockDataSource.top]

/-- What is in front of a delimiter, unless there is none in the first step. -/
theorem stringBefore_cases (max : Nat) :
    source.stringBefore delimiter max = [] ∨
      (∃ rest, source.remaining = source.stringBefore delimiter max ++ delimiter :: rest ∧
        delimiter ∉ source.stringBefore delimiter max ∧
        (source.stringBefore delimiter max).length < scanStep) ∨
      delimiter ∉ source.remaining.take scanStep ∧ scanStep ≤ source.remaining.length := by
  by_cases within : delimiter ∈ source.remaining.take scanStep
  · rcases eq_append_cons_of_mem within with ⟨text, behind, takenEq, absent⟩
    have starts : source.remaining =
        text ++ delimiter :: (behind ++ source.remaining.drop scanStep) := by
      rw [← cons_append, ← append_assoc, ← takenEq, take_append_drop]
    have textShort : text.length < scanStep := by
      have length_le := length_take_le scanStep source.remaining
      rw [takenEq, length_append, length_cons] at length_le
      omega
    have textEq := stringBefore_of_append starts absent textShort max
    exact .inr (.inl ⟨_, textEq.symm ▸ starts, textEq.symm ▸ absent, textEq.symm ▸ textShort⟩)
  · by_cases long : scanStep ≤ source.remaining.length
    · exact .inr (.inr ⟨within, long⟩)
    · have less := Nat.lt_of_not_le long
      rw [take_of_length_le less.le] at within
      exact .inl (stringBefore_of_absent within less max)

end Scanning

theorem unsignedRead_apply (delimiter : UInt8) (source : BlockDataSource) :
    (unsignedRead delimiter : SourceM (DeserializationErrors × BitVec width)) source =
      if source.stringBefore delimiter 48 = [] then some ((.ofBit .notEnoughData, 0), source)
      else
        some (decodeDigits 0 0 (source.stringBefore delimiter 48),
          if (decodeDigits (0 : BitVec width) 0 (source.stringBefore delimiter 48)).1 = ∅ then
            source.pop ((source.stringBefore delimiter 48).length + 1)
          else source) := by
  change (if (source.stringBefore delimiter 48).isEmpty then _ else _ : SourceM _) source = _
  by_cases nothing : source.stringBefore delimiter 48 = []
  · rw [if_pos nothing, nothing]
    rfl
  · rw [if_neg nothing, if_neg (fun empty => nothing (isEmpty_iff.mp empty))]
    by_cases clean : (decodeDigits (0 : BitVec width) 0 (source.stringBefore delimiter 48)).1 = ∅
    · rw [if_pos clean]
      simp only [(Bitfield.isEmpty_iff _).mpr clean, if_true]
      rfl
    · have unclean := (Bitfield.isEmpty_eq_false_iff _).mpr clean
      rw [if_neg clean]
      simp only [unclean, Bool.false_eq_true, if_false]
      rfl

variable (width) in
/-- What is read without an error is the number that the consumed digits in front of the
delimiter are. -/
def NeverDifferent (delimiter : UInt8) (source : BlockDataSource) : Prop :=
  ∀ (value : BitVec width) (after : BlockDataSource),
    unsignedRead delimiter source = some ((∅, value), after) →
      ∃ digits text, digits ≠ [] ∧ IsHexOf digits text ∧
        source.remaining = text ++ delimiter :: after.remaining ∧
        value.toNat = Nat.ofDigits 16 digits

variable (width) in
/-- The digits in front of a delimiter within a step of the scan fit into the type, and where
there is no delimiter in the step, it does not begin with as many digits as are read then. -/
structure Unmistakable (delimiter : UInt8) (content : Block) : Prop where
  fits : ∀ digits text rest, IsHexOf digits text → content = text ++ delimiter :: rest →
    delimiter ∉ text → text.length < scanStep → Nat.ofDigits 16 digits < 2 ^ width
  delimited : delimiter ∉ content.take scanStep → scanStep ≤ content.length →
    ¬∃ digits, IsHexOf digits (content.take 48)

/-- A text of digits is read, if it is there. -/
theorem unsignedRead_of_isHexOf {delimiter : UInt8} {source : BlockDataSource}
    {digits : List Nat} {text : Block} (isHex : IsHexOf digits text) (nonempty : text ≠ [])
    (before : source.stringBefore delimiter 48 = text) :
    unsignedRead delimiter source =
      some ((∅, BitVec.ofNat width (Nat.ofDigits 16 digits)), source.pop (text.length + 1)) := by
  rw [unsignedRead_apply, before, if_neg nonempty, isHex.decodeDigits, if_pos rfl]

/-- What is read without an error are the digits in front of the delimiter. -/
theorem digits_of_unsignedRead {source after : BlockDataSource} {delimiter : UInt8}
    {value : BitVec width} (run : unsignedRead delimiter source = some ((∅, value), after)) :
    source.stringBefore delimiter 48 ≠ [] ∧
      ∃ digits, IsHexOf digits (source.stringBefore delimiter 48) ∧
        value = BitVec.ofNat width (Nat.ofDigits 16 digits) ∧
        after = source.pop ((source.stringBefore delimiter 48).length + 1) := by
  rw [unsignedRead_apply] at run
  split at run
  · have missing : (.ofBit .notEnoughData : DeserializationErrors) ≠ ∅ := by decide
    exact absurd (congrArg (fun result => result.1.1) (Option.some.inj run)) missing
  · rename_i nonempty
    obtain ⟨decoded, popped⟩ := Prod.mk.inj (Option.some.inj run)
    have clean := congrArg Prod.fst decoded
    rcases exists_isHexOf clean with ⟨digits, isHex⟩
    rw [if_pos clean] at popped
    rw [isHex.decodeDigits] at decoded
    exact ⟨nonempty, digits, isHex, (congrArg Prod.snd decoded).symm, popped.symm⟩

section NeverDifferent

variable {width : Nat} {delimiter : UInt8} {source : BlockDataSource}

/-- The digits in front of the delimiter are the only ones that can be in front of what is left. -/
theorem fits_of_neverDifferent (never : NeverDifferent width delimiter source) (digits : List Nat)
    (text rest : Block) (isHex : IsHexOf digits text)
    (starts : source.remaining = text ++ delimiter :: rest) (absent : delimiter ∉ text)
    (short : text.length < scanStep) : Nat.ofDigits 16 digits < 2 ^ width := by
  by_cases nothing : text = []
  · have noDigits : digits = [] := map_eq_nil_iff.mp (isHex.text_eq.trans nothing)
    rw [noDigits]
    exact Nat.two_pow_pos width
  · have before := stringBefore_of_append starts absent short 48
    have read := @unsignedRead_of_isHexOf width _ _ _ _ isHex nothing before
    rcases never _ _ read with ⟨others, same, _, othersHex, consumed, valueEq⟩
    rw [BlockDataSource.remaining_pop_of_delimited starts, starts] at consumed
    have sameText : text = same := append_cancel_right consumed
    rw [isHex.unique (sameText ▸ othersHex), ← valueEq]
    exact BitVec.isLt _

/-- Without a delimiter in the step, what is consumed would have one in the step. -/
theorem delimited_of_neverDifferent (never : NeverDifferent width delimiter source)
    (absent : delimiter ∉ source.remaining.take scanStep)
    (long : scanStep ≤ source.remaining.length) :
    ¬∃ digits, IsHexOf digits (source.remaining.take 48) := by
  rintro ⟨digits, isHex⟩
  have before : source.stringBefore delimiter 48 = source.remaining.take 48 :=
    stringBefore_of_undelimited absent long (by decide)
  have length_eq : (source.remaining.take 48).length = 48 :=
    length_take_of_le (Nat.le_trans (by decide) long)
  have nonempty : source.remaining.take 48 ≠ [] := by
    intro nothing
    rw [nothing] at length_eq
    cases length_eq
  have read := @unsignedRead_of_isHexOf width _ _ _ _ isHex nonempty before
  rcases never _ _ read with ⟨others, same, _, _, consumed, _⟩
  have total := congrArg List.length consumed
  rw [BlockDataSource.remaining_pop, length_eq, length_append, length_cons,
    length_drop] at total
  have inStep : same.length < scanStep := by
    have step : scanStep = 256 := rfl
    omega
  rcases Nat.exists_eq_add_of_lt inStep with ⟨more, moreEq⟩
  rw [consumed, take_append, moreEq, Nat.add_assoc, Nat.add_sub_cancel_left,
    take_succ_cons] at absent
  exact absent (mem_append_right _ mem_cons_self)

theorem neverDifferent_of_unmistakable
    (unmistakable : Unmistakable width delimiter source.remaining) :
    NeverDifferent width delimiter source := by
  intro value after read
  rcases digits_of_unsignedRead read with ⟨nonempty, digits, isHex, rfl, rfl⟩
  rcases stringBefore_cases 48 with nothing | ⟨rest, starts, absent, short⟩ | ⟨absent, long⟩
  · exact absurd nothing nonempty
  · have fits := unmistakable.fits digits _ rest isHex starts absent short
    refine ⟨digits, _, ?_, isHex, ?_, ?_⟩
    · rintro rfl
      exact nonempty isHex.text_eq.symm
    · rw [BlockDataSource.remaining_pop_of_delimited starts]
      exact starts
    · rw [BitVec.toNat_ofNat, Nat.mod_eq_of_lt fits]
  · have before : source.stringBefore delimiter 48 = source.remaining.take 48 :=
      stringBefore_of_undelimited absent long (by decide)
    exact absurd ⟨digits, before ▸ isHex⟩ (unmistakable.delimited absent long)

end NeverDifferent

/-- The reader never returns a different number exactly if the content can not be mistaken. -/
theorem neverDifferent_iff (width : Nat) (delimiter : UInt8) (source : BlockDataSource) :
    NeverDifferent width delimiter source ↔ Unmistakable width delimiter source.remaining := by
  constructor
  · intro never
    exact {
      fits := fits_of_neverDifferent never
      delimited := delimited_of_neverDifferent never }
  · exact neverDifferent_of_unmistakable

/-- The third digit has no place in eight bits. -/
theorem not_forall_neverDifferent :
    ¬∀ (width : IntWidth) (source : BlockDataSource),
      NeverDifferent width.bits (byteOf ';') source := by
  intro never
  have read : (unsignedRead (byteOf ';') : SourceM (DeserializationErrors × BitVec 8))
      (.ofBlock [byteOf '0', byteOf '0', byteOf '1', byteOf ';']) =
        some ((∅, 0#8), ⟨[byteOf '0', byteOf '0', byteOf '1', byteOf ';'], 4⟩) := by
    decide
  rcases never .w8 _ _ _ read with ⟨digits, text, _, isHex, consumed, valueEq⟩
  have whole : [byteOf '0', byteOf '0', byteOf '1'] ++ [byteOf ';'] = text ++ [byteOf ';'] :=
    consumed
  have textEq : [byteOf '0', byteOf '0', byteOf '1'] = text := append_cancel_right whole
  have digitsEq : digits = [0, 0, 1] := isHex.unique ⟨by decide, textEq⟩
  rw [digitsEq] at valueEq
  exact absurd valueEq (by decide)

end Eagine.Serialization
