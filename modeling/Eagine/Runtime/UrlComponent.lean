import Eagine.Serialization.Implementation
import Eagine.Theory.EscapedText

/-!
# URL components

Characters that are not allowed in a component of an URL are written as a percent sign and two
hexadecimal digits. The decoder is a state machine, and it takes the null character as a sign
that an escape was not decoded.
-/

open List

namespace Eagine.Memory

open Serialization

/-- `hex_char2byte`. A negative character is in none of the ranges, nor is its byte. -/
def hexChar2Byte (c : UInt8) : Option UInt8 :=
  if byteOf '0' ≤ c ∧ c ≤ byteOf '9' then some (c - byteOf '0')
  else if byteOf 'a' ≤ c ∧ c ≤ byteOf 'f' then some (10 + (c - byteOf 'a'))
  else if byteOf 'A' ≤ c ∧ c ≤ byteOf 'F' then some (10 + (c - byteOf 'A'))
  else none

end Eagine.Memory

namespace Eagine.Runtime.Url

open Memory Serialization Theory

/-- The characters that are not escaped. -/
def isValidChar (c : UInt8) : Bool :=
  (byteOf 'a' ≤ c && c ≤ byteOf 'z') || (byteOf 'A' ≤ c && c ≤ byteOf 'Z') ||
    (byteOf '0' ≤ c && c ≤ byteOf '9') || c == byteOf '-' || c == byteOf '_' ||
      c == byteOf '.' || c == byteOf '~'

def hexDigits : List Char :=
  ['0', '1', '2', '3', '4', '5', '6', '7', '8', '9', 'A', 'B', 'C', 'D', 'E', 'F']

def hexDigitOf (nibble : UInt8) : UInt8 :=
  byteOf (hexDigits.getD nibble.toNat '0')

def percent : UInt8 :=
  byteOf '%'

def encodeChar (c : UInt8) : Block :=
  if isValidChar c then [c]
  else [percent, hexDigitOf ((c >>> 4) &&& 0x0F), hexDigitOf (c &&& 0x0F)]

def encodeComponent (src : Block) : Block :=
  src.foldl (fun result c => result ++ encodeChar c) []

/-- `_url_decode_char` -/
def urlDecodeChar (hi lo : UInt8) : UInt8 :=
  match hexChar2Byte hi, hexChar2Byte lo with
  | some bhi, some blo => bhi <<< 4 ||| blo
  | _, _ => 0

/-- The loop of `decode_component`, with how many characters of an escape were read. -/
def decodeFrom : Block → Nat → UInt8 → Block → Option Block
  | [], _, _, result => some result
  | c :: src, decoding, hi, result =>
      if decoding = 2 then
        let d := urlDecodeChar hi c
        if d ≠ 0 then decodeFrom src 0 hi (result ++ [d]) else none
      else if decoding = 1 then decodeFrom src 2 c result
      else if c = percent then decodeFrom src 1 hi result
      else decodeFrom src decoding hi (result ++ [c])

def decodeComponent (src : Block) : Option Block :=
  decodeFrom src 0 0 []

def IsHexDigit (c : UInt8) : Prop :=
  (hexChar2Byte c).isSome = true

instance (c : UInt8) : Decidable (IsHexDigit c) :=
  inferInstanceAs (Decidable (_ = _))

/-- The byte that a character or an escape stands for. -/
def unitByte : EscapeUnit UInt8 → UInt8
  | .plain c => c
  | .escape hi lo => urlDecodeChar hi lo

/-- What the characters and the complete escapes of a text stand for. -/
def unitBytes (text : Block) : Block :=
  (escapeUnits percent text).map unitByte

def HasMalformedEscape (text : Block) : Prop :=
  ∃ hi lo, .escape hi lo ∈ escapeUnits percent text ∧ ¬(IsHexDigit hi ∧ IsHexDigit lo)

/-- There is an escape of the null character. -/
def HasNullEscape (text : Block) : Prop :=
  ∃ hi lo, .escape hi lo ∈ escapeUnits percent text ∧
    hexChar2Byte hi = some 0 ∧ hexChar2Byte lo = some 0

def EndsInEscape (text : Block) : Prop :=
  cutEscape percent text ≠ []

theorem hexChar2Byte_hexDigitOf {n : UInt8} (nibble : n < 16) :
    hexChar2Byte (hexDigitOf n) = some n := by
  have digits : ∀ n : Fin 16,
      hexChar2Byte (hexDigitOf (UInt8.ofNat n)) = some (UInt8.ofNat n) := by
    decide
  have digit := digits ⟨n.toNat, UInt8.lt_iff_toNat_lt.mp nibble⟩
  rwa [UInt8.ofNat_toNat] at digit

theorem and_nibble_lt (c : UInt8) : c &&& 0x0F < 16 := by
  rw [UInt8.lt_iff_toNat_lt, UInt8.toNat_and]
  exact Nat.lt_succ_of_le Nat.and_le_right

/-- The digits of an escape are those of its byte. -/
theorem urlDecodeChar_hexDigitOf (c : UInt8) :
    urlDecodeChar (hexDigitOf ((c >>> 4) &&& 0x0F)) (hexDigitOf (c &&& 0x0F)) = c := by
  have nibbles : ∀ c : Fin 256,
      ((UInt8.ofNat c >>> 4) &&& 0x0F) <<< 4 ||| (UInt8.ofNat c &&& 0x0F) = UInt8.ofNat c := by
    decide +kernel
  have joined := nibbles ⟨c.toNat, c.toNat_lt⟩
  rw [UInt8.ofNat_toNat] at joined
  rw [urlDecodeChar, hexChar2Byte_hexDigitOf (and_nibble_lt _),
    hexChar2Byte_hexDigitOf (and_nibble_lt _)]
  exact joined

theorem lt_of_hexChar2Byte {c n : UInt8} (value : hexChar2Byte c = some n) : n < 16 := by
  have digits : ∀ c : Fin 256, (hexChar2Byte (UInt8.ofNat c)).all (fun n => n < 16) = true := by
    decide +kernel
  have digit := digits ⟨c.toNat, c.toNat_lt⟩
  rw [UInt8.ofNat_toNat, value] at digit
  exact of_decide_eq_true digit

theorem shiftLeft_or_eq_zero_iff {hi lo : UInt8} (small : hi < 16) :
    hi <<< 4 ||| lo = 0 ↔ hi = 0 ∧ lo = 0 := by
  have shifted : ∀ hi : Fin 16, UInt8.ofNat hi <<< 4 = 0 → UInt8.ofNat hi = 0 := by
    decide
  have nibble := shifted ⟨hi.toNat, UInt8.lt_iff_toNat_lt.mp small⟩
  rw [UInt8.ofNat_toNat] at nibble
  rw [UInt8.or_eq_zero_iff]
  refine and_congr_left fun _ => ⟨nibble, ?_⟩
  rintro rfl
  rfl

/-- The null character is decoded from its escape and from what is no escape. -/
theorem urlDecodeChar_eq_zero_iff (hi lo : UInt8) :
    urlDecodeChar hi lo = 0 ↔ ¬(IsHexDigit hi ∧ IsHexDigit lo) ∨
      (hexChar2Byte hi = some 0 ∧ hexChar2Byte lo = some 0) := by
  rw [urlDecodeChar, IsHexDigit, IsHexDigit]
  cases hiValue : hexChar2Byte hi with
  | none => simp
  | some bhi =>
      cases loValue : hexChar2Byte lo with
      | none => simp
      | some blo =>
          dsimp only
          rw [shiftLeft_or_eq_zero_iff (lt_of_hexChar2Byte hiValue)]
          simp

theorem not_isHexDigit_percent : ¬IsHexDigit percent := by
  decide

/-- The escape stands for the null character, or for none. -/
def IsRejected : EscapeUnit UInt8 → Prop
  | .plain _ => False
  | .escape hi lo => urlDecodeChar hi lo = 0

instance : DecidablePred IsRejected
  | .plain _ => inferInstanceAs (Decidable False)
  | .escape _ _ => inferInstanceAs (Decidable (_ = _))

def HasRejected (text : Block) : Prop :=
  ∃ unit ∈ escapeUnits percent text, IsRejected unit

instance (text : Block) : Decidable (HasRejected text) :=
  inferInstanceAs (Decidable (∃ unit ∈ _, _))

theorem hasRejected_iff (text : Block) :
    HasRejected text ↔ HasMalformedEscape text ∨ HasNullEscape text := by
  rw [HasMalformedEscape, HasNullEscape, HasRejected, ← exists_or]
  constructor
  · rintro ⟨unit, within, rejected⟩
    cases unit with
    | plain c => exact absurd rejected id
    | escape hi lo =>
        refine ⟨hi, ?_⟩
        rw [← exists_or]
        exact ⟨lo, ((urlDecodeChar_eq_zero_iff hi lo).mp rejected).imp (⟨within, ·⟩) (⟨within, ·⟩)⟩
  · rintro ⟨hi, ⟨lo, within, malformed⟩ | ⟨lo, within, null⟩⟩
    · exact ⟨_, within, (urlDecodeChar_eq_zero_iff hi lo).mpr (Or.inl malformed)⟩
    · exact ⟨_, within, (urlDecodeChar_eq_zero_iff hi lo).mpr (Or.inr null)⟩

section Units

variable {c hi lo : UInt8} {src : Block}

theorem hasRejected_escape :
    HasRejected (percent :: hi :: lo :: src) ↔ urlDecodeChar hi lo = 0 ∨ HasRejected src := by
  rw [HasRejected, escapeUnits_escape, exists_mem_cons_iff]
  rfl

theorem unitBytes_escape :
    unitBytes (percent :: hi :: lo :: src) = urlDecodeChar hi lo :: unitBytes src := by
  rw [unitBytes, escapeUnits_escape, map_cons]
  rfl

theorem hasRejected_plain (plain : c ≠ percent) : HasRejected (c :: src) ↔ HasRejected src := by
  rw [HasRejected, escapeUnits_plain plain, exists_mem_cons_iff]
  exact or_iff_right id

theorem unitBytes_plain (plain : c ≠ percent) : unitBytes (c :: src) = c :: unitBytes src := by
  rw [unitBytes, escapeUnits_plain plain, map_cons]
  rfl

theorem decodeFrom_escape (result : Block) (last : UInt8) :
    decodeFrom (percent :: hi :: lo :: src) 0 last result =
      if urlDecodeChar hi lo = 0 then none
      else decodeFrom src 0 hi (result ++ [urlDecodeChar hi lo]) := by
  simp [decodeFrom]

theorem decodeFrom_plain (plain : c ≠ percent) (result : Block) (last : UInt8) :
    decodeFrom (c :: src) 0 last result = decodeFrom src 0 last (result ++ [c]) := by
  simp [decodeFrom, plain]

end Units

/-- The state machine from the start of a unit on -/
theorem decodeFrom_eq (src : Block) (last : UInt8) (result : Block) :
    decodeFrom src 0 last result =
      if HasRejected src then none else some (result ++ unitBytes src) := by
  induction src using escapeUnits_induction percent generalizing last result with
  | nil => simp [decodeFrom, HasRejected, unitBytes]
  | signOnly => simp [decodeFrom, HasRejected, unitBytes]
  | cut hi => simp [decodeFrom, HasRejected, unitBytes]
  | escape hi lo src ih =>
      simp only [decodeFrom_escape, hasRejected_escape, unitBytes_escape, ih]
      by_cases rejected : urlDecodeChar hi lo = 0
      · simp only [rejected, true_or, if_true]
      · simp only [rejected, false_or, if_false, append_assoc, singleton_append]
  | plain c src plain ih =>
      simp only [decodeFrom_plain plain, hasRejected_plain plain, unitBytes_plain plain, ih,
        append_assoc, singleton_append]

theorem decodeComponent_eq (src : Block) :
    decodeComponent src = if HasRejected src then none else some (unitBytes src) :=
  decodeFrom_eq src 0 []

theorem decodeComponent_eq_some_iff {src value : Block} :
    decodeComponent src = some value ↔ ¬HasRejected src ∧ unitBytes src = value := by
  rw [decodeComponent_eq]
  split_ifs with rejected
  · simp [rejected]
  · simp [rejected]

/-- The unit that a character is written as -/
def encodedUnit (c : UInt8) : EscapeUnit UInt8 :=
  if isValidChar c then .plain c
  else .escape (hexDigitOf ((c >>> 4) &&& 0x0F)) (hexDigitOf (c &&& 0x0F))

theorem encodeComponent_eq (src : Block) : encodeComponent src = src.flatMap encodeChar :=
  flatMap_eq_foldl.symm

theorem escapeUnits_encodeComponent (src : Block) :
    escapeUnits percent (encodeComponent src) = src.map encodedUnit := by
  rw [encodeComponent_eq]
  induction src with
  | nil => simp
  | cons c src ih =>
      rw [flatMap_cons, map_cons, ← ih, encodeChar, encodedUnit]
      split_ifs with valid
      · have plain : c ≠ percent := by
          rintro rfl
          exact absurd valid (by decide)
        exact escapeUnits_plain plain _
      · exact escapeUnits_escape percent _ _ _

theorem unitByte_encodedUnit (c : UInt8) : unitByte (encodedUnit c) = c := by
  rw [encodedUnit]
  split_ifs with valid
  · rfl
  · exact urlDecodeChar_hexDigitOf c

theorem unitBytes_encodeComponent (src : Block) : unitBytes (encodeComponent src) = src := by
  rw [unitBytes, escapeUnits_encodeComponent, map_map]
  exact map_id'' unitByte_encodedUnit src

theorem isRejected_encodedUnit_iff (c : UInt8) : IsRejected (encodedUnit c) ↔ c = 0 := by
  rw [encodedUnit]
  split_ifs with valid
  · refine iff_of_false id ?_
    rintro rfl
    exact absurd valid (by decide)
  · rw [IsRejected, urlDecodeChar_hexDigitOf]

theorem hasRejected_encodeComponent_iff (src : Block) :
    HasRejected (encodeComponent src) ↔ 0 ∈ src := by
  simp [HasRejected, escapeUnits_encodeComponent, isRejected_encodedUnit_iff]

/-- What is encoded is decoded again, apart from null characters. -/
theorem decodeComponent_encodeComponent_iff (src : Block) :
    decodeComponent (encodeComponent src) = some src ↔ 0 ∉ src := by
  rw [decodeComponent_eq_some_iff, hasRejected_encodeComponent_iff, unitBytes_encodeComponent]
  exact and_iff_left rfl

/-- The null character is encoded as `%00`. -/
theorem not_forall_decodeComponent_encodeComponent :
    ¬∀ src, decodeComponent (encodeComponent src) = some src := by
  intro returns
  have lost : decodeComponent (encodeComponent [0]) = none := by
    decide
  exact Option.some_ne_none _ ((returns [0]).symm.trans lost)

/-- What the decoder is meant to accept and to yield -/
structure DecodesExactly (text : Block) : Prop where
  accepts : (∃ value, decodeComponent text = some value) ↔ WellEscaped percent IsHexDigit text
  length : ∀ value, decodeComponent text = some value →
    value.length = (escapeUnits percent text).length

theorem wellEscaped_percent_iff (text : Block) :
    WellEscaped percent IsHexDigit text ↔ ¬HasMalformedEscape text ∧ ¬EndsInEscape text := by
  rw [wellEscaped_iff not_isHexDigit_percent, HasMalformedEscape, EndsInEscape, not_not]
  refine and_congr_left fun _ => ?_
  push Not
  rfl

/-- The escapes are decoded as far as they are complete, and `%00` is not decoded. -/
theorem decodesExactly_iff (text : Block) :
    DecodesExactly text ↔ HasMalformedEscape text ∨ (EndsInEscape text ↔ HasNullEscape text) := by
  have yields : (∃ value, decodeComponent text = some value) ↔
      ¬HasMalformedEscape text ∧ ¬HasNullEscape text := by
    rw [← not_or, ← hasRejected_iff]
    constructor
    · rintro ⟨value, decoded⟩
      exact (decodeComponent_eq_some_iff.mp decoded).1
    · intro accepted
      exact ⟨_, decodeComponent_eq_some_iff.mpr ⟨accepted, rfl⟩⟩
  have lengths (value : Block) (decoded : decodeComponent text = some value) :
      value.length = (escapeUnits percent text).length := by
    rw [← (decodeComponent_eq_some_iff.mp decoded).2, unitBytes, length_map]
  constructor
  · intro exactly
    have same := exactly.accepts
    rw [yields, wellEscaped_percent_iff] at same
    tauto
  · intro condition
    refine ⟨?_, lengths⟩
    rw [yields, wellEscaped_percent_iff]
    tauto

/-- An escape that is cut off is accepted. -/
theorem not_forall_decodesExactly : ¬∀ text, DecodesExactly text := by
  intro exactly
  have accepted : decodeComponent [percent] = some [] := by
    decide
  rcases (exactly [percent]).accepts.mp ⟨_, accepted⟩ [] [] rfl with ⟨_, _, _, missing, -⟩
  cases missing

end Eagine.Runtime.Url

/-!
## Comparison of URL components

Two components are compared as they are decoded, up to the first null character that is read in
any of them. The end of a text and an escape that is not decoded are read as a null character,
and what is left of an escape that is cut off as its last character.
-/

namespace Eagine.Runtime.Url

open Memory Serialization Theory

/-- The next character of the getter, and what remains of its text. -/
def getNext : Block → UInt8 × Block
  | [] => (0, [])
  | c :: s =>
      if c ≠ percent then (c, s)
      else
        match s with
        | [] => (c, [])
        | [hi] => (hi, [])
        | hi :: lo :: s => (urlDecodeChar hi lo, s)

theorem length_getNext_lt {s : Block} (read : (getNext s).1 ≠ 0) :
    (getNext s).2.length < s.length := by
  cases s using escapeUnits_induction percent with
  | nil => exact absurd rfl read
  | signOnly => simp [getNext]
  | cut hi => simp [getNext]
  | escape hi lo s =>
      simp only [getNext, ne_eq, not_true_eq_false, if_false, length_cons]
      omega
  | plain c s plain => simp [getNext, plain]

/-- `components_are_equal`. The loop ends, as a character other than the null character is taken
from each text. -/
def componentsAreEqual (l r : Block) : Bool :=
  if (getNext l).1 ≠ (getNext r).1 then false
  else if _ : (getNext l).1 = 0 then true
  else componentsAreEqual (getNext l).2 (getNext r).2
termination_by l.length
decreasing_by exact length_getNext_lt ‹_›

/-- The last character of an escape that is cut off, or the null character if there is none -/
def cutByte (text : Block) : UInt8 :=
  (cutEscape percent text).getLast?.getD 0

/-- What is read of a text -/
def readBytes (text : Block) : Block :=
  unitBytes text ++ (cutEscape percent text).getLast?.toList

/-- A byte is different, and none before it is the null character. -/
def DifferBeforeNull (l r : Block) : Prop :=
  ∃ i, l.getD i 0 ≠ r.getD i 0 ∧ ∀ j < i, l.getD j 0 ≠ 0 ∧ r.getD j 0 ≠ 0

/-- The texts are equal exactly if the decoder yields the same for both. -/
def ComparesExactly (l r : Block) : Prop :=
  componentsAreEqual l r = true ↔
    ∃ value, decodeComponent l = some value ∧ decodeComponent r = some value

theorem readBytes_nil : readBytes [] = [] := by
  rw [readBytes, unitBytes, escapeUnits_nil, cutEscape_nil]
  rfl

theorem getNext_eq (s : Block) :
    (getNext s).1 = (readBytes s).headD 0 ∧ readBytes (getNext s).2 = (readBytes s).tail := by
  cases s using escapeUnits_induction percent with
  | nil => exact ⟨by rw [readBytes_nil]; rfl, by rw [readBytes_nil]; exact readBytes_nil⟩
  | signOnly => simp [getNext, readBytes, unitBytes]
  | cut hi => simp [getNext, readBytes, unitBytes]
  | escape hi lo s => simp [getNext, readBytes, unitBytes_escape]
  | plain c s plain => simp [getNext, readBytes, unitBytes_plain plain, cutEscape_plain plain, plain]

theorem differBeforeNull_iff (l r : Block) :
    DifferBeforeNull l r ↔ l.headD 0 ≠ r.headD 0 ∨
      (l.headD 0 ≠ 0 ∧ r.headD 0 ≠ 0 ∧ DifferBeforeNull l.tail r.tail) := by
  have head (s : Block) : s.getD 0 0 = s.headD 0 := by
    cases s <;> rfl
  have behind (s : Block) (i : Nat) : s.getD (i + 1) 0 = s.tail.getD i 0 := by
    cases s <;> rfl
  constructor
  · rintro ⟨i, differ, before⟩
    cases i with
    | zero =>
        rw [head, head] at differ
        exact Or.inl differ
    | succ i =>
        have first := before 0 (Nat.zero_lt_succ i)
        rw [head, head] at first
        refine Or.inr ⟨first.1, first.2, i, ?_, ?_⟩
        · rw [← behind, ← behind]
          exact differ
        · intro j less
          rw [← behind, ← behind]
          exact before (j + 1) (Nat.succ_lt_succ less)
  · rintro (differ | ⟨leftRead, rightRead, i, differ, before⟩)
    · refine ⟨0, ?_, fun j less => absurd less (Nat.not_lt_zero j)⟩
      rw [head, head]
      exact differ
    · refine ⟨i + 1, ?_, ?_⟩
      · rw [behind, behind]
        exact differ
      · intro j less
        cases j with
        | zero =>
            rw [head, head]
            exact ⟨leftRead, rightRead⟩
        | succ j =>
            rw [behind, behind]
            exact before j (Nat.lt_of_succ_lt_succ less)

/-- The comparison is one of what is read. -/
theorem componentsAreEqual_iff (l r : Block) :
    componentsAreEqual l r = true ↔ ¬DifferBeforeNull (readBytes l) (readBytes r) := by
  induction size : l.length using Nat.strong_induction_on generalizing l r with
  | _ _ ih =>
      subst size
      rcases getNext_eq l with ⟨leftHead, leftTail⟩
      rcases getNext_eq r with ⟨rightHead, rightTail⟩
      rw [componentsAreEqual, differBeforeNull_iff, ← leftHead, ← rightHead, ← leftTail, ← rightTail]
      by_cases same : (getNext l).1 = (getNext r).1
      · by_cases read : (getNext l).1 = 0
        · simp [read, same ▸ read]
        · have shorter := length_getNext_lt read
          simp only [same, ne_eq, not_true_eq_false, if_false, false_or]
          rw [dif_neg (same ▸ read), ih _ shorter _ _ rfl]
          simp [same ▸ read]
      · simp [same]

section Common

variable {common l r : Block}

theorem differBeforeNull_append (read : 0 ∉ common) :
    DifferBeforeNull (common ++ l) (common ++ r) ↔ DifferBeforeNull l r := by
  induction common with
  | nil => rfl
  | cons c common ih =>
      rw [mem_cons, not_or] at read
      rw [cons_append, cons_append, differBeforeNull_iff]
      simp [Ne.symm read.1, ih read.2]

/-- What comes behind a null character does not count. -/
theorem not_differBeforeNull_append (ends : 0 ∈ common) :
    ¬DifferBeforeNull (common ++ l) (common ++ r) := by
  induction common with
  | nil => exact absurd ends not_mem_nil
  | cons c common ih =>
      rw [cons_append, cons_append, differBeforeNull_iff]
      rcases mem_cons.mp ends with rfl | ends
      · simp
      · simp [ih ends]

end Common

theorem differBeforeNull_toList (l r : Option UInt8) :
    DifferBeforeNull l.toList r.toList ↔ l.getD 0 ≠ r.getD 0 := by
  have nothing : ¬DifferBeforeNull [] [] := by
    rintro ⟨i, differ, -⟩
    exact differ rfl
  rw [differBeforeNull_iff]
  cases l <;> cases r <;> simp [nothing]

/-- If the complete units stand for the same bytes, only what is cut off can be different. -/
theorem differBeforeNull_readBytes_iff {l r : Block} (same : unitBytes l = unitBytes r) :
    DifferBeforeNull (readBytes l) (readBytes r) ↔ 0 ∉ unitBytes r ∧ cutByte l ≠ cutByte r := by
  rw [readBytes, readBytes, same]
  by_cases ends : 0 ∈ unitBytes r
  · simp [ends, not_differBeforeNull_append ends]
  · rw [differBeforeNull_append ends, differBeforeNull_toList, cutByte, cutByte]
    exact (and_iff_right ends).symm

/-- An escape that is not decoded is read as a null character. -/
theorem zero_mem_unitBytes {text : Block} (rejected : HasRejected text) : 0 ∈ unitBytes text := by
  rcases rejected with ⟨unit, within, isRejected⟩
  refine mem_map.mpr ⟨unit, within, ?_⟩
  cases unit with
  | plain c => exact absurd isRejected id
  | escape hi lo => exact isRejected

theorem decoded_same_iff (l r : Block) :
    (∃ value, decodeComponent l = some value ∧ decodeComponent r = some value) ↔
      unitBytes l = unitBytes r ∧ ¬HasRejected l ∧ ¬HasRejected r := by
  simp only [decodeComponent_eq_some_iff]
  constructor
  · rintro ⟨value, ⟨leftAccepted, left⟩, rightAccepted, right⟩
    exact ⟨left.trans right.symm, leftAccepted, rightAccepted⟩
  · rintro ⟨same, leftAccepted, rightAccepted⟩
    exact ⟨unitBytes r, ⟨leftAccepted, same⟩, rightAccepted, rfl⟩

/-- If the complete units of the texts stand for the same bytes, then all the escapes have to be
decoded, and what is cut off must be the same or come behind a null character. Otherwise what is
read has to differ before a null character. -/
theorem comparesExactly_iff (l r : Block) :
    ComparesExactly l r ↔
      (unitBytes l = unitBytes r ∧ (¬HasRejected l ∧ ¬HasRejected r) ∧
          (0 ∈ unitBytes r ∨ cutByte l = cutByte r)) ∨
        (unitBytes l ≠ unitBytes r ∧ DifferBeforeNull (readBytes l) (readBytes r)) := by
  rw [ComparesExactly, componentsAreEqual_iff, decoded_same_iff]
  by_cases same : unitBytes l = unitBytes r
  · rw [differBeforeNull_readBytes_iff same]
    have leftNull (rejected : HasRejected l) : 0 ∈ unitBytes r := same ▸ zero_mem_unitBytes rejected
    have rightNull (rejected : HasRejected r) : 0 ∈ unitBytes r := zero_mem_unitBytes rejected
    tauto
  · simp [same]

/-- An escape that is cut off is compared, but it is not decoded. -/
theorem not_forall_comparesExactly : ¬∀ l r, ComparesExactly l r := by
  intro exactly
  have different : ¬componentsAreEqual [percent] [] = true := by
    rw [componentsAreEqual]
    decide
  exact different ((exactly [percent] []).mpr ⟨[], by decide, by decide⟩)

end Eagine.Runtime.Url
