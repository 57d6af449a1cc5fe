import Eagine.Identifier.Identifier
import Eagine.Memory.BitesetLaws
import Eagine.Serialization.Portable
import Eagine.Theory.Numeral

/-!
# Laws of identifiers

An identifier keeps the longest prefix that has codes of the string that it is
constructed from, unless all its codes are zero. The identifier that is constructed
from its value is the same.
-/

namespace Eagine

open List Nat

namespace IdentifierEncoding

variable {charSet : IdentifierCharSet}

theorem toNat_invalid (charSet : IdentifierCharSet) :
    (invalid charSet).toNat = charSet.values.length :=
  Nat.mod_eq_of_lt (charSet.fits.trans (by decide))

variable {c : UInt8}

theorem doEncode_of_not_mem {enc : List UInt8} (other : c = 0 ∨ c ∉ enc)
    (i : BitVec 8) : doEncode charSet c i enc = invalid charSet := by
  induction enc generalizing i with
  | nil => rfl
  | cons value enc ih =>
      rw [doEncode]
      split_ifs with zero here
      · rfl
      · rcases other with zero' | absent
        · exact absurd zero' zero
        · exact absurd (here ▸ mem_cons_self) absent
      · exact ih (other.imp_right fun absent later => absent (mem_cons_of_mem _ later)) _

/-- The code of a character is its index. -/
theorem exists_doEncode {enc : List UInt8} (nonzero : c ≠ 0) (mem : c ∈ enc) (i : BitVec 8) :
    ∃ j, enc[j]? = some c ∧ doEncode charSet c i enc = i + BitVec.ofNat 8 j := by
  induction enc generalizing i with
  | nil => exact absurd mem not_mem_nil
  | cons value enc ih =>
      rw [doEncode, if_neg nonzero]
      split_ifs with here
      · exact ⟨0, by rw [here, getElem?_cons_zero], (BitVec.add_zero i).symm⟩
      · obtain ⟨j, found, code⟩ := ih ((mem_cons.mp mem).resolve_left here) (i + 1)
        refine ⟨j + 1, by rw [getElem?_cons_succ, found], ?_⟩
        rw [code, BitVec.add_assoc, add_comm j 1, BitVec.ofNat_add]
        rfl

/-- The characters that have valid codes. -/
def IsEncodable (charSet : IdentifierCharSet) (c : UInt8) : Prop :=
  c ≠ 0 ∧ c ∈ charSet.values

instance (c : UInt8) : Decidable (IsEncodable charSet c) :=
  inferInstanceAs (Decidable (c ≠ 0 ∧ c ∈ charSet.values))

theorem encode_of_not_encodable (other : ¬IsEncodable charSet c) :
    encode charSet c = invalid charSet :=
  doEncode_of_not_mem (Decidable.not_and_iff_not_or_not.mp other |>.imp_left not_not.mp) 0

theorem encode_zero : encode charSet 0 = invalid charSet :=
  encode_of_not_encodable fun encodable => encodable.1 rfl

theorem exists_toNat_encode (encodable : IsEncodable charSet c) :
    ∃ j, charSet.values[j]? = some c ∧ (encode charSet c).toNat = j := by
  obtain ⟨j, found, code⟩ := exists_doEncode encodable.1 encodable.2 0
  have inside : j < charSet.values.length := (List.getElem?_eq_some_iff.mp found).1
  have small : j < 2 ^ 8 := inside.trans (charSet.fits.trans (by decide))
  have sum : (0 : BitVec 8) + BitVec.ofNat 8 j = BitVec.ofNat 8 j := BitVec.zero_add _
  refine ⟨j, found, ?_⟩
  rw [encode, code, sum, BitVec.toNat_ofNat, Nat.mod_eq_of_lt small]

theorem toNat_encode_lt (encodable : IsEncodable charSet c) :
    (encode charSet c).toNat < charSet.values.length := by
  obtain ⟨j, found, index⟩ := exists_toNat_encode encodable
  rw [index]
  exact (List.getElem?_eq_some_iff.mp found).1

theorem toNat_encode_le (charSet : IdentifierCharSet) (c : UInt8) :
    (encode charSet c).toNat ≤ charSet.values.length := by
  by_cases encodable : IsEncodable charSet c
  · exact (toNat_encode_lt encodable).le
  · rw [encode_of_not_encodable encodable, toNat_invalid]

theorem isInvalid_encode_iff (c : UInt8) :
    isInvalid charSet (encode charSet c) = true ↔ ¬IsEncodable charSet c := by
  rw [isInvalid, decide_eq_true_iff, BitVec.le_def, toNat_invalid]
  constructor
  · intro invalid encodable
    exact not_lt.mpr invalid (toNat_encode_lt encodable)
  · intro other
    rw [encode_of_not_encodable other, toNat_invalid]

/-- What is decoded from the code of a character is the character. -/
theorem decode_encode (encodable : IsEncodable charSet c) :
    decode charSet (encode charSet c) = c := by
  have valid : encode charSet c < invalid charSet := by
    rw [BitVec.lt_def, toNat_invalid]
    exact toNat_encode_lt encodable
  obtain ⟨j, found, index⟩ := exists_toNat_encode encodable
  rw [decode, if_pos valid, index, getD_eq_getElem?_getD, found, Option.getD_some]

/-- The code zero is that of the first character. -/
theorem encode_eq_zero_iff {first : UInt8} {rest : List UInt8}
    (values : charSet.values = first :: rest) (nonzero : first ≠ 0) (c : UInt8) :
    encode charSet c = 0 ↔ c = first := by
  constructor
  · intro code
    by_cases encodable : IsEncodable charSet c
    · have valid : (0 : BitVec 8) < invalid charSet := by
        rw [← code, BitVec.lt_def, toNat_invalid]
        exact toNat_encode_lt encodable
      have decoded := decode_encode encodable
      rw [code, decode, if_pos valid, values] at decoded
      exact decoded.symm
    · have empty := toNat_invalid charSet
      rw [← encode_of_not_encodable encodable, code, values] at empty
      exact absurd empty.symm (succ_ne_zero _)
  · rintro rfl
    rw [encode, values, doEncode, if_neg nonzero, if_pos rfl]

/-- The longest prefix of at most `M` characters that have codes. -/
def encodablePrefix (M : Nat) (charSet : IdentifierCharSet) (s : List UInt8) : List UInt8 :=
  (s.take M).takeWhile fun c => decide (IsEncodable charSet c)

theorem length_encodablePrefix_le (M : Nat) (s : List UInt8) :
    (encodablePrefix M charSet s).length ≤ M :=
  (List.takeWhile_prefix _).length_le.trans (length_take_le M s)

end IdentifierEncoding

namespace BasicIdentifier

open IdentifierEncoding

variable {M w : Nat} {charSet : IdentifierCharSet}

variable {i : Nat}

theorem get_makeBites (s : List UInt8) (inside : i < M) :
    (makeBites M charSet s).get i = encode charSet (if i < s.length then s.getD i 0 else 0) := by
  apply BitVec.eq_of_toNat_eq
  refine (Biteset.get_make (by decide) _ ⟨i, inside⟩ (by omega)).trans (Nat.mod_eq_of_lt ?_)
  exact (toNat_encode_le charSet _).trans_lt charSet.fits

theorem get_ofChars_of_lt (s : List UInt8) (inside : i < M) (within : i < s.length) :
    (ofChars s : BasicIdentifier M w charSet).bites.get i = encode charSet s[i] := by
  rw [ofChars, get_makeBites s inside, if_pos within, getD_eq_getElem _ _ within]

theorem get_ofChars_of_le (s : List UInt8) (inside : i < M) (past : s.length ≤ i) :
    (ofChars s : BasicIdentifier M w charSet).bites.get i = invalid charSet := by
  rw [ofChars, get_makeBites s inside, if_neg (not_lt.mpr past), encode_zero]

/-- The codes are valid up to the end of the longest prefix that has codes. -/
theorem getSize_ofChars (s : List UInt8) {left i : Nat} (rest : i + left = M) :
    (ofChars s : BasicIdentifier M w charSet).getSize left i =
      i + (encodablePrefix left charSet (s.drop i)).length := by
  induction left generalizing i with
  | zero => simpa [getSize, encodablePrefix] using rest.symm
  | succ left ih =>
      have inside : i < M := by omega
      rw [getSize]
      by_cases within : i < s.length
      · rw [get_ofChars_of_lt s inside within, drop_eq_getElem_cons within, encodablePrefix,
          take_succ_cons, takeWhile_cons]
        by_cases encodable : IsEncodable charSet s[i]
        · have valid : isInvalid charSet (encode charSet s[i]) ≠ true := fun invalid =>
            (isInvalid_encode_iff _).mp invalid encodable
          rw [if_neg valid, if_pos (decide_eq_true encodable), ih (by omega), encodablePrefix,
            length_cons]
          omega
        · rw [if_pos ((isInvalid_encode_iff _).mpr encodable),
            if_neg (fun valid => encodable (of_decide_eq_true valid))]
          rfl
      · have past : s.length ≤ i := Nat.le_of_not_lt within
        have code : isInvalid charSet (invalid charSet) = true := decide_eq_true (BitVec.le_refl _)
        rw [get_ofChars_of_le s inside past, if_pos code, drop_eq_nil_of_le past]
        rfl

theorem charAt_ofChars (s : List UInt8) (inside : i < (encodablePrefix M charSet s).length) :
    (ofChars s : BasicIdentifier M w charSet).charAt i = (encodablePrefix M charSet s)[i] := by
  have first : encodablePrefix M charSet s <+: s :=
    (List.takeWhile_prefix _).trans (List.take_prefix M s)
  have within : i < s.length := inside.trans_le first.length_le
  have same : (encodablePrefix M charSet s)[i] = s[i] := first.getElem inside
  have valid : IsEncodable charSet (encodablePrefix M charSet s)[i] := by
    have member : (encodablePrefix M charSet s)[i] ∈
        (s.take M).takeWhile fun c => decide (IsEncodable charSet c) := getElem_mem inside
    have decided := mem_takeWhile_imp member
    exact of_decide_eq_true decided
  rw [charAt, get_ofChars_of_lt s (inside.trans_le (length_encodablePrefix_le M s)) within, ← same,
    decode_encode valid]

/-- The identifier that is constructed from the value of one is the same. -/
theorem ofValue_value (narrow : 8 * Biteset.storeSize M 6 ≤ w) (id : BasicIdentifier M w charSet) :
    ofValue id.value = id :=
  congrArg BasicIdentifier.mk (id.bites.fromValue_asUInt narrow)

section First

variable {first : UInt8} {rest : List UInt8}

/-- The value is zero if all the codes are. -/
theorem isEmpty_ofChars_iff_codes (narrow : 8 * Biteset.storeSize M 6 ≤ w) (s : List UInt8) :
    (ofChars s : BasicIdentifier M w charSet).isEmpty = true ↔
      ∀ i : Fin M, encode charSet (if i < s.length then s.getD i 0 else 0) = 0 := by
  rw [isEmpty, beq_iff_eq]
  exact Biteset.asUInt_make_eq_zero_iff (by decide) narrow fun _ =>
    (toNat_encode_le charSet _).trans_lt charSet.fits

/-- The code of the first character is zero, and that of what is past the end of a
string is not. -/
theorem isEmpty_ofChars_iff (narrow : 8 * Biteset.storeSize M 6 ≤ w)
    (values : charSet.values = first :: rest) (nonzero : first ≠ 0) (s : List UInt8) :
    (ofChars s : BasicIdentifier M w charSet).isEmpty = true ↔
      s.take M = List.replicate M first := by
  rw [isEmpty_ofChars_iff_codes narrow]
  simp only [encode_eq_zero_iff values nonzero]
  constructor
  · intro all
    have within (i : Nat) (inside : i < M) : i < s.length := by
      by_contra past
      exact nonzero ((if_neg past).symm.trans (all ⟨i, inside⟩)).symm
    have long : M ≤ s.length := Nat.le_of_not_lt fun short => (within s.length short).false
    refine eq_replicate_iff.mpr ⟨length_take_of_le long, fun c member => ?_⟩
    obtain ⟨i, inside, rfl⟩ := mem_take_iff_getElem.mp member
    have here := all ⟨i, inside.trans_le (min_le_left _ _)⟩
    have before : i < s.length := inside.trans_le (min_le_right _ _)
    rwa [if_pos before, getD_eq_getElem _ _ before] at here
  · intro taken i
    have long : M ≤ s.length := by
      have length := congrArg List.length taken
      rw [length_take, length_replicate] at length
      omega
    have before : (i : Nat) < s.length := i.isLt.trans_le long
    have member : s[(i : Nat)] ∈ s.take M :=
      mem_take_iff_getElem.mpr ⟨i, Nat.lt_min.mpr ⟨i.isLt, before⟩, rfl⟩
    rw [if_pos before, getD_eq_getElem _ _ before]
    exact eq_of_mem_replicate (taken ▸ member)

theorem size_ofChars (narrow : 8 * Biteset.storeSize M 6 ≤ w)
    (values : charSet.values = first :: rest) (nonzero : first ≠ 0) (s : List UInt8) :
    (ofChars s : BasicIdentifier M w charSet).size =
      if s.take M = List.replicate M first then 0
      else (encodablePrefix M charSet s).length := by
  rw [size, if_congr (isEmpty_ofChars_iff narrow values nonzero s) rfl rfl]
  congr 1
  rw [getSize_ofChars s (zero_add M), zero_add, drop_zero]

/-- The name of an identifier is the longest prefix that has codes, if not all of them
are zero. -/
theorem str_name_ofChars (short : M < 2 ^ 8) (narrow : 8 * Biteset.storeSize M 6 ≤ w)
    (values : charSet.values = first :: rest) (nonzero : first ≠ 0) (s : List UInt8) :
    (ofChars s : BasicIdentifier M w charSet).name.str =
      if s.take M = List.replicate M first then [] else encodablePrefix M charSet s := by
  have upTo : (encodablePrefix M charSet s).length ≤ M := length_encodablePrefix_le M s
  rw [IdentifierName.str, IdentifierName.size, name, IdentifierName.make,
    size_ofChars narrow values nonzero]
  split_ifs with zeros
  · rfl
  · have len : (UInt8.ofNat (encodablePrefix M charSet s).length).toNat =
        (encodablePrefix M charSet s).length :=
      UInt8.toNat_ofNat_of_lt (upTo.trans_lt short)
    apply ext_getElem
    · rw [len, length_take, length_append, length_ofFn]
      exact min_eq_left (upTo.trans (le_add_right _ _))
    · intro i _ inside
      have within : i < M := inside.trans_le upTo
      rw [getElem_take, getElem_append_left (by rwa [length_ofFn]),
        List.getElem_ofFn]
      exact charAt_ofChars s inside

theorem encodablePrefix_eq (noZero : 0 ∉ chars charSet) {s : List UInt8}
    (encodable : canBeEncoded M charSet s = true) :
    s.length ≤ M ∧ encodablePrefix M charSet s = s := by
  rw [canBeEncoded] at encodable
  split_ifs at encodable with upTo
  refine ⟨upTo, ?_⟩
  rw [encodablePrefix, take_of_length_le upTo, takeWhile_eq_self_iff]
  intro c member
  have present : c ∈ chars charSet := contains_iff_mem.mp (all_eq_true.mp encodable c member)
  refine decide_eq_true ⟨fun zero => noZero (zero ▸ present), ?_⟩
  rw [chars] at present
  split_ifs at present
  · exact mem_of_mem_dropLast present
  · exact present

end First

variable (M w charSet) in
/-- An identifier that is constructed from a string has all of it. -/
structure IsLossless (s : List UInt8) : Prop where
  name : (ofChars s : BasicIdentifier M w charSet).name.str = s
  size : (ofChars s : BasicIdentifier M w charSet).size = s.length
  isEmpty : (ofChars s : BasicIdentifier M w charSet).isEmpty = true ↔ s = []
  value : ofValue (ofChars s : BasicIdentifier M w charSet).value =
    (ofChars s : BasicIdentifier M w charSet)

end BasicIdentifier

namespace Identifier

open IdentifierEncoding BasicIdentifier

theorem values_eq : defaultIdentifierCharSet.values =
    UInt8.ofNat '_'.toNat :: defaultIdentifierCharSet.values.tail :=
  rfl

/-- The encoding of an identifier is lossless except for the empty string, and for the
only one that is encoded as zero. -/
theorem isLossless_iff (s : List UInt8)
    (encodable : canBeEncoded 10 defaultIdentifierCharSet s = true) :
    IsLossless 10 64 defaultIdentifierCharSet s ↔
      s ≠ [] ∧ s ≠ List.replicate 10 (UInt8.ofNat '_'.toNat) := by
  have narrow : 8 * Biteset.storeSize 10 6 ≤ 64 := by decide
  have nonzero : UInt8.ofNat '_'.toNat ≠ 0 := by decide
  obtain ⟨upTo, whole⟩ := encodablePrefix_eq (by decide) encodable
  have empty := isEmpty_ofChars_iff narrow values_eq nonzero s
  have size := size_ofChars narrow values_eq nonzero s
  have name := str_name_ofChars (by decide) narrow values_eq nonzero s
  rw [take_of_length_le upTo] at empty size name
  constructor
  · intro lossless
    constructor
    · intro none
      have zeros := empty.mp (lossless.isEmpty.mpr none)
      rw [none] at zeros
      exact absurd (congrArg List.length zeros) (by decide)
    · intro zeros
      have none := lossless.isEmpty.mp (empty.mpr zeros)
      rw [none] at zeros
      exact absurd (congrArg List.length zeros) (by decide)
  · rintro ⟨some, notZeros⟩
    rw [if_neg notZeros, whole] at name size
    exact ⟨name, size, iff_of_false (fun zero => notZeros (empty.mp zero)) some,
      ofValue_value narrow _⟩

theorem isLossless_iff_tea :
    IsLossless 10 64 defaultIdentifierCharSet [116, 101, 97] ↔
      ([116, 101, 97] : List UInt8) ≠ [] ∧
        [116, 101, 97] ≠ List.replicate 10 (UInt8.ofNat '_'.toNat) :=
  isLossless_iff [116, 101, 97] (by decide)

/-- The identifier of the empty string is not empty. -/
theorem not_isLossless_empty :
    ¬∀ s : List UInt8, canBeEncoded 10 defaultIdentifierCharSet s = true →
      IsLossless 10 64 defaultIdentifierCharSet s := by
  intro lossless
  exact absurd ((lossless [] rfl).isEmpty.mpr rfl) (by decide)

theorem isIdentifierChar_eq (c : UInt8) :
    Serialization.isIdentifierChar c = decide (IsEncodable defaultIdentifierCharSet c) := by
  have values : Serialization.identifierChars.map Serialization.byteOf =
      defaultIdentifierCharSet.values := rfl
  have noZero : (0 : UInt8) ∉ defaultIdentifierCharSet.values := by decide
  rw [Serialization.isIdentifierChar, values, contains_eq_mem]
  exact decide_eq_decide.mpr
    ⟨fun member => ⟨fun zero => noZero (zero ▸ member), member⟩, fun encodable => encodable.2⟩

/-- The name by which serialized identifiers are represented. -/
theorem str_name_eq_identifierNameOf (src : List UInt8) :
    (ofChars src : Eagine.Identifier).name.str = Serialization.identifierNameOf src := by
  have nonzero : UInt8.ofNat '_'.toNat ≠ 0 := by decide
  have same : Serialization.isIdentifierChar =
      fun c => decide (IsEncodable defaultIdentifierCharSet c) := funext isIdentifierChar_eq
  have zeros : src.take 10 = List.replicate 10 (UInt8.ofNat '_'.toNat) ↔
      encodablePrefix 10 defaultIdentifierCharSet src = Serialization.zeroEncodedName := by
    constructor
    · intro taken
      rw [encodablePrefix, taken]
      rfl
    · intro first
      have whole : encodablePrefix 10 defaultIdentifierCharSet src = src.take 10 := by
        refine (List.takeWhile_prefix _).eq_of_length_le ?_
        have length := congrArg List.length first
        rw [encodablePrefix] at length
        rw [length]
        exact length_take_le 10 src
      rw [← whole, first]
      rfl
  rw [str_name_ofChars (by decide) (by decide) values_eq nonzero, Serialization.identifierNameOf,
    same, if_congr zeros rfl rfl]
  rfl

end Identifier

end Eagine

/-!
## Incrementing identifiers

The codes of an identifier are the digits of a number, and its increment advances them like an
odometer. The value has the padding of the biteset below the digits.
-/

namespace Eagine

open Theory Biteset

namespace BasicIdentifier

variable {M w : Nat} {charSet : IdentifierCharSet}

/-- The loop of `increment`, down from a position. -/
def incBites : Nat → Biteset M 6 → Biteset M 6
  | 0, _ => .init
  | p + 1, v =>
      let next := (v.get p).toNat + 1
      if next < 2 ^ 6 then v.set p (BitVec.ofNat _ next) else incBites p (v.set p 0)

def increment (i : BasicIdentifier M w charSet) : BasicIdentifier M w charSet where
  bites := incBites M i.bites

/-- A code meets two bytes at most. -/
theorem fits_code {i : Nat} (_ : i < M) : i * 6 % 8 + 6 ≤ 56 := by
  omega

theorem toNat_get_set_self (v : Biteset M 6) {p : Nat} (inside : p < M) {code : Nat}
    (small : code < 2 ^ 6) : ((v.set p (BitVec.ofNat _ code)).get p).toNat = code := by
  have read := get_set_self (by decide) v ⟨p, inside⟩ (BitVec.ofNat _ code) (fits_code inside)
  rw [read, BitVec.toNat_ofNat, Nat.mod_eq_of_lt (small.trans (by decide)),
    Nat.mod_eq_of_lt small]

theorem get_set_behind (v : Biteset M 6) {p i : Nat} (inside : i < M) (behind : p < i)
    (code : BitesetCell 6) : (v.set p code).get i = v.get i := by
  have other : (⟨i, inside⟩ : Fin M) ≠ ⟨p, behind.trans inside⟩ := fun same =>
    absurd (Fin.val_eq_of_eq same) (ne_of_gt behind)
  exact get_set_of_ne (by decide) v other code (fits_code inside)

/-- The codes up to a position are advanced like the digits of an odometer, where those behind
it have started over. -/
theorem incBites_spec {p : Nat} (upTo : p ≤ M) (v : Biteset M 6)
    (startedOver : ∀ i < M, p ≤ i → (v.get i).toNat = 0) :
    (incBites p v).cellDigits p = advance (2 ^ 6) (v.cellDigits p) ∧
      ∀ i < M, p ≤ i → ((incBites p v).get i).toNat = 0 := by
  induction p generalizing v with
  | zero => exact ⟨rfl, fun i inside _ => toNat_get_init (fits_code inside)⟩
  | succ p ih =>
      have inside : p < M := upTo
      have fits : ∀ i < M, i * 6 % 8 + 6 ≤ 56 := fun _ => fits_code
      rw [incBites, cellDigits, cellDigits, advance]
      by_cases goesUp : (v.get p).toNat + 1 < 2 ^ 6
      · simp only [if_pos goesUp]
        constructor
        · rw [toNat_get_set_self v inside goesUp, cellDigits_set v fits inside _ (le_refl p)]
        · intro i within behind
          rw [get_set_behind v within behind, startedOver i within behind]
      · simp only [if_neg goesUp]
        have zero : ((v.set p 0).get p).toNat = 0 := toNat_get_set_self v inside (by decide)
        have startedOverNext : ∀ i < M, p ≤ i → ((v.set p 0).get i).toNat = 0 := by
          intro i within from_p
          rcases eq_or_lt_of_le from_p with rfl | behind
          · exact zero
          · rw [get_set_behind v within behind, startedOver i within behind]
        rcases ih (Nat.le_of_succ_le upTo) (v.set p 0) startedOverNext with ⟨digits, zeros⟩
        constructor
        · rw [zeros p inside (le_refl p), digits,
            cellDigits_set v fits inside _ (le_refl p)]
        · intro i within behind
          exact zeros i within (Nat.le_of_succ_le behind)

theorem cellDigits_increment (id : BasicIdentifier M w charSet) :
    id.increment.bites.cellDigits M = advance (2 ^ 6) (id.bites.cellDigits M) := by
  apply (incBites_spec (le_refl M) id.bites _).1
  intro i inside past
  exact absurd inside (not_lt.mpr past)

theorem isPadded_incBites {p : Nat} (upTo : p ≤ M) {v : Biteset M 6} (padded : v.IsPadded) :
    (incBites p v).IsPadded := by
  induction p generalizing v with
  | zero => exact Biteset.isPadded_init
  | succ p ih =>
      rw [incBites]
      split
      · exact padded.set upTo _ (by decide)
      · exact ih (Nat.le_of_succ_le upTo) (padded.set upTo _ (by decide))

/-- The number of the codes: the value above the padding. -/
def number (id : BasicIdentifier M w charSet) : Nat :=
  id.value.toNat / 2 ^ (8 * storeSize M 6 - M * 6)

theorem ofDigits_codes (narrow : 8 * storeSize M 6 ≤ w) (id : BasicIdentifier M w charSet) :
    Nat.ofDigits (2 ^ 6) (id.bites.cellDigits M) = id.number :=
  ofDigits_cellDigits id.bites (fun _ => fits_code) narrow (le_refl M)

theorem codes_lt (id : BasicIdentifier M w charSet) :
    ∀ code ∈ id.bites.cellDigits M, code < 2 ^ 6 :=
  cellDigits_lt id.bites (fun _ => fits_code) (le_refl M)

theorem number_lt (narrow : 8 * storeSize M 6 ≤ w) (id : BasicIdentifier M w charSet) :
    id.number < (2 ^ 6) ^ M := by
  have bound := Nat.ofDigits_lt_base_pow_length (by decide) id.codes_lt
  rwa [ofDigits_codes narrow, length_cellDigits] at bound

theorem number_increment (narrow : 8 * storeSize M 6 ≤ w) (id : BasicIdentifier M w charSet) :
    id.increment.number = (id.number + 1) % (2 ^ 6) ^ M := by
  have advanced := ofDigits_advance (by decide) id.codes_lt
  rwa [← cellDigits_increment, ofDigits_codes narrow, ofDigits_codes narrow,
    length_cellDigits] at advanced

/-- With nothing below the number, identifiers that have the same number are the same. -/
theorem eq_of_number (narrow : 8 * storeSize M 6 ≤ w) {id other : BasicIdentifier M w charSet}
    (padded : id.bites.IsPadded) (otherPadded : other.bites.IsPadded)
    (same : id.number = other.number) : id = other := by
  have values : id.value = other.value := by
    apply BitVec.eq_of_toNat_eq
    rw [← Nat.div_add_mod id.value.toNat (2 ^ (8 * storeSize M 6 - M * 6)),
      ← Nat.div_add_mod other.value.toNat (2 ^ (8 * storeSize M 6 - M * 6))]
    have below : id.value.toNat % 2 ^ (8 * storeSize M 6 - M * 6) = 0 := padded.asUInt_mod narrow
    have otherBelow : other.value.toNat % 2 ^ (8 * storeSize M 6 - M * 6) = 0 :=
      otherPadded.asUInt_mod narrow
    rw [below, otherBelow, ← number, ← number, same]
  rw [← ofValue_value narrow id, ← ofValue_value narrow other, values]

end BasicIdentifier

namespace Identifier

open BasicIdentifier

/-- The identifiers that are constructed from strings, and those that they are incremented
to. -/
inductive Reached : Eagine.Identifier → Prop
  | ofChars (s : List UInt8) : Reached (.ofChars s)
  | increment {id : Eagine.Identifier} : Reached id → Reached id.increment

theorem Reached.isPadded {id : Eagine.Identifier} (reached : Reached id) : id.bites.IsPadded := by
  induction reached with
  | ofChars s => exact isPadded_make (by decide) _
  | increment _ ih => exact isPadded_incBites (le_refl 10) ih

theorem toNat_value_shiftRight (id : Eagine.Identifier) : (id.value >>> 4).toNat = id.number := by
  rw [BitVec.toNat_ushiftRight, Nat.shiftRight_eq_div_pow]
  rfl

theorem Reached.padding {id : Eagine.Identifier} (reached : Reached id) :
    id.value.setWidth 4 = 0#4 := by
  apply BitVec.eq_of_toNat_eq
  rw [BitVec.toNat_setWidth]
  exact reached.isPadded.asUInt_mod (by decide)

/-- An increment goes to the successor of the number above the padding, modulo the number of
all the names of ten codes. Different identifiers are incremented to different ones, and no
value comes back before all of them have been passed. -/
theorem increment_isSuccessor {id : Eagine.Identifier} (reached : Reached id) :
    (id.increment.value >>> 4).toNat = ((id.value >>> 4).toNat + 1) % 2 ^ 60 ∧
      id.value.setWidth 4 = 0#4 ∧ id.increment.value.setWidth 4 = 0#4 ∧
      (∀ other : Eagine.Identifier, Reached other → id.increment = other.increment →
        id = other) ∧
      ∀ i j : Nat, i < j → j ≤ 2 ^ 60 - 1 →
        (BasicIdentifier.increment^[i] id).value ≠ (BasicIdentifier.increment^[j] id).value := by
  have narrow : 8 * storeSize 10 6 ≤ 64 := by decide
  have modulus : (2 ^ 6) ^ 10 = 2 ^ 60 := (pow_mul 2 6 10).symm
  have successor (a : Eagine.Identifier) (_ : Reached a) :
      a.increment.number = (a.number + 1) % 2 ^ 60 := modulus ▸ number_increment narrow a
  have bounded (a : Eagine.Identifier) (_ : Reached a) : a.number < 2 ^ 60 :=
    modulus ▸ number_lt narrow a
  have closed (a : Eagine.Identifier) : Reached a → Reached a.increment := Reached.increment
  refine ⟨?_, reached.padding, reached.increment.padding, ?_, ?_⟩
  · rw [toNat_value_shiftRight, toNat_value_shiftRight]
    exact successor id reached
  · intro other otherReached same
    apply eq_of_number narrow reached.isPadded otherReached.isPadded
    exact number_eq_of_next bounded successor reached otherReached (congrArg number same)
  · intro i j before within same
    have inPeriod : j < i + 2 ^ 60 := by omega
    apply number_iterate_ne closed bounded successor reached before inPeriod
    exact congrArg (fun value : BitVec 64 => value.toNat / 2 ^ 4) same

/-- The increments of the identifier of a string with one character. -/
theorem increment_isSuccessor_nine :
    ((ofChars [57] : Eagine.Identifier).increment.value >>> 4).toNat =
        (((ofChars [57] : Eagine.Identifier).value >>> 4).toNat + 1) % 2 ^ 60 ∧
      (ofChars [57] : Eagine.Identifier).value.setWidth 4 = 0#4 ∧
      (ofChars [57] : Eagine.Identifier).increment.value.setWidth 4 = 0#4 ∧
      (∀ other : Eagine.Identifier, Reached other →
        (ofChars [57] : Eagine.Identifier).increment = other.increment → ofChars [57] = other) ∧
      ∀ i j : Nat, i < j → j ≤ 2 ^ 60 - 1 →
        (BasicIdentifier.increment^[i] (ofChars [57] : Eagine.Identifier)).value ≠
          (BasicIdentifier.increment^[j] (ofChars [57] : Eagine.Identifier)).value :=
  increment_isSuccessor (.ofChars [57])

end Identifier

end Eagine
