import Mathlib.Data.BitVec

/-!
# Bit-fields over flag enumerations

The error reports of the serialization layer are bit-fields: an enumeration
whose enumerators are single bits, and an unsigned integer holding any
combination of them.  The predicates on a bit-field compare bit patterns, so
`hasOnly` and `hasAtMost` are about the whole report and not about one flag.
-/

namespace Eagine

/-- An enumeration whose enumerators are values of an unsigned integer type. -/
class BitEnum (Bit : Type) where
  width : Nat
  value : Bit → BitVec width

/-- A combination of the flags of one enumeration. -/
structure Bitfield (Bit : Type) [BitEnum Bit] where
  bits : BitVec (BitEnum.width Bit)
deriving DecidableEq

namespace Bitfield

variable {Bit : Type} [BitEnum Bit]

/-- The default-constructed field: no flag is set. -/
def empty : Bitfield Bit :=
  ⟨0⟩

instance : EmptyCollection (Bitfield Bit) :=
  ⟨empty⟩

/-- Construction from a single enumerator. -/
def ofBit (bit : Bit) : Bitfield Bit :=
  ⟨BitEnum.value bit⟩

def isEmpty (field : Bitfield Bit) : Bool :=
  field.bits == 0

def has (field : Bitfield Bit) (bit : Bit) : Bool :=
  field.bits &&& BitEnum.value bit == BitEnum.value bit

def hasOnly (field : Bitfield Bit) (bit : Bit) : Bool :=
  field.bits == BitEnum.value bit

def hasAtMost (field : Bitfield Bit) (bit : Bit) : Bool :=
  field.isEmpty || field.hasOnly bit

/-- Bitwise or of two fields. -/
def merge (first second : Bitfield Bit) : Bitfield Bit :=
  ⟨first.bits ||| second.bits⟩

instance : OrOp (Bitfield Bit) :=
  ⟨merge⟩

/-- Clears a single flag. -/
def clear (field : Bitfield Bit) (bit : Bit) : Bitfield Bit :=
  ⟨field.bits &&& ~~~BitEnum.value bit⟩

theorem ext_bits {first second : Bitfield Bit} (bits_eq : first.bits = second.bits) :
    first = second := by
  cases first
  cases second
  exact congrArg Bitfield.mk bits_eq

@[simp]
theorem bits_empty : (∅ : Bitfield Bit).bits = 0 :=
  rfl

@[simp]
theorem bits_or (first second : Bitfield Bit) :
    (first ||| second).bits = first.bits ||| second.bits :=
  rfl

@[simp]
theorem isEmpty_iff (field : Bitfield Bit) : field.isEmpty = true ↔ field = ∅ := by
  constructor
  · intro bits_eq
    exact ext_bits (by simpa [isEmpty] using bits_eq)
  · rintro rfl
    simp [isEmpty]

@[simp]
theorem isEmpty_eq_false_iff (field : Bitfield Bit) : field.isEmpty = false ↔ field ≠ ∅ := by
  rw [← Bool.not_eq_true, isEmpty_iff]

@[simp]
theorem empty_or (field : Bitfield Bit) : (∅ : Bitfield Bit) ||| field = field :=
  ext_bits (by simp)

@[simp]
theorem or_empty (field : Bitfield Bit) : field ||| (∅ : Bitfield Bit) = field :=
  ext_bits (by simp)

@[simp]
theorem or_self (field : Bitfield Bit) : field ||| field = field :=
  ext_bits (by simp)

theorem or_eq_empty {first second : Bitfield Bit} :
    first ||| second = ∅ ↔ first = ∅ ∧ second = ∅ := by
  constructor
  · intro merged
    have bitsEq : first.bits ||| second.bits = 0 := congrArg bits merged
    have apart : first.bits = 0 ∧ second.bits = 0 := BitVec.or_eq_zero_iff.mp bitsEq
    exact ⟨ext_bits apart.1, ext_bits apart.2⟩
  · rintro ⟨rfl, rfl⟩
    exact or_self ∅

/-- A flag of the first report is a flag of the merged report. -/
theorem has_or_left {first : Bitfield Bit} {bit : Bit} (flag : first.has bit = true)
    (second : Bitfield Bit) : (first ||| second).has bit = true := by
  simp only [has, beq_iff_eq, bits_or] at *
  rw [BitVec.and_comm] at flag ⊢
  ext i inRange
  have pointwise := congrArg (·.getLsbD i) flag
  simp only [BitVec.getLsbD_and] at pointwise
  simp only [BitVec.getElem_and, BitVec.getElem_or]
  rw [← BitVec.getLsbD_eq_getElem, ← BitVec.getLsbD_eq_getElem, ← BitVec.getLsbD_eq_getElem]
  revert pointwise
  cases (BitEnum.value bit).getLsbD i <;> simp +contextual

/-- A report with a flag the other bit does not cover is more than that bit. -/
theorem hasAtMost_eq_false {field : Bitfield Bit} {bit other : Bit}
    (flag : field.has bit = true) (noneSet : (∅ : Bitfield Bit).has bit = false)
    (apart : (ofBit other).has bit = false) : field.hasAtMost other = false := by
  rw [← Bool.not_eq_true]
  intro atMost
  rcases Bool.or_eq_true_iff.mp atMost with empty | only
  · rw [(isEmpty_iff field).mp empty] at flag
    exact absurd (flag.symm.trans noneSet) (by decide)
  · have same : field = ofBit other := ext_bits (by simpa [hasOnly, ofBit] using only)
    rw [same] at flag
    exact absurd (flag.symm.trans apart) (by decide)

end Bitfield

end Eagine
