import Eagine.Serialization.Block

/-!
# Serializable types and their values

The serializer templates are instantiated by the structure of a type: plain
values, character strings, arrays, vectors, tuples and structures whose data
members are mapped to names.  `Ty` is that structure over the plain types of a
backend.  `Ty.Rep` is what a C++ object of the type holds; `Value` adds what
the C++ type system and the standard containers guarantee about it: an array
has its declared length, and every count fits the signed 64-bit `span_size_t`.

Some of these types only instantiate the writing or the reading templates (there
is no reader of vectors of tuples, say): `Ty.hasWriter` and `Ty.hasReader` tell which.
-/

namespace Eagine.Serialization

/-- The plain types of a backend, with their values and their zero values. -/
class Leaf (L : Type) where
  Rep : L → Type
  zero : (leaf : L) → Rep leaf

mutual

inductive Ty (L : Type) where
  | plain (leaf : L)
  | string
  | array (elem : Ty L) (size : Nat)
  | vector (elem : Ty L)
  | tuple (elems : Elems L)
  | struct (members : Members L)

/-- The element types of a tuple. -/
inductive Elems (L : Type) where
  | nil
  | cons (head : Ty L) (tail : Elems L)

/-- The mapped data members of a structure, with their names. -/
inductive Members (L : Type) where
  | nil
  | cons (name : Block) (head : Ty L) (tail : Members L)

end

variable {L : Type}

def Elems.length : Elems L → Nat
  | .nil => 0
  | .cons _ tail => tail.length + 1

def Members.length : Members L → Nat
  | .nil => 0
  | .cons _ _ tail => tail.length + 1

section Values

variable [Leaf L]

mutual

/-- The representation of an object of the type. -/
def Ty.Rep : Ty L → Type
  | .plain leaf => Leaf.Rep leaf
  | .string => Block
  | .array elem _ => List elem.Rep
  | .vector elem => List elem.Rep
  | .tuple elems => elems.Rep
  | .struct members => members.Rep

def Elems.Rep : Elems L → Type
  | .nil => Unit
  | .cons head tail => head.Rep × tail.Rep

def Members.Rep : Members L → Type
  | .nil => Unit
  | .cons _ head tail => head.Rep × tail.Rep

end

mutual

/-- The value-initialized object of the type. -/
def Ty.zero : (ty : Ty L) → ty.Rep
  | .plain leaf => Leaf.zero leaf
  | .string => ([] : Block)
  | .array elem size => List.replicate size elem.zero
  | .vector elem => ([] : List elem.Rep)
  | .tuple elems => elems.zero
  | .struct members => members.zero

def Elems.zero : (elems : Elems L) → elems.Rep
  | .nil => ()
  | .cons head tail => (head.zero, tail.zero)

def Members.zero : (members : Members L) → members.Rep
  | .nil => ()
  | .cons _ head tail => (head.zero, tail.zero)

end

/-- Counts below this limit are representable as `span_size_t`. -/
def spanSizeLimit : Nat :=
  2 ^ 63

/-- A list that a span can cover, all of whose elements satisfy `holds`. -/
def IsSpanOf {α : Type} (holds : α → Prop) (values : List α) : Prop :=
  values.length < spanSizeLimit ∧ ∀ value ∈ values, holds value

def HasLength {α : Type} (size : Nat) (values : List α) : Prop :=
  values.length = size

mutual

/-- What holds of every object of the type. -/
def Ty.Holds : (ty : Ty L) → ty.Rep → Prop
  | .plain _, _ => True
  | .string, str => IsSpanOf (fun _ : UInt8 => True) str
  | .array elem size, values => HasLength size values ∧ IsSpanOf elem.Holds values
  | .vector elem, values => IsSpanOf elem.Holds values
  | .tuple elems, values => elems.length < spanSizeLimit ∧ elems.Holds values
  | .struct members, values => members.length < spanSizeLimit ∧ members.Holds values

def Elems.Holds : (elems : Elems L) → elems.Rep → Prop
  | .nil, _ => True
  | .cons head tail, (value, values) => head.Holds value ∧ tail.Holds values

def Members.Holds : (members : Members L) → members.Rep → Prop
  | .nil, _ => True
  | .cons _ head tail, (value, values) => head.Holds value ∧ tail.Holds values

end

/-- An object of the type. -/
structure Value (ty : Ty L) where
  rep : ty.Rep
  holds : ty.Holds rep

theorem Ty.zero_holds_of_array {elem : Ty L} {size : Nat} {values : List elem.Rep}
    (lengthEq : HasLength size values) (isSpan : IsSpanOf elem.Holds values)
    (zeroHolds : ∀ value, elem.Holds value → elem.Holds elem.zero) :
    IsSpanOf elem.Holds (List.replicate size elem.zero) := by
  constructor
  · rw [List.length_replicate, ← lengthEq]
    exact isSpan.1
  · intro value mem
    rw [List.mem_replicate] at mem
    rcases List.exists_mem_of_length_pos
        (Nat.pos_of_ne_zero (lengthEq.symm ▸ mem.1 : values.length ≠ 0)) with
      ⟨inhabitant, inhabitantMem⟩
    rw [mem.2]
    exact zeroHolds inhabitant (isSpan.2 inhabitant inhabitantMem)

mutual

/-- Where an object of the type exists at all, the value-initialized one is a
proper object, too. -/
theorem Ty.zero_holds : (ty : Ty L) → (value : ty.Rep) → ty.Holds value → ty.Holds ty.zero
  | .plain _, _, _ => trivial
  | .string, _, _ => ⟨Nat.two_pow_pos 63, fun _ _ => trivial⟩
  | .array elem _, _, holds =>
      ⟨List.length_replicate,
        Ty.zero_holds_of_array holds.1 holds.2 (Ty.zero_holds elem)⟩
  | .vector _, _, _ => ⟨Nat.two_pow_pos 63, fun _ mem => absurd mem List.not_mem_nil⟩
  | .tuple elems, values, holds => ⟨holds.1, Elems.zero_holds elems values holds.2⟩
  | .struct members, values, holds => ⟨holds.1, Members.zero_holds members values holds.2⟩

theorem Elems.zero_holds : (elems : Elems L) → (values : elems.Rep) → elems.Holds values →
    elems.Holds elems.zero
  | .nil, _, _ => trivial
  | .cons head tail, (value, values), holds =>
      ⟨Ty.zero_holds head value holds.1, Elems.zero_holds tail values holds.2⟩

theorem Members.zero_holds : (members : Members L) → (values : members.Rep) →
    members.Holds values → members.Holds members.zero
  | .nil, _, _ => trivial
  | .cons _ head tail, (value, values), holds =>
      ⟨Ty.zero_holds head value holds.1, Members.zero_holds tail values holds.2⟩

end

/-- A list of plain values is of an allowed length; the elements of any other
list satisfy `holds`. -/
def Ty.SpanAllowed (allowed : Nat → Prop) : (ty : Ty L) → (ty.Rep → Prop) → List ty.Rep → Prop
  | .plain _, _, values => allowed values.length
  | .string, holds, values => ∀ value ∈ values, holds value
  | .array _ _, holds, values => ∀ value ∈ values, holds value
  | .vector _, holds, values => ∀ value ∈ values, holds value
  | .tuple _, holds, values => ∀ value ∈ values, holds value
  | .struct _, holds, values => ∀ value ∈ values, holds value

mutual

/-- Every list of plain values in the object is of an allowed length. -/
def Ty.EverySpan (allowed : Nat → Prop) : (ty : Ty L) → ty.Rep → Prop
  | .plain _, _ => True
  | .string, _ => True
  | .array elem _, values =>
      elem.SpanAllowed allowed (fun value => elem.EverySpan allowed value) values
  | .vector elem, values =>
      elem.SpanAllowed allowed (fun value => elem.EverySpan allowed value) values
  | .tuple elems, values => elems.EverySpan allowed values
  | .struct members, values => members.EverySpan allowed values

def Elems.EverySpan (allowed : Nat → Prop) : (elems : Elems L) → elems.Rep → Prop
  | .nil, _ => True
  | .cons head tail, (value, values) =>
      head.EverySpan allowed value ∧ tail.EverySpan allowed values

def Members.EverySpan (allowed : Nat → Prop) : (members : Members L) → members.Rep → Prop
  | .nil, _ => True
  | .cons _ head tail, (value, values) =>
      head.EverySpan allowed value ∧ tail.EverySpan allowed values

end

theorem Ty.spanAllowed_of_forall {allowed : Nat → Prop} (every : ∀ length, allowed length)
    (ty : Ty L) {holds : ty.Rep → Prop} (allHold : ∀ value, holds value)
    (values : List ty.Rep) : ty.SpanAllowed allowed holds values := by
  cases ty with
  | plain leaf => exact every _
  | string => exact fun value _ => allHold value
  | array elem size => exact fun value _ => allHold value
  | vector elem => exact fun value _ => allHold value
  | tuple elems => exact fun value _ => allHold value
  | struct members => exact fun value _ => allHold value

section Unrestricted

variable {allowed : Nat → Prop}

mutual

/-- Where every length is allowed, nothing is demanded. -/
theorem Ty.everySpan_of_forall (every : ∀ length, allowed length) :
    (ty : Ty L) → (value : ty.Rep) → ty.EverySpan allowed value
  | .plain _, _ => trivial
  | .string, _ => trivial
  | .array elem _, values =>
      Ty.spanAllowed_of_forall every elem (Ty.everySpan_of_forall every elem) values
  | .vector elem, values =>
      Ty.spanAllowed_of_forall every elem (Ty.everySpan_of_forall every elem) values
  | .tuple elems, values => Elems.everySpan_of_forall every elems values
  | .struct members, values => Members.everySpan_of_forall every members values

theorem Elems.everySpan_of_forall (every : ∀ length, allowed length) :
    (elems : Elems L) → (values : elems.Rep) → elems.EverySpan allowed values
  | .nil, _ => trivial
  | .cons head tail, (value, values) =>
      ⟨Ty.everySpan_of_forall every head value, Elems.everySpan_of_forall every tail values⟩

theorem Members.everySpan_of_forall (every : ∀ length, allowed length) :
    (members : Members L) → (values : members.Rep) → members.EverySpan allowed values
  | .nil, _ => trivial
  | .cons _ head tail, (value, values) =>
      ⟨Ty.everySpan_of_forall every head value, Members.everySpan_of_forall every tail values⟩

end

end Unrestricted

end Values

mutual

/-- Every plain type that occurs in the type satisfies `allowed`. -/
def Ty.BuiltFrom (allowed : L → Prop) : Ty L → Prop
  | .plain leaf => allowed leaf
  | .string => True
  | .array elem _ => elem.BuiltFrom allowed
  | .vector elem => elem.BuiltFrom allowed
  | .tuple elems => elems.BuiltFrom allowed
  | .struct members => members.BuiltFrom allowed

def Elems.BuiltFrom (allowed : L → Prop) : Elems L → Prop
  | .nil => True
  | .cons head tail => head.BuiltFrom allowed ∧ tail.BuiltFrom allowed

def Members.BuiltFrom (allowed : L → Prop) : Members L → Prop
  | .nil => True
  | .cons _ head tail => head.BuiltFrom allowed ∧ tail.BuiltFrom allowed

end

section Unrestricted

variable {allowed : L → Prop}

mutual

/-- Where every plain type is allowed, every type is built from them. -/
theorem Ty.builtFrom_of_forall (every : ∀ leaf, allowed leaf) : (ty : Ty L) → ty.BuiltFrom allowed
  | .plain leaf => every leaf
  | .string => trivial
  | .array elem _ => Ty.builtFrom_of_forall every elem
  | .vector elem => Ty.builtFrom_of_forall every elem
  | .tuple elems => Elems.builtFrom_of_forall every elems
  | .struct members => Members.builtFrom_of_forall every members

theorem Elems.builtFrom_of_forall (every : ∀ leaf, allowed leaf) :
    (elems : Elems L) → elems.BuiltFrom allowed
  | .nil => trivial
  | .cons head tail => ⟨Ty.builtFrom_of_forall every head, Elems.builtFrom_of_forall every tail⟩

theorem Members.builtFrom_of_forall (every : ∀ leaf, allowed leaf) :
    (members : Members L) → members.BuiltFrom allowed
  | .nil => trivial
  | .cons _ head tail =>
      ⟨Ty.builtFrom_of_forall every head, Members.builtFrom_of_forall every tail⟩

end

end Unrestricted

/-- Lists can write spans of the type: structures only have the `write` of single objects. -/
def Ty.writesSpans : Ty L → Bool
  | .struct _ => false
  | _ => true

/-- Lists can read spans of the type: the `read` of vectors hides the inherited one, that of
tuples is not const, and structures only have that of single objects. -/
def Ty.readsSpans : Ty L → Bool
  | .plain _ => true
  | .string => true
  | .array _ _ => true
  | _ => false

section Instances

variable (isBool : L → Bool) (spans : Ty L → Bool)

/-- A vector of booleans has no data that a span could cover. -/
def Ty.isCovered : Ty L → Bool
  | .plain leaf => !isBool leaf
  | _ => true

mutual

/-- The templates instantiate for the type, where lists need spans of their elements. -/
def Ty.instantiates : Ty L → Bool
  | .plain _ => true
  | .string => true
  | .array elem _ => spans elem && elem.instantiates
  | .vector elem => elem.isCovered isBool && (spans elem && elem.instantiates)
  | .tuple elems => elems.instantiates
  | .struct members => members.instantiates

def Elems.instantiates : Elems L → Bool
  | .nil => true
  | .cons head tail => head.instantiates && tail.instantiates

def Members.instantiates : Members L → Bool
  | .nil => true
  | .cons _ head tail => head.instantiates && tail.instantiates

end

/-- `serializer<T>::write` compiles. -/
def Ty.hasWriter : Ty L → Bool :=
  Ty.instantiates isBool Ty.writesSpans

/-- `deserializer<T>::read` compiles. -/
def Ty.hasReader : Ty L → Bool :=
  Ty.instantiates isBool Ty.readsSpans

end Instances

end Eagine.Serialization

/-!
## Scalar types

The boolean and integer types the serialization backends have in common.
Integers are bit patterns of their width; signed ones are in two's complement.
-/

namespace Eagine.Serialization

inductive IntWidth where
  | w8
  | w16
  | w32
  | w64
deriving DecidableEq

def IntWidth.bits : IntWidth → Nat
  | .w8 => 8
  | .w16 => 16
  | .w32 => 32
  | .w64 => 64

inductive Scalar where
  | bool
  | int (width : IntWidth)
  | uint (width : IntWidth)
deriving DecidableEq

/-- Only the boolean and the unsigned types. -/
def Scalar.IsUnsigned : Scalar → Prop
  | .bool => True
  | .int _ => False
  | .uint _ => True

instance : Leaf Scalar where
  Rep
    | .bool => Bool
    | .int width => BitVec width.bits
    | .uint width => BitVec width.bits
  zero
    | .bool => false
    | .int width => BitVec.zero width.bits
    | .uint width => BitVec.zero width.bits

theorem IntWidth.bits_le (width : IntWidth) : width.bits ≤ 64 := by
  cases width <;> decide

/-- Counts keep their value as `span_size_t`. -/
theorem toInt_ofNat {size : Nat} (fits : size < spanSizeLimit) :
    (BitVec.ofNat 64 size).toInt = size := by
  unfold spanSizeLimit at fits
  rw [BitVec.toInt_eq_toNat_of_lt, BitVec.toNat_ofNat, Nat.mod_eq_of_lt (by omega)]
  rw [BitVec.toNat_ofNat, Nat.mod_eq_of_lt (by omega)]
  omega

end Eagine.Serialization
