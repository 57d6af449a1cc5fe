import Eagine.Serialization.Portable

/-!
# Buffers for serialized values

`serializeBufferFor` makes a buffer for the serialization of a value.  Where the
size of the type counts as constant the buffer has that size, otherwise the size
is computed from the value.
-/

open List

namespace Eagine.Serialization

/-- The size constants of the plain types; the integers of eight bits are `char`
and `byte`. -/
def PortableLeaf.bufferSize : PortableLeaf → Nat
  | .scalar .bool => 8
  | .scalar (.int .w8) => 4
  | .scalar (.int .w16) => 6
  | .scalar (.int .w32) => 12
  | .scalar (.int .w64) => 24
  | .scalar (.uint .w8) => 4
  | .scalar (.uint .w16) => 6
  | .scalar (.uint .w32) => 12
  | .scalar (.uint .w64) => 24
  | .floating .float => 24
  | .floating .double => 48
  | .identifier => 12

mutual

/-- The types for which `get_serialize_buffer_size` is defined: there is none for
vectors. -/
def Ty.Buffered : Ty PortableLeaf → Prop
  | .plain _ => True
  | .string => True
  | .array elem _ => elem.Buffered
  | .vector _ => False
  | .tuple elems => elems.Buffered
  | .struct members => members.Buffered

def Elems.Buffered : Elems PortableLeaf → Prop
  | .nil => True
  | .cons head tail => head.Buffered ∧ tail.Buffered

def Members.Buffered : Members PortableLeaf → Prop
  | .nil => True
  | .cons _ head tail => head.Buffered ∧ tail.Buffered

end

mutual

/-- `serialize_buffer_size_v`. -/
def Ty.bufferSize : Ty PortableLeaf → Nat
  | .plain leaf => leaf.bufferSize
  | .string => 0
  | .array elem size => 4 + (2 + elem.bufferSize) * size
  | .vector _ => 0
  | .tuple elems => 4 + elems.bufferSize
  | .struct _ => 0

def Elems.bufferSize : Elems PortableLeaf → Nat
  | .nil => 0
  | .cons head tail => 2 + head.bufferSize + tail.bufferSize

end

/-- The conjunction of the elements' `serialize_buffer_is_constant_v`, which is
the size and not whether it is constant. -/
def Elems.allConstant : Elems PortableLeaf → Bool
  | .nil => true
  | .cons head tail => head.bufferSize != 0 && tail.allConstant

/-- `get_serialize_buffer_size::is_constant`. -/
def Ty.isConstant : Ty PortableLeaf → Bool
  | .plain _ => true
  | .string => false
  | .array elem _ => elem.isConstant
  | .vector _ => false
  | .tuple elems => elems.allConstant
  | .struct _ => false

mutual

/-- `get_serialize_buffer_size::get`, with the name of the value. -/
def Ty.getBufferSize : (ty : Ty PortableLeaf) → Block → ty.Rep → Nat
  | .plain leaf, name, _ => 12 + name.length + 2 + leaf.bufferSize
  | .string, name, str => 12 + name.length + 2 + List.length str
  | .array elem _, name, values =>
      12 + name.length + (List.map (fun value => 2 + elem.getBufferSize [] value) values).sum
  | .vector _, _, _ => 0
  | .tuple elems, name, values => 12 + name.length + 2 + elems.getBufferSize values
  | .struct members, name, values => 12 + name.length + 2 + members.getBufferSize values

def Elems.getBufferSize : (elems : Elems PortableLeaf) → elems.Rep → Nat
  | .nil, _ => 0
  | .cons head tail, (value, values) =>
      2 + head.getBufferSize [] value + tail.getBufferSize values

def Members.getBufferSize : (members : Members PortableLeaf) → members.Rep → Nat
  | .nil, _ => 0
  | .cons name head tail, (value, values) =>
      2 + head.getBufferSize name value + tail.getBufferSize values

end

/-- The size of the buffer that `serialize_buffer_for` returns. -/
def serializeBufferFor (ty : Ty PortableLeaf) (value : ty.Rep) : Nat :=
  if ty.isConstant then ty.bufferSize else ty.getBufferSize [] value

end Eagine.Serialization

/-!
## Room in a buffer

How much of the size of its type a value leaves, and for which values the buffer
has room for the whole document.  A computed size always suffices.  A constant
size suffices where enough of it is left for the frame of the document; the frame
of three characters is not accounted for in the constants.
-/

namespace Eagine.Serialization

open Theory

/-- The number of hexadecimal digits. -/
def hexLength (number : Nat) : Nat :=
  Nat.log 16 number + 1

/-- What the size constant of the type leaves of the text and its delimiter. -/
def PortableLeaf.surplus : (leaf : PortableLeaf) → Leaf.Rep leaf → Int
  | .scalar .bool, _ => 6
  | .scalar (.int width), value =>
      (PortableLeaf.scalar (.int width)).bufferSize - 2 - hexLength (magnitude value).toNat
  | .scalar (.uint width), value =>
      (PortableLeaf.scalar (.uint width)).bufferSize - 1 - hexLength (BitVec.toNat value)
  | .floating type, value =>
      (PortableLeaf.floating type).bufferSize - 3 -
        hexLength (@FloatType.decompose type value).fraction.toNat -
          hexLength (magnitude (@FloatType.decompose type value).exponent).toNat
  | .identifier, id => 11 - (Identifier.name id).length

mutual

/-- What the size of the type leaves of the text of a value.  A list or a
structure takes its elements, four characters and the digits of their count. -/
def Ty.surplus : (ty : Ty PortableLeaf) → ty.Rep → Int
  | .plain leaf, value => leaf.surplus value
  | .string, str => -(5 + hexLength (List.length str) + List.length str)
  | .array elem size, values =>
      (List.map (fun value => 2 + elem.surplus value) values).sum - hexLength size
  | .vector _, _ => 0
  | .tuple elems, values => elems.surplus values - hexLength elems.length
  | .struct members, values => -(4 + hexLength members.length + members.extent values)

def Elems.surplus : (elems : Elems PortableLeaf) → elems.Rep → Int
  | .nil, _ => 0
  | .cons head tail, (value, values) => 2 + head.surplus value + tail.surplus values

/-- What the members of a structure take. -/
def Members.extent : (members : Members PortableLeaf) → members.Rep → Int
  | .nil, _ => 0
  | .cons name head tail, (value, values) =>
      name.length + 1 + (head.bufferSize - head.surplus value) + tail.extent values

end

def Each {α : Type} (holds : α → Prop) (values : List α) : Prop :=
  ∀ value ∈ values, holds value

mutual

/-- Every string in the value is shorter than `limit`. -/
def Ty.StringsBelow (limit : Nat) : (ty : Ty PortableLeaf) → ty.Rep → Prop
  | .plain _, _ => True
  | .string, str => List.length str < limit
  | .array elem _, values => Each (elem.StringsBelow limit) values
  | .vector elem, values => Each (elem.StringsBelow limit) values
  | .tuple elems, values => elems.StringsBelow limit values
  | .struct members, values => members.StringsBelow limit values

def Elems.StringsBelow (limit : Nat) : (elems : Elems PortableLeaf) → elems.Rep → Prop
  | .nil, _ => True
  | .cons head tail, (value, values) =>
      head.StringsBelow limit value ∧ tail.StringsBelow limit values

def Members.StringsBelow (limit : Nat) : (members : Members PortableLeaf) → members.Rep → Prop
  | .nil, _ => True
  | .cons _ head tail, (value, values) =>
      head.StringsBelow limit value ∧ tail.StringsBelow limit values

end

/-- The magnitudes of the signed integers for which the buffer is large enough. -/
def IntWidth.AmpleSigned : IntWidth → Nat → Prop
  | .w8, _ => False
  | .w16, number => number < 16
  | .w32, number => number < 16 ^ 7
  | .w64, _ => True

/-- The unsigned integers for which the buffer is large enough. -/
def IntWidth.AmpleUnsigned : IntWidth → Nat → Prop
  | .w8, _ => False
  | .w16, number => number < 16 ^ 2
  | .w32, _ => True
  | .w64, _ => True

/-- The values for which the buffer of a plain type is large enough. -/
def PortableLeaf.Ample : (leaf : PortableLeaf) → Leaf.Rep leaf → Prop
  | .scalar .bool, _ => True
  | .scalar (.int width), value => width.AmpleSigned (magnitude value).toNat
  | .scalar (.uint width), value => width.AmpleUnsigned (BitVec.toNat value)
  | .floating _, _ => True
  | .identifier, id => (Identifier.name id).length ≤ 8

open PortableLeaf (bufferSize scalar surplus)

/-- The values for which the buffer is large enough.  A constant size of a list
suffices when what the elements leave pays for the digits of their count and for
the frame of the document. -/
def Ty.Ample : (ty : Ty PortableLeaf) → ty.Rep → Prop
  | .plain leaf, value => leaf.Ample value
  | .string, _ => True
  | .array elem size, values =>
      elem.isConstant = true →
        3 + hexLength size ≤ (List.map (fun value => 2 + elem.surplus value) values).sum
  | .vector _, _ => True
  | .tuple elems, values =>
      elems.allConstant = true → 3 + hexLength elems.length ≤ elems.surplus values
  | .struct _, _ => True

namespace Portable

theorem length_hexText (number : Nat) : (hexText number).length = hexLength number := by
  rw [hexText, length_map, length_cons, hexLength]
  by_cases small : number < 16
  · rw [Nat.div_eq_of_lt small, Nat.digits_zero, Nat.log_of_lt small]
    rfl
  · have large := Nat.not_lt.mp small
    have quotient : number / 16 ≠ 0 := (Nat.div_pos large (by decide)).ne'
    have logPos : 0 < Nat.log 16 number := Nat.log_pos (by decide) large
    rw [Nat.length_digits 16 _ (by decide) quotient, Nat.log_div_base]
    omega

theorem hexLength_le_iff {number digits : Nat} (positive : 0 < digits) :
    hexLength number ≤ digits ↔ number < 16 ^ digits := by
  unfold hexLength
  constructor
  · intro short
    exact Nat.lt_pow_of_log_lt (by decide) short
  · intro small
    by_cases zero : number = 0
    · rw [zero, Nat.log_zero_right]
      exact positive
    · exact Nat.log_lt_of_lt_pow zero small

theorem hexLength_pos (number : Nat) : 0 < hexLength number :=
  Nat.succ_pos _

theorem hexLength_le_succ (number : Nat) : hexLength number ≤ number + 1 :=
  Nat.succ_le_succ (Nat.log_le_self 16 number)

theorem length_signedText {width : Nat} (value : BitVec width) :
    (signedText value).length = hexLength (magnitude value).toNat + 1 := by
  rw [signedText, length_cons, length_hexText]

theorem length_sizeText {size : Nat} (fits : size < spanSizeLimit) :
    (sizeText size).length = hexLength size + 1 := by
  rw [sizeText, length_signedText, magnitude_size fits]

theorem length_floatText {type : FloatType} (value : type.Floating) :
    (floatText value).length = hexLength (FloatType.decompose value).fraction.toNat +
      hexLength (magnitude (FloatType.decompose value).exponent).toNat + 2 := by
  rw [floatText, length_append, length_cons, length_hexText, length_signedText]
  omega

/-- The text of a plain value and what it leaves make up the size of the type. -/
theorem length_leafText (leaf : PortableLeaf) (value : Leaf.Rep leaf) :
    ((leafText leaf value).length : Int) + 1 + leaf.surplus value = leaf.bufferSize := by
  cases leaf with
  | scalar type =>
      cases type with
      | bool => cases value <;> rfl
      | int width =>
          have length := length_signedText (value : BitVec width.bits)
          simp only [leafText, scalarText, surplus]
          rw [length]
          omega
      | uint width =>
          have length := length_hexText (BitVec.toNat (value : BitVec width.bits))
          simp only [leafText, scalarText, surplus]
          rw [length]
          omega
  | floating type =>
      have length := length_floatText (value : type.Floating)
      simp only [leafText, surplus]
      rw [length]
      omega
  | identifier =>
      simp only [leafText, surplus, bufferSize]
      omega

theorem length_countText (bracket : Char) (count : Nat) :
    (countText bracket count).length = (sizeText count).length + 2 := by
  rw [countText, length_append, length_cons]
  rfl

theorem length_stringText {str : Block} (fits : str.length < spanSizeLimit) :
    (stringText str).length = hexLength str.length + str.length + 4 := by
  rw [stringText, length_append, length_append, length_cons, length_cons,
    length_sizeText fits, length_singleton]
  omega

/-- A frame of a list or a structure takes the text of the count and three
characters. -/
theorem length_framed (bracket : Char) (count : Nat) (elems : Payload UInt8) (last : UInt8) :
    (Payload.exact (countText bracket count) ++ elems ++ Payload.exact [last]).length =
      (sizeText count).length + 3 + elems.length := by
  rw [Payload.length_append, Payload.length_append, Payload.length_exact, length_countText,
    Payload.length_exact, length_singleton]
  omega

theorem length_concat_surplus {α : Type} {encode : α → Payload UInt8} {surplus : α → Int}
    {size : Nat} (values : List α)
    (each : ∀ value ∈ values, ((encode value).length : Int) + surplus value = size) :
    ((Payload.concat (values.map fun value => encode value)).length : Int) +
      (values.map fun value => 2 + surplus value).sum = (2 + size) * values.length := by
  induction values with
  | nil => rw [length_nil, Nat.cast_zero, Int.mul_zero]; rfl
  | cons value values ih =>
      have headEq := each value mem_cons_self
      have tailEq := ih fun other mem => each other (mem_cons_of_mem value mem)
      rw [map_cons, map_cons, sum_cons, Payload.concat_cons,
        Payload.length_append, length_cons]
      push_cast
      rw [Int.mul_add, ← tailEq]
      omega

mutual

/-- The serialized form of a value and what it leaves make up the size of the
type. -/
theorem Ty.length_encode : (ty : Ty PortableLeaf) → ty.Buffered → (value : ty.Rep) →
    ty.Holds value → ((format.encode ty value).length : Int) + ty.surplus value = ty.bufferSize
  | .plain leaf, _, value, _ => by
      have lengthEq := length_leafText leaf value
      have encodeEq : (format.encode (.plain leaf) value).length =
          (leafText leaf value).length + 1 := length_append
      rw [encodeEq]
      exact_mod_cast lengthEq
  | .string, _, str, holds => by
      have encodeEq : (format.encode .string str).length = (stringText str).length + 1 :=
        length_append
      rw [encodeEq, length_stringText holds.1, Ty.surplus, Ty.bufferSize]
      push_cast
      omega
  | .array elem size, buffered, values, holds => by
      have elemsEq := length_concat_surplus values
        fun value mem => Ty.length_encode elem buffered value (holds.2.2 value mem)
      have sizeEq : List.length values = size := holds.1
      have textEq := length_sizeText (sizeEq ▸ holds.2.1)
      rw [sizeEq] at elemsEq
      have framed := length_framed '[' size
        (.concat (List.map (fun value => format.encode elem value) values)) (byteOf ']')
      rw [textEq] at framed
      have encodeEq : (format.encode (.array elem size) values).length = _ := framed
      rw [encodeEq, Ty.surplus, Ty.bufferSize]
      push_cast
      omega
  | .vector _, buffered, _, _ => buffered.elim
  | .tuple elems, buffered, values, holds => by
      have elemsEq := Elems.length_encode elems buffered values holds.2
      have framed := length_framed '[' elems.length (format.encodeElems elems values) (byteOf ']')
      rw [length_sizeText holds.1] at framed
      have encodeEq : (format.encode (.tuple elems) values).length = _ := framed
      rw [encodeEq, Ty.surplus, Ty.bufferSize]
      push_cast
      omega
  | .struct members, buffered, values, holds => by
      have membersEq := Members.length_encode members buffered values holds.2
      have framed := length_framed '\x7b' members.length (format.encodeMembers members values)
        (byteOf '\x7d')
      rw [length_sizeText holds.1] at framed
      have encodeEq : (format.encode (.struct members) values).length = _ := framed
      rw [encodeEq, Ty.surplus, Ty.bufferSize, ← membersEq]
      push_cast
      omega

theorem Elems.length_encode : (elems : Elems PortableLeaf) → elems.Buffered →
    (values : elems.Rep) → elems.Holds values →
    ((format.encodeElems elems values).length : Int) + elems.surplus values = elems.bufferSize
  | .nil, _, _, _ => rfl
  | .cons head tail, buffered, (value, values), holds => by
      have headEq := Ty.length_encode head buffered.1 value holds.1
      have tailEq := Elems.length_encode tail buffered.2 values holds.2
      rw [Format.encodeElems, Payload.length_append, Elems.surplus, Elems.bufferSize]
      push_cast
      omega

theorem Members.length_encode : (members : Members PortableLeaf) → members.Buffered →
    (values : members.Rep) → members.Holds values →
    ((format.encodeMembers members values).length : Int) = members.extent values
  | .nil, _, _, _ => rfl
  | .cons name head tail, buffered, (value, values), holds => by
      have headEq := Ty.length_encode head buffered.1 value holds.1
      have tailEq := Members.length_encode tail buffered.2 values holds.2
      have nameEq : (format.beginMember name).length = name.length + 1 := length_append
      rw [Format.encodeMembers, Payload.length_append, Payload.length_append,
        Payload.length_exact, nameEq, Members.extent, ← tailEq]
      push_cast
      omega

end

theorem hexLength_le_of_lt {number digits : Nat} (positive : 0 < digits)
    (small : number < 16 ^ digits) : hexLength number ≤ digits :=
  (hexLength_le_iff positive).mpr small

theorem hexLength_toNat_le {width digits : Nat} (positive : 0 < digits)
    (wide : 2 ^ width ≤ 16 ^ digits) (value : BitVec width) : hexLength value.toNat ≤ digits :=
  hexLength_le_of_lt positive (lt_of_lt_of_le value.isLt wide)

theorem hexLength_bits_le (width : IntWidth) (value : BitVec width.bits) :
    hexLength value.toNat ≤ width.bits / 4 := by
  apply hexLength_toNat_le
  · cases width <;> decide
  · cases width <;> decide

theorem three_le_surplus_floating {type : FloatType} (value : type.Floating) :
    3 ≤ (PortableLeaf.floating type).surplus value := by
  have fractionDigits : hexLength (FloatType.decompose value).fraction.toNat ≤ type.width / 4 := by
    cases type <;> exact hexLength_toNat_le (by decide) (by decide) _
  have exponentDigits : hexLength (magnitude (FloatType.decompose value).exponent).toNat ≤
      type.exponentWidth / 4 := by
    cases type <;> exact hexLength_toNat_le (by decide) (by decide) _
  have sizes : type.width / 4 + type.exponentWidth / 4 + 6 ≤ bufferSize (.floating type) := by
    cases type <;> decide
  simp only [surplus]
  omega

/-- A text takes at most ten characters more than the size of the type. -/
theorem neg_ten_le_surplus (leaf : PortableLeaf) (value : Leaf.Rep leaf) :
    -10 ≤ leaf.surplus value := by
  cases leaf with
  | scalar type =>
      cases type with
      | bool => exact (by decide : (-10 : Int) ≤ 6)
      | int width =>
          have digits := hexLength_bits_le width (magnitude value)
          have sizes : width.bits / 4 ≤ (scalar (.int width)).bufferSize + 8 := by
            cases width <;> decide
          simp only [surplus]
          omega
      | uint width =>
          have digits := hexLength_bits_le width value
          have sizes : width.bits / 4 ≤ (scalar (.uint width)).bufferSize + 8 := by
            cases width <;> decide
          simp only [surplus]
          omega
  | floating type =>
      have leaves := three_le_surplus_floating (value : type.Floating)
      omega
  | identifier =>
      have short := Identifier.length_name_le value
      unfold identifierMaxLength at short
      simp only [surplus]
      omega

theorem length_concat_le {α : Type} {encode : α → Payload UInt8} {size : α → Nat}
    (values : List α) (each : Each (fun value => (encode value).length + 3 ≤ size value) values) :
    (Payload.concat (values.map fun value => encode value)).length + values.length ≤
      (values.map fun value => 2 + size value).sum := by
  induction values with
  | nil => exact Nat.le_refl 0
  | cons value values ih =>
      have headLe := each value mem_cons_self
      have tailLe := ih fun other mem => each other (mem_cons_of_mem value mem)
      rw [map_cons, map_cons, sum_cons, Payload.concat_cons,
        Payload.length_append, length_cons]
      omega

mutual

/-- The computed size has room for the name, the value and three characters. -/
theorem Ty.length_encode_le : (ty : Ty PortableLeaf) → ty.Buffered → (value : ty.Rep) →
    ty.Holds value → ty.StringsBelow (2 ^ 24) value → (name : Block) →
    name.length + (format.encode ty value).length + 3 ≤ ty.getBufferSize name value
  | .plain leaf, buffered, value, holds, _, name => by
      have lengthEq := Ty.length_encode (.plain leaf) buffered value holds
      have atLeast := neg_ten_le_surplus leaf value
      rw [Ty.surplus, Ty.bufferSize] at lengthEq
      rw [Ty.getBufferSize]
      omega
  | .string, _, str, holds, short, name => by
      have digits : hexLength (List.length str) ≤ 6 := hexLength_le_of_lt (by decide) short
      have encodeEq : (format.encode .string str).length = (stringText str).length + 1 :=
        length_append
      rw [encodeEq, length_stringText holds.1, Ty.getBufferSize]
      omega
  | .array elem size, buffered, values, holds, short, name => by
      have each : Each (fun value =>
          (format.encode elem value).length + 3 ≤ elem.getBufferSize [] value) values := by
        intro value mem
        have valueLe := Ty.length_encode_le elem buffered value (holds.2.2 value mem)
          (short value mem) []
        rwa [length_nil, Nat.zero_add] at valueLe
      have elemsLe := length_concat_le values each
      have sizeEq : List.length values = size := holds.1
      have digits := hexLength_le_succ size
      have framed := length_framed '[' size
        (.concat (List.map (fun value => format.encode elem value) values)) (byteOf ']')
      rw [length_sizeText (sizeEq ▸ holds.2.1)] at framed
      have encodeEq : (format.encode (.array elem size) values).length = _ := framed
      rw [encodeEq, Ty.getBufferSize]
      omega
  | .vector _, buffered, _, _, _, _ => buffered.elim
  | .tuple elems, buffered, values, holds, short, name => by
      have elemsLe := Elems.length_encode_le elems buffered values holds.2 short
      have framed := length_framed '[' elems.length (format.encodeElems elems values) (byteOf ']')
      have digits := hexLength_le_succ elems.length
      rw [length_sizeText holds.1] at framed
      have encodeEq : (format.encode (.tuple elems) values).length = _ := framed
      rw [encodeEq, Ty.getBufferSize]
      omega
  | .struct members, buffered, values, holds, short, name => by
      have membersLe := Members.length_encode_le members buffered values holds.2 short
      have framed := length_framed '\x7b' members.length (format.encodeMembers members values)
        (byteOf '\x7d')
      have digits := hexLength_le_succ members.length
      rw [length_sizeText holds.1] at framed
      have encodeEq : (format.encode (.struct members) values).length = _ := framed
      rw [encodeEq, Ty.getBufferSize]
      omega

theorem Elems.length_encode_le : (elems : Elems PortableLeaf) → elems.Buffered →
    (values : elems.Rep) → elems.Holds values → elems.StringsBelow (2 ^ 24) values →
    (format.encodeElems elems values).length + elems.length ≤ elems.getBufferSize values
  | .nil, _, _, _, _ => Nat.le_refl 0
  | .cons head tail, buffered, (value, values), holds, short => by
      have headLe := Ty.length_encode_le head buffered.1 value holds.1 short.1 []
      have tailLe := Elems.length_encode_le tail buffered.2 values holds.2 short.2
      rw [Format.encodeElems, Payload.length_append, Elems.getBufferSize, Elems.length]
      omega

theorem Members.length_encode_le : (members : Members PortableLeaf) → members.Buffered →
    (values : members.Rep) → members.Holds values → members.StringsBelow (2 ^ 24) values →
    (format.encodeMembers members values).length + members.length ≤
      members.getBufferSize values
  | .nil, _, _, _, _ => Nat.le_refl 0
  | .cons name head tail, buffered, (value, values), holds, short => by
      have headLe := Ty.length_encode_le head buffered.1 value holds.1 short.1 name
      have tailLe := Members.length_encode_le tail buffered.2 values holds.2 short.2
      have nameEq : (format.beginMember name).length = name.length + 1 := length_append
      rw [Format.encodeMembers, Payload.length_append, Payload.length_append,
        Payload.length_exact, nameEq, Members.getBufferSize, Members.length]
      omega

end

theorem three_le_surplus_int (width : IntWidth) (number : Nat)
    (digits : hexLength number ≤ width.bits / 4) :
    (3 : Int) ≤ (scalar (.int width)).bufferSize - 2 - hexLength number ↔
      width.AmpleSigned number := by
  have positive := hexLength_pos number
  cases width with
  | w8 =>
      apply iff_of_false _ id
      simp only [bufferSize]
      omega
  | w16 =>
      have digitsIff : hexLength number ≤ 1 ↔ number < 16 := hexLength_le_iff (by decide)
      simp only [bufferSize, IntWidth.AmpleSigned, ← digitsIff]
      omega
  | w32 =>
      have digitsIff : hexLength number ≤ 7 ↔ number < 16 ^ 7 := hexLength_le_iff (by decide)
      simp only [bufferSize, IntWidth.AmpleSigned, ← digitsIff]
      omega
  | w64 =>
      apply iff_of_true _ trivial
      simp only [bufferSize]
      simp only [IntWidth.bits] at digits
      omega

theorem three_le_surplus_uint (width : IntWidth) (number : Nat)
    (digits : hexLength number ≤ width.bits / 4) :
    (3 : Int) ≤ (scalar (.uint width)).bufferSize - 1 - hexLength number ↔
      width.AmpleUnsigned number := by
  have positive := hexLength_pos number
  cases width with
  | w8 =>
      apply iff_of_false _ id
      simp only [bufferSize]
      omega
  | w16 =>
      have digitsIff : hexLength number ≤ 2 ↔ number < 16 ^ 2 := hexLength_le_iff (by decide)
      simp only [bufferSize, IntWidth.AmpleUnsigned, ← digitsIff]
      omega
  | w32 =>
      apply iff_of_true _ trivial
      simp only [bufferSize]
      simp only [IntWidth.bits] at digits
      omega
  | w64 =>
      apply iff_of_true _ trivial
      simp only [bufferSize]
      simp only [IntWidth.bits] at digits
      omega

theorem three_le_surplus_iff (leaf : PortableLeaf) (value : Leaf.Rep leaf) :
    3 ≤ leaf.surplus value ↔ leaf.Ample value := by
  cases leaf with
  | scalar type =>
      cases type with
      | bool => exact iff_of_true (by decide : (3 : Int) ≤ 6) trivial
      | int width =>
          exact three_le_surplus_int width _ (hexLength_bits_le width (magnitude value))
      | uint width => exact three_le_surplus_uint width _ (hexLength_bits_le width value)
  | floating type => exact iff_of_true (three_le_surplus_floating (value : type.Floating)) trivial
  | identifier =>
      simp only [surplus, PortableLeaf.Ample]
      omega

/-- The surplus of a type of constant size pays for the frame exactly for the
ample values. -/
theorem Ty.three_le_surplus_iff (ty : Ty PortableLeaf) (constant : ty.isConstant = true)
    (value : ty.Rep) : 3 ≤ ty.surplus value ↔ ty.Ample value := by
  cases ty with
  | plain leaf => exact Portable.three_le_surplus_iff leaf value
  | string => exact Bool.noConfusion constant
  | array elem size =>
      have elemConstant : elem.isConstant = true := constant
      simp only [Ty.surplus, Ty.Ample, elemConstant, true_implies]
      omega
  | vector elem => exact Bool.noConfusion constant
  | tuple elems =>
      have elemsConstant : elems.allConstant = true := constant
      simp only [Ty.surplus, Ty.Ample, elemsConstant, true_implies]
      omega
  | struct members => exact Bool.noConfusion constant

theorem Ty.ample_of_computed (ty : Ty PortableLeaf) (computed : ¬ty.isConstant = true)
    (value : ty.Rep) : ty.Ample value := by
  cases ty with
  | plain leaf => exact absurd rfl computed
  | string => trivial
  | array elem size => exact fun constant => absurd constant computed
  | vector elem => trivial
  | tuple elems => exact fun constant => absurd constant computed
  | struct members => trivial

theorem length_document (ty : Ty PortableLeaf) (value : ty.Rep) :
    (format.document ty value).length = (format.encode ty value).length + 3 := by
  have beginLength : (Payload.exact format.begin).length = 1 := rfl
  have finishLength : (Payload.exact format.finish).length = 2 := rfl
  rw [Format.document, Payload.length_append, Payload.length_append, beginLength, finishLength]
  omega

/-- A value is serialized into its buffer without an error exactly when it is
one of the ample values of its type. -/
theorem serializeBufferFor_sufficient_iff (ty : Ty PortableLeaf) (buffered : ty.Buffered)
    (value : Value ty) (short : ty.StringsBelow (2 ^ 24) value.rep) :
    (Serializer.serialize serializer ty value.rep
        (.ofSize (serializeBufferFor ty value.rep))).1 = ∅ ↔ ty.Ample value.rep := by
  have emits := Serializer.serialize_emits writtenBy ty value.rep
  have needEq : (format.document ty value.rep).need = (format.document ty value.rep).length := by
    rw [Payload.need, Format.document_loose (fun _ => rfl), Nat.sub_zero]
  rw [emits.errors_eq_empty_iff, needEq, length_document, BlockDataSink.remainingSize_ofSize,
    serializeBufferFor]
  have lengthEq := Ty.length_encode ty buffered value.rep value.holds
  split
  · rename_i constant
    rw [← Ty.three_le_surplus_iff ty constant]
    omega
  · rename_i computed
    have lengthLe := Ty.length_encode_le ty buffered value.rep value.holds short []
    rw [length_nil, Nat.zero_add] at lengthLe
    exact iff_of_true lengthLe (Ty.ample_of_computed ty computed value.rep)

/-- An array of two tuples of an integer and a truth value. -/
def pairsType : Ty PortableLeaf :=
  .array (.tuple (.cons (.plain (.scalar (.int .w32))) (.cons (.plain (.scalar .bool)) .nil))) 2

def pairsValue : Value pairsType where
  rep := [(7#32, true, ()), (0xFFFFFFF9#32, false, ())]
  holds := by
    refine ⟨rfl, by decide, ?_⟩
    intro pair _
    exact ⟨by decide, trivial, trivial, trivial⟩

theorem serializeBufferFor_pairs :
    (Serializer.serialize serializer pairsType pairsValue.rep
        (.ofSize (serializeBufferFor pairsType pairsValue.rep))).1 = ∅ ↔
      pairsType.Ample pairsValue.rep :=
  serializeBufferFor_sufficient_iff pairsType ⟨trivial, trivial, trivial⟩ pairsValue
    (fun _ _ => ⟨trivial, trivial, trivial⟩)

/-- The four bytes for a `byte` have no room for the frame, the digit and the
delimiter. -/
theorem serializeBufferFor_byte_too_small :
    (Serializer.serialize serializer (.plain (.scalar (.uint .w8))) (0 : BitVec 8)
        (.ofSize (serializeBufferFor (.plain (.scalar (.uint .w8))) (0 : BitVec 8)))).1 ≠ ∅ := by
  decide

end Portable

end Eagine.Serialization
