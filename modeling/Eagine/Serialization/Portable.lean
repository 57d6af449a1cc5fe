import Eagine.Serialization.FloatUtils
import Eagine.Serialization.HexText
import Eagine.Serialization.RoundTrip
import Mathlib.Data.List.TakeWhile

/-!
# The portable serializer backend

The cross-platform text format, and the backend that writes it.  Every plain value and
every string ends with a semicolon, counts are signed hexadecimal numbers, and strings
carry their length, so that they may contain any delimiter.
-/

namespace Eagine.Serialization

open Theory BlockDataSink

/-- The characters an identifier can be made of. -/
def identifierChars : List Char :=
  "_etaoinsrhldcumfpgwybvkxjqzTAISOWHBCMFPDRLEGNYUKVJQXZ0123456789".toList

def isIdentifierChar (char : UInt8) : Bool :=
  (identifierChars.map byteOf).contains char

/-- The maximum length of an identifier. -/
def identifierMaxLength : Nat :=
  10

/-- The identifier of this name is encoded as zero, like the empty one. -/
def zeroEncodedName : Block :=
  List.replicate identifierMaxLength (byteOf '_')

/-- The unpacked name of the identifier constructed from the characters. -/
def identifierNameOf (src : Block) : Block :=
  let encodable := (src.take identifierMaxLength).takeWhile isIdentifierChar
  if encodable = zeroEncodedName then [] else encodable

/-- An identifier, by its unpacked name. -/
structure Identifier where
  name : Block
  canonical : identifierNameOf name = name
deriving DecidableEq

theorem length_identifierNameOf_le (src : Block) :
    (identifierNameOf src).length ≤ identifierMaxLength := by
  by_cases zero :
      (src.take identifierMaxLength).takeWhile isIdentifierChar = zeroEncodedName
  · simp [identifierNameOf, zero]
  · simp only [identifierNameOf, zero, if_false]
    exact (List.takeWhile_prefix _).length_le.trans (List.length_take_le _ _)

theorem identifierNameOf_identifierNameOf (src : Block) :
    identifierNameOf (identifierNameOf src) = identifierNameOf src := by
  by_cases zero :
      (src.take identifierMaxLength).takeWhile isIdentifierChar = zeroEncodedName
  · simp [identifierNameOf, zero]
  · have nameEq : identifierNameOf src =
        (src.take identifierMaxLength).takeWhile isIdentifierChar := by
      simp only [identifierNameOf, zero, if_false]
    have short := length_identifierNameOf_le src
    rw [nameEq] at short ⊢
    simp [identifierNameOf, List.take_of_length_le short, List.takeWhile_takeWhile, zero]

def Identifier.ofChars (src : Block) : Identifier :=
  ⟨identifierNameOf src, identifierNameOf_identifierNameOf src⟩

theorem Identifier.length_name_le (id : Identifier) : id.name.length ≤ identifierMaxLength :=
  id.canonical ▸ length_identifierNameOf_le id.name

theorem Identifier.ofChars_name (id : Identifier) : Identifier.ofChars id.name = id := by
  rcases id with ⟨name, canonical⟩
  simp only [Identifier.ofChars, canonical]

theorem isIdentifierChar_of_mem {src : Block} {byte : UInt8}
    (within : byte ∈ identifierNameOf src) : isIdentifierChar byte = true := by
  rw [identifierNameOf] at within
  split at within
  · exact absurd within List.not_mem_nil
  · exact (List.mem_takeWhile_imp within : _)

inductive PortableLeaf where
  | scalar (type : Scalar)
  | floating (type : FloatType)
  | identifier
deriving DecidableEq

instance : Leaf PortableLeaf where
  Rep
    | .scalar type => Leaf.Rep type
    | .floating type => type.Floating
    | .identifier => Identifier
  zero
    | .scalar type => Leaf.zero type
    | .floating _ => .zero false
    | .identifier => .ofChars []

/-- Booleans and unsigned integers. -/
def PortableLeaf.IsUnsigned : PortableLeaf → Prop
  | .scalar type => type.IsUnsigned
  | .floating _ => False
  | .identifier => False

namespace Portable

/-- `_write_one` of a size. -/
def sizeWrite (size : Nat) : SinkM SerializationErrors :=
  signedWrite (BitVec.ofNat 64 size)

/-- The delimiter between the fraction and the exponent. -/
def graveAccent : UInt8 :=
  96

def floatWrite {type : FloatType} (value : type.Floating) : SinkM SerializationErrors := do
  let parts := FloatType.decompose value
  let errors ← unsignedWrite parts.fraction
  let delimited ← write [graveAccent]
  let more ← signedWrite parts.exponent
  pure (errors ||| delimited ||| more)

def scalarWrite : (type : Scalar) → Leaf.Rep type → SinkM SerializationErrors
  | .bool, true => write [byteOf 'T']
  | .bool, false => write [byteOf 'U']
  | .int _, value => signedWrite value
  | .uint _, value => unsignedWrite value

/-- `_write_one` of a plain value. -/
def writeOne : (leaf : PortableLeaf) → Leaf.Rep leaf → SinkM SerializationErrors
  | .scalar type, value => scalarWrite type value
  | .floating _, value => floatWrite value
  | .identifier, id => write (Identifier.name id)

/-- `_write_one` of a string. -/
def stringWriteOne (str : Block) : SinkM SerializationErrors := do
  let opened ← write [byteOf '\x22']
  let sized ← sizeWrite str.length
  let delimited ← write [byteOf '|']
  let stored ← write str
  let closed ← write [byteOf '\x22']
  pure (opened ||| sized ||| delimited ||| stored ||| closed)

/-- The loop of `do_write`, with the number of values done so far. -/
def doWriteFrom {α : Type} (writeOne : α → SinkM SerializationErrors) :
    Nat → List α → SinkM (SerializationErrors × Nat)
  | done, [] => pure (∅, done)
  | done, value :: values => do
      let written ← writeOne value
      let delimited ← write [byteOf ';']
      let errors := written ||| delimited
      if errors.isEmpty then
        doWriteFrom writeOne (done + 1) values
      else
        pure (errors, done)

def doWrite {α : Type} (writeOne : α → SinkM SerializationErrors) (values : List α) :
    SinkM (SerializationErrors × Nat) :=
  doWriteFrom writeOne 0 values

/-- `begin_struct` and `begin_list`: a bracket and a count. -/
def beginCount (bracket : Char) (count : Nat) : SinkM SerializationErrors := do
  let opened ← write [byteOf bracket]
  let counted ← sizeWrite count
  let delimited ← write [byteOf '|']
  pure (opened ||| counted ||| delimited)

def beginMember (name : Block) : SinkM SerializationErrors := do
  let named ← write name
  let delimited ← write [byteOf ':']
  pure (named ||| delimited)

/-- `portable_serializer_backend`. -/
def serializer : SerializerBackend PortableLeaf where
  begin := write [byteOf '<']
  write leaf := doWrite (writeOne leaf)
  writeStrings := doWrite stringWriteOne
  beginStruct := beginCount '\x7b'
  beginMember := beginMember
  finishMember _ := pure ∅
  finishStruct := write [byteOf '\x7d']
  beginList := beginCount '['
  beginElement _ := pure ∅
  finishElement _ := pure ∅
  finishList := write [byteOf ']']
  finish := write [byteOf '>', 0]

def sizeText (size : Nat) : Block :=
  signedText (BitVec.ofNat 64 size)

def floatText {type : FloatType} (value : type.Floating) : Block :=
  hexText (FloatType.decompose value).fraction.toNat ++
    graveAccent :: signedText (FloatType.decompose value).exponent

def scalarText : (type : Scalar) → Leaf.Rep type → Block
  | .bool, true => [byteOf 'T']
  | .bool, false => [byteOf 'U']
  | .int _, value => signedText value
  | .uint _, value => hexText (BitVec.toNat value)

/-- A plain value without its delimiter. -/
def leafText : (leaf : PortableLeaf) → Leaf.Rep leaf → Block
  | .scalar type, value => scalarText type value
  | .floating _, value => floatText value
  | .identifier, id => Identifier.name id

/-- A string without its delimiter. -/
def stringText (str : Block) : Block :=
  byteOf '\x22' :: sizeText str.length ++ byteOf '|' :: str ++ [byteOf '\x22']

def countText (bracket : Char) (count : Nat) : Block :=
  byteOf bracket :: sizeText count ++ [byteOf '|']

/-- The portable format. -/
def format : Format PortableLeaf where
  begin := [byteOf '<']
  leaf leaf value := leafText leaf value ++ [byteOf ';']
  string str := .exact (stringText str ++ [byteOf ';'])
  beginStruct := countText '\x7b'
  beginMember name := name ++ [byteOf ':']
  finishStruct := [byteOf '\x7d']
  beginList := countText '['
  finishList := [byteOf ']']
  finish := [byteOf '>', 0]

theorem sizeWrite_eq (size : Nat) : sizeWrite size = write (sizeText size) :=
  signedWrite_eq (by decide) _

/-- A size is the magnitude of its representation. -/
theorem magnitude_size {size : Nat} (fits : size < spanSizeLimit) :
    (magnitude (BitVec.ofNat 64 size)).toNat = size := by
  have positive : (BitVec.ofNat 64 size).msb = false := by
    rw [BitVec.msb_eq_toInt, toInt_ofNat fits]
    simp
  unfold spanSizeLimit at fits
  rw [magnitude, positive, if_neg Bool.false_ne_true, BitVec.toNat_ofNat, Nat.mod_eq_of_lt]
  omega

theorem floatWrite_eq {type : FloatType} (value : type.Floating) :
    floatWrite value = write (floatText value) := by
  have fractionWide : 4 ≤ type.width := by cases type <;> decide
  have exponentWide : 4 ≤ type.exponentWidth := by cases type <;> decide
  have textEq : floatText value = hexText (FloatType.decompose value).fraction.toNat ++
      [graveAccent] ++ signedText (FloatType.decompose value).exponent := by
    simp [floatText]
  rw [textEq, ← write_write, ← write_write]
  simp [floatWrite, unsignedWrite_eq fractionWide, signedWrite_eq exponentWide]

theorem four_le_bits (width : IntWidth) : 4 ≤ width.bits := by
  cases width <;> decide

theorem scalarWrite_eq (type : Scalar) (value : Leaf.Rep type) :
    scalarWrite type value = write (scalarText type value) := by
  cases type with
  | bool => cases value <;> rfl
  | int width => exact signedWrite_eq (four_le_bits width) value
  | uint width => exact unsignedWrite_eq (four_le_bits width) value

theorem writeOne_eq (leaf : PortableLeaf) (value : Leaf.Rep leaf) :
    writeOne leaf value = write (leafText leaf value) := by
  cases leaf with
  | scalar type => exact scalarWrite_eq type value
  | floating type => exact floatWrite_eq (value : type.Floating)
  | identifier => rfl

theorem stringWriteOne_eq (str : Block) :
    stringWriteOne str = write (stringText str) := by
  have textEq : stringText str =
      [byteOf '\x22'] ++ sizeText str.length ++ [byteOf '|'] ++ str ++ [byteOf '\x22'] := by
    simp [stringText]
  rw [textEq, ← write_write, ← write_write,
    ← write_write, ← write_write]
  simp [stringWriteOne, sizeWrite_eq]

theorem beginCount_eq (bracket : Char) (count : Nat) :
    beginCount bracket count = write (countText bracket count) := by
  have textEq : countText bracket count =
      [byteOf bracket] ++ sizeText count ++ [byteOf '|'] := by
    simp [countText]
  rw [textEq, ← write_write, ← write_write]
  simp [beginCount, sizeWrite_eq]

theorem beginMember_eq (name : Block) :
    beginMember name = write (name ++ [byteOf ':']) :=
  write_write _ _

/-- The number of leading items that fit completely into the room. -/
def fitting : Nat → List Block → Nat
  | _, [] => 0
  | room, item :: items =>
      if item.length ≤ room then fitting (room - item.length) items + 1 else 0

/-- The values of a list are written in a row; those done are the ones whose
delimiter is written, too. -/
theorem doWriteFrom_apply {α : Type} {writeOne : α → SinkM SerializationErrors}
    {text : α → Block} (writeOneEq : ∀ value, writeOne value = write (text value))
    (values : List α) (done : Nat) (sink : BlockDataSink) :
    doWriteFrom writeOne done values sink =
      let items := values.map fun value => text value ++ [byteOf ';']
      ((if sink.remainingSize < items.flatten.length then incomplete else ∅,
        done + fitting sink.remainingSize items), sink.store items.flatten) := by
  induction values generalizing done sink with
  | nil => simp [doWriteFrom, fitting]
  | cons value values ih =>
      have step : doWriteFrom writeOne done (value :: values) =
          write (text value ++ [byteOf ';']) >>= fun errors =>
            if errors.isEmpty then doWriteFrom writeOne (done + 1) values
            else pure (errors, done) := by
        rw [← write_write, ← writeOneEq]
        rfl
      rw [step, sink_bind_apply, write_apply, List.map_cons]
      generalize text value ++ [byteOf ';'] = item
      generalize itemsEq : (values.map fun value => text value ++ [byteOf ';']) = items at ih
      dsimp only at ih ⊢
      rw [List.flatten_cons, List.length_append, fitting]
      by_cases tooSmall : sink.remainingSize < item.length
      · rw [if_pos tooSmall, if_pos (Nat.lt_add_right _ tooSmall),
          if_neg (Nat.not_le.mpr tooSmall), store_append_of_full tooSmall.le]
        simp
      · have sameRoom : sink.remainingSize - item.length < items.flatten.length ↔
            sink.remainingSize < item.length + items.flatten.length := by omega
        rw [if_neg tooSmall, if_pos (Nat.not_lt.mp tooSmall)]
        simp only [(Bitfield.isEmpty_iff _).mpr rfl, if_true, ih, sameRoom,
          remainingSize_store, store_store, Nat.add_assoc,
          Nat.add_comm 1]

/-- Values in a row are one block. -/
theorem doWrite_eq {α : Type} {writeOne : α → SinkM SerializationErrors} {text : α → Block}
    (writeOneEq : ∀ value, writeOne value = write (text value))
    (values : List α) :
    (do
      let result ← doWrite writeOne values
      pure result.1) =
      write (values.flatMap fun value => text value ++ [byteOf ';']) := by
  funext sink
  have applied := doWriteFrom_apply writeOneEq values 0 sink
  simp only [doWrite, sink_bind_apply, sink_pure_apply, applied, write_apply,
    List.flatMap_def]

theorem plainWrite_eq (leaf : PortableLeaf) (values : List (Leaf.Rep leaf)) :
    Serializer.plainWrite serializer leaf values =
      write (values.flatMap (format.leaf leaf)) :=
  doWrite_eq (writeOne_eq leaf) values

theorem plainWrite_emits (leaf : PortableLeaf) (values : List (Leaf.Rep leaf)) :
    Emits (Serializer.plainWrite serializer leaf values)
      (.exact (values.flatMap (format.leaf leaf))) := by
  rw [plainWrite_eq]
  exact emits_write _

theorem stringWrite_emits (str : Block) :
    Emits (Serializer.stringWrite serializer str) (format.string str) := by
  have emits := emits_write ([str].flatMap fun str => stringText str ++ [byteOf ';'])
  rw [← doWrite_eq stringWriteOne_eq, List.flatMap_singleton] at emits
  exact emits

/-- The serializer backend writes the portable format. -/
theorem writtenBy : format.WrittenBy serializer where
  begin := emits_write _
  write := plainWrite_emits
  string := stringWrite_emits
  beginStruct count := by
    have emits := emits_write (countText '\x7b' count)
    rwa [← beginCount_eq] at emits
  beginMember name := by
    have emits := emits_write (name ++ [byteOf ':'])
    rwa [← beginMember_eq] at emits
  finishMember _ := rfl
  finishStruct := emits_write _
  beginList count := by
    have emits := emits_write (countText '[' count)
    rwa [← beginCount_eq] at emits
  beginElement _ := rfl
  finishElement _ := rfl
  finishList := emits_write _
  finish := emits_write _

end Portable

end Eagine.Serialization

/-!
## Atomicity of list elements

The element loop wraps every element into a transaction of the sink, to be
rolled back where the element does not fit.  The rollback waits for a report of
too much data, but a block sink reports an incomplete write; so the transaction
of the element that does not fit stays open, and what fits of it stays in the
sink.
-/

namespace Eagine.Serialization

open Theory

namespace Serializer

variable {L : Type} [Leaf L] {fmt : Format L} {backend : SerializerBackend L}

/-- A list that does not fit leaves a transaction open. -/
theorem commonWriteFrom_leaks {α : Type} (writtenBy : fmt.WrittenBy backend)
    {writeElem : α → SinkM SerializationErrors} {encodeElem : α → Payload UInt8}
    (emits : ∀ value, Emits (writeElem value) (encodeElem value)) (values : List α)
    (index : Nat) (sink : BlockDataSink)
    (tooSmall : sink.remainingSize < (Payload.concat (values.map encodeElem)).need) :
    ∃ opened, opened ≠ [] ∧
      (commonWriteFrom backend writeElem index ∅ values sink).2.savePoints =
        opened ++ sink.savePoints := by
  induction values generalizing index sink with
  | nil => exact absurd tooSmall (Nat.not_lt_zero _)
  | cons elem rest ih =>
      rw [List.map_cons, Payload.concat_cons] at tooSmall
      rcases Payload.lt_need_of_append tooSmall with elemSmall | ⟨elemRoom, restSmall⟩
      · exact (commonWriteFrom_short writtenBy (emits elem) index rest elemSmall).2
      · have restLeaks := ih (index + 1) (sink.store (encodeElem elem).elems)
          (by simpa [Payload.length] using restSmall)
        rw [commonWriteFrom_fit writtenBy (emits elem) index rest elemRoom]
        exact restLeaks

end Serializer

namespace Portable

/-- After the write of a list the sink holds what it held before and complete
encodings of leading elements, and has as many open transactions as before. -/
def WritesElementsAtomically (ty : Ty PortableLeaf) (values : List ty.Rep)
    (sink : BlockDataSink) : Prop :=
  let after := (Serializer.commonWrite serializer (Serializer.write serializer ty) values sink).2
  (∃ done, done <+: values ∧
    after.written = sink.written ++ (format.encodeSpan ty done).elems) ∧
    after.savePoints.length = sink.savePoints.length

theorem need_encodeSpan (ty : Ty PortableLeaf) (values : List ty.Rep) :
    (format.encodeSpan ty values).need = (format.encodeSpan ty values).length := by
  have firm : (format.encodeSpan ty values).loose = 0 := by
    apply Payload.loose_concat
    intro payload mem
    rcases List.mem_map.mp mem with ⟨value, _, rfl⟩
    exact Format.encode_loose (fun _ => rfl) ty value
  rw [Payload.need, firm, Nat.sub_zero]

/-- The elements are written atomically exactly when all of them fit. -/
theorem commonWrite_atomic_iff (ty : Ty PortableLeaf) (values : List ty.Rep)
    (sink : BlockDataSink) :
    WritesElementsAtomically ty values sink ↔
      (format.encodeSpan ty values).length ≤ sink.remainingSize := by
  have elemEmits := Serializer.write_emits writtenBy ty
  constructor
  · rintro ⟨_, balanced⟩
    by_contra notFits
    have tooSmall : sink.remainingSize < (format.encodeSpan ty values).need := by
      rw [need_encodeSpan]
      exact Nat.lt_of_not_le notFits
    rcases Serializer.commonWriteFrom_leaks writtenBy elemEmits values 0 sink tooSmall with
      ⟨opened, nonempty, openedEq⟩
    have openedLength := congrArg List.length openedEq
    rw [List.length_append] at openedLength
    have sameLength := openedLength.symm.trans balanced
    have positive := List.length_pos_of_ne_nil nonempty
    omega
  · intro fits
    have run := (Serializer.commonWrite_emits writtenBy elemEmits values).fit sink (by
      rw [← need_encodeSpan] at fits
      exact fits)
    unfold WritesElementsAtomically
    rw [run]
    exact ⟨⟨values, List.prefix_refl values, BlockDataSink.store_written_of_le fits⟩, rfl⟩

/-- Four bytes of a string stay in the sink, and its transaction stays open. -/
theorem commonWrite_leaves_partial_element :
    ¬WritesElementsAtomically .string [[byteOf 'a']] (.ofSize 4) := by
  rintro ⟨_, balanced⟩
  exact absurd balanced (by decide)

end Portable

end Eagine.Serialization
