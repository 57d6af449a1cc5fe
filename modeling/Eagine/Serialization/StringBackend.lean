import Eagine.Serialization.PrintfText

/-!
# The string backends

A text format for people. Numbers are formatted and scanned by the standard library,
bytes as two hexadecimal digits and all others in decimal; structures and lists have
their counts in front; strings have their length in front and stand in quotes.
-/

namespace Eagine.Serialization

open Theory BlockDataSink

/-- The plain types that the backends have in common with the others, and characters. -/
inductive StringLeaf where
  | char
  | scalar (type : Scalar)
deriving DecidableEq

instance : Leaf StringLeaf where
  Rep
    | .char => UInt8
    | .scalar type => Leaf.Rep type
  zero
    | .char => (0 : UInt8)
    | .scalar type => Leaf.zero type

def StringLeaf.isBool : StringLeaf → Bool
  | .scalar .bool => true
  | _ => false

namespace StringBackend

def textOf (text : String) : Block :=
  text.toList.map byteOf

/-- The text that `_sprintf_one` formats: a byte has a format of its own. -/
def uintText : (width : IntWidth) → BitVec width.bits → Block
  | .w8, value => byteText (.ofBitVec value)
  | .w16, value => numberText value.toNat
  | .w32, value => numberText value.toNat
  | .w64, value => numberText value.toNat

/-- `_write_one` of a size. -/
def sizeWrite (size : Nat) : SinkM SerializationErrors :=
  write (numberText (BitVec.ofNat 64 size).toInt)

def charWrite (value : UInt8) : SinkM SerializationErrors := do
  let opened ← write [byteOf '\'']
  let stored ← write [value]
  let closed ← write [byteOf '\'']
  pure (opened ||| stored ||| closed)

def scalarWrite : (type : Scalar) → Leaf.Rep type → SinkM SerializationErrors
  | .bool, true => write (textOf "true")
  | .bool, false => write (textOf "false")
  | .int _, value => write (numberText (BitVec.toInt value))
  | .uint width, value => write (uintText width value)

/-- `_write_one` of a plain value. -/
def writeOne : (leaf : StringLeaf) → Leaf.Rep leaf → SinkM SerializationErrors
  | .char, value => charWrite value
  | .scalar type, value => scalarWrite type value

/-- `_write_one` of a string. -/
def stringWriteOne (str : Block) : SinkM SerializationErrors := do
  let opened ← write [byteOf '\x22']
  let sized ← sizeWrite str.length
  let delimited ← write [byteOf '|']
  let stored ← write str
  let closed ← write [byteOf '\x22']
  pure (opened ||| sized ||| delimited ||| stored ||| closed)

/-- `begin_struct` and `begin_list`: a bracket and a count. -/
def beginCount (bracket : Char) (count : Nat) : SinkM SerializationErrors := do
  let opened ← write [byteOf bracket]
  let counted ← sizeWrite count
  let delimited ← write [byteOf '|']
  pure (opened ||| counted ||| delimited)

/-- `string_serializer_backend`. Its `do_write` and its member names are those of the
portable backend. -/
def serializer : SerializerBackend StringLeaf where
  begin := write [byteOf '<']
  write leaf := Portable.doWrite (writeOne leaf)
  writeStrings := Portable.doWrite stringWriteOne
  beginStruct := beginCount '\x7b'
  beginMember := Portable.beginMember
  finishMember _ := pure ∅
  finishStruct := write [byteOf '\x7d', byteOf ';']
  beginList := beginCount '['
  beginElement _ := pure ∅
  finishElement _ := pure ∅
  finishList := write [byteOf ']', byteOf ';']
  finish := write [byteOf '>', 0]

/-- `_read_one` of a size that is zero from the start. -/
def sizeRead (delimiter : UInt8) : SourceM (DeserializationErrors × Int) := do
  let (errors, size) ← sscanfOne 10 (0 : BitVec 64) delimiter
  pure (errors, size.toInt)

def boolRead (target : Bool) (delimiter : UInt8) : SourceM (DeserializationErrors × Bool) := do
  let (saysTrue, _) ← consume (textOf "true")
  if saysTrue then
    let errors ← require [delimiter]
    pure (errors, true)
  else
    let (saysFalse, temp) ← consume (textOf "false")
    if saysFalse then
      let errors ← require [delimiter]
      pure (errors, false)
    else
      pure (temp, target)

/-- `_read_one` of a character, whatever it is. -/
def charRead (target : UInt8) (delimiter : UInt8) : SourceM (DeserializationErrors × UInt8) := do
  let errors ← require [byteOf '\'']
  if errors.isEmpty then
    let optChar ← topString 1
    match optChar with
    | value :: _ =>
        popTop 1
        let errors ← require [byteOf '\'', delimiter]
        pure (errors, value)
    | [] => pure (.ofBit .notEnoughData, target)
  else
    pure (errors, target)

/-- The base in which an unsigned integer is formatted. -/
def uintBase : IntWidth → Nat
  | .w8 => 16
  | .w16 => 10
  | .w32 => 10
  | .w64 => 10

def scalarRead : (type : Scalar) → Leaf.Rep type → UInt8 →
    SourceM (DeserializationErrors × Leaf.Rep type)
  | .bool, target, delimiter => boolRead target delimiter
  | .int _, target, delimiter => sscanfOne 10 target delimiter
  | .uint width, target, delimiter => sscanfOne (uintBase width) target delimiter

/-- `_read_one` of a plain value. -/
def readOne : (leaf : StringLeaf) → Leaf.Rep leaf → UInt8 →
    SourceM (DeserializationErrors × Leaf.Rep leaf)
  | .char, target, delimiter => charRead target delimiter
  | .scalar type, target, delimiter => scalarRead type target delimiter

/-- `_read_one` of a string. -/
def stringReadOne : Block → UInt8 → SourceM (DeserializationErrors × Block) :=
  Portable.quotedRead sizeRead

/-- `begin_struct` and `begin_list`: a bracket and a count. -/
def readCount : Char → SourceM (DeserializationErrors × Int) :=
  Portable.bracketRead sizeRead

/-- `string_deserializer_backend`. -/
def deserializer : DeserializerBackend BlockDataSource StringLeaf where
  begin := do
    Portable.skipWhitespaces
    require [byteOf '<']
  read leaf := Portable.doRead (readOne leaf)
  readStrings := Portable.doRead stringReadOne
  beginStruct := readCount '\x7b'
  beginMember := Portable.requireMember
  finishMember _ := pure ∅
  finishStruct := require [byteOf '\x7d', byteOf ';']
  beginList := readCount '['
  beginElement _ := pure ∅
  finishElement _ := pure ∅
  finishList := require [byteOf ']', byteOf ';']
  finish := require [byteOf '>', 0]

def sizeText (size : Nat) : Block :=
  numberText (BitVec.ofNat 64 size).toInt

def scalarText : (type : Scalar) → Leaf.Rep type → Block
  | .bool, true => textOf "true"
  | .bool, false => textOf "false"
  | .int _, value => numberText (BitVec.toInt value)
  | .uint width, value => uintText width value

/-- A plain value without its delimiter. -/
def leafText : (leaf : StringLeaf) → Leaf.Rep leaf → Block
  | .char, (value : UInt8) => [byteOf '\'', value, byteOf '\'']
  | .scalar type, value => scalarText type value

/-- A string without its delimiter. -/
def stringText (str : Block) : Block :=
  byteOf '\x22' :: sizeText str.length ++ byteOf '|' :: str ++ [byteOf '\x22']

def countText (bracket : Char) (count : Nat) : Block :=
  byteOf bracket :: sizeText count ++ [byteOf '|']

/-- The string format. -/
def format : Format StringLeaf where
  begin := [byteOf '<']
  leaf leaf value := leafText leaf value ++ [byteOf ';']
  string str := .exact (stringText str ++ [byteOf ';'])
  beginStruct := countText '\x7b'
  beginMember name := name ++ [byteOf ':']
  finishStruct := [byteOf '\x7d', byteOf ';']
  beginList := countText '['
  finishList := [byteOf ']', byteOf ';']
  finish := [byteOf '>', 0]

theorem charWrite_eq (value : UInt8) :
    charWrite value = write [byteOf '\'', value, byteOf '\''] := by
  have textEq : [byteOf '\'', value, byteOf '\''] =
      [byteOf '\''] ++ [value] ++ [byteOf '\''] := rfl
  rw [textEq, ← write_write, ← write_write]
  simp [charWrite]

theorem writeOne_eq (leaf : StringLeaf) (value : Leaf.Rep leaf) :
    writeOne leaf value = write (leafText leaf value) := by
  cases leaf with
  | char => exact charWrite_eq value
  | scalar type =>
      cases type with
      | bool => cases value <;> rfl
      | int width => rfl
      | uint width => rfl

theorem stringWriteOne_eq (str : Block) :
    stringWriteOne str = write (stringText str) := by
  have textEq : stringText str =
      [byteOf '\x22'] ++ sizeText str.length ++ [byteOf '|'] ++ str ++ [byteOf '\x22'] := by
    simp [stringText]
  rw [textEq, ← write_write, ← write_write,
    ← write_write, ← write_write]
  simp [stringWriteOne, sizeWrite, sizeText]

theorem beginCount_eq (bracket : Char) (count : Nat) :
    beginCount bracket count = write (countText bracket count) := by
  have textEq : countText bracket count =
      [byteOf bracket] ++ sizeText count ++ [byteOf '|'] := by
    simp [countText]
  rw [textEq, ← write_write, ← write_write]
  simp [beginCount, sizeWrite, sizeText]

/-- The serializer backend writes the string format. -/
theorem writtenBy : format.WrittenBy serializer where
  begin := emits_write _
  write leaf values := by
    have emits := emits_write (values.flatMap (format.leaf leaf))
    unfold format at emits ⊢
    rwa [← Portable.doWrite_eq (writeOne_eq leaf)] at emits
  string str := by
    have emits := emits_write ([str].flatMap fun str => stringText str ++ [byteOf ';'])
    rw [← Portable.doWrite_eq stringWriteOne_eq, List.flatMap_singleton] at emits
    exact emits
  beginStruct count := by
    have emits := emits_write (countText '\x7b' count)
    rwa [← beginCount_eq] at emits
  beginMember name := by
    have emits := emits_write (name ++ [byteOf ':'])
    rwa [← Portable.beginMember_eq] at emits
  finishMember _ := rfl
  finishStruct := emits_write _
  beginList count := by
    have emits := emits_write (countText '[' count)
    rwa [← beginCount_eq] at emits
  beginElement _ := rfl
  finishElement _ := rfl
  finishList := emits_write _
  finish := emits_write _

end StringBackend

end Eagine.Serialization

/-!
## The round trip through the string backends

The reader requires the brackets, delimiters and member names that the writer puts,
takes strings by their length, and leaves the numbers to the scanner of the standard
library, bounded by their delimiters.
-/

namespace Eagine.Serialization

open Theory

namespace StringBackend

theorem natAbs_toInt_lt (width : IntWidth) (value : BitVec width.bits) :
    value.toInt.natAbs < 10 ^ 20 := by
  have lower : -2 ^ width.bits ≤ 2 * value.toInt := BitVec.le_two_mul_toInt
  have upper : 2 * value.toInt < 2 ^ width.bits := BitVec.two_mul_toInt_lt
  have atMost : (2 : Int) ^ width.bits ≤ 2 ^ 64 := pow_le_pow_right₀ (by decide) width.bits_le
  omega

theorem toNat_lt (width : IntWidth) (value : BitVec width.bits) :
    value.toNat < 10 ^ 20 := by
  have atMost : 2 ^ width.bits ≤ 2 ^ 64 := Nat.pow_le_pow_right (by decide) width.bits_le
  exact lt_of_lt_of_le value.isLt (atMost.trans (by decide))

variable {delimiter : UInt8}

/-- A signed integer is scanned in its own width. -/
theorem intRead_reads (width : IntWidth) (value target : BitVec width.bits)
    (delimits : Delimits delimiter) :
    Reads (sscanfOne 10 target delimiter) (.exact (numberText value.toInt ++ [delimiter])) True
      (∅, value) := by
  have formatted := formatted_numberText delimits (natAbs_toInt_lt width value)
  exact sscanfOne_reads formatted (BitVec.ofInt_toInt) target

/-- A decimal unsigned integer is scanned in its own width. -/
theorem uintRead_reads (width : IntWidth) (value target : BitVec width.bits)
    (delimits : Delimits delimiter) :
    Reads (sscanfOne 10 target delimiter) (.exact (numberText value.toNat ++ [delimiter])) True
      (∅, value) := by
  have bounded : (value.toNat : Int).natAbs < 10 ^ 20 := toNat_lt width value
  have stored : BitVec.ofInt width.bits value.toNat = value := by
    rw [BitVec.ofInt_natCast, BitVec.ofNat_toNat, BitVec.setWidth_eq]
  exact sscanfOne_reads (formatted_numberText delimits bounded) stored target

/-- A byte is scanned from its hexadecimal digits. -/
theorem byteRead_reads (value target : BitVec 8) (delimits : Delimits delimiter) :
    Reads (sscanfOne 16 target delimiter) (.exact (byteText (.ofBitVec value) ++ [delimiter])) True
      (∅, value) := by
  have stored : BitVec.ofInt 8 (UInt8.ofBitVec value).toNat = value := by
    rw [BitVec.ofInt_natCast, UInt8.toNat_ofBitVec, BitVec.ofNat_toNat, BitVec.setWidth_eq]
  exact sscanfOne_reads (formatted_byteText delimits _) stored target

/-- A size is read back as the number it was. -/
theorem sizeRead_reads {size : Nat} (fits : size < spanSizeLimit) :
    Reads (sizeRead (byteOf '|')) (.exact (sizeText size ++ [byteOf '|'])) True
      (∅, (size : Int)) := by
  have reads := intRead_reads .w64 (BitVec.ofNat 64 size) 0 delimits_bar
  apply reads.map (f := fun result => (result.1, BitVec.toInt result.2)) (fun _ => rfl)
  exact congrArg _ (toInt_ofNat fits)

theorem boolRead_reads (value target : Bool) (delimiter : UInt8) :
    Reads (boolRead target delimiter) (.exact (scalarText .bool value ++ [delimiter])) True
      (∅, value) := by
  have reads := @Portable.wordRead_reads (textOf "true") (textOf "false") (by decide) (by decide)
    value target delimiter
  cases value <;> exact reads

/-- A character is taken between its quotes, whatever it is. -/
theorem charRead_reads (value target : UInt8) (delimiter : UInt8) :
    Reads (charRead target delimiter)
      (.exact ([byteOf '\'', value, byteOf '\''] ++ [delimiter])) True (∅, value) := by
  apply Reads.ofExact
  intro source rest starts
  have quoted : source.remaining = [byteOf '\''] ++ ([value] ++
      ([byteOf '\'', delimiter] ++ rest)) := starts
  have stored : (source.pop 1).remaining = [value] ++ ([byteOf '\'', delimiter] ++ rest) := by
    exact BlockDataSource.remaining_pop_of_append quoted
  have closing : ((source.pop 1).pop 1).remaining = [byteOf '\'', delimiter] ++ rest := by
    exact BlockDataSource.remaining_pop_of_append stored
  have topEq : (source.pop 1).top 1 = [value] := top_of_append stored
  have run : charRead target delimiter source =
      some ((∅, value), ((source.pop 1).pop 1).pop 2) := by
    simp [charRead, require_of_append quoted, topString, popTop, topEq,
      require_of_append closing, -BlockDataSource.pop_pop]
  rw [run]
  simp only [BlockDataSource.pop_pop]
  rfl

theorem scalarRead_reads (type : Scalar) (value target : Leaf.Rep type)
    (delimits : Delimits delimiter) :
    Reads (scalarRead type target delimiter) (.exact (scalarText type value ++ [delimiter])) True
      (∅, value) := by
  cases type with
  | bool => exact boolRead_reads value target delimiter
  | int width => exact intRead_reads width value target delimits
  | uint width =>
      cases width with
      | w8 => exact byteRead_reads value target delimits
      | w16 => exact uintRead_reads .w16 value target delimits
      | w32 => exact uintRead_reads .w32 value target delimits
      | w64 => exact uintRead_reads .w64 value target delimits

/-- Every plain value is read back. -/
theorem readOne_reads (leaf : StringLeaf) (value target : Leaf.Rep leaf) :
    Reads (readOne leaf target (byteOf ';')) (.exact (format.leaf leaf value)) True (∅, value) := by
  cases leaf with
  | char => exact charRead_reads value target (byteOf ';')
  | scalar type => exact scalarRead_reads type value target delimits_semicolon

theorem stringReadOne_reads {str : Block} (fits : str.length < spanSizeLimit) (target : Block)
    (delimiter : UInt8) :
    Reads (stringReadOne target delimiter) (.exact (stringText str ++ [delimiter])) True
      (∅, str) :=
  Portable.quotedRead_reads (sizeRead_reads fits) target delimiter

theorem readCount_reads {bracket : Char} {count : Nat} (fits : count < spanSizeLimit) :
    Reads (readCount bracket) (.exact (countText bracket count)) True (∅, (count : Int)) :=
  Portable.bracketRead_reads (sizeRead_reads fits) bracket

/-- The deserializer backend reads the string format. -/
theorem readBy : format.ReadBy (fun _ => True) (fun _ => True) deserializer where
  single := trivial
  begin := Portable.begin_reads
  read leaf _ values targets sameLength := by
    rw [← Payload.concat_map_exact]
    exact readValues_reads values targets sameLength fun value _ target =>
      readOne_reads leaf value target
  readStrings strs targets sameLength fits :=
    readValues_reads strs targets sameLength fun str mem target =>
      stringReadOne_reads (fits str mem) target (byteOf ';')
  beginStruct _ fits := readCount_reads fits
  beginMember := Portable.requireMember_reads
  finishMember _ := rfl
  finishStruct := Portable.require_reads _
  beginList _ fits := readCount_reads fits
  beginElement _ := rfl
  finishElement _ := rfl
  finishList := Portable.require_reads _
  finish := Portable.require_reads _
  finishStruct_total := Portable.require_total _
  finishList_total := Portable.require_total _
  finish_total := Portable.require_total _

/-- What is written into enough room, for a type with a writer, is read back without errors in
front of any other bytes, which stay unread; what does not fit is reported. -/
def RoundTrips {ty : Ty StringLeaf} (value : Value ty) : Prop :=
  ty.hasWriter StringLeaf.isBool = true → ∀ (target : Value ty) (room : Nat) (rest : Block),
    let written := Serializer.serialize serializer ty value.rep (.ofSize room)
    ((format.document ty value.rep).length ≤ room → written.1 = ∅) ∧
      (written.1 = ∅ → ∃ after,
        Deserializer.compiledDeserialize deserializer StringLeaf.isBool ty target.rep
          (.ofBlock (written.2.written ++ rest)) = some ((∅, value.rep), after) ∧
        after.remaining = rest)

/-- What is written into a document of its size needs a reader to be read. -/
theorem RoundTrips.hasReader {ty : Ty StringLeaf} {value : Value ty} (roundTrips : RoundTrips value)
    (hasWriter : ty.hasWriter StringLeaf.isBool = true) :
    ty.hasReader StringLeaf.isBool = true := by
  let room := (format.document ty value.rep).length
  have ⟨fits, readBack⟩ := roundTrips hasWriter value room []
  rcases readBack (fits (Nat.le_refl room)) with ⟨after, run, _⟩
  exact ((Deserializer.compiledDeserialize_eq_some _).mp run).1

/-- Values round trip just where the type has a reader besides its writer. -/
theorem roundTrips_iff_hasReader {ty : Ty StringLeaf} (value : Value ty) :
    RoundTrips value ↔
      (ty.hasWriter StringLeaf.isBool = true → ty.hasReader StringLeaf.isBool = true) := by
  constructor
  · exact RoundTrips.hasReader
  · intro hasReader hasWriter target room rest
    have ⟨fits, readBack⟩ := Deserializer.reads_serialized writtenBy readBy (fun _ => rfl)
      (ty.builtFrom_of_forall fun _ => trivial) value target room rest
    refine ⟨fits, fun clean => ?_⟩
    rcases readBack clean with ⟨after, run, unread⟩
    exact ⟨after, (Deserializer.compiledDeserialize_eq_some _).mpr ⟨hasReader hasWriter, run⟩,
      unread⟩

/-- A vector of vectors of integers. -/
def nestedType : Ty StringLeaf :=
  .vector (.vector (.plain (.scalar (.int .w32))))

def nestedValue : Value nestedType where
  rep := ([[1#32, 2#32]] : List (List (BitVec 32)))
  holds := by
    refine ⟨by decide, fun value mem => ?_⟩
    cases List.mem_singleton.mp mem
    exact ⟨by decide, fun _ _ => trivial⟩

/-- Vectors of vectors can only be written. -/
theorem not_roundTrips_nested : ¬∀ (ty : Ty StringLeaf) (value : Value ty), RoundTrips value := by
  intro all
  have needsReader := (all nestedType nestedValue).hasReader
  exact absurd (needsReader rfl) (by decide)

end StringBackend

end Eagine.Serialization
