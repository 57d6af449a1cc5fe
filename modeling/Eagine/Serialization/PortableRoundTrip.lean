import Eagine.Serialization.Portable

/-!
# The portable deserializer backend

The reader of the portable format, and the round trip through it.  The reader
is a grammar of its own: it scans for the delimiters of numbers, but takes
strings by their length.
-/

namespace Eagine.Serialization

open Theory BlockDataSource

namespace Portable

/-- `std::isspace` in the default locale. -/
def isSpace (char : UInt8) : Bool :=
  char == 32 || (9 ≤ char && char ≤ 13)

def skipWhitespaces : SourceM Unit :=
  consumeUntil fun char => !isSpace char

/-- `_read_one` of a size that is zero from the start. -/
def sizeRead (delimiter : UInt8) : SourceM (DeserializationErrors × Int) := do
  let (errors, size) ← signedRead (0 : BitVec 64) delimiter
  pure (errors, size.toInt)

def boolRead (target : Bool) (delimiter : UInt8) : SourceM (DeserializationErrors × Bool) := do
  let (isSet, _) ← consume [byteOf 'T']
  if isSet then
    let errors ← require [delimiter]
    pure (errors, true)
  else
    let (isClear, temp) ← consume [byteOf 'U']
    if isClear then
      let errors ← require [delimiter]
      pure (errors, false)
    else
      pure (temp, target)

def scalarRead : (type : Scalar) → Leaf.Rep type → UInt8 →
    SourceM (DeserializationErrors × Leaf.Rep type)
  | .bool, target, delimiter => boolRead target delimiter
  | .int _, target, delimiter => signedRead target delimiter
  | .uint _, _, delimiter => unsignedRead delimiter

def floatRead {type : FloatType} (target : type.Floating) (delimiter : UInt8) :
    SourceM (DeserializationErrors × type.Floating) := do
  let (errors, fraction) ← unsignedRead graveAccent
  if errors.isEmpty then
    let (errors, exponent) ← signedRead 0 delimiter
    if errors.isEmpty then
      pure (errors, FloatType.compose ⟨fraction, exponent⟩)
    else
      pure (errors, target)
  else
    pure (errors, target)

def identifierRead (target : Identifier) (delimiter : UInt8) :
    SourceM (DeserializationErrors × Identifier) := do
  let source ← get
  let src := source.stringBefore delimiter 32
  if src.isEmpty then
    pure (.ofBit .notEnoughData, target)
  else
    popTop (src.length + 1)
    pure (∅, .ofChars src)

/-- `_read_one` of a plain value. -/
def readOne : (leaf : PortableLeaf) → Leaf.Rep leaf → UInt8 →
    SourceM (DeserializationErrors × Leaf.Rep leaf)
  | .scalar type, target, delimiter => scalarRead type target delimiter
  | .floating _, target, delimiter => floatRead target delimiter
  | .identifier, target, delimiter => identifierRead target delimiter

/-- `_read_one` of a string.  A negative length takes nothing from the top. -/
def stringReadOne (target : Block) (delimiter : UInt8) :
    SourceM (DeserializationErrors × Block) := do
  let errors ← require [byteOf '\x22']
  if errors.isEmpty then
    let (errors, length) ← sizeRead (byteOf '|')
    if errors.isEmpty then
      let str ← topString length.toNat
      if (str.length : Int) < length then
        pure (.ofBit .notEnoughData, target)
      else
        popTop str.length
        let closed ← require [byteOf '\x22']
        let delimited ← require [delimiter]
        pure (closed ||| delimited, str)
    else
      pure (errors, target)
  else
    pure (errors, target)

/-- `do_read` of a span of values. -/
def doRead {α : Type} (readOne : α → UInt8 → SourceM (DeserializationErrors × α))
    (targets : List α) : SourceM (DeserializationErrors × List α × Nat) :=
  doReadFrom (fun target => readOne target (byteOf ';')) 0 targets

/-- `begin_struct` and `begin_list`: a bracket and a count. -/
def readCount (bracket : Char) : SourceM (DeserializationErrors × Int) := do
  let errors ← require [byteOf bracket]
  if errors.isEmpty then sizeRead (byteOf '|') else pure (errors, 0)

def requireMember (name : Block) : SourceM DeserializationErrors := do
  let errors ← require name
  if errors.isEmpty then require [byteOf ':'] else pure errors

/-- `portable_deserializer_backend`. -/
def deserializer : DeserializerBackend BlockDataSource PortableLeaf where
  begin := do
    skipWhitespaces
    require [byteOf '<']
  read leaf := doRead (readOne leaf)
  readStrings := doRead stringReadOne
  beginStruct := readCount '\x7b'
  beginMember := requireMember
  finishMember _ := pure ∅
  finishStruct := require [byteOf '\x7d']
  beginList := readCount '['
  beginElement _ := pure ∅
  finishElement _ := pure ∅
  finishList := require [byteOf ']']
  finish := require [byteOf '>', 0]

theorem require_reads (text : Block) : Reads (require text) (.exact text) True ∅ :=
  Reads.ofExact fun _ _ starts => require_of_append starts

theorem magnitude_size_lt {size : Nat} (fits : size < spanSizeLimit) :
    (magnitude (BitVec.ofNat 64 size)).toNat < 2 ^ (64 - 1) := by
  rw [magnitude_size fits]
  exact fits

/-- A size is read back as the number it was. -/
theorem sizeRead_reads {delimiter : UInt8} (notDigit : hexDigitValue delimiter = none)
    {size : Nat} (fits : size < spanSizeLimit) :
    Reads (sizeRead delimiter) (.exact (sizeText size ++ [delimiter])) True
      (∅, (size : Int)) := by
  have reads := signedRead_reads notDigit (BitVec.ofNat 64 size) 0 (by decide)
    (magnitude_size_lt fits)
  apply reads.map (f := fun result => (result.1, result.2.toInt)) (fun _ => rfl)
  rw [toInt_ofNat fits]

/-- A truth value by its word, over the words. -/
def wordRead (yes no : Block) (target : Bool) (delimiter : UInt8) :
    SourceM (DeserializationErrors × Bool) := do
  let (saysYes, _) ← consume yes
  if saysYes then
    let errors ← require [delimiter]
    pure (errors, true)
  else
    let (saysNo, temp) ← consume no
    if saysNo then
      let errors ← require [delimiter]
      pure (errors, false)
    else
      pure (temp, target)

/-- A truth value is read back if its word does not begin with the other one. -/
theorem wordRead_reads {yes no : Block} (short : yes.length ≤ no.length)
    (differ : no.take yes.length ≠ yes) (value target : Bool) (delimiter : UInt8) :
    Reads (wordRead yes no target delimiter) (.exact (cond value yes no ++ [delimiter])) True
      (∅, value) := by
  apply Reads.ofExact
  intro source rest starts
  rw [List.append_assoc] at starts
  have behind := require_of_append (remaining_pop_of_append starts)
  have taken := consume_of_append starts
  cases value with
  | true =>
      rw [cond_true] at behind taken ⊢
      simp [wordRead, taken, behind]
  | false =>
      rw [cond_false] at starts behind taken ⊢
      have topEq : source.top yes.length = no.take yes.length := by
        rw [top, starts, List.take_append_of_le_length short]
      have refused : consume yes source = some ((false, .ofBit .unexpectedData), source) := by
        simp [consume, topEq, short, differ]
      simp [wordRead, refused, taken, behind]

theorem boolRead_reads (value target : Bool) (delimiter : UInt8) :
    Reads (boolRead target delimiter) (.exact (scalarText .bool value ++ [delimiter])) True
      (∅, value) := by
  have reads := @wordRead_reads [byteOf 'T'] [byteOf 'U'] (by decide) (by decide) value target
    delimiter
  cases value <;> exact reads

/-- Booleans and unsigned integers are read back. -/
theorem readOne_reads {leaf : PortableLeaf} (isUnsigned : leaf.IsUnsigned)
    (value target : Leaf.Rep leaf) :
    Reads (readOne leaf target (byteOf ';')) (.exact (format.leaf leaf value)) True (∅, value) := by
  cases leaf with
  | scalar type =>
      cases type with
      | bool => exact boolRead_reads value target (byteOf ';')
      | int width => exact absurd isUnsigned id
      | uint width => exact unsignedRead_reads (by decide) value width.bits_le
  | floating => exact absurd isUnsigned id
  | identifier => exact absurd isUnsigned id

/-- A string behind its length, over the reader of the length. -/
def quotedRead (sizeRead : UInt8 → SourceM (DeserializationErrors × Int)) (target : Block)
    (delimiter : UInt8) : SourceM (DeserializationErrors × Block) := do
  let errors ← require [byteOf '\x22']
  if errors.isEmpty then
    let (errors, length) ← sizeRead (byteOf '|')
    if errors.isEmpty then
      let str ← topString length.toNat
      if (str.length : Int) < length then
        pure (.ofBit .notEnoughData, target)
      else
        popTop str.length
        let closed ← require [byteOf '\x22']
        let delimited ← require [delimiter]
        pure (closed ||| delimited, str)
    else
      pure (errors, target)
  else
    pure (errors, target)

variable {sizeRead : UInt8 → SourceM (DeserializationErrors × Int)}

/-- A string is read back by its length, whatever characters it has. -/
theorem quotedRead_reads {str sizeText : Block}
    (sized : Reads (sizeRead (byteOf '|')) (.exact (sizeText ++ [byteOf '|'])) True
      (∅, (str.length : Int))) (target : Block) (delimiter : UInt8) :
    Reads (quotedRead sizeRead target delimiter)
      (.exact (byteOf '\x22' :: sizeText ++ byteOf '|' :: str ++ [byteOf '\x22'] ++ [delimiter]))
      True (∅, str) := by
  apply Reads.ofExact
  intro source rest starts
  have quoted : source.remaining = [byteOf '\x22'] ++ (sizeText ++ [byteOf '|'] ++
      (str ++ ([byteOf '\x22'] ++ ([delimiter] ++ rest)))) := by
    simpa using starts
  have opened := require_of_append quoted
  have behind : (source.pop 1).remaining = sizeText ++ [byteOf '|'] ++
      (str ++ ([byteOf '\x22'] ++ ([delimiter] ++ rest))) := by
    exact remaining_pop_of_append quoted
  have counted := sized.accept trivial _ _ behind
  let counts := (sizeText ++ [byteOf '|']).length
  have stored : ((source.pop 1).pop counts).remaining =
      str ++ ([byteOf '\x22'] ++ ([delimiter] ++ rest)) := by
    exact remaining_pop_of_append behind
  have closing : (((source.pop 1).pop counts).pop str.length).remaining =
      [byteOf '\x22'] ++ ([delimiter] ++ rest) := by
    exact remaining_pop_of_append stored
  have delimiting : ((((source.pop 1).pop counts).pop str.length).pop 1).remaining =
      [delimiter] ++ rest := by
    exact remaining_pop_of_append closing
  have run : quotedRead sizeRead target delimiter source =
      some ((∅, str), ((((source.pop 1).pop counts).pop str.length).pop 1).pop 1) := by
    simp [quotedRead, opened, counted, Payload.length, topString, popTop, counts,
      top_of_append stored, require_of_append closing, require_of_append delimiting,
      -pop_pop, -List.length_append]
  rw [run]
  simp only [pop_pop]
  have consumed : 1 + counts + str.length + 1 + 1 = (byteOf '\x22' :: sizeText ++
      byteOf '|' :: str ++ [byteOf '\x22'] ++ [delimiter]).length := by
    simp only [counts, List.length_append, List.length_cons, List.length_nil]
    omega
  rw [consumed]

theorem stringReadOne_reads {str : Block} (fits : str.length < spanSizeLimit) (target : Block)
    (delimiter : UInt8) :
    Reads (stringReadOne target delimiter) (.exact (stringText str ++ [delimiter])) True
      (∅, str) :=
  quotedRead_reads (sizeRead_reads (by decide) fits) target delimiter

/-- A count behind its bracket, over the reader of the count. -/
def bracketRead (sizeRead : UInt8 → SourceM (DeserializationErrors × Int)) (bracket : Char) :
    SourceM (DeserializationErrors × Int) := do
  let errors ← require [byteOf bracket]
  if errors.isEmpty then sizeRead (byteOf '|') else pure (errors, 0)

theorem bracketRead_reads {sizeText : Block} {count : Nat}
    (sized : Reads (sizeRead (byteOf '|')) (.exact (sizeText ++ [byteOf '|'])) True
      (∅, (count : Int))) (bracket : Char) :
    Reads (bracketRead sizeRead bracket) (.exact (byteOf bracket :: sizeText ++ [byteOf '|'])) True
      (∅, (count : Int)) := by
  have textEq : byteOf bracket :: sizeText ++ [byteOf '|'] =
      [byteOf bracket] ++ (sizeText ++ [byteOf '|']) := rfl
  rw [textEq, ← Payload.exact_append_exact]
  apply (require_reads [byteOf bracket]).after
  · exact sized
  · intro errors flag after
    change errors.has .notEnoughData = true at flag
    refine starves_stopped flag ?_ after
    rfl

theorem readCount_reads {bracket : Char} {count : Nat} (fits : count < spanSizeLimit) :
    Reads (readCount bracket) (.exact (countText bracket count)) True (∅, (count : Int)) :=
  bracketRead_reads (sizeRead_reads (by decide) fits) bracket

theorem requireMember_reads (name : Block) :
    Reads (requireMember name) (.exact (name ++ [byteOf ':'])) True ∅ := by
  rw [← Payload.exact_append_exact]
  apply (require_reads name).after
  · exact require_reads [byteOf ':']
  · intro errors flag after
    change errors.has .notEnoughData = true at flag
    refine starves_stopped flag ?_ after
    rfl

theorem require_total (what : Block) (source : BlockDataSource) :
    (require what source).isSome = true := by
  unfold require
  dsimp only
  split
  · rfl
  · split <;> rfl

theorem begin_reads : Reads deserializer.begin (.exact [byteOf '<']) True ∅ := by
  apply Reads.ofExact
  intro source rest starts
  have noSpace : skipWhitespaces source = some ((), source) :=
    consumeUntil_of_cons starts (by decide)
  have required := require_of_append starts
  simp [deserializer, noSpace, required]

/-- The deserializer backend reads the portable format. -/
theorem readBy : format.ReadBy PortableLeaf.IsUnsigned (fun _ => True) deserializer where
  single := trivial
  begin := begin_reads
  read _ isUnsigned values targets sameLength := by
    rw [← Payload.concat_map_exact]
    exact readValues_reads values targets sameLength fun value _ target =>
      readOne_reads isUnsigned value target
  readStrings strs targets sameLength fits :=
    readValues_reads strs targets sameLength fun str mem target =>
      stringReadOne_reads (fits str mem) target (byteOf ';')
  beginStruct _ fits := readCount_reads fits
  beginMember := requireMember_reads
  finishMember _ := rfl
  finishStruct := require_reads _
  beginList _ fits := readCount_reads fits
  beginElement _ := rfl
  finishElement _ := rfl
  finishList := require_reads _
  finish := require_reads _
  finishStruct_total := require_total _
  finishList_total := require_total _
  finish_total := require_total _

/-- Round trip: with enough room a value is serialized without an error, and
whatever was serialized without an error is read back from the written bytes,
in front of any other bytes, which stay unread. -/
theorem deserialize_serialize {ty : Ty PortableLeaf} (isUnsigned : ty.BuiltFrom
    PortableLeaf.IsUnsigned) (value target : Value ty) (room : Nat) (rest : Block) :
    let written := Serializer.serialize serializer ty value.rep (.ofSize room)
    ((format.document ty value.rep).length ≤ room → written.1 = ∅) ∧
      (written.1 = ∅ → ∃ after,
        Deserializer.deserialize deserializer ty target.rep
          (.ofBlock (written.2.written ++ rest)) = some ((∅, value.rep), after) ∧
        after.remaining = rest) :=
  Deserializer.reads_serialized writtenBy readBy (fun _ => rfl) isUnsigned value target room rest

/-- A structure of a tuple and a vector of bytes. -/
def nestedType : Ty PortableLeaf :=
  .struct (.cons [byteOf 'a']
    (.tuple (.cons (.plain (.scalar (.uint .w16))) (.cons .string .nil)))
    (.cons [byteOf 'b'] (.vector (.plain (.scalar (.uint .w8)))) .nil))

/-- A value with delimiters in its string. -/
def nestedValue : Value nestedType where
  rep := ((0x1234#16, ([byteOf ']', byteOf ';'] : Block), ()), ([0#8, 255#8] : List (BitVec 8)), ())
  holds :=
    ⟨by decide, ⟨by decide, trivial, ⟨by decide, fun _ _ => trivial⟩, trivial⟩,
      ⟨by decide, fun _ _ => trivial⟩, trivial⟩

theorem deserialize_serialize_nested :
    ∃ after,
      Deserializer.deserialize deserializer nestedType nestedType.zero
        (.ofBlock ((Serializer.serialize serializer nestedType nestedValue.rep
          (.ofSize 64)).2.written ++ [1, 2])) = some ((∅, nestedValue.rep), after) ∧
      after.remaining = [1, 2] :=
  (deserialize_serialize (by exact ⟨⟨trivial, trivial, trivial⟩, trivial, trivial⟩) nestedValue
    ⟨nestedType.zero, nestedType.zero_holds _ nestedValue.holds⟩ 64 [1, 2]).2 (by decide)

end Portable

end Eagine.Serialization
