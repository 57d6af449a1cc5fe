import Eagine.Serialization.RoundTrip

/-!
# The fast serializer backend

The backend for local exchange copies the memory of plain values; the memory
is that of a little-endian machine.  Counts and string lengths are written as
`span_size_t` values.  The characters of a string are handed to the sink
without a look at its report.
-/

namespace Eagine.Serialization

open Theory

/-- The bytes of a number of the given size, least significant first. -/
def littleEndian : Nat → Nat → Block
  | 0, _ => []
  | size + 1, value => UInt8.ofNat value :: littleEndian size (value / 256)

def ofLittleEndian : Block → Nat
  | [] => 0
  | byte :: bytes => byte.toNat + 256 * ofLittleEndian bytes

@[simp]
theorem length_littleEndian (size value : Nat) : (littleEndian size value).length = size := by
  induction size generalizing value with
  | zero => rfl
  | succ size ih => rw [littleEndian, List.length_cons, ih]

theorem ofLittleEndian_littleEndian (size value : Nat) :
    ofLittleEndian (littleEndian size value) = value % 256 ^ size := by
  induction size generalizing value with
  | zero => rw [littleEndian, ofLittleEndian, Nat.pow_zero, Nat.mod_one]
  | succ size ih =>
      rw [littleEndian, ofLittleEndian, ih, Nat.pow_succ, Nat.mul_comm (256 ^ size) 256,
        Nat.mod_mul]
      rfl

/-- `sizeof` of an integer. -/
def IntWidth.bytes (width : IntWidth) : Nat :=
  width.bits / 8

/-- `sizeof` of a scalar. -/
def Scalar.size : Scalar → Nat
  | .bool => 1
  | .int width => width.bytes
  | .uint width => width.bytes

theorem Scalar.size_pos (type : Scalar) : 0 < type.size := by
  cases type with
  | bool => decide
  | int width => cases width <;> decide
  | uint width => cases width <;> decide

/-- The memory of a scalar. -/
def scalarBytes : (type : Scalar) → Leaf.Rep type → Block
  | .bool, value => [if value then 1 else 0]
  | .int width, value => littleEndian width.bytes (BitVec.toNat value)
  | .uint width, value => littleEndian width.bytes (BitVec.toNat value)

/-- The scalar with the memory. -/
def scalarOf : (type : Scalar) → Block → Leaf.Rep type
  | .bool, bytes => bytes.headD 0 != 0
  | .int width, bytes => BitVec.ofNat width.bits (ofLittleEndian bytes)
  | .uint width, bytes => BitVec.ofNat width.bits (ofLittleEndian bytes)

@[simp]
theorem length_scalarBytes (type : Scalar) (value : Leaf.Rep type) :
    (scalarBytes type value).length = type.size := by
  cases type with
  | bool => rfl
  | int width => exact length_littleEndian _ _
  | uint width => exact length_littleEndian _ _

theorem ofNat_ofLittleEndian (width : IntWidth) (value : BitVec width.bits) :
    BitVec.ofNat width.bits (ofLittleEndian (littleEndian width.bytes value.toNat)) = value := by
  have sameRange : 256 ^ width.bytes = 2 ^ width.bits := by
    cases width <;> rfl
  rw [ofLittleEndian_littleEndian, sameRange, Nat.mod_eq_of_lt value.isLt, BitVec.ofNat_toNat,
    BitVec.setWidth_eq]

theorem scalarOf_scalarBytes (type : Scalar) (value : Leaf.Rep type) :
    scalarOf type (scalarBytes type value) = value := by
  cases type with
  | bool => cases value <;> rfl
  | int width => exact ofNat_ofLittleEndian width value
  | uint width => exact ofNat_ofLittleEndian width value

/-- `as_bytes` of a span of scalars. -/
def asBytes (type : Scalar) (values : List (Leaf.Rep type)) : Block :=
  values.flatMap (scalarBytes type)

@[simp]
theorem length_asBytes (type : Scalar) (values : List (Leaf.Rep type)) :
    (asBytes type values).length = values.length * type.size := by
  induction values with
  | nil => exact (Nat.zero_mul _).symm
  | cons value values ih =>
      have bytesEq : asBytes type (value :: values) =
          scalarBytes type value ++ asBytes type values := List.flatMap_cons
      rw [bytesEq, List.length_append, length_scalarBytes, ih, List.length_cons, Nat.succ_mul,
        Nat.add_comm]

/-- The type of counts and lengths. -/
def sizeType : Scalar :=
  .int .w64

def sizeValue (size : Nat) : Leaf.Rep sizeType :=
  BitVec.ofNat 64 size

namespace Fast

open Serializer (plainWrite stringWrite)
open BlockDataSink (store_store write write_apply)

/-- `do_write` of a span: as many whole values as there is room for. -/
def doWrite (type : Scalar) (values : List (Leaf.Rep type)) :
    SinkM (SerializationErrors × Nat) := do
  let sink ← get
  let canDo := sink.remainingSize / type.size
  if canDo < values.length then
    let sunk ← write (asBytes type (values.take canDo))
    pure (incomplete ||| sunk, canDo)
  else
    let sunk ← write (asBytes type values)
    pure (sunk, values.length)

def doWriteSize (size : Nat) : SinkM (SerializationErrors × Nat) :=
  doWrite sizeType [sizeValue size]

/-- The loop of `do_write_strings`; the report of the write of the characters
is discarded. -/
def doWriteStringsFrom : Nat → List Block → SinkM (SerializationErrors × Nat)
  | done, [] => pure (∅, done)
  | done, str :: strs => do
      let (errors, written) ← doWriteSize str.length
      if errors.isEmpty then
        let _discarded ← write str
        doWriteStringsFrom (done + written) strs
      else
        pure (errors, done)

def doWriteStrings (strs : List Block) : SinkM (SerializationErrors × Nat) :=
  doWriteStringsFrom 0 strs

/-- `begin_struct` and `begin_list`. -/
def beginCount (count : Nat) : SinkM SerializationErrors := do
  let (errors, _) ← doWriteSize count
  pure errors

/-- `fast_serializer_backend`. -/
def serializer : SerializerBackend Scalar where
  begin := pure ∅
  write := doWrite
  writeStrings := doWriteStrings
  beginStruct := beginCount
  beginMember _ := pure ∅
  finishMember _ := pure ∅
  finishStruct := pure ∅
  beginList := beginCount
  beginElement _ := pure ∅
  finishElement _ := pure ∅
  finishList := pure ∅
  finish := pure ∅

def sizeBytes (size : Nat) : Block :=
  scalarBytes sizeType (sizeValue size)

/-- A string and its length.  The characters are a loose end: their loss is
not noticed. -/
def stringPayload (str : Block) : Payload UInt8 where
  elems := sizeBytes str.length ++ str
  loose := str.length
  firm := by
    rw [List.length_append, sizeBytes, length_scalarBytes]
    have positive := sizeType.size_pos
    omega

/-- The format of the fast backend. -/
def format : Format Scalar where
  begin := []
  leaf := scalarBytes
  string := stringPayload
  beginStruct := sizeBytes
  beginMember _ := []
  finishStruct := []
  beginList := sizeBytes
  finishList := []
  finish := []

@[simp]
theorem length_sizeBytes (size : Nat) : (sizeBytes size).length = 8 :=
  length_scalarBytes _ _

theorem asBytes_sizeValue (size : Nat) : asBytes sizeType [sizeValue size] = sizeBytes size :=
  List.flatMap_singleton _ _

theorem need_stringPayload (str : Block) : (stringPayload str).need = 8 := by
  simp [Payload.need, Payload.length, stringPayload]

/-- A span is written completely, or whole values are written as far as there
is room for them. -/
theorem doWrite_apply (type : Scalar) (values : List (Leaf.Rep type)) (sink : BlockDataSink) :
    doWrite type values sink =
      if sink.remainingSize < (asBytes type values).length then
        ((incomplete, sink.remainingSize / type.size),
          sink.store (asBytes type (values.take (sink.remainingSize / type.size))))
      else ((∅, values.length), sink.store (asBytes type values)) := by
  have sameTest : sink.remainingSize / type.size < values.length ↔
      sink.remainingSize < (asBytes type values).length := by
    rw [length_asBytes, Nat.div_lt_iff_lt_mul type.size_pos]
  change (if sink.remainingSize / type.size < values.length then _ else _ : SinkM _) sink = _
  by_cases tooSmall : sink.remainingSize < (asBytes type values).length
  · have wholeFit : (asBytes type (values.take (sink.remainingSize / type.size))).length ≤
        sink.remainingSize := by
      rw [length_asBytes]
      have takes := List.length_take_le (sink.remainingSize / type.size) values
      exact (Nat.mul_le_mul_right _ takes).trans (Nat.div_mul_le_self _ _)
    rw [if_pos tooSmall, if_pos (sameTest.mpr tooSmall)]
    simp [write_apply, Nat.not_lt.mpr wholeFit, -length_asBytes]
  · rw [if_neg tooSmall, if_neg (fun test => tooSmall (sameTest.mp test))]
    simp [write_apply, tooSmall, -length_asBytes]

theorem doWriteSize_apply (size : Nat) (sink : BlockDataSink) :
    doWriteSize size sink =
      if sink.remainingSize < 8 then ((incomplete, 0), sink)
      else ((∅, 1), sink.store (sizeBytes size)) := by
  have applied := doWrite_apply sizeType [sizeValue size] sink
  rw [asBytes_sizeValue, length_sizeBytes] at applied
  rw [doWriteSize, applied]
  by_cases tooSmall : sink.remainingSize < 8
  · have none : sink.remainingSize / sizeType.size = 0 := Nat.div_eq_of_lt tooSmall
    rw [if_pos tooSmall, if_pos tooSmall, none]
    simp [asBytes]
  · rw [if_neg tooSmall, if_neg tooSmall]
    rfl

theorem plainWrite_emits (type : Scalar) (values : List (Leaf.Rep type)) :
    Emits (plainWrite serializer type values)
      (.exact (values.flatMap (format.leaf type))) where
  fit sink room := by
    have notSmall : ¬sink.remainingSize < (asBytes type values).length := Nat.not_lt.mpr room
    have applied := doWrite_apply type values sink
    rw [if_neg notSmall] at applied
    simp only [plainWrite, serializer, sink_bind_apply, sink_pure_apply, applied]
    rfl
  short sink tooSmall := by
    have small : sink.remainingSize < (asBytes type values).length := tooSmall
    have applied := doWrite_apply type values sink
    rw [if_pos small] at applied
    simp only [Fails, plainWrite, serializer, sink_bind_apply, sink_pure_apply, applied]
    exact ⟨trivial, [], rfl⟩

theorem stringWrite_emits (str : Block) :
    Emits (stringWrite serializer str) (stringPayload str) where
  fit sink room := by
    rw [need_stringPayload] at room
    have sized := doWriteSize_apply str.length sink
    rw [if_neg (Nat.not_lt.mpr room)] at sized
    simp only [stringWrite, serializer, doWriteStrings, doWriteStringsFrom,
      sink_bind_apply, sink_pure_apply, sized, (Bitfield.isEmpty_iff _).mpr rfl, if_true,
      write_apply, store_store]
    rfl
  short sink tooSmall := by
    rw [need_stringPayload] at tooSmall
    have sized := doWriteSize_apply str.length sink
    rw [if_pos tooSmall] at sized
    simp only [Fails, stringWrite, serializer, doWriteStrings, doWriteStringsFrom,
      sink_bind_apply, sink_pure_apply, sized, isEmpty_incomplete, Bool.false_eq_true, if_false]
    exact ⟨trivial, [], rfl⟩

theorem beginCount_emits (count : Nat) : Emits (beginCount count) (.exact (sizeBytes count)) where
  fit sink room := by
    rw [Payload.need_exact, length_sizeBytes] at room
    have sized := doWriteSize_apply count sink
    rw [if_neg (Nat.not_lt.mpr room)] at sized
    simp only [beginCount, sink_bind_apply, sink_pure_apply, sized]
    rfl
  short sink tooSmall := by
    rw [Payload.need_exact, length_sizeBytes] at tooSmall
    have sized := doWriteSize_apply count sink
    rw [if_pos tooSmall] at sized
    simp only [Fails, beginCount, sink_bind_apply, sink_pure_apply, sized]
    exact ⟨trivial, [], rfl⟩

/-- The serializer backend writes the fast format. -/
theorem writtenBy : format.WrittenBy serializer where
  begin := Emits.nothing
  write := plainWrite_emits
  string := stringWrite_emits
  beginStruct := beginCount_emits
  beginMember _ := Emits.nothing
  finishMember _ := rfl
  finishStruct := Emits.nothing
  beginList := beginCount_emits
  beginElement _ := rfl
  finishElement _ := rfl
  finishList := Emits.nothing
  finish := Emits.nothing

theorem doWriteStringsFrom_emits (strs : List Block) (done : Nat) :
    Emits (do let result ← doWriteStringsFrom done strs; pure result.1)
      (.concat (strs.map stringPayload)) := by
  induction strs generalizing done with
  | nil => exact Emits.nothing
  | cons str strs ih =>
      rw [List.map_cons, Payload.concat_cons]
      have single := stringWrite_emits str
      have step : (do let result ← doWriteStringsFrom done (str :: strs); pure result.1) =
          stringWrite serializer str >>= fun errors =>
            if errors.isEmpty then do
              let result ← doWriteStringsFrom (done + 1) strs
              pure result.1
            else pure errors := by
        funext sink
        have sized := doWriteSize_apply str.length sink
        by_cases tooSmall : sink.remainingSize < 8
        · rw [if_pos tooSmall] at sized
          simp [stringWrite, serializer, doWriteStrings, doWriteStringsFrom, sized,
            incomplete_ne_empty]
        · rw [if_neg tooSmall] at sized
          simp [stringWrite, serializer, doWriteStrings, doWriteStringsFrom, sized]
      rw [step]
      apply single.bind
      · simpa [(Bitfield.isEmpty_iff _).mpr rfl] using ih (done + 1)
      · intro sink
        simpa using fails_pure sink

/-- A success of the write of the strings means that the sink holds every length
and every character. -/
def WritesAllStrings (strs : List Block) (sink : BlockDataSink) : Prop :=
  (doWriteStrings strs sink).1.1 = ∅ →
    (doWriteStrings strs sink).2.written =
      sink.written ++ strs.flatMap fun str => sizeBytes str.length ++ str

/-- The bytes it takes to write all strings with their lengths. -/
def stringsSize (strs : List Block) : Nat :=
  (strs.map fun str => 8 + str.length).sum

/-- The number of characters behind the last length. -/
def lastStringSize (strs : List Block) : Nat :=
  (strs.getLastD []).length

theorem concat_stringPayload_elems (strs : List Block) :
    (Payload.concat (strs.map stringPayload)).elems =
      strs.flatMap fun str => sizeBytes str.length ++ str := by
  induction strs with
  | nil => rfl
  | cons str strs ih =>
      rw [List.map_cons, Payload.concat_cons, Payload.append_elems, ih, List.flatMap_cons]
      rfl

theorem concat_stringPayload_length (strs : List Block) :
    (Payload.concat (strs.map stringPayload)).length = stringsSize strs := by
  unfold Payload.length
  rw [concat_stringPayload_elems, List.length_flatMap]
  simp [stringsSize]

theorem concat_stringPayload_loose (strs : List Block) :
    (Payload.concat (strs.map stringPayload)).loose = lastStringSize strs := by
  rcases List.eq_nil_or_concat strs with rfl | ⟨front, last, rfl⟩
  · rfl
  · rw [List.concat_eq_append]
    have solid : ∀ payload ∈ (front ++ [last]).map stringPayload, payload.elems ≠ [] := by
      intro payload mem
      rcases List.mem_map.mp mem with ⟨str, _, rfl⟩
      have positive : (sizeBytes str.length).length ≠ 0 := by
        rw [length_sizeBytes]
        decide
      exact List.append_ne_nil_of_left_ne_nil (fun empty => positive (by rw [empty]; rfl)) _
    rw [Payload.loose_concat_of_ne_nil (by simp) solid]
    simp [lastStringSize, stringPayload]

/-- Strings are lost silently exactly when there is room for everything but a
part of the characters of the last string. -/
theorem doWriteStrings_complete_iff (strs : List Block) (sink : BlockDataSink) :
    WritesAllStrings strs sink ↔
      stringsSize strs ≤ sink.remainingSize ∨
        sink.remainingSize < stringsSize strs - lastStringSize strs := by
  have complete := (doWriteStringsFrom_emits strs 0).complete_iff sink
  rw [Payload.need, concat_stringPayload_length, concat_stringPayload_loose,
    concat_stringPayload_elems] at complete
  exact complete

theorem doWriteStrings_truncates :
    ¬WritesAllStrings [[byteOf 'a', byteOf 'b', byteOf 'c']] (.ofSize 10) := by
  unfold WritesAllStrings
  decide

end Fast

end Eagine.Serialization
