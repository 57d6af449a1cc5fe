import Eagine.Serialization.PortableRoundTrip
import Mathlib.Data.List.GetD

/-!
# Delivery of a fragment

What the block of a fragment holds and what its delivery does to the target: the
complete values are set and marked done, and the value at which the data of the
fragment ends is set to zero.
-/

/-!
## Fragments of spans

A span that does not fit a single block is written as a sequence of fragments:
every fragment carries the offset and the size of everything that remained,
and as many values as there is room for.  The receiving wrapper reads fragments
into its target and marks the values done.
-/

open List

namespace Eagine.Serialization

/-- `fragment_serialize_wrapper`. -/
structure FragmentSerializeWrapper (α : Type) where
  src : List α
  offset : Nat

namespace FragmentSerializeWrapper

variable {α : Type}

def ofSpan (src : List α) : FragmentSerializeWrapper α :=
  ⟨src, 0⟩

def remaining (frag : FragmentSerializeWrapper α) : List α :=
  frag.src.drop frag.offset

def advance (frag : FragmentSerializeWrapper α) (inc : Nat) : FragmentSerializeWrapper α :=
  { frag with offset := frag.offset + inc }

end FragmentSerializeWrapper

/-- `fragment_deserialize_wrapper`. -/
structure FragmentDeserializeWrapper (α : Type) where
  dst : List α
  doneBits : List Bool
  doneSize : Nat
  deriving DecidableEq

namespace FragmentDeserializeWrapper

variable {α : Type}

/-- `set_target` of a new wrapper. -/
def ofTarget (dst : List α) : FragmentDeserializeWrapper α :=
  ⟨dst, List.replicate dst.length false, 0⟩

def slice (frag : FragmentDeserializeWrapper α) (offset size : Nat) : List α :=
  (frag.dst.drop offset).take size

/-- Values read into a slice are in the target. -/
def assign (frag : FragmentDeserializeWrapper α) (offset : Nat) (values : List α) :
    FragmentDeserializeWrapper α :=
  { frag with
    dst := frag.dst.take offset ++ values ++ frag.dst.drop (offset + values.length) }

/-- The loop of `mark_done` over the given number of bits. -/
def markDoneFrom : Nat → Nat → FragmentDeserializeWrapper α → FragmentDeserializeWrapper α
  | 0, _, frag => frag
  | count + 1, index, frag =>
      if frag.doneBits.getD index true then markDoneFrom count (index + 1) frag
      else
        markDoneFrom count (index + 1)
          { frag with
            doneBits := frag.doneBits.set index true
            doneSize := frag.doneSize + 1 }

/-- `mark_done`: the range is cut off at the end of the bits. -/
def markDone (frag : FragmentDeserializeWrapper α) (offs size : Nat) :
    FragmentDeserializeWrapper α :=
  let first := min offs frag.doneBits.length
  let last := min (first + size) frag.doneBits.length
  markDoneFrom (last - first) first frag

def isDone (frag : FragmentDeserializeWrapper α) : Bool :=
  frag.dst.length ≤ frag.doneSize

end FragmentDeserializeWrapper

namespace Portable

/-- The type of the offset and the size of a fragment. -/
def spanSize : PortableLeaf :=
  .scalar (.int .w64)

/-- The serializer of `span_size_t`. -/
def spanSizeWrite (size : Nat) : SinkM SerializationErrors :=
  Serializer.plainWrite serializer spanSize [BitVec.ofNat 64 size]

/-- The deserializer of `span_size_t`. -/
def spanSizeRead : SourceM (DeserializationErrors × Int) := do
  let (errors, size) ← Deserializer.coverOne
    (Deserializer.plainRead deserializer spanSize) (BitVec.ofNat 64 0)
  pure (errors, BitVec.toInt size)

variable {width : IntWidth}

/-- The write of a fragment of a span of unsigned integers. -/
def fragmentWrite (frag : FragmentSerializeWrapper (BitVec width.bits)) :
    SinkM (SerializationErrors × FragmentSerializeWrapper (BitVec width.bits)) := do
  let errors ← spanSizeWrite frag.offset
  if errors.isEmpty then
    let todo := frag.remaining
    let sized ← spanSizeWrite todo.length
    let errors := errors ||| sized
    if errors.isEmpty then
      let (more, written) ← serializer.write (.scalar (.uint width)) todo
      let errors := errors ||| more
      if errors.hasAtMost .incompleteWrite then
        pure (errors, frag.advance written)
      else
        pure (errors, frag)
    else
      pure (errors, frag)
  else
    pure (errors, frag)

/-- The read of a fragment of a span of unsigned integers. -/
def fragmentRead (frag : FragmentDeserializeWrapper (BitVec width.bits)) :
    SourceM (DeserializationErrors × FragmentDeserializeWrapper (BitVec width.bits)) := do
  let (errors, offs) ← spanSizeRead
  if errors.isEmpty then
    let (sized, size) ← spanSizeRead
    let errors := errors ||| sized
    if errors.isEmpty then
      let (more, values, done) ←
        deserializer.read (.scalar (.uint width)) (frag.slice offs.toNat size.toNat)
      pure (errors ||| more, (frag.assign offs.toNat values).markDone offs.toNat done)
    else
      pure (errors, frag)
  else
    pure (errors, frag)

/-- One write of the wrapper into a new block: which part of the span it starts
at, how large the block is and what it holds in the end. -/
structure Fragment where
  offset : Nat
  capacity : Nat
  block : Block

/-- The wrapper is written to blocks of the given sizes, one after another. -/
def writeFragments : FragmentSerializeWrapper (BitVec width.bits) → List Nat → List Fragment
  | _, [] => []
  | frag, capacity :: capacities =>
      let result := fragmentWrite frag (.ofSize capacity)
      ⟨frag.offset, capacity, result.2.written⟩ :: writeFragments result.1.2 capacities

/-- A block is read into the wrapper, whatever the report is. -/
def deliver (frag : FragmentDeserializeWrapper (BitVec width.bits)) (block : Block) :
    Option (FragmentDeserializeWrapper (BitVec width.bits)) :=
  (fragmentRead frag (.ofBlock block)).map fun result => result.1.2

/-- The blocks are read one after another. -/
def deliverAll (frag : FragmentDeserializeWrapper (BitVec width.bits)) (blocks : List Block) :
    Option (FragmentDeserializeWrapper (BitVec width.bits)) :=
  blocks.foldlM deliver frag

end Portable

end Eagine.Serialization

namespace Eagine.Serialization

open Theory
open BlockDataSource (ofBlock remaining_ofBlock remaining_pop remaining_pop_of_append)

namespace Portable

variable {width : IntWidth}

def sizeItem (size : Nat) : Block :=
  sizeText size ++ [byteOf ';']

def valueItem (value : BitVec width.bits) : Block :=
  hexText value.toNat ++ [byteOf ';']

/-- The offset and the size of everything from the offset on. -/
def fragmentHeader (src : List (BitVec width.bits)) (offset : Nat) : Block :=
  sizeItem offset ++ sizeItem (src.length - offset)

/-- The number of values that fit behind the header. -/
def carriedCount (src : List (BitVec width.bits)) (offset capacity : Nat) : Nat :=
  if (fragmentHeader src offset).length ≤ capacity then
    fitting (capacity - (fragmentHeader src offset).length) ((src.drop offset).map valueItem)
  else 0

theorem spanSizeWrite_eq (size : Nat) :
    spanSizeWrite size = BlockDataSink.write (sizeItem size) := by
  rw [spanSizeWrite, plainWrite_eq]
  exact congrArg _ (flatMap_singleton _ _)

theorem fitting_le_length (room : Nat) (items : List Block) : fitting room items ≤ items.length := by
  induction items generalizing room with
  | nil => exact Nat.le_refl 0
  | cons item items ih =>
      rw [fitting]
      split
      · exact Nat.succ_le_succ (ih _)
      · exact Nat.zero_le _

theorem carriedCount_le (src : List (BitVec width.bits)) (offset capacity : Nat) :
    carriedCount src offset capacity ≤ src.length - offset := by
  unfold carriedCount
  split
  · apply (fitting_le_length _ _).trans
    rw [length_map, length_drop]
  · exact Nat.zero_le _

theorem uintWrite_apply (values : List (BitVec width.bits)) (sink : BlockDataSink) :
    serializer.write (.scalar (.uint width)) values sink =
      ((if sink.remainingSize < (values.map valueItem).flatten.length then incomplete else ∅,
        fitting sink.remainingSize (values.map valueItem)),
        sink.store (values.map valueItem).flatten) := by
  have applied := doWriteFrom_apply (writeOne_eq (.scalar (.uint width))) values 0 sink
  simp only [Nat.zero_add] at applied
  exact applied

theorem fragmentWrite_run (src : List (BitVec width.bits)) (offset : Nat) (sink : BlockDataSink) :
    (fragmentWrite ⟨src, offset⟩ sink).1.2 =
        ⟨src, offset + carriedCount src offset sink.remainingSize⟩ ∧
      (fragmentWrite ⟨src, offset⟩ sink).2 =
        sink.store (fragmentHeader src offset ++ ((src.drop offset).map valueItem).flatten) := by
  have todoLength : (src.drop offset).length = src.length - offset := length_drop
  simp only [fragmentWrite, FragmentSerializeWrapper.remaining, spanSizeWrite_eq, todoLength,
    sink_bind_apply, BlockDataSink.write_apply, carriedCount]
  by_cases offsetSmall : sink.remainingSize < (sizeItem offset).length
  · have headerSmall : ¬(fragmentHeader src offset).length ≤ sink.remainingSize := by
      rw [fragmentHeader, length_append]
      omega
    rw [if_pos offsetSmall, if_neg headerSmall, fragmentHeader, append_assoc,
      BlockDataSink.store_append_of_full offsetSmall.le]
    simp
  · rw [if_neg offsetSmall]
    simp only [(Bitfield.isEmpty_iff _).mpr rfl, if_true, sink_bind_apply,
      BlockDataSink.write_apply, BlockDataSink.remainingSize_store, BlockDataSink.store_store,
      Bitfield.empty_or]
    by_cases headerSmall : sink.remainingSize < (fragmentHeader src offset).length
    · have sizeSmall : sink.remainingSize - (sizeItem offset).length <
          (sizeItem (src.length - offset)).length := by
        rw [fragmentHeader, length_append] at headerSmall
        omega
      rw [if_pos sizeSmall, if_neg (Nat.not_le.mpr headerSmall),
        BlockDataSink.store_append_of_full headerSmall.le]
      simp [fragmentHeader]
    · have sizeFits : ¬sink.remainingSize - (sizeItem offset).length <
          (sizeItem (src.length - offset)).length := by
        rw [fragmentHeader, length_append] at headerSmall
        omega
      have atMost (more : Prop) [Decidable more] :
          ((∅ : SerializationErrors) ||| if more then incomplete else ∅).hasAtMost
            .incompleteWrite = true := by
        split <;> decide
      rw [if_neg sizeFits, if_pos (Nat.not_lt.mp headerSmall)]
      simp only [(Bitfield.isEmpty_iff _).mpr rfl, if_true, sink_bind_apply, uintWrite_apply,
        atMost, sink_pure_apply, FragmentSerializeWrapper.advance,
        BlockDataSink.remainingSize_store, BlockDataSink.store_store]
      exact ⟨rfl, rfl⟩

/-- A block of a fragment holds as much of the header and the values as there is
room for, and the wrapper advances by the values that are complete. -/
theorem fragmentWrite_apply (src : List (BitVec width.bits)) (offset capacity : Nat) :
    (fragmentWrite ⟨src, offset⟩ (.ofSize capacity)).1.2 =
        ⟨src, offset + carriedCount src offset capacity⟩ ∧
      (fragmentWrite ⟨src, offset⟩ (.ofSize capacity)).2.written =
        (fragmentHeader src offset ++ ((src.drop offset).map valueItem).flatten).take capacity := by
  rcases fragmentWrite_run src offset (.ofSize capacity) with ⟨wrapperEq, sinkEq⟩
  rw [BlockDataSink.remainingSize_ofSize] at wrapperEq
  refine ⟨wrapperEq, ?_⟩
  rw [sinkEq, BlockDataSink.store_written, BlockDataSink.remainingSize_ofSize]
  rfl

/-- Text that ends before a delimiter is found in it. -/
def Unterminated (text : Block) : Prop :=
  byteOf ';' ∉ text ∧ text.length < scanStep

theorem unterminated_nil : Unterminated [] :=
  ⟨not_mem_nil, by decide⟩

/-- A proper prefix of a delimited text without delimiters lacks its delimiter. -/
theorem unterminated_take {text : Block} (absent : byteOf ';' ∉ text)
    (short : text.length < scanStep) {size : Nat} (cutOff : size < (text ++ [byteOf ';']).length) :
    Unterminated ((text ++ [byteOf ';']).take size) := by
  have within : size ≤ text.length := by
    rw [length_append] at cutOff
    exact Nat.le_of_lt_succ cutOff
  rw [take_append_of_le_length within]
  refine ⟨fun mem => absent (mem_of_mem_take mem), ?_⟩
  exact lt_of_le_of_lt (length_take_le' _ _) short

theorem length_hexText_lt (value : BitVec width.bits) :
    (hexText value.toNat).length < scanStep := by
  have bound : value.toNat < 16 ^ 16 :=
    lt_of_lt_of_le value.isLt (Nat.pow_le_pow_right (by decide) width.bits_le)
  exact lt_of_le_of_lt (length_hexText_le bound (by decide)) (by decide)

theorem unterminated_valueItem (value : BitVec width.bits) {size : Nat}
    (cutOff : size < (valueItem value).length) : Unterminated ((valueItem value).take size) :=
  unterminated_take (notMem_hexText (by decide) _) (length_hexText_lt value) cutOff

theorem unterminated_sizeItem (number : Nat) {size : Nat}
    (cutOff : size < (sizeItem number).length) : Unterminated ((sizeItem number).take size) := by
  have absent : byteOf ';' ∉ sizeText number := by
    unfold sizeText signedText signOf
    rw [mem_cons, not_or]
    refine ⟨?_, notMem_hexText (by decide) _⟩
    split <;> decide
  have bound : (magnitude (BitVec.ofNat 64 number)).toNat < 16 ^ 16 :=
    (magnitude (BitVec.ofNat 64 number)).isLt
  have short : (sizeText number).length < scanStep := by
    unfold sizeText signedText
    rw [length_cons]
    exact lt_of_le_of_lt (Nat.succ_le_succ (length_hexText_le bound (by decide))) (by decide)
  exact unterminated_take absent short cutOff

/-- What there is room for are the items that fit and a proper prefix of the
next one. -/
theorem take_flatten_fitting {property : Block → Prop} (none : property []) (items : List Block)
    (cut : ∀ item ∈ items, ∀ size < item.length, property (item.take size)) (room : Nat) :
    ∃ tail, items.flatten.take room = (items.take (fitting room items)).flatten ++ tail ∧
      property tail := by
  induction items generalizing room with
  | nil => exact ⟨[], by simp, none⟩
  | cons item items ih =>
      rw [fitting, flatten_cons]
      by_cases fits : item.length ≤ room
      · rcases ih (fun other mem => cut other (mem_cons_of_mem item mem))
          (room - item.length) with ⟨tail, takeEq, holds⟩
        refine ⟨tail, ?_, holds⟩
        rw [if_pos fits, take_append, take_of_length_le fits, takeEq, take_succ_cons,
          flatten_cons, append_assoc]
      · refine ⟨item.take room, ?_, cut item mem_cons_self room (Nat.lt_of_not_le fits)⟩
        rw [if_neg fits, take_append_of_le_length (Nat.le_of_not_le fits), take_zero]
        rfl

theorem spanSizeRead_eq : spanSizeRead = sizeRead (byteOf ';') := by
  funext source
  have spanRun : deserializer.read spanSize ([BitVec.ofNat 64 0] : List (Leaf.Rep spanSize)) source =
      doReadFrom (fun target : BitVec 64 => signedRead target (byteOf ';')) 0
        [BitVec.ofNat 64 0] source := rfl
  simp only [spanSizeRead, sizeRead, Deserializer.coverOne, Deserializer.plainRead, spanRun,
    doReadFrom, read_bind_apply]
  rcases signedRead (BitVec.ofNat 64 0) (byteOf ';') source with _ | ⟨⟨errors, value⟩, after⟩
  · rfl
  · by_cases success : errors = ∅
    · subst success
      rfl
    · have failed : errors.isEmpty = false := (Bitfield.isEmpty_eq_false_iff errors).mpr success
      simp only [Option.bind_some, failed, Bool.false_eq_true, if_false]
      rfl

theorem spanSizeRead_reads {number : Nat} (fits : number < spanSizeLimit) :
    Reads spanSizeRead (.exact (sizeItem number)) True (∅, (number : Int)) := by
  rw [spanSizeRead_eq]
  exact sizeRead_reads (by decide) fits

theorem spanSizeRead_of_unterminated {source : BlockDataSource}
    (unterminated : Unterminated source.remaining) :
    ∃ errors size after, spanSizeRead source = some ((errors, size), after) ∧ errors ≠ ∅ := by
  rcases signedRead_of_absent unterminated.1 unterminated.2 (0 : BitVec 64) with
    ⟨errors, value, after, run, failed⟩
  refine ⟨errors, BitVec.toInt value, after, ?_, failed⟩
  rw [spanSizeRead_eq, sizeRead, read_bind_apply, run]
  rfl

/-- The value at which a read runs out of data is zero. -/
def interrupted : List (BitVec width.bits) → List (BitVec width.bits)
  | [] => []
  | _ :: rest => 0 :: rest

/-- The values that are complete are read; the next one is set to zero. -/
theorem uintRead_apply (values : List (BitVec width.bits)) (targets : List (BitVec width.bits))
    (tail : Block) (unterminated : Unterminated tail) (source : BlockDataSource)
    (starts : source.remaining = (values.map valueItem).flatten ++ tail)
    (room : values.length ≤ targets.length) (done : Nat) :
    ∃ errors after,
      doReadFrom (fun _ => unsignedRead (byteOf ';')) done targets source =
        some ((errors, values ++ interrupted (targets.drop values.length),
          done + values.length), after) := by
  induction values generalizing targets source done with
  | nil =>
      cases targets with
      | nil => exact ⟨_, _, rfl⟩
      | cons target targets =>
          rw [map_nil, flatten_nil, nil_append] at starts
          rw [← starts] at unterminated
          have run := @unsignedRead_of_absent width.bits _ _ unterminated.1 unterminated.2
          have stopped : (.ofBit .notEnoughData : DeserializationErrors).isEmpty = false :=
            isEmpty_eq_false_of_has has_notEnoughData
          refine ⟨.ofBit .notEnoughData, source, ?_⟩
          simp only [doReadFrom, read_bind_apply, run, Option.bind_some, stopped,
            Bool.false_eq_true, if_false]
          rfl
  | cons value values ih =>
      cases targets with
      | nil => exact absurd room (Nat.not_succ_le_zero _)
      | cons target targets =>
          rw [map_cons, flatten_cons, append_assoc] at starts
          have headRun := (unsignedRead_reads (by decide) value width.bits_le).accept trivial
            source _ starts
          have behind : (source.pop (valueItem value).length).remaining =
              (values.map valueItem).flatten ++ tail := by
            exact remaining_pop_of_append starts
          rcases ih targets _ behind (Nat.le_of_succ_le_succ room) (done + 1) with
            ⟨errors, after, tailRun⟩
          refine ⟨errors, after, ?_⟩
          have popped : (Payload.exact (hexText value.toNat ++ [byteOf ';'])).length =
              (valueItem value).length := rfl
          rw [popped] at headRun
          simp only [doReadFrom, read_bind_apply, headRun, Option.bind_some,
            (Bitfield.isEmpty_iff _).mpr rfl, if_true, tailRun, read_pure_apply]
          simp [Nat.add_assoc, Nat.add_comm 1]

variable {src : List (BitVec width.bits)}

/-- A block without a complete header changes nothing. -/
theorem deliver_of_short {offset capacity : Nat}
    (isSpan : src.length < spanSizeLimit) (within : offset ≤ src.length)
    (short : capacity < (fragmentHeader src offset).length) (items : Block)
    (frag : FragmentDeserializeWrapper (BitVec width.bits)) :
    deliver frag ((fragmentHeader src offset ++ items).take capacity) = some frag := by
  rw [take_append_of_le_length short.le]
  have offsetFits : offset < spanSizeLimit := lt_of_le_of_lt within isSpan
  by_cases offsetCut : capacity < (sizeItem offset).length
  · have unterminated : Unterminated
        (ofBlock ((fragmentHeader src offset).take capacity)).remaining := by
      rw [remaining_ofBlock, fragmentHeader,
        take_append_of_le_length offsetCut.le]
      exact unterminated_sizeItem offset offsetCut
    rcases spanSizeRead_of_unterminated unterminated with ⟨errors, size, after, run, failed⟩
    have stopped := (Bitfield.isEmpty_eq_false_iff errors).mpr failed
    simp only [deliver, fragmentRead, read_bind_apply, run, Option.bind_some, stopped,
      Bool.false_eq_true, if_false]
    rfl
  · have offsetRoom := Nat.not_lt.mp offsetCut
    have starts : (ofBlock ((fragmentHeader src offset).take capacity)).remaining =
        sizeItem offset ++
          (sizeItem (src.length - offset)).take (capacity - (sizeItem offset).length) := by
      rw [remaining_ofBlock, fragmentHeader, take_append,
        take_of_length_le offsetRoom]
    have offsetRun := (spanSizeRead_reads offsetFits).accept trivial _ _ starts
    have unterminated : Unterminated ((ofBlock
        ((fragmentHeader src offset).take capacity)).pop (sizeItem offset).length).remaining := by
      rw [remaining_pop_of_append starts]
      apply unterminated_sizeItem
      rw [fragmentHeader, length_append] at short
      omega
    rcases spanSizeRead_of_unterminated unterminated with ⟨errors, size, after, run, failed⟩
    have stopped := (Bitfield.isEmpty_eq_false_iff errors).mpr failed
    rw [Payload.length_exact] at offsetRun
    simp only [deliver, fragmentRead, read_bind_apply, offsetRun, Option.bind_some,
      (Bitfield.isEmpty_iff _).mpr rfl, if_true, run, Bitfield.empty_or, stopped,
      Bool.false_eq_true, if_false]
    rfl

/-- A block of a header, values and a part of another value. -/
theorem deliver_of_parts {offset size : Nat} (offsetFits : offset < spanSizeLimit)
    (sizeFits : size < spanSizeLimit) (values : List (BitVec width.bits)) {tail : Block}
    (unterminated : Unterminated tail) (frag : FragmentDeserializeWrapper (BitVec width.bits))
    (room : values.length ≤ (frag.slice offset size).length) :
    deliver frag (sizeItem offset ++ (sizeItem size ++
        ((values.map valueItem).flatten ++ tail))) =
      some ((frag.assign offset (values ++
        interrupted ((frag.slice offset size).drop values.length))).markDone offset
          values.length) := by
  let content := (values.map valueItem).flatten ++ tail
  let source := ofBlock (sizeItem offset ++ (sizeItem size ++ content))
  have offsetRun := (spanSizeRead_reads offsetFits).accept trivial source
    (sizeItem size ++ content) rfl
  rw [Payload.length_exact] at offsetRun
  have sizeStarts : (source.pop (sizeItem offset).length).remaining =
      sizeItem size ++ content := by
    rw [remaining_pop, remaining_ofBlock, drop_left]
  have sizeRun := (spanSizeRead_reads sizeFits).accept trivial _ content sizeStarts
  rw [Payload.length_exact] at sizeRun
  have valuesStart : ((source.pop (sizeItem offset).length).pop (sizeItem size).length).remaining =
      (values.map valueItem).flatten ++ tail := by
    exact remaining_pop_of_append sizeStarts
  rcases uintRead_apply values (frag.slice offset size) tail unterminated _ valuesStart room 0 with
    ⟨errors, after, valuesRun⟩
  have readRun : deserializer.read (.scalar (.uint width)) (frag.slice offset size)
      ((source.pop (sizeItem offset).length).pop (sizeItem size).length) =
      some ((errors, values ++ interrupted ((frag.slice offset size).drop values.length),
        0 + values.length), after) := valuesRun
  have run : fragmentRead frag source = some ((∅ ||| errors,
      (frag.assign offset (values ++ interrupted
        ((frag.slice offset size).drop values.length))).markDone offset (0 + values.length)),
      after) := by
    simp only [fragmentRead, read_bind_apply, offsetRun, Option.bind_some,
      (Bitfield.isEmpty_iff _).mpr rfl, if_true, sizeRun, Bitfield.or_empty, Int.toNat_natCast,
      readRun, read_pure_apply]
  rw [Nat.zero_add] at run
  exact congrArg (Option.map fun result => result.1.2) run

/-- A block with a complete header sets the values it carries, and the one it
stops at to zero. -/
theorem deliver_of_long {offset capacity : Nat}
    (isSpan : src.length < spanSizeLimit) (within : offset ≤ src.length)
    (long : (fragmentHeader src offset).length ≤ capacity)
    (frag : FragmentDeserializeWrapper (BitVec width.bits))
    (sameLength : frag.dst.length = src.length) :
    deliver frag ((fragmentHeader src offset ++
        ((src.drop offset).map valueItem).flatten).take capacity) =
      some ((frag.assign offset ((src.drop offset).take (carriedCount src offset capacity) ++
        interrupted ((frag.dst.drop offset).drop (carriedCount src offset capacity)))).markDone
          offset (carriedCount src offset capacity)) := by
  have countEq : carriedCount src offset capacity =
      fitting (capacity - (fragmentHeader src offset).length)
        ((src.drop offset).map valueItem) := if_pos long
  have countLe := carriedCount_le src offset capacity
  have cut : ∀ item ∈ (src.drop offset).map valueItem, ∀ size < item.length,
      Unterminated (item.take size) := by
    intro item mem size cutOff
    rcases mem_map.mp mem with ⟨value, _, rfl⟩
    exact unterminated_valueItem value cutOff
  rcases take_flatten_fitting unterminated_nil ((src.drop offset).map valueItem) cut
      (capacity - (fragmentHeader src offset).length) with ⟨tail, takeEq, unterminated⟩
  rw [← countEq, ← map_take] at takeEq
  have takenLength : ((src.drop offset).take (carriedCount src offset capacity)).length =
      carriedCount src offset capacity := by
    rw [length_take, length_drop, Nat.min_eq_left countLe]
  have sliceEq : frag.slice offset (src.length - offset) = frag.dst.drop offset := by
    rw [FragmentDeserializeWrapper.slice, take_of_length_le]
    rw [length_drop, sameLength]
  have parts := deliver_of_parts (lt_of_le_of_lt within isSpan)
    (lt_of_le_of_lt (Nat.sub_le _ _) isSpan)
    ((src.drop offset).take (carriedCount src offset capacity)) unterminated frag (by
      rw [takenLength, sliceEq, length_drop, sameLength]
      exact countLe)
  rw [takenLength, sliceEq] at parts
  rw [take_append, take_of_length_le long, takeEq, fragmentHeader, append_assoc]
  exact parts

end Portable

namespace FragmentDeserializeWrapper

variable {α : Type}

/-- The bits and the counter of a wrapper agree. -/
def Counts (frag : FragmentDeserializeWrapper α) : Prop :=
  frag.doneSize = frag.doneBits.count true

@[simp]
theorem markDoneFrom_dst (count index : Nat) (frag : FragmentDeserializeWrapper α) :
    (markDoneFrom count index frag).dst = frag.dst := by
  induction count generalizing index frag with
  | zero => rfl
  | succ count ih =>
      rw [markDoneFrom]
      split
      · exact ih _ _
      · exact ih _ _

@[simp]
theorem markDoneFrom_length (count index : Nat) (frag : FragmentDeserializeWrapper α) :
    (markDoneFrom count index frag).doneBits.length = frag.doneBits.length := by
  induction count generalizing index frag with
  | zero => rfl
  | succ count ih =>
      rw [markDoneFrom]
      split
      · exact ih _ _
      · rw [ih, length_set]

variable {frag : FragmentDeserializeWrapper α}

theorem markDoneFrom_counts (count index : Nat) (counts : frag.Counts) :
    (markDoneFrom count index frag).Counts := by
  induction count generalizing index frag with
  | zero => exact counts
  | succ count ih =>
      rw [markDoneFrom]
      by_cases marked : frag.doneBits.getD index true = true
      · rw [if_pos marked]
        exact ih _ counts
      · rw [if_neg marked]
        apply ih
        have inRange : index < frag.doneBits.length := by
          by_contra outside
          exact marked (getD_eq_default _ _ (Nat.not_lt.mp outside))
        rw [getD_eq_getElem _ _ inRange, Bool.not_eq_true] at marked
        unfold Counts at counts ⊢
        rw [count_set inRange, counts, marked]
        rfl

theorem markDoneFrom_bit (count index : Nat) (frag : FragmentDeserializeWrapper α) (q : Nat)
    (inRange : q < frag.doneBits.length) :
    (markDoneFrom count index frag).doneBits.getD q false =
      (frag.doneBits.getD q false || decide (index ≤ q ∧ q < index + count)) := by
  induction count generalizing index frag with
  | zero =>
      have outside : ¬(index ≤ q ∧ q < index + 0) := by omega
      rw [markDoneFrom, decide_eq_false outside, Bool.or_false]
  | succ count ih =>
      rw [markDoneFrom]
      by_cases here : index = q
      · subst here
        have inside : index ≤ index ∧ index < index + (count + 1) := by omega
        rw [decide_eq_true inside, Bool.or_true]
        split
        · rename_i marked
          rw [ih _ _ inRange, getD_eq_getElem _ _ inRange]
          rw [getD_eq_getElem _ _ inRange] at marked
          rw [marked, Bool.true_or]
        · have stillInRange : index < (frag.doneBits.set index true).length := by
            rwa [length_set]
          rw [ih _ _ stillInRange, getD_eq_getElem _ _ stillInRange,
            getElem_set_self, Bool.true_or]
      · have sameRange : (index + 1 ≤ q ∧ q < index + 1 + count) ↔
            (index ≤ q ∧ q < index + (count + 1)) := by omega
        split
        · rw [ih _ _ inRange]
          simp only [sameRange]
        · have stillInRange : q < (frag.doneBits.set index true).length := by
            rwa [length_set]
          rw [ih _ _ stillInRange, getD_eq_getElem _ _ stillInRange,
            getElem_set_ne here, ← getD_eq_getElem _ false inRange]
          simp only [sameRange]

@[simp]
theorem markDone_dst (offs size : Nat) (frag : FragmentDeserializeWrapper α) :
    (frag.markDone offs size).dst = frag.dst :=
  markDoneFrom_dst _ _ frag

@[simp]
theorem markDone_length (offs size : Nat) (frag : FragmentDeserializeWrapper α) :
    (frag.markDone offs size).doneBits.length = frag.doneBits.length :=
  markDoneFrom_length _ _ frag

theorem markDone_counts (offs size : Nat) (counts : frag.Counts) :
    (frag.markDone offs size).Counts :=
  markDoneFrom_counts _ _ counts

theorem length_assign (offset : Nat) (values : List α) (frag : FragmentDeserializeWrapper α)
    (inside : offset + values.length ≤ frag.dst.length) :
    (frag.assign offset values).dst.length = frag.dst.length := by
  rw [assign, length_append, length_append, length_take, length_drop,
    Nat.min_eq_left (by omega)]
  omega

theorem markDone_bit (offs size : Nat) (frag : FragmentDeserializeWrapper α) (q : Nat)
    (inRange : q < frag.doneBits.length) :
    (frag.markDone offs size).doneBits.getD q false =
      (frag.doneBits.getD q false || decide (offs ≤ q ∧ q < offs + size)) := by
  have sameRange : (min offs frag.doneBits.length ≤ q ∧ q < min offs frag.doneBits.length +
      (min (min offs frag.doneBits.length + size) frag.doneBits.length -
        min offs frag.doneBits.length)) ↔ (offs ≤ q ∧ q < offs + size) := by omega
  rw [markDone, markDoneFrom_bit _ _ _ _ inRange]
  simp only [sameRange]

/-- A wrapper with agreeing bits is done when all bits are set. -/
theorem isDone_iff (counts : frag.Counts) (sameLength : frag.doneBits.length = frag.dst.length) :
    frag.isDone = true ↔ ∀ q < frag.dst.length, frag.doneBits.getD q false = true := by
  have atMost : frag.doneBits.count true ≤ frag.dst.length := sameLength ▸ count_le_length
  unfold isDone
  rw [decide_eq_true_iff, counts]
  constructor
  · intro enough q inRange
    have allSet := count_eq_length.mp (sameLength ▸ Nat.le_antisymm atMost enough)
    rw [← sameLength] at inRange
    rw [getD_eq_getElem _ _ inRange]
    exact (allSet _ (getElem_mem inRange)).symm
  · intro allSet
    have full : frag.doneBits.count true = frag.doneBits.length := by
      rw [count_eq_length]
      intro bit mem
      rcases getElem_of_mem mem with ⟨q, inRange, bitEq⟩
      have set := allSet q (sameLength ▸ inRange)
      rw [getD_eq_getElem _ _ inRange, bitEq] at set
      exact set.symm
    rw [full, sameLength]

end FragmentDeserializeWrapper

end Eagine.Serialization
