import Eagine.Types.Bitfield

/-!
# Sinks and sources over a memory block

`BlockDataSink` is a pre-allocated block that is filled from its start; a write
that does not fit stores what there is room for and reports it as incomplete.
Its save points are the fill levels to which open transactions can be rewound.
`BlockDataSource` is a block that is read from its start.
-/

/-!
## Error reports of the serialization layer

Every operation of a sink, a source or a backend returns a bit-field of error
codes; the empty field means success.
-/

namespace Eagine.Serialization

inductive SerializationErrorCode where
  | notSupported
  | tooMuchData
  | incompleteWrite
  | dataSinkError
  | backendError
deriving DecidableEq

instance : BitEnum SerializationErrorCode where
  width := 8
  value
    | .notSupported => 1
    | .tooMuchData => 2
    | .incompleteWrite => 4
    | .dataSinkError => 8
    | .backendError => 16

inductive DeserializationErrorCode where
  | notSupported
  | notEnoughData
  | unexpectedData
  | incompleteRead
  | missingElement
  | excessElement
  | missingMember
  | excessMember
  | invalidFormat
  | dataSourceError
  | backendError
deriving DecidableEq

instance : BitEnum DeserializationErrorCode where
  width := 16
  value
    | .notSupported => 1
    | .notEnoughData => 2
    | .unexpectedData => 4
    | .incompleteRead => 8
    | .missingElement => 16
    | .excessElement => 32
    | .missingMember => 64
    | .excessMember => 128
    | .invalidFormat => 256
    | .dataSourceError => 512
    | .backendError => 1024

abbrev SerializationErrors :=
  Bitfield SerializationErrorCode

abbrev DeserializationErrors :=
  Bitfield DeserializationErrorCode

/-- The report of a write that did not fit. -/
def incomplete : SerializationErrors :=
  .ofBit .incompleteWrite

theorem incomplete_ne_empty : incomplete ≠ ∅ := by
  decide

@[simp]
theorem isEmpty_incomplete : incomplete.isEmpty = false := by
  decide

theorem has_notEnoughData :
    (Bitfield.ofBit .notEnoughData : DeserializationErrors).has .notEnoughData = true := by
  decide

theorem not_has_empty : ¬(∅ : DeserializationErrors).has .notEnoughData = true := by
  decide

theorem ne_empty_of_has_notEnoughData {errors : DeserializationErrors}
    (flag : errors.has .notEnoughData = true) : errors ≠ ∅ := by
  rintro rfl
  exact not_has_empty flag

/-- Contents of a memory block, a string or a span of characters. -/
abbrev Block :=
  List UInt8

instance : LawfulBEq Block :=
  inferInstance

/-- A sink backed by a block of `capacity` bytes, of which `written` are done.
The innermost save point comes first. -/
@[ext]
structure BlockDataSink where
  capacity : Nat
  written : Block
  fits : written.length ≤ capacity
  savePoints : List Nat

/-- Operations on the sink, as state passing. -/
abbrev SinkM :=
  StateM BlockDataSink

@[simp]
theorem sink_bind_apply {α β : Type} (first : SinkM α) (next : α → SinkM β)
    (sink : BlockDataSink) :
    (first >>= next) sink = next (first sink).1 (first sink).2 :=
  rfl

@[simp]
theorem sink_map_apply {α β : Type} (f : α → β) (operation : SinkM α) (sink : BlockDataSink) :
    (f <$> operation) sink = (f (operation sink).1, (operation sink).2) :=
  rfl

@[simp]
theorem sink_pure_apply {α : Type} (value : α) (sink : BlockDataSink) :
    (pure value : SinkM α) sink = (value, sink) :=
  rfl

namespace BlockDataSink

/-- A sink over an empty block of the given size. -/
def ofSize (size : Nat) : BlockDataSink where
  capacity := size
  written := []
  fits := Nat.zero_le size
  savePoints := []

/-- The size of the free part of the backing block. -/
def remainingSize (sink : BlockDataSink) : Nat :=
  sink.capacity - sink.written.length

/-- Copies to the free part as much of `blk` as it can hold. -/
def store (sink : BlockDataSink) (blk : Block) : BlockDataSink where
  capacity := sink.capacity
  written := sink.written ++ blk.take sink.remainingSize
  fits := by
    have room := sink.fits
    simp only [remainingSize, List.length_append, List.length_take]
    omega
  savePoints := sink.savePoints

def write (blk : Block) : SinkM SerializationErrors := fun sink =>
  if sink.remainingSize < blk.length then
    (incomplete, sink.store (blk.take sink.remainingSize))
  else
    (∅, sink.store blk)

/-- Opens a transaction; the handle is the number of open transactions. -/
def beginWork : SinkM Nat := fun sink =>
  let opened := { sink with savePoints := sink.written.length :: sink.savePoints }
  (opened.savePoints.length, opened)

/-- Closes the innermost transaction and keeps what it wrote. -/
def commit (_handle : Nat) : SinkM SerializationErrors := fun sink =>
  (∅, { sink with savePoints := sink.savePoints.tail })

/-- Closes the innermost transaction and rewinds to its save point. -/
def rollback (_handle : Nat) : SinkM Unit := fun sink =>
  match sink.savePoints with
  | [] => ((), sink)
  | mark :: rest =>
      ((), {
        capacity := sink.capacity
        written := sink.written.take mark
        fits := (List.length_take_le' mark sink.written).trans sink.fits
        savePoints := rest })

/-- A block sink needs no finalization. -/
def finalize : SinkM SerializationErrors :=
  pure ∅

@[simp]
theorem remainingSize_ofSize (size : Nat) : (ofSize size).remainingSize = size := by
  simp [remainingSize, ofSize]

theorem store_written (sink : BlockDataSink) (blk : Block) :
    (sink.store blk).written = sink.written ++ blk.take sink.remainingSize :=
  rfl

variable {blk : Block}

theorem store_written_of_le {sink : BlockDataSink} (room : blk.length ≤ sink.remainingSize) :
    (sink.store blk).written = sink.written ++ blk := by
  rw [store_written, List.take_of_length_le room]

/-- What fits into an empty block is all that is written into it. -/
theorem written_store_ofSize {room : Nat} (enough : blk.length ≤ room) :
    ((ofSize room).store blk).written = blk := by
  rw [store_written_of_le]
  · rfl
  · rwa [remainingSize_ofSize]

@[simp]
theorem remainingSize_store (sink : BlockDataSink) (blk : Block) :
    (sink.store blk).remainingSize = sink.remainingSize - blk.length := by
  simp only [remainingSize, store, List.length_append, List.length_take]
  omega

@[simp]
theorem store_nil (sink : BlockDataSink) : sink.store [] = sink := by
  ext1 <;> simp [store]

@[simp]
theorem store_take (sink : BlockDataSink) (blk : Block) :
    sink.store (blk.take sink.remainingSize) = sink.store blk := by
  ext1 <;> simp [store, List.take_take]

/-- Storing piece by piece is storing the pieces at once, whether or not they
all fit. -/
theorem store_store (sink : BlockDataSink) (first second : Block) :
    (sink.store first).store second = sink.store (first ++ second) := by
  ext1
  · rfl
  · rw [store_written, remainingSize_store, store_written, store_written,
      List.take_append, List.append_assoc]
  · rfl

theorem write_apply (blk : Block) (sink : BlockDataSink) :
    write blk sink =
      (if sink.remainingSize < blk.length then incomplete else ∅, sink.store blk) := by
  unfold write
  split <;> simp

@[simp]
theorem write_nil : write [] = pure ∅ := by
  funext sink
  simp [write_apply]

/-- Nothing can be stored behind what has filled the sink. -/
theorem store_append_of_full {sink : BlockDataSink}
    (full : sink.remainingSize ≤ blk.length) (more : Block) :
    sink.store (blk ++ more) = sink.store blk := by
  ext1
  · rfl
  · rw [store_written, store_written, List.take_append_of_le_length full]
  · rfl

/-- A write followed by an operation that writes after a success and does
nothing after a failure is a single write. -/
theorem write_bind {next : SerializationErrors → SinkM SerializationErrors} {more : Block}
    (blk : Block) (proceeds : next ∅ = write more) (stops : next incomplete = pure incomplete) :
    (write blk >>= next) = write (blk ++ more) := by
  funext sink
  rw [sink_bind_apply, write_apply, write_apply, List.length_append]
  by_cases tooSmall : sink.remainingSize < blk.length
  · rw [if_pos tooSmall, if_pos (Nat.lt_add_right more.length tooSmall), stops,
      store_append_of_full tooSmall.le]
    rfl
  · rw [if_neg tooSmall, proceeds, write_apply, remainingSize_store, store_store]
    have sameRoom : sink.remainingSize - blk.length < more.length ↔
        sink.remainingSize < blk.length + more.length := by omega
    simp only [sameRoom]

/-- Two writes with merged reports are a single write. -/
theorem write_write (first second : Block) :
    (do let errors ← write first; let more ← write second; pure (errors ||| more)) =
      write (first ++ second) := by
  funext sink
  simp only [sink_bind_apply, sink_pure_apply, write_apply, remainingSize_store, store_store,
    List.length_append]
  by_cases tooSmall : sink.remainingSize < first.length
  · rw [if_pos tooSmall, if_pos (Nat.lt_add_right second.length tooSmall)]
    split <;> rfl
  · have sameRoom : sink.remainingSize - first.length < second.length ↔
        sink.remainingSize < first.length + second.length := by omega
    rw [if_neg tooSmall]
    simp [sameRoom]

@[simp]
theorem beginWork_snd (sink : BlockDataSink) :
    (beginWork sink).2 =
      { sink with savePoints := sink.written.length :: sink.savePoints } :=
  rfl

@[simp]
theorem commit_apply (handle : Nat) (sink : BlockDataSink) :
    commit handle sink = (∅, { sink with savePoints := sink.savePoints.tail }) :=
  rfl

end BlockDataSink

/-- A source backed by a block, of which the first `done` bytes are consumed. -/
@[ext]
structure BlockDataSource where
  src : Block
  done : Nat
deriving DecidableEq

/-- Operations that read from a source.  The outer `Option` is empty where the
program does not return: a container cannot be resized to a negative length. -/
abbrev ReadM (σ : Type) :=
  StateT σ Option

/-- Operations on a block source. -/
abbrev SourceM :=
  ReadM BlockDataSource

@[simp]
theorem read_bind_apply {σ α β : Type} (first : ReadM σ α) (next : α → ReadM σ β) (state : σ) :
    (first >>= next) state = (first state).bind fun result => next result.1 result.2 :=
  rfl

@[simp]
theorem read_map_apply {σ α β : Type} (f : α → β) (operation : ReadM σ α) (state : σ) :
    (f <$> operation) state = (operation state).bind fun result => some (f result.1, result.2) :=
  rfl

@[simp]
theorem read_pure_apply {σ α : Type} (value : α) (state : σ) :
    (pure value : ReadM σ α) state = some (value, state) :=
  rfl

namespace BlockDataSource

def ofBlock (src : Block) : BlockDataSource :=
  ⟨src, 0⟩

def remaining (source : BlockDataSource) : Block :=
  source.src.drop source.done

/-- At most `size` bytes from the top of the source. -/
def top (source : BlockDataSource) (size : Nat) : Block :=
  source.remaining.take size

def pop (source : BlockDataSource) (size : Nat) : BlockDataSource :=
  { source with done := source.done + size }

@[simp]
theorem remaining_ofBlock (src : Block) : (ofBlock src).remaining = src :=
  rfl

@[simp]
theorem remaining_pop (source : BlockDataSource) (size : Nat) :
    (source.pop size).remaining = source.remaining.drop size := by
  simp [remaining, pop]

/-- What is left behind a text that was popped -/
theorem remaining_pop_of_append {source : BlockDataSource} {text rest : Block}
    (starts : source.remaining = text ++ rest) : (source.pop text.length).remaining = rest := by
  rw [remaining_pop, starts, List.drop_left]

theorem remaining_pop_of_delimited {source : BlockDataSource} {text rest : Block}
    {delimiter : UInt8} (starts : source.remaining = text ++ delimiter :: rest) :
    (source.pop (text.length + 1)).remaining = rest := by
  have behind := remaining_pop_of_append (starts.trans (List.append_cons text delimiter rest))
  rwa [List.length_append, List.length_singleton] at behind

@[simp]
theorem pop_pop (source : BlockDataSource) (first second : Nat) :
    (source.pop first).pop second = source.pop (first + second) := by
  simp [pop, Nat.add_assoc]

end BlockDataSource

end Eagine.Serialization
