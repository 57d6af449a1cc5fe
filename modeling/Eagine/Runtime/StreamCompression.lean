import Eagine.Serialization.Block

/-!
# The deflate functions of zlib

What the data compressor relies on. The library is a parameter, and its documented behaviour is
stated as laws: an output that is not finished grows with each call, the stream ends only when it
is to be finished and when all of it was written.
-/

namespace Eagine.Runtime

open Serialization

universe u

/-- The results of the functions of the library. -/
inductive ZlibResult where
  | ok
  | streamEnd
  | bufError
  | error (code : Int)
deriving DecidableEq

/-- `Z_STREAM_ERROR` -/
def ZlibResult.streamError : ZlibResult :=
  .error (-2)

inductive ZlibFlush where
  | noFlush
  | finish
deriving DecidableEq

/-- What a call of `deflate` does: its result, the stream after it, how much of the input it took
and what it wrote. -/
structure Deflated (Stream : Type u) where
  result : ZlibResult
  stream : Stream
  taken : Nat
  written : Block

/-- The library. The input and output of a stream so far, the number of bytes that it takes to
finish it after some input, and the complete streams are what the documentation speaks about. -/
structure Zlib (Stream : Type u) where
  deflateInit : Int → Except Int Stream
  deflate : ZlibFlush → Stream → Block → Nat → Deflated Stream
  consumed : Stream → Block
  produced : Stream → Block
  pending : Stream → Block → Nat
  deflateBound : Nat → Nat
  IsStream : Block → Block → Prop

/-- The documented behaviour. -/
structure Zlib.Lawful {Stream : Type u} (zlib : Zlib Stream) : Prop where
  init_consumed : ∀ {level stream}, zlib.deflateInit level = .ok stream →
    zlib.consumed stream = []
  init_produced : ∀ {level stream}, zlib.deflateInit level = .ok stream →
    zlib.produced stream = []
  /-- The input is taken from the front. -/
  deflate_consumed : ∀ flush stream input room,
    zlib.consumed (zlib.deflate flush stream input room).stream =
      zlib.consumed stream ++ input.take (zlib.deflate flush stream input room).taken
  deflate_produced : ∀ flush stream input room,
    zlib.produced (zlib.deflate flush stream input room).stream =
      zlib.produced stream ++ (zlib.deflate flush stream input room).written
  written_le : ∀ flush stream input room,
    (zlib.deflate flush stream input room).written.length ≤ room
  /-- The end of the stream is reported when all input was taken and all output written. -/
  streamEnd : ∀ {flush stream input room},
    (zlib.deflate flush stream input room).result = .streamEnd →
      flush = .finish ∧ input.length ≤ (zlib.deflate flush stream input room).taken ∧
        zlib.IsStream (zlib.consumed (zlib.deflate flush stream input room).stream)
          (zlib.produced (zlib.deflate flush stream input room).stream)
  /-- There is more to be written than there is room for, and some room. -/
  finish_ok : ∀ {stream input room}, (zlib.deflate .finish stream input room).result = .ok →
    room ≠ 0 ∧ room < zlib.pending stream input
  /-- Without a flush, `deflate` stops when the input is empty or the output full. -/
  noFlush_ok : ∀ {stream input room}, (zlib.deflate .noFlush stream input room).result = .ok →
    input.length ≤ (zlib.deflate .noFlush stream input room).taken ∨
      (zlib.deflate .noFlush stream input room).written.length = room
  /-- No progress is possible. -/
  bufError : ∀ {flush stream input room},
    (zlib.deflate flush stream input room).result = .bufError → input = [] ∨ room = 0
  produced_le : ∀ stream,
    (zlib.produced stream).length ≤ zlib.deflateBound (zlib.consumed stream).length
  deflateBound_mono : ∀ {small large}, small ≤ large →
    zlib.deflateBound small ≤ zlib.deflateBound large

/-- The Adler-32 checksum. -/
def adler32 (data : Block) : Nat :=
  let sums := data.foldl
    (fun (sums : Nat × Nat) byte =>
      ((sums.1 + byte.toNat) % 65521, (sums.2 + (sums.1 + byte.toNat)) % 65521)) (1, 0)
  sums.2 * 2 ^ 16 + sums.1

/-- The header of a stream of the lowest level. -/
def storedHeader : Block :=
  [0x78, 0x01]

/-- The last block of the stream has the length of the data and its complement. -/
def storedStream (input : Block) : Block :=
  storedHeader ++ ([0x01, UInt8.ofNat input.length, UInt8.ofNat (input.length / 256),
    ~~~UInt8.ofNat input.length, ~~~UInt8.ofNat (input.length / 256)] ++
    (input ++ [UInt8.ofNat (adler32 input / 2 ^ 24), UInt8.ofNat (adler32 input / 2 ^ 16),
      UInt8.ofNat (adler32 input / 2 ^ 8), UInt8.ofNat (adler32 input)]))

/-- The data of a stream that are to be stored, and how much of it was written. -/
structure StoredStream where
  consumed : Block
  written : Nat
deriving DecidableEq

/-- What is written so far goes up to the header, or to the end of the stream. -/
def storedTarget : ZlibFlush → Block → Block
  | .noFlush, _ => storedHeader
  | .finish, consumed => storedStream consumed

/-- The library for the level without compression, and for data that fit into one block. -/
def storedZlib : Zlib StoredStream where
  deflateInit _ := .ok ⟨[], 0⟩
  deflate flush stream input room :=
    let consumed := stream.consumed ++ input
    let rest := (storedTarget flush consumed).drop stream.written
    if room = 0 ∨ flush = .noFlush ∧ input = [] ∧ rest = [] then ⟨.bufError, stream, 0, []⟩
    else if 2 < stream.written ∧ input ≠ [] then ⟨.streamError, stream, 0, []⟩
    else
      ⟨if flush = .finish ∧ rest.length ≤ room then .streamEnd else .ok,
        ⟨consumed, stream.written + (rest.take room).length⟩, input.length, rest.take room⟩
  consumed := StoredStream.consumed
  produced stream := (storedStream stream.consumed).take stream.written
  pending stream input := (storedStream (stream.consumed ++ input)).length - stream.written
  deflateBound size := size + 11
  IsStream input output := output = storedStream input

theorem length_storedStream (input : Block) : (storedStream input).length = input.length + 11 := by
  simp [storedStream, storedHeader]

/-- The header does not depend on the data. -/
theorem take_storedStream {size : Nat} (inHeader : size ≤ 2) (first second : Block) :
    (storedStream first).take size = (storedStream second).take size := by
  have header (input : Block) : (storedStream input).take size = storedHeader.take size :=
    List.take_append_of_le_length inHeader
  rw [header, header]

theorem isPrefix_storedTarget (flush : ZlibFlush) (consumed : Block) :
    storedTarget flush consumed <+: storedStream consumed := by
  cases flush with
  | noFlush => exact List.prefix_append _ _
  | finish => exact List.prefix_rfl

/-- The next part of a prefix, behind what was taken of the whole. -/
theorem take_append_rest {front whole : Block} (isPrefix : front <+: whole) (size room : Nat) :
    whole.take (size + ((front.drop size).take room).length) =
      whole.take size ++ (front.drop size).take room := by
  rcases isPrefix with ⟨back, rfl⟩
  rw [List.take_add, List.append_right_inj]
  rcases Nat.le_total size front.length with inside | outside
  · rw [List.drop_append_of_le_length inside]
    have within : ((front.drop size).take room).length ≤ (front.drop size).length :=
      (List.take_sublist _ _).length_le
    rw [List.take_append_of_le_length within, List.length_take]
    rcases Nat.le_total room (front.drop size).length with few | many
    · rw [Nat.min_eq_left few]
    · rw [Nat.min_eq_right many, List.take_length, List.take_of_length_le many]
  · rw [List.drop_eq_nil_of_le outside]
    simp

theorem storedZlib_lawful : storedZlib.Lawful where
  init_consumed := by
    rintro level stream ⟨⟩
    rfl
  init_produced := by
    rintro level stream ⟨⟩
    rfl
  deflate_consumed flush stream input room := by
    simp only [storedZlib]
    split
    · simp
    · split <;> simp
  deflate_produced flush stream input room := by
    simp only [storedZlib]
    split
    · simp
    · split
      · simp
      · rename_i notMixed
        rw [take_append_rest (isPrefix_storedTarget _ _)]
        congr 1
        by_cases nothing : input = []
        · rw [nothing, List.append_nil]
        · exact take_storedStream (Nat.le_of_not_lt fun mixed => notMixed ⟨mixed, nothing⟩) _ _
  written_le flush stream input room := by
    simp only [storedZlib]
    split
    · simp
    · split <;> simp
  streamEnd := by
    intro flush stream input room ended
    simp only [storedZlib] at ended ⊢
    split at ended
    · exact absurd ended (by simp)
    · rename_i progress
      split at ended
      · exact absurd ended (by simp [ZlibResult.streamError])
      · rename_i notMixed
        rw [if_neg progress, if_neg notMixed]
        have finished : flush = .finish ∧
            ((storedTarget flush (stream.consumed ++ input)).drop stream.written).length ≤ room := by
          by_contra unfinished
          rw [if_neg unfinished] at ended
          exact ZlibResult.noConfusion ended
        rcases finished with ⟨rfl, fits⟩
        refine ⟨rfl, le_rfl, ?_⟩
        rw [List.take_of_length_le fits]
        apply List.take_of_length_le
        simp only [storedTarget, List.length_drop]
        omega
  finish_ok := by
    intro stream input room unfinished
    simp only [storedZlib] at unfinished ⊢
    split at unfinished
    · exact absurd unfinished (by simp)
    · rename_i progress
      split at unfinished
      · exact absurd unfinished (by simp [ZlibResult.streamError])
      · refine ⟨fun nothing => progress (.inl nothing), ?_⟩
        by_contra enough
        have fits : ((storedTarget .finish (stream.consumed ++ input)).drop
            stream.written).length ≤ room := by
          simpa [storedTarget] using Nat.le_of_not_lt enough
        rw [if_pos ⟨trivial, fits⟩] at unfinished
        exact ZlibResult.noConfusion unfinished
  noFlush_ok := by
    intro stream input room isOk
    left
    simp only [storedZlib] at isOk ⊢
    split at isOk
    · exact absurd isOk (by simp)
    · rename_i progress
      split at isOk
      · exact absurd isOk (by simp [ZlibResult.streamError])
      · rename_i notMixed
        rw [if_neg progress, if_neg notMixed]
  bufError := by
    intro flush stream input room stuck
    simp only [storedZlib] at stuck
    split at stuck
    · rename_i nothing
      rcases nothing with noRoom | ⟨_, noInput, _⟩
      · exact .inr noRoom
      · exact .inl noInput
    · split at stuck
      · exact absurd stuck (by simp [ZlibResult.streamError])
      · exact absurd stuck (by split <;> simp)
  produced_le stream := by
    refine (List.take_sublist _ _).length_le.trans ?_
    rw [length_storedStream]
    rfl
  deflateBound_mono := Nat.add_le_add_right (k := 11)

end Eagine.Runtime

/-!
## Stream compression

The compressor that is implemented by zlib, and the helper that feeds it with the blocks of a
stream. The packed data are passed to a handler, which takes or rejects each block.
-/

namespace Eagine.Runtime

open Serialization

universe u

inductive DataCompressionLevel where
  | none
  | lowest
  | normal
  | highest
deriving DecidableEq

inductive DataCompressionMethod where
  | unknown
  | none
  | zlib
deriving DecidableEq

/-- A data handler. Its answer may depend on the blocks that it was given before, and on what it
answered. -/
abbrev DataHandler :=
  List (Block × Bool) → Block → Bool

/-- The size of the buffer for the packed data. -/
def tempSize : Nat :=
  64 * 1024

/-- The `limit_cast` of a size to an `unsigned`. -/
def limitCast (size : Nat) : Nat :=
  size % 2 ^ 32

/-- `zlib_data_compressor_impl`, with the blocks that the handler was given. The stream is missing
where its state was not initialized or released. What was written into the buffer stands for
`next_out` and `avail_out`. -/
structure ZlibDataCompressor (Stream : Type u) where
  zsd : Option Stream := none
  nextIn : Block := []
  temp : Block := []
  zdLvl : Int := -1
  zdRes : ZlibResult := .streamEnd
  offered : List (Block × Bool) := []

namespace ZlibDataCompressor

variable {Stream : Type u}

def availOut (compressor : ZlibDataCompressor Stream) : Nat :=
  tempSize - compressor.temp.length

/-- The data that the handler took. -/
def accepted (compressor : ZlibDataCompressor Stream) : Block :=
  ((compressor.offered.filter Prod.snd).map Prod.fst).flatten

def translate : DataCompressionLevel → Int
  | .normal => -1
  | .none => 0
  | .lowest => 1
  | .highest => 9

def compressBegin (method : DataCompressionMethod) (level : DataCompressionLevel)
    (compressor : ZlibDataCompressor Stream) : Bool × ZlibDataCompressor Stream :=
  if method ≠ .zlib then (false, compressor)
  else if compressor.zdRes ≠ .streamEnd then (false, compressor)
  else (true, { compressor with zdLvl := translate level })

def compressHandleData (handler : DataHandler) (compressor : ZlibDataCompressor Stream) :
    Bool × ZlibDataCompressor Stream :=
  if compressor.temp = [] then (true, compressor)
  else
    let answer := handler compressor.offered compressor.temp
    let offered := compressor.offered ++ [(compressor.temp, answer)]
    if answer then (true, { compressor with temp := [], offered }) else
      (false, { compressor with offered })

variable (zlib : Zlib Stream)

/-- A call of `deflate`. -/
def deflate (flush : ZlibFlush) (compressor : ZlibDataCompressor Stream) :
    ZlibDataCompressor Stream :=
  match compressor.zsd with
  | none => { compressor with zdRes := .streamError }
  | some stream =>
      let deflated := zlib.deflate flush stream compressor.nextIn compressor.availOut
      { compressor with
        zsd := some deflated.stream
        nextIn := compressor.nextIn.drop deflated.taken
        temp := compressor.temp ++ deflated.written
        zdRes := deflated.result }

/-- The loop of `compress_next`. -/
def compressLoop (handler : DataHandler) :
    Nat → ZlibDataCompressor Stream → Option (Bool × ZlibDataCompressor Stream)
  | 0, _ => none
  | fuel + 1, compressor =>
      let deflated := compressor.deflate zlib .noFlush
      match deflated.zdRes with
      | .bufError =>
          let handled := deflated.compressHandleData handler
          if handled.1 then compressLoop handler fuel handled.2 else some (false, handled.2)
      | .error _ => some (false, deflated)
      | _ =>
          let handled :=
            if deflated.availOut = 0 then deflated.compressHandleData handler
            else (true, deflated)
          if handled.1 = false then some (false, handled.2)
          else if handled.2.nextIn = [] then
            let last := handled.2.compressHandleData handler
            some (last.1 && decide (last.2.zdRes = .ok), last.2)
          else compressLoop handler fuel handled.2

/-- The stream is initialized when the last one was ended. -/
def initialized (compressor : ZlibDataCompressor Stream) : ZlibDataCompressor Stream :=
  if compressor.zdRes = .streamEnd then
    match zlib.deflateInit compressor.zdLvl with
    | .ok stream => { compressor with zsd := some stream, zdRes := .ok }
    | .error code => { compressor with zsd := none, zdRes := .error code }
  else compressor

/-- The block is to be compressed into an empty buffer. -/
def fed (input : Block) (compressor : ZlibDataCompressor Stream) : ZlibDataCompressor Stream :=
  { compressor with nextIn := input.take (limitCast input.length), temp := [] }

def compressNext (handler : DataHandler) (fuel : Nat) (input : Block)
    (compressor : ZlibDataCompressor Stream) : Option (Bool × ZlibDataCompressor Stream) :=
  let ready := (compressor.fed input).initialized zlib
  if ready.zdRes ≠ .ok then some (false, ready) else ready.compressLoop zlib handler fuel

/-- `deflateEnd`, and the result that allows to begin the next transaction. -/
def cleanup (compressor : ZlibDataCompressor Stream) : ZlibDataCompressor Stream :=
  { compressor with zsd := none, zdRes := .streamEnd }

def compressFinish (handler : DataHandler) (compressor : ZlibDataCompressor Stream) :
    Bool × ZlibDataCompressor Stream :=
  if compressor.zdRes = .streamEnd then (true, compressor.cleanup)
  else
    let deflated := compressor.deflate zlib .finish
    if deflated.zdRes = .streamEnd ∨ deflated.zdRes = .ok then
      let handled := deflated.compressHandleData handler
      (handled.1, handled.2.cleanup)
    else (false, deflated.cleanup)

end ZlibDataCompressor

structure StreamCompression (Stream : Type u) where
  compressor : ZlibDataCompressor Stream := {}
  method : DataCompressionMethod
  started : Bool := false
  finished : Bool := false
  failed : Bool := false

namespace StreamCompression

variable {Stream : Type u} (zlib : Zlib Stream) (handler : DataHandler)

def hasSucceeded (stream : StreamCompression Stream) : Bool :=
  !stream.failed

def begun (level : DataCompressionLevel) (stream : StreamCompression Stream) :
    StreamCompression Stream :=
  if stream.started then stream
  else
    let begin := stream.compressor.compressBegin stream.method level
    if begin.1 then { stream with compressor := begin.2, started := true }
    else { stream with compressor := begin.2, failed := true }

/-- The end of the compression, with the compressor that comes to it. -/
def ended (compressor : ZlibDataCompressor Stream) (stream : StreamCompression Stream) :
    StreamCompression Stream :=
  let finish := compressor.compressFinish zlib handler
  { stream with compressor := finish.2, finished := true, failed := !finish.1 }

def next (fuel : Nat) (input : Block) (level : DataCompressionLevel)
    (stream : StreamCompression Stream) : Option (StreamCompression Stream) :=
  let stream := stream.begun level
  if stream.started then
    if input = [] then some (stream.ended zlib handler stream.compressor)
    else
      (stream.compressor.compressNext zlib handler fuel input).map fun next =>
        if next.1 then { stream with compressor := next.2 }
        else stream.ended zlib handler next.2
  else some stream

def finish (stream : StreamCompression Stream) : StreamCompression Stream :=
  if stream.started && !stream.finished then stream.ended zlib handler stream.compressor
  else stream

/-- A call of one of the functions. -/
inductive Call where
  | next (input : Block) (level : DataCompressionLevel)
  | finish
deriving DecidableEq

def call (fuel : Nat) (stream : StreamCompression Stream) :
    Call → Option (StreamCompression Stream)
  | .next input level => stream.next zlib handler fuel input level
  | .finish => some (stream.finish zlib handler)

/-- The calls, one after the other. Each loop may take so many steps. -/
def run (fuel : Nat) (calls : List Call) (stream : StreamCompression Stream) :
    Option (StreamCompression Stream) :=
  calls.foldlM (call zlib handler fuel) stream

/-- The concatenated blocks. -/
def inputs : List Call → Block
  | [] => []
  | .next input _ :: calls => input ++ inputs calls
  | .finish :: calls => inputs calls

end StreamCompression

end Eagine.Runtime
