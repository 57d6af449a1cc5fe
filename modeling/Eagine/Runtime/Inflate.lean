import Eagine.Runtime.StreamCompression

/-!
# The inflate functions of zlib

What the data decompressor relies on. The library is a parameter, and its documented behaviour is
stated as laws: each call makes progress or says that it can not, what is written is what the input
is uncompressed to, and nothing is taken after the end of the stream.
-/

namespace Eagine.Runtime

open Serialization

universe u

/-- `Z_DATA_ERROR` -/
def ZlibResult.dataError : ZlibResult :=
  .error (-3)

/-- What a call of `inflate` does: its result, the stream after it, how much of the input it took
and what it wrote. -/
structure Inflated (Stream : Type u) where
  result : ZlibResult
  stream : Stream
  taken : Nat
  written : Block

/-- What the input comes to for a stream: it may be a part of it, be the rest of it with so many
bytes that are left behind the end, or be something that can not be uncompressed. -/
inductive InflateEnding where
  | unfinished
  | ended (left : Nat)
  | invalid
deriving DecidableEq

/-- The library. What the input of a stream is uncompressed to, what it comes to, and the streams
that have ended are what the documentation speaks about. -/
structure Inflater (Stream : Type u) where
  inflateInit : Except Int Stream
  inflate : Stream → Block → Nat → Inflated Stream
  uncompressed : Stream → Block → Block
  ending : Stream → Block → InflateEnding
  Ended : Stream → Prop

/-- The documented behaviour. -/
structure Inflater.Lawful {Stream : Type u} (inflater : Inflater Stream) : Prop where
  taken_le : ∀ stream input room,
    (inflater.inflate stream input room).taken ≤ input.length
  written_le : ∀ stream input room,
    (inflater.inflate stream input room).written.length ≤ room
  /-- What is not written is written by the calls with the rest of the input. -/
  uncompressed_eq : ∀ stream input room,
    inflater.uncompressed stream input =
      (inflater.inflate stream input room).written ++
        inflater.uncompressed (inflater.inflate stream input room).stream
          (input.drop (inflater.inflate stream input room).taken)
  ending_eq : ∀ stream input room,
    inflater.ending stream input =
      inflater.ending (inflater.inflate stream input room).stream
        (input.drop (inflater.inflate stream input room).taken)
  /-- Some progress was made. -/
  ok_progress : ∀ {stream input room}, (inflater.inflate stream input room).result = .ok →
    (inflater.inflate stream input room).taken ≠ 0 ∨
      (inflater.inflate stream input room).written ≠ []
  /-- `inflate` stops when the input is empty or the output full. -/
  ok_stops : ∀ {stream input room}, (inflater.inflate stream input room).result = .ok →
    (inflater.inflate stream input room).taken = input.length ∨
      (inflater.inflate stream input room).written.length = room
  /-- No progress is possible. -/
  bufError : ∀ {stream input room}, (inflater.inflate stream input room).result = .bufError →
    (inflater.inflate stream input room).taken = 0 ∧
      (inflater.inflate stream input room).written = [] ∧
        (room = 0 ∨ input = [] ∧ inflater.uncompressed stream input = [] ∧
          inflater.ending stream input = .unfinished)
  /-- The end of the stream was reached, and all output written. -/
  streamEnd : ∀ {stream input room}, (inflater.inflate stream input room).result = .streamEnd →
    inflater.Ended (inflater.inflate stream input room).stream
  error : ∀ {stream input room code},
    (inflater.inflate stream input room).result = .error code →
      inflater.ending stream input = .invalid
  left_le : ∀ {stream input left}, inflater.ending stream input = .ended left →
    left ≤ input.length
  /-- After the end of the stream, nothing is taken or written. -/
  ended_inflate : ∀ {stream}, inflater.Ended stream → ∀ input room,
    inflater.inflate stream input room = ⟨.streamEnd, stream, 0, []⟩
  ended_uncompressed : ∀ {stream}, inflater.Ended stream → ∀ input,
    inflater.uncompressed stream input = []
  ended_ending : ∀ {stream}, inflater.Ended stream → ∀ input,
    inflater.ending stream input = .ended input.length

/-- A decoder that takes one byte at a time, and writes one at the most for it. -/
structure ByteDecoder (State : Type u) where
  start : State
  step : State → UInt8 → Option (State × Option UInt8)
  isEnded : State → Bool

namespace ByteDecoder

variable {State : Type u} (decoder : ByteDecoder State)

/-- The bytes of the input, as far as there is room for what is written for them. -/
def decode (state : State) : Block → Nat → Inflated State
  | [], _ => ⟨if decoder.isEnded state then .streamEnd else .ok, state, 0, []⟩
  | byte :: input, room =>
      if decoder.isEnded state then ⟨.streamEnd, state, 0, []⟩
      else
        match decoder.step state byte with
        | none => ⟨.dataError, state, 0, []⟩
        | some (next, none) =>
            let rest := decode next input room
            { rest with taken := rest.taken + 1 }
        | some (next, some char) =>
            match room with
            | 0 => ⟨.ok, state, 0, []⟩
            | room + 1 =>
                let rest := decode next input room
                { rest with taken := rest.taken + 1, written := char :: rest.written }

/-- Without progress, `decode` is not ok. -/
def inflate (state : State) (input : Block) (room : Nat) : Inflated State :=
  let decoded := decoder.decode state input room
  if decoded.result = .ok ∧ decoded.taken = 0 then { decoded with result := .bufError }
  else decoded

def uncompressed (state : State) : Block → Block
  | [] => []
  | byte :: input =>
      if decoder.isEnded state then []
      else
        match decoder.step state byte with
        | none => []
        | some (next, written) => written.toList ++ uncompressed next input

def ending (state : State) : Block → InflateEnding
  | [] => if decoder.isEnded state then .ended 0 else .unfinished
  | byte :: input =>
      if decoder.isEnded state then .ended (input.length + 1)
      else
        match decoder.step state byte with
        | none => .invalid
        | some (next, _) => ending next input

/-- The library that the decoder is. -/
def inflater : Inflater State where
  inflateInit := .ok decoder.start
  inflate := decoder.inflate
  uncompressed := decoder.uncompressed
  ending := decoder.ending
  Ended state := decoder.isEnded state = true

/-- What the decoder does with the bytes. -/
structure Decodes (state : State) (input : Block) (room : Nat) (decoded : Inflated State) :
    Prop where
  taken_le : decoded.taken ≤ input.length
  written_le : decoded.written.length ≤ room
  written_nil : decoded.taken = 0 → decoded.written = []
  uncompressed_eq : decoder.uncompressed state input =
    decoded.written ++ decoder.uncompressed decoded.stream (input.drop decoded.taken)
  ending_eq : decoder.ending state input =
    decoder.ending decoded.stream (input.drop decoded.taken)
  not_bufError : decoded.result ≠ .bufError
  ok_stops : decoded.result = .ok →
    decoder.isEnded decoded.stream = false ∧
      (decoded.taken = input.length ∨ decoded.written.length = room)
  streamEnd : decoded.result = .streamEnd → decoder.isEnded decoded.stream = true
  error : ∀ {code}, decoded.result = .error code → decoder.ending state input = .invalid

variable {decoder} in
/-- Nothing is taken or written. -/
theorem Decodes.stopped {state : State} {input : Block} {room : Nat} {result : ZlibResult}
    (notBufError : result ≠ .bufError)
    (stops : result = .ok →
      decoder.isEnded state = false ∧ (0 = input.length ∨ 0 = room))
    (streamEnd : result = .streamEnd → decoder.isEnded state = true)
    (error : ∀ {code}, result = .error code → decoder.ending state input = .invalid) :
    decoder.Decodes state input room ⟨result, state, 0, []⟩ where
  taken_le := Nat.zero_le _
  written_le := Nat.zero_le _
  written_nil _ := rfl
  uncompressed_eq := rfl
  ending_eq := rfl
  not_bufError := notBufError
  ok_stops := stops
  streamEnd := streamEnd
  error := error

variable {decoder} in
/-- A byte is taken, and perhaps one is written. -/
theorem Decodes.cons {state next : State} {byte : UInt8} {input : Block} {room more : Nat}
    {rest : Inflated State} {written : Option UInt8} (decodes : decoder.Decodes next input room rest)
    (notEnded : ¬decoder.isEnded state = true)
    (isStep : decoder.step state byte = some (next, written))
    (roomEq : more = written.toList.length + room) :
    decoder.Decodes state (byte :: input) more
      { rest with taken := rest.taken + 1, written := written.toList ++ rest.written } where
  taken_le := Nat.succ_le_succ decodes.taken_le
  written_le := by
    rw [List.length_append, roomEq]
    exact Nat.add_le_add_left decodes.written_le _
  written_nil none := absurd none (Nat.succ_ne_zero _)
  uncompressed_eq := by
    rw [uncompressed, if_neg notEnded, isStep, List.drop_succ_cons, List.append_assoc,
      ← decodes.uncompressed_eq]
  ending_eq := by
    rw [ending, if_neg notEnded, isStep, List.drop_succ_cons, ← decodes.ending_eq]
  not_bufError := decodes.not_bufError
  ok_stops isOk := by
    rcases decodes.ok_stops isOk with ⟨goesOn, inputEmpty | outputFull⟩
    · exact ⟨goesOn, .inl (congrArg (· + 1) inputEmpty)⟩
    · refine ⟨goesOn, .inr ?_⟩
      rw [List.length_append, outputFull, roomEq]
  streamEnd := decodes.streamEnd
  error isError := by
    rw [ending, if_neg notEnded, isStep]
    exact decodes.error isError

theorem decode_decodes (state : State) (input : Block) (room : Nat) :
    decoder.Decodes state input room (decoder.decode state input room) := by
  fun_induction decode decoder state input room with
  | case1 state room =>
      split
      case isTrue isEnded => exact .stopped nofun nofun (fun _ => isEnded) nofun
      case isFalse goesOn =>
          exact .stopped nofun (fun _ => ⟨Bool.eq_false_iff.mpr goesOn, .inl rfl⟩) nofun nofun
  | case2 state byte input room isEnded => exact .stopped nofun nofun (fun _ => isEnded) nofun
  | case3 state byte input room goesOn broken =>
      refine .stopped nofun nofun nofun fun _ => ?_
      rw [ending, if_neg goesOn, broken]
  | case4 state byte input room goesOn next isStep rest decodes =>
      exact decodes.cons goesOn isStep (Nat.zero_add room).symm
  | case5 state byte input goesOn next char isStep =>
      exact .stopped nofun (fun _ => ⟨Bool.eq_false_iff.mpr goesOn, .inr rfl⟩) nofun nofun
  | case6 state byte input goesOn next char isStep room rest decodes =>
      exact decodes.cons goesOn isStep (Nat.add_comm room 1)

theorem uncompressed_of_isEnded {state : State} (isEnded : decoder.isEnded state = true)
    (input : Block) : decoder.uncompressed state input = [] := by
  cases input with
  | nil => rfl
  | cons byte input => rw [uncompressed, if_pos isEnded]

theorem ending_of_isEnded {state : State} (isEnded : decoder.isEnded state = true)
    (input : Block) : decoder.ending state input = .ended input.length := by
  cases input with
  | nil => rw [ending, if_pos isEnded, List.length_nil]
  | cons byte input => rw [ending, if_pos isEnded, List.length_cons]

theorem left_le_of_ending {state : State} {input : Block} {left : Nat}
    (ended : decoder.ending state input = .ended left) : left ≤ input.length := by
  induction input generalizing state with
  | nil =>
      rw [ending] at ended
      split at ended
      · exact (InflateEnding.ended.inj ended).ge
      · exact absurd ended nofun
  | cons byte input ih =>
      rw [ending] at ended
      split at ended
      · exact (InflateEnding.ended.inj ended).ge
      · split at ended
        · exact absurd ended nofun
        · exact Nat.le_succ_of_le (ih ended)

theorem decode_of_isEnded {state : State} (isEnded : decoder.isEnded state = true)
    (input : Block) (room : Nat) :
    decoder.decode state input room = ⟨.streamEnd, state, 0, []⟩ := by
  cases input with
  | nil => rw [decode, if_pos isEnded]
  | cons byte input => rw [decode, if_pos isEnded]

/-- A stop without progress is one for which nothing is left, or no room. -/
theorem Decodes.stuck {state : State} {input : Block} {room : Nat}
    (isOk : (decoder.decode state input room).result = .ok)
    (nothing : (decoder.decode state input room).taken = 0) :
    room = 0 ∨ input = [] ∧ decoder.uncompressed state input = [] ∧
      decoder.ending state input = .unfinished := by
  have decodes := decoder.decode_decodes state input room
  rcases decodes.ok_stops isOk with ⟨goesOn, inputEmpty | outputFull⟩
  · have isNil : input = [] := List.eq_nil_of_length_eq_zero (inputEmpty.symm.trans nothing)
    subst isNil
    refine .inr ⟨rfl, rfl, ?_⟩
    rw [decodes.ending_eq, List.drop_nil, ending, if_neg (by simp [goesOn])]
  · rw [decodes.written_nil nothing] at outputFull
    exact .inl outputFull.symm

section Inflate

variable (state : State) (input : Block) (room : Nat)

/-- All but the result is that of `decode`. -/
@[simp]
theorem stream_inflate :
    (decoder.inflater.inflate state input room).stream =
      (decoder.decode state input room).stream := by
  simp only [inflater, inflate]
  split <;> rfl

@[simp]
theorem taken_inflate :
    (decoder.inflater.inflate state input room).taken =
      (decoder.decode state input room).taken := by
  simp only [inflater, inflate]
  split <;> rfl

@[simp]
theorem written_inflate :
    (decoder.inflater.inflate state input room).written =
      (decoder.decode state input room).written := by
  simp only [inflater, inflate]
  split <;> rfl

/-- The result is that of `decode`, but where that is ok without progress. -/
theorem result_inflate_cases :
    ((decoder.decode state input room).result = .ok ∧
        (decoder.decode state input room).taken = 0 ∧
        (decoder.inflater.inflate state input room).result = .bufError) ∨
      (((decoder.decode state input room).result = .ok →
          (decoder.decode state input room).taken ≠ 0) ∧
        (decoder.inflater.inflate state input room).result =
          (decoder.decode state input room).result) := by
  simp only [inflater, inflate]
  split
  case isTrue stuck => exact .inl ⟨stuck.1, stuck.2, rfl⟩
  case isFalse progress => exact .inr ⟨fun isOk nothing => progress ⟨isOk, nothing⟩, rfl⟩

/-- A result that is not for want of progress is that of `decode`. -/
theorem result_decode_eq {result : ZlibResult}
    (resultEq : (decoder.inflater.inflate state input room).result = result)
    (notStuck : result ≠ .bufError) : (decoder.decode state input room).result = result := by
  rcases decoder.result_inflate_cases state input room with ⟨_, _, isStuck⟩ | ⟨_, same⟩
  · exact absurd (resultEq.symm.trans isStuck) notStuck
  · exact same.symm.trans resultEq

end Inflate

/-- A decoder of single bytes behaves as documented. -/
theorem inflater_lawful : decoder.inflater.Lawful where
  taken_le state input room := by
    rw [taken_inflate]
    exact (decoder.decode_decodes state input room).taken_le
  written_le state input room := by
    rw [written_inflate]
    exact (decoder.decode_decodes state input room).written_le
  uncompressed_eq state input room := by
    rw [written_inflate, stream_inflate, taken_inflate]
    exact (decoder.decode_decodes state input room).uncompressed_eq
  ending_eq state input room := by
    rw [stream_inflate, taken_inflate]
    exact (decoder.decode_decodes state input room).ending_eq
  ok_progress {state input room} isOk := by
    rw [taken_inflate]
    rcases decoder.result_inflate_cases state input room with ⟨_, _, isStuck⟩ | ⟨progress, same⟩
    · exact absurd (isOk.symm.trans isStuck) nofun
    · exact .inl (progress (same.symm.trans isOk))
  ok_stops {state input room} isOk := by
    rw [taken_inflate, written_inflate]
    exact ((decoder.decode_decodes state input room).ok_stops
      (decoder.result_decode_eq state input room isOk nofun)).2
  bufError {state input room} isStuck := by
    have decodes := decoder.decode_decodes state input room
    rw [taken_inflate, written_inflate]
    rcases decoder.result_inflate_cases state input room with ⟨isOk, nothing, _⟩ | ⟨_, same⟩
    · exact ⟨nothing, decodes.written_nil nothing, Decodes.stuck decoder isOk nothing⟩
    · exact absurd (same.symm.trans isStuck) decodes.not_bufError
  streamEnd {state input room} hasEnded := by
    rw [stream_inflate]
    exact (decoder.decode_decodes state input room).streamEnd
      (decoder.result_decode_eq state input room hasEnded nofun)
  error {state input room _} isError :=
    (decoder.decode_decodes state input room).error
      (decoder.result_decode_eq state input room isError nofun)
  left_le ended := decoder.left_le_of_ending ended
  ended_inflate {stream} isEnded input room := by
    simp only [inflater, inflate, decoder.decode_of_isEnded isEnded]
    rfl
  ended_uncompressed isEnded input := decoder.uncompressed_of_isEnded isEnded input
  ended_ending isEnded input := decoder.ending_of_isEnded isEnded input

end ByteDecoder

/-- Where the decoder of a stream without compression is, with the bytes of the part that it is in
and the data so far. -/
inductive StoredInflate where
  | method
  | flags
  | blockHeader (data : Block)
  | blockLength (final : Bool) (bytes data : Block)
  | stored (left : Nat) (final : Bool) (data : Block)
  | check (bytes data : Block)
  | ended
deriving DecidableEq

namespace StoredInflate

/-- What follows a block. -/
def behind (final : Bool) (data : Block) : StoredInflate :=
  if final then .check [] data else .blockHeader data

/-- The length of a block comes with its complement. -/
def ofLength (final : Bool) (data : Block) : Block → Option StoredInflate
  | [low, high, notLow, notHigh] =>
      if notLow = ~~~low ∧ notHigh = ~~~high then
        match low.toNat + 256 * high.toNat with
        | 0 => some (behind final data)
        | left + 1 => some (.stored (left + 1) final data)
      else none
  | bytes => some (.blockLength final bytes data)

/-- The checksum ends the stream. -/
def ofCheck (data : Block) : Block → Option StoredInflate
  | [first, second, third, fourth] =>
      if ((first.toNat * 256 + second.toNat) * 256 + third.toNat) * 256 + fourth.toNat =
          adler32 data then some .ended
      else none
  | bytes => some (.check bytes data)

def step : StoredInflate → UInt8 → Option (StoredInflate × Option UInt8)
  | .method, byte => if byte = 0x78 then some (.flags, none) else none
  | .flags, byte => if byte = 0x01 then some (.blockHeader [], none) else none
  | .blockHeader data, byte =>
      if byte = 0x00 ∨ byte = 0x01 then some (.blockLength (byte = 0x01) [] data, none) else none
  | .blockLength final bytes data, byte =>
      (ofLength final data (bytes ++ [byte])).map fun next => (next, none)
  | .stored left final data, byte =>
      some (if left ≤ 1 then behind final (data ++ [byte])
        else .stored (left - 1) final (data ++ [byte]), some byte)
  | .check bytes data, byte => (ofCheck data (bytes ++ [byte])).map fun next => (next, none)
  | .ended, _ => none

end StoredInflate

/-- The library for streams without compression. -/
def storedDecoder : ByteDecoder StoredInflate where
  start := .method
  step := StoredInflate.step
  isEnded state := state = .ended

example :
    (storedDecoder.uncompressed .method (storedStream [0x2a, 0x2b] ++ [0x00]),
        storedDecoder.ending .method (storedStream [0x2a, 0x2b] ++ [0x00])) =
      ([0x2a, 0x2b], .ended 1) := by
  decide +kernel

end Eagine.Runtime
