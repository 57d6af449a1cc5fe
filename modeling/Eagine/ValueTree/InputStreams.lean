import Eagine.Theory.Refinement
import Eagine.ValueTree.JsonStreamParser

/-!
# The streams that JSON is read from

The progressive stream is a queue of bytes: blocks go in at one end, and the reader takes the
characters at the other. The chunk stream goes through blocks that are all there from the start.
-/

namespace Eagine.ValueTree

open Serialization List Option

namespace ProgressiveStream

def tell (stream : ProgressiveStream) : Nat :=
  stream.done + stream.offs

/-- What is done with a stream. -/
inductive QueueCall where
  | next (blk : Block)
  | advance
  | take

/-- A stream, and the characters that were taken from it. -/
structure Consumed where
  taken : Block := []
  stream : ProgressiveStream := {}

/-- A block comes next only when there is no current one, and a character is taken only when
there is one. -/
def queueStep (consumed : Consumed) : QueueCall → Option Consumed
  | .next blk =>
      if consumed.stream.current = [] then
        some { consumed with stream := consumed.stream.next blk }
      else none
  | .advance => some { consumed with stream := consumed.stream.advance }
  | .take =>
      if 0 < consumed.stream.available then
        some
          { taken := consumed.taken ++ [consumed.stream.take.1]
            stream := consumed.stream.take.2 }
      else none

/-- The concatenation of the blocks. -/
def fed : List QueueCall → Block
  | [] => []
  | .next blk :: calls => blk ++ fed calls
  | .advance :: calls => fed calls
  | .take :: calls => fed calls

/-- What was fed is what was taken and what is still in the stream. -/
structure Queues (bytes : Block) (consumed : Consumed) : Prop where
  within : consumed.stream.Within
  bytes_eq : consumed.taken ++ consumed.stream.rest = bytes
  tell_eq : consumed.stream.tell = consumed.taken.length

theorem tell_advance {stream : ProgressiveStream} : stream.advance.tell = stream.tell := by
  unfold advance tell
  dsimp only
  by_cases behind : stream.previous.length ≤ stream.offs
  · rw [if_pos behind]
    split
    · change stream.done + stream.previous.length + (stream.offs - stream.previous.length) + 0 = _
      omega
    · change stream.done + stream.previous.length + (stream.offs - stream.previous.length) + 0 = _
      omega
  · rw [if_neg behind]
    split <;> rfl

variable {bytes : Block} {consumed : Consumed}

theorem Queues.next (queues : Queues bytes consumed) (noCurrent : consumed.stream.current = [])
    (blk : Block) : Queues (bytes ++ blk) { consumed with stream := consumed.stream.next blk } := by
  have offs_le : consumed.stream.offs ≤ consumed.stream.previous.length := by
    have within := queues.within
    rwa [Within, noCurrent, length_nil, Nat.add_zero] at within
  have settled : consumed.stream.Settled := ⟨noCurrent, offs_le⟩
  constructor
  case within => exact settled.within_next blk
  case bytes_eq =>
      change consumed.taken ++ (consumed.stream.next blk).rest = bytes ++ blk
      rw [settled.rest_next, ← append_assoc, queues.bytes_eq]
  case tell_eq => exact queues.tell_eq

theorem Queues.advance (queues : Queues bytes consumed) :
    Queues bytes { consumed with stream := consumed.stream.advance } := by
  constructor
  case within => exact queues.within.settled_advance.within
  case bytes_eq =>
      change consumed.taken ++ consumed.stream.advance.rest = bytes
      rw [rest_advance, queues.bytes_eq]
  case tell_eq => exact tell_advance.trans queues.tell_eq

theorem Queues.take (queues : Queues bytes consumed) (some : 0 < consumed.stream.available) :
    Queues bytes
      { taken := consumed.taken ++ [consumed.stream.take.1]
        stream := consumed.stream.take.2 } := by
  rw [available_eq queues.within] at some
  have nonempty : consumed.stream.rest ≠ [] := by
    intro nothing
    rw [nothing] at some
    exact absurd some (by decide)
  rcases exists_cons_of_ne_nil nonempty with ⟨char, rest, restEq⟩
  have charEq : consumed.stream.take.1 = char := by
    change consumed.stream.peek = char
    rw [peek_eq, restEq]
    rfl
  constructor
  case within =>
      have one : 1 ≤ consumed.stream.rest.length := by
        rw [restEq]
        exact Nat.succ_le_succ (Nat.zero_le _)
      exact queues.within.takeMany one
  case bytes_eq =>
      change consumed.taken ++ [consumed.stream.take.1] ++ consumed.stream.take.2.rest = bytes
      rw [rest_take, charEq, restEq, append_assoc, ← queues.bytes_eq, restEq]
      rfl
  case tell_eq =>
      change consumed.stream.done + (consumed.stream.offs + 1) = _
      rw [length_append, ← queues.tell_eq]
      rfl

/-- Every step keeps the queue. -/
theorem Queues.step {after : Consumed} (queues : Queues bytes consumed) {call : QueueCall}
    (stepped : queueStep consumed call = some after) : Queues (bytes ++ fed [call]) after := by
  cases call with
  | next blk =>
      rw [queueStep] at stepped
      split at stepped
      · rename_i noCurrent
        cases stepped
        rw [fed, fed, append_nil]
        exact queues.next noCurrent blk
      · cases stepped
  | advance =>
      cases stepped
      rw [fed, fed, append_nil]
      exact queues.advance
  | take =>
      rw [queueStep] at stepped
      split at stepped
      · rename_i some
        cases stepped
        rw [fed, fed, append_nil]
        exact queues.take some
      · cases stepped

theorem fed_cons (call : QueueCall) (calls : List QueueCall) :
    fed (call :: calls) = fed [call] ++ fed calls := by
  cases call <;> simp [fed]

theorem Queues.run {after : Consumed} (queues : Queues bytes consumed) {calls : List QueueCall}
    (ran : Theory.run queueStep consumed calls = some after) :
    Queues (bytes ++ fed calls) after := by
  induction calls generalizing bytes consumed with
  | nil =>
      cases ran
      rwa [fed, append_nil]
  | cons call calls ih =>
      rcases bind_eq_some_iff.mp ran with ⟨next, stepped, rest⟩
      rw [fed_cons, ← append_assoc]
      exact ih (queues.step stepped) rest

/-- The characters that were taken are the first of those that were fed, and the rest of these
is available. -/
theorem isQueue {calls : List QueueCall} {consumed : Consumed}
    (ran : Theory.run queueStep {} calls = some consumed) :
    consumed.taken <+: fed calls ∧
      consumed.stream.tell = consumed.taken.length ∧
      consumed.stream.available = (fed calls).length - consumed.taken.length ∧
      consumed.stream.getUnused.1.flatten = (fed calls).drop consumed.taken.length := by
  have start : Queues [] {} := ⟨Nat.le_refl _, rfl, rfl⟩
  have queues := start.run ran
  rw [nil_append] at queues
  refine ⟨⟨_, queues.bytes_eq⟩, queues.tell_eq, ?_, ?_⟩
  · rw [available_eq queues.within, ← queues.bytes_eq, length_append]
    omega
  · rw [(getUnused_eq _).1, ← queues.bytes_eq, drop_left]

/-- A block is carried over, and another one is taken in part. -/
theorem isQueue_carriedOver :
    ∃ consumed, Theory.run queueStep {}
        [.next [1, 2, 3], .take, .advance, .next [4, 5], .take, .take, .take, .advance] =
          some consumed ∧
      consumed.taken <+: [1, 2, 3, 4, 5] ∧
      consumed.stream.tell = consumed.taken.length ∧
      consumed.stream.available = 5 - consumed.taken.length ∧
      consumed.stream.getUnused.1.flatten =
        ([1, 2, 3, 4, 5] : Block).drop consumed.taken.length :=
  ⟨_, rfl, @isQueue [.next [1, 2, 3], .take, .advance, .next [4, 5], .take, .take, .take,
    .advance] _ rfl⟩

end ProgressiveStream

/-- `rapidjson_chunk_stream` -/
structure ChunkStream where
  chunks : List Block
  offset : Nat := 0
  chunk : Nat := 0
  index : Nat := 0

namespace ChunkStream

/-- There is no character where a chunk is indexed outside its bounds. -/
def peek (stream : ChunkStream) : Option UInt8 :=
  match stream.chunks[stream.chunk]? with
  | some chunk => chunk[stream.index]?
  | none => some 0

def take (stream : ChunkStream) : Option (UInt8 × ChunkStream) :=
  stream.peek.map fun result =>
    match stream.chunks[stream.chunk]? with
    | some chunk =>
        if chunk.length ≤ stream.index + 1 then
          (result, { stream with chunk := stream.chunk + 1, index := 0 })
        else (result, { stream with index := stream.index + 1 })
    | none => (result, stream)

def tell (stream : ChunkStream) : Nat :=
  stream.offset

/-- As many characters are taken, one after another. -/
def takeMany : Nat → ChunkStream → Option (Block × ChunkStream)
  | 0, stream => some ([], stream)
  | count + 1, stream =>
      stream.take.bind fun taken =>
        (takeMany count taken.2).map fun others => (taken.1 :: others.1, others.2)

/-- What is still to be taken. -/
def rest (stream : ChunkStream) : Block :=
  (stream.chunks.drop stream.chunk).flatten.drop stream.index

/-- The index is inside the current chunk, if there is one. -/
def Inside (stream : ChunkStream) : Prop :=
  ∀ chunk, stream.chunks[stream.chunk]? = some chunk → stream.index < chunk.length

/-- The data, and zeros behind them. -/
def padded (data : Block) (count : Nat) : Block :=
  (data ++ List.replicate count 0).take count

theorem padded_succ (data : Block) (count : Nat) :
    padded data (count + 1) = data.headD 0 :: padded data.tail count := by
  cases data with
  | nil =>
      rw [padded, padded, tail_nil, nil_append, nil_append, replicate_succ,
        take_succ_cons]
      rfl
  | cons byte data =>
      rw [padded, padded, cons_append, take_succ_cons, tail_cons,
        replicate_succ', ← append_assoc, take_append_of_le_length]
      · rfl
      · rw [length_append, length_replicate]
        exact Nat.le_add_left _ _

variable {stream : ChunkStream}

/-- No character is taken behind the last chunk. -/
theorem take_of_none (behind : stream.chunks[stream.chunk]? = none) :
    stream.take = some (0, stream) := by
  simp only [take, peek, behind, map_some]

theorem take_of_inside {chunk : Block} {byte : UInt8}
    (current : stream.chunks[stream.chunk]? = some chunk)
    (here : chunk[stream.index]? = some byte) :
    stream.take = some
      (if chunk.length ≤ stream.index + 1 then
        (byte, { stream with chunk := stream.chunk + 1, index := 0 })
      else (byte, { stream with index := stream.index + 1 })) := by
  simp only [take, peek, current, here, map_some]

theorem tell_take {after : ChunkStream} {char : UInt8} (taken : stream.take = some (char, after)) :
    after.tell = stream.tell := by
  rw [take, map_eq_some_iff] at taken
  rcases taken with ⟨result, _, taken⟩
  split at taken
  · split at taken
    · cases taken
      rfl
    · cases taken
      rfl
  · cases taken
    rfl

/-- The offset is never advanced. -/
theorem tell_takeMany {count : Nat} {after : ChunkStream} {chars : Block}
    (taken : stream.takeMany count = some (chars, after)) : after.tell = stream.tell := by
  induction count generalizing stream chars with
  | zero =>
      cases taken
      rfl
  | succ count ih =>
      rw [takeMany, bind_eq_some_iff] at taken
      rcases taken with ⟨first, firstTaken, others⟩
      rw [map_eq_some_iff] at others
      rcases others with ⟨more, moreTaken, joined⟩
      cases joined
      rw [ih moreTaken]
      exact tell_take firstTaken

/-- The first of the characters that are still to be taken is the next one. -/
theorem Inside.take (inside : stream.Inside) (solid : [] ∉ stream.chunks) :
    ∃ after, stream.take = some (stream.rest.headD 0, after) ∧ after.rest = stream.rest.tail ∧
      after.Inside ∧ after.chunks = stream.chunks := by
  cases current : stream.chunks[stream.chunk]? with
  | none =>
      have nothing : stream.rest = [] := by
        rw [ChunkStream.rest, drop_eq_nil_of_le (getElem?_eq_none_iff.mp current)]
        exact drop_nil
      refine ⟨stream, ?_, ?_, inside, rfl⟩
      · rw [take_of_none current, nothing]
        rfl
      · rw [nothing]
        rfl
  | some chunk =>
      have index_lt := inside chunk current
      have split : stream.chunks.drop stream.chunk =
          chunk :: stream.chunks.drop (stream.chunk + 1) := by
        rcases List.getElem?_eq_some_iff.mp current with ⟨chunk_lt, chunkEq⟩
        rw [drop_eq_getElem_cons chunk_lt, chunkEq]
      have restEq : stream.rest = chunk[stream.index] :: (chunk.drop (stream.index + 1) ++
          (stream.chunks.drop (stream.chunk + 1)).flatten) := by
        rw [ChunkStream.rest, split, flatten_cons, drop_append_of_le_length index_lt.le,
          drop_eq_getElem_cons index_lt, cons_append]
      have taken := take_of_inside current (getElem?_eq_getElem index_lt)
      rw [restEq, headD_cons, tail_cons]
      by_cases isLast : chunk.length ≤ stream.index + 1
      · rw [if_pos isLast] at taken
        refine ⟨_, taken, ?_, ?_, rfl⟩
        · rw [drop_eq_nil_of_le isLast]
          rfl
        · intro next nextCurrent
          have member : next ∈ stream.chunks := mem_of_getElem? nextCurrent
          exact length_pos_of_ne_nil fun empty => solid (empty ▸ member)
      · rw [if_neg isLast] at taken
        refine ⟨_, taken, ?_, ?_, rfl⟩
        · change (stream.chunks.drop stream.chunk).flatten.drop (stream.index + 1) = _
          rw [split, flatten_cons, drop_append_of_le_length (Nat.lt_of_not_le isLast).le]
        · intro same sameCurrent
          have sameEq : chunk = same := Option.some.inj (current.symm.trans sameCurrent)
          exact sameEq ▸ Nat.lt_of_not_le isLast

theorem Inside.takeMany (inside : stream.Inside) (solid : [] ∉ stream.chunks) (count : Nat) :
    ∃ after, stream.takeMany count = some (padded stream.rest count, after) := by
  induction count generalizing stream with
  | zero => exact ⟨stream, rfl⟩
  | succ count ih =>
      rcases inside.take solid with ⟨next, taken, nextRest, nextInside, sameChunks⟩
      rcases ih nextInside (sameChunks ▸ solid) with ⟨after, others⟩
      refine ⟨after, ?_⟩
      rw [ChunkStream.takeMany, taken, bind_some, others, nextRest, padded_succ]
      rfl

theorem takeMany_add (first second : Nat) (stream : ChunkStream) :
    stream.takeMany (first + second) = (stream.takeMany first).bind fun taken =>
      (taken.2.takeMany second).map fun others => (taken.1 ++ others.1, others.2) := by
  induction first generalizing stream with
  | zero =>
      rw [Nat.zero_add, takeMany, bind_some]
      exact map_id'.symm
  | succ first ih =>
      rw [Nat.succ_add, takeMany, takeMany, bind_assoc]
      congr 1
      funext taken
      rw [ih, map_bind, bind_map]
      congr 1
      funext others
      rw [Function.comp_apply, Option.map_map]
      rfl

/-- The rest of a chunk is taken, up to the start of the next one. -/
theorem takeMany_restOfChunk {chunks : List Block} {place index offset : Nat} {chunk : Block}
    (current : chunks[place]? = some chunk) (index_lt : index < chunk.length) :
    (ChunkStream.mk chunks offset place index).takeMany (chunk.length - index) =
      some (chunk.drop index, ⟨chunks, offset, place + 1, 0⟩) := by
  obtain ⟨left, leftEq⟩ : ∃ left, chunk.length - index = left + 1 :=
    Nat.exists_eq_succ_of_ne_zero (Nat.sub_ne_zero_of_lt index_lt)
  induction left generalizing index with
  | zero =>
      have isLast : chunk.length ≤ index + 1 := by omega
      have taken := @take_of_inside ⟨chunks, offset, place, index⟩ chunk chunk[index] current
        (getElem?_eq_getElem index_lt)
      rw [if_pos isLast] at taken
      rw [leftEq, takeMany, taken, bind_some, takeMany, drop_eq_getElem_cons index_lt,
        drop_eq_nil_of_le isLast]
      rfl
  | succ left ih =>
      have next_lt : index + 1 < chunk.length := by omega
      have nextLeft : chunk.length - (index + 1) = left + 1 := by omega
      have taken := @take_of_inside ⟨chunks, offset, place, index⟩ chunk chunk[index] current
        (getElem?_eq_getElem index_lt)
      rw [if_neg (Nat.not_le.mpr next_lt)] at taken
      have others := ih next_lt nextLeft
      rw [nextLeft] at others
      rw [leftEq, takeMany, taken, bind_some, others, drop_eq_getElem_cons index_lt]
      rfl

/-- Chunks that are not empty are taken one after another. -/
theorem takeMany_chunks {chunks front back : List Block} (solid : [] ∉ front) {place : Nat}
    (from_place : chunks.drop place = front ++ back) (offset : Nat) :
    (ChunkStream.mk chunks offset place 0).takeMany front.flatten.length =
      some (front.flatten, ⟨chunks, offset, place + front.length, 0⟩) := by
  induction front generalizing place with
  | nil => rfl
  | cons chunk front ih =>
      rw [mem_cons, not_or] at solid
      have current : chunks[place]? = some chunk := by
        rw [← head?_drop, from_place]
        rfl
      have from_next : chunks.drop (place + 1) = front ++ back := by
        rw [← tail_drop, from_place]
        rfl
      have whole := @takeMany_restOfChunk chunks place 0 offset chunk current
        (length_pos_of_ne_nil (Ne.symm solid.1))
      rw [flatten_cons, length_append, takeMany_add]
      rw [Nat.sub_zero] at whole
      rw [whole, bind_some, ih solid.2 from_next, map_some,
        drop_zero, length_cons, Nat.add_assoc, Nat.add_comm 1]

def ofChunks (chunks : List Block) : ChunkStream where
  chunks := chunks

/-- An empty chunk is indexed outside its bounds when the stream comes to it. -/
theorem takeMany_emptyChunk {front back : List Block} (solid : [] ∉ front) :
    (ofChunks (front ++ [] :: back)).takeMany (front.flatten.length + 1) = none := by
  have taken := @takeMany_chunks (front ++ [] :: back) front ([] :: back) solid 0 rfl 0
  have current : (front ++ [] :: back)[front.length]? = some [] := by
    rw [getElem?_append_right (Nat.le_refl _), Nat.sub_self]
    rfl
  rw [takeMany_add, ofChunks, taken, bind_some, Nat.zero_add, takeMany, take, peek, current]
  rfl

/-- The characters are those of the chunks exactly if none of these is empty. -/
theorem takeMany_iff_solid (chunks : List Block) :
    (∀ count, ∃ after, (ofChunks chunks).takeMany count =
        some (padded chunks.flatten count, after)) ↔ [] ∉ chunks := by
  constructor
  · intro delivers member
    rcases eq_append_cons_of_mem member with ⟨front, back, rfl, solid⟩
    rcases delivers (front.flatten.length + 1) with ⟨after, taken⟩
    rw [takeMany_emptyChunk solid] at taken
    cases taken
  · intro solid count
    have inside : (ofChunks chunks).Inside := by
      intro chunk current
      exact length_pos_of_ne_nil fun empty => solid (empty ▸ mem_of_getElem? current)
    exact inside.takeMany solid count

/-- The bytes of the chunks come in their order and zeros behind them, no chunk is indexed
outside its bounds, and the offset is the number of bytes that were taken. -/
def DeliversExactly (chunks : List Block) : Prop :=
  ∀ count, ∃ after,
    (ofChunks chunks).takeMany count = some (padded chunks.flatten count, after) ∧
      after.tell = min count chunks.flatten.length

/-- The offset stays zero. -/
theorem deliversExactly_iff (chunks : List Block) : DeliversExactly chunks ↔ chunks = [] := by
  constructor
  · intro delivers
    have solid : [] ∉ chunks :=
      (takeMany_iff_solid chunks).mp fun count =>
        (delivers count).imp fun after exactly => exactly.1
    rcases delivers 1 with ⟨after, taken, told⟩
    rw [tell_takeMany taken] at told
    have noBytes : chunks.flatten = [] := by
      have length_eq : min 1 chunks.flatten.length = 0 := told.symm
      exact eq_nil_of_length_eq_zero (by omega)
    cases chunks with
    | nil => rfl
    | cons chunk rest =>
        have empty : chunk = [] := (append_eq_nil_iff.mp noBytes).1
        exact absurd (empty ▸ mem_cons_self) solid
  · rintro rfl count
    rcases (takeMany_iff_solid []).mpr not_mem_nil count with ⟨after, taken⟩
    refine ⟨after, taken, ?_⟩
    rw [tell_takeMany taken]
    exact (Nat.min_zero count).symm

/-- One block of one byte. -/
theorem not_forall_deliversExactly : ¬∀ chunks : List Block, DeliversExactly chunks := by
  intro delivers
  rcases delivers [[0x7b]] 1 with ⟨after, taken, told⟩
  cases taken
  exact absurd told (by decide)

end ChunkStream

end Eagine.ValueTree
