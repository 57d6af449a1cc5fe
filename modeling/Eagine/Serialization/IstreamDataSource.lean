import Eagine.Serialization.Types

/-!
# Sources over an input stream

`IstreamDataSource` reads from an input stream into a buffer that grows in chunks. The
buffer starts with the bytes that were read and not popped; what is behind them is stale.
A request that cannot be added to the size of these bytes does not make the buffer grow.
-/

namespace Eagine.Serialization

open List

/-- A standard input stream: the characters that are not extracted yet, and whether its
state is good. -/
structure IStream where
  unread : Block
  good : Bool := true
deriving DecidableEq

/-- Unformatted input: where there are too few characters, the state is not good any
more, and nothing is extracted from then on. -/
def IStream.read (size : Nat) (stream : IStream) : Block × IStream :=
  if stream.good then
    (stream.unread.take size, ⟨stream.unread.drop size, decide (size ≤ stream.unread.length)⟩)
  else ([], stream)

/-- `are_safe_to_add` for sizes, which are not negative. -/
def areSafeToAdd (l r : Nat) : Bool :=
  decide (r < spanSizeLimit - 1 - l)

def safeAddGt (l r c : Nat) : Bool :=
  areSafeToAdd l r && decide (c < l + r)

/-- A source backed by an input stream. -/
structure IstreamDataSource where
  input : IStream
  curSize : Nat := 0
  storage : Block := []
deriving DecidableEq

namespace IstreamDataSource

def ofStream (bytes : Block) : IstreamDataSource where
  input := ⟨bytes, true⟩

def chunkSize : Nat :=
  8 * 1024

section Operations

/-! What the buffer gains is not initialized; `garbage` stands for it. -/

variable (garbage : UInt8)

def resize (size : Nat) (storage : Block) : Block :=
  storage.take size ++ List.replicate (size - storage.length) garbage

/-- The loop that makes the buffer grow by chunks until there is room for the request. -/
def grow (curSize reqSize : Nat) : Nat → Block → Block
  | 0, storage => storage
  | rounds + 1, storage =>
      if safeAddGt curSize reqSize storage.length then
        grow curSize reqSize rounds (resize garbage (storage.length + chunkSize) storage)
      else storage

/-- What `top` does where there are fewer bytes than requested. -/
def refill (reqSize : Nat) (source : IstreamDataSource) : IstreamDataSource :=
  let storage := grow garbage source.curSize reqSize (source.curSize + reqSize) source.storage
  let target := (storage.drop source.curSize).take (reqSize - source.curSize)
  let (got, input) := source.input.read target.length
  { input
    curSize := source.curSize + got.length
    storage := storage.take source.curSize ++ got ++ storage.drop (source.curSize + got.length) }

def top (reqSize : Nat) : StateM IstreamDataSource Block := fun source =>
  let source := if source.curSize < reqSize then refill garbage reqSize source else source
  ((source.storage.take source.curSize).take reqSize, source)

/-- All the bytes are dropped, or those behind the popped ones are copied to the start. -/
def pop (delSize : Nat) (source : IstreamDataSource) : IstreamDataSource :=
  if source.curSize ≤ delSize then
    { source with
      curSize := 0
      storage :=
        if chunkSize < source.storage.length then resize garbage chunkSize source.storage
        else source.storage }
  else
    let kept := (source.storage.take source.curSize).drop delSize
    { source with
      curSize := source.curSize - delSize
      storage := kept ++ source.storage.drop kept.length }

end Operations

/-- The bytes in the buffer and those in the stream are what is left to be read. -/
structure Buffers (source : IstreamDataSource) (rest : Block) : Prop where
  inStorage : source.curSize ≤ source.storage.length
  together : source.storage.take source.curSize ++ source.input.unread = rest
  exhausted : source.input.good = false → source.input.unread = []

theorem buffers_ofStream (bytes : Block) : Buffers (ofStream bytes) bytes where
  inStorage := le_rfl
  together := rfl
  exhausted bad := by cases bad

/-- The request can be added to the size of the bytes in the buffer, or the buffer has
room for as much as can be returned. -/
def Fits (source : IstreamDataSource) (reqSize : Nat) : Prop :=
  areSafeToAdd source.curSize reqSize = true ∨
    min reqSize (source.curSize + source.input.unread.length) ≤ source.storage.length

variable (garbage : UInt8) {source : IstreamDataSource} {rest : Block}

@[simp]
theorem length_resize (size : Nat) (storage : Block) :
    (resize garbage size storage).length = size := by
  rw [resize, length_append, length_take, length_replicate]
  omega

variable {storage : Block}

/-- A larger buffer still has what was in it. -/
theorem take_resize {kept size : Nat} (inside : kept ≤ storage.length)
    (less : kept ≤ size) : (resize garbage size storage).take kept = storage.take kept := by
  have inFirst : kept ≤ (storage.take size).length := by
    rw [length_take]
    exact Nat.le_min.mpr ⟨less, inside⟩
  rw [resize, take_append_of_le_length inFirst, take_take, Nat.min_eq_left less]

theorem grow_of_not_safe {curSize reqSize : Nat} (tooLarge : areSafeToAdd curSize reqSize = false)
    (rounds : Nat) (storage : Block) : grow garbage curSize reqSize rounds storage = storage := by
  cases rounds with
  | zero => rfl
  | succ rounds => simp [grow, safeAddGt, tooLarge]

/-- Growing keeps what is in the buffer. -/
theorem take_grow (reqSize rounds : Nat) {curSize : Nat} (inside : curSize ≤ storage.length) :
    (grow garbage curSize reqSize rounds storage).take curSize = storage.take curSize ∧
      curSize ≤ (grow garbage curSize reqSize rounds storage).length := by
  induction rounds generalizing storage with
  | zero => exact ⟨rfl, inside⟩
  | succ rounds ih =>
      rw [grow]
      split
      · have within : curSize ≤ storage.length + chunkSize :=
          inside.trans (Nat.le_add_right _ _)
        have inLarger : curSize ≤ (resize garbage (storage.length + chunkSize) storage).length := by
          rwa [length_resize]
        rcases ih inLarger with ⟨kept, notLess⟩
        exact ⟨kept.trans (take_resize garbage inside within), notLess⟩
      · exact ⟨rfl, inside⟩

/-- Where the sizes can be added, there is room in the end. -/
theorem le_length_grow {curSize reqSize : Nat} (safe : areSafeToAdd curSize reqSize = true)
    (rounds : Nat) (enough : curSize + reqSize ≤ storage.length + rounds) :
    curSize + reqSize ≤ (grow garbage curSize reqSize rounds storage).length := by
  induction rounds generalizing storage with
  | zero => exact enough
  | succ rounds ih =>
      rw [grow]
      split
      · apply ih
        rw [length_resize]
        unfold chunkSize
        omega
      · rename_i stopped
        simp only [safeAddGt, safe, Bool.true_and, decide_eq_true_eq, not_lt] at stopped
        exact stopped

/-- As much is extracted as there is, and the rest stays in the stream. -/
theorem read_eq {stream : IStream} (exhausted : stream.good = false → stream.unread = [])
    (size : Nat) :
    (stream.read size).1 = stream.unread.take size ∧
      (stream.read size).2.unread = stream.unread.drop size ∧
      ((stream.read size).2.good = false → (stream.read size).2.unread = []) := by
  unfold IStream.read
  cases good : stream.good with
  | true =>
      refine ⟨rfl, rfl, fun bad => ?_⟩
      exact drop_eq_nil_of_le (Nat.le_of_lt (Nat.lt_of_not_le (of_decide_eq_false bad)))
  | false =>
      rw [exhausted good]
      exact ⟨take_nil.symm, drop_nil.symm ▸ exhausted good, fun _ => exhausted good⟩

/-- The room that the buffer has for a request in the end. -/
def room (garbage : UInt8) (source : IstreamDataSource) (reqSize : Nat) : Nat :=
  (grow garbage source.curSize reqSize (source.curSize + reqSize) source.storage).length -
    source.curSize

/-- After a refill there is more in the buffer, as far as it has room. -/
theorem refill_buffers (buffers : Buffers source rest) (reqSize : Nat) :
    Buffers (refill garbage reqSize source) rest ∧
      (refill garbage reqSize source).curSize = source.curSize +
        min (min (reqSize - source.curSize) (room garbage source reqSize))
          source.input.unread.length := by
  have grown := take_grow garbage reqSize (source.curSize + reqSize)
    buffers.inStorage
  let storage := grow garbage source.curSize reqSize (source.curSize + reqSize) source.storage
  let size := ((storage.drop source.curSize).take (reqSize - source.curSize)).length
  have sizeEq : size = min (reqSize - source.curSize) (room garbage source reqSize) := by
    rw [room, ← length_drop, ← length_take]
  rcases read_eq buffers.exhausted size with ⟨got, left, exhausted⟩
  have gotLength : (source.input.read size).1.length = min size source.input.unread.length := by
    rw [got, length_take]
  have front : (storage.take source.curSize).length = source.curSize := by
    rw [length_take, Nat.min_eq_left grown.2]
  constructor
  · constructor
    · change source.curSize + (source.input.read size).1.length ≤ (storage.take source.curSize ++
        (source.input.read size).1 ++ _).length
      rw [length_append, length_append, front]
      exact Nat.le_add_right _ _
    · change (storage.take source.curSize ++ (source.input.read size).1 ++ _).take
        (source.curSize + (source.input.read size).1.length) ++ (source.input.read size).2.unread =
        rest
      have whole : source.curSize + (source.input.read size).1.length =
          (storage.take source.curSize ++ (source.input.read size).1).length := by
        rw [length_append, front]
      rw [whole, take_left, got, left, append_assoc, take_append_drop, grown.1]
      exact buffers.together
    · exact exhausted
  · change source.curSize + (source.input.read size).1.length = _
    rw [gotLength, sizeEq]

theorem top_buffers (buffers : Buffers source rest) (reqSize : Nat) :
    Buffers (top garbage reqSize source).2 rest := by
  unfold top
  dsimp only
  split
  · exact (refill_buffers garbage buffers reqSize).1
  · exact buffers

/-- The bytes in the buffer are the next ones. -/
theorem Buffers.take_storage (buffers : Buffers source rest) :
    source.storage.take source.curSize = rest.take source.curSize := by
  have front : (source.storage.take source.curSize).length = source.curSize := by
    rw [length_take, Nat.min_eq_left buffers.inStorage]
  have prefixed := congrArg (List.take source.curSize) buffers.together
  rwa [take_append_of_le_length front.ge, take_take, Nat.min_self] at prefixed

theorem Buffers.length_rest (buffers : Buffers source rest) :
    rest.length = source.curSize + source.input.unread.length := by
  rw [← buffers.together, length_append, length_take,
    Nat.min_eq_left buffers.inStorage]

/-- As much as is requested is in the buffer after the request, if it fits. -/
theorem le_curSize_top_iff (buffers : Buffers source rest) (reqSize : Nat) :
    min reqSize rest.length ≤ (top garbage reqSize source).2.curSize ↔ source.Fits reqSize := by
  have inStorage := buffers.inStorage
  have total := buffers.length_rest
  by_cases less : source.curSize < reqSize
  · have refilled : (top garbage reqSize source).2 = refill garbage reqSize source := by
      rw [top, if_pos less]
    rw [refilled, (refill_buffers garbage buffers reqSize).2, Fits]
    cases safe : areSafeToAdd source.curSize reqSize with
    | true =>
        have enough : source.curSize + reqSize ≤ (grow garbage source.curSize reqSize
            (source.curSize + reqSize) source.storage).length :=
          le_length_grow garbage safe _ (Nat.le_add_left _ _)
        have hasRoom : reqSize ≤ room garbage source reqSize := by
          unfold room
          omega
        simp only [true_or, iff_true]
        omega
    | false =>
        have sameRoom : room garbage source reqSize = source.storage.length - source.curSize := by
          rw [room, grow_of_not_safe garbage safe]
        simp only [Bool.false_eq_true, false_or, sameRoom]
        omega
  · have kept : (top garbage reqSize source).2 = source := by
      rw [top, if_neg less]
    rw [kept, Fits]
    constructor
    · intro _
      right
      omega
    · intro _
      omega

/-- A request is answered with the next bytes exactly if it fits. -/
theorem top_eq_iff (buffers : Buffers source rest) (reqSize : Nat) :
    (top garbage reqSize source).1 = rest.take reqSize ↔ source.Fits reqSize := by
  have after := top_buffers garbage buffers reqSize
  have answer : (top garbage reqSize source).1 =
      rest.take (min reqSize (top garbage reqSize source).2.curSize) := by
    rw [← take_take, ← after.take_storage]
    rfl
  rw [answer, take_eq_take_iff, ← le_curSize_top_iff garbage buffers reqSize]
  omega

/-- What is popped is not left to be read. -/
theorem pop_buffers (buffers : Buffers source rest) {delSize : Nat}
    (covered : delSize ≤ source.curSize) : Buffers (pop garbage delSize source)
      (rest.drop delSize) := by
  have inStorage := buffers.inStorage
  unfold pop
  split
  · rename_i all
    obtain rfl : source.curSize = delSize := Nat.le_antisymm all covered
    have front : (source.storage.take source.curSize).length = source.curSize := by
      rw [length_take, Nat.min_eq_left inStorage]
    constructor
    · exact Nat.zero_le _
    · have dropped := congrArg (List.drop source.curSize) buffers.together
      rw [drop_append_of_le_length front.ge,
        drop_eq_nil_of_le front.le] at dropped
      exact dropped
    · exact buffers.exhausted
  · rename_i some
    let kept := (source.storage.take source.curSize).drop delSize
    have keptLength : kept.length = source.curSize - delSize := by
      rw [length_drop, length_take, Nat.min_eq_left inStorage]
    have inFront : delSize ≤ (source.storage.take source.curSize).length := by
      rw [length_take]
      omega
    constructor
    · change source.curSize - delSize ≤ (kept ++ source.storage.drop kept.length).length
      rw [length_append, keptLength]
      exact Nat.le_add_right _ _
    · change (kept ++ source.storage.drop kept.length).take (source.curSize - delSize) ++
        source.input.unread = rest.drop delSize
      rw [← keptLength, take_left, ← buffers.together,
        drop_append_of_le_length inFront]
    · exact buffers.exhausted

end IstreamDataSource

/-- The calls that a data source is read by. -/
structure DataSource (σ : Type) where
  top : Nat → StateM σ Block
  pop : Nat → σ → σ

def blockDataSource : DataSource BlockDataSource where
  top reqSize source := (source.top reqSize, source)
  pop delSize source := source.pop delSize

def istreamDataSource (garbage : UInt8) : DataSource IstreamDataSource where
  top := IstreamDataSource.top garbage
  pop := IstreamDataSource.pop garbage

inductive SourceCall where
  | top (reqSize : Nat)
  | pop (delSize : Nat)
deriving DecidableEq

namespace SourceCall

/-- The blocks that the calls return. -/
def blocks {σ : Type} (access : DataSource σ) : List SourceCall → σ → List Block
  | [], _ => []
  | top reqSize :: calls, source =>
      (access.top reqSize source).1 :: blocks access calls (access.top reqSize source).2
  | pop delSize :: calls, source => blocks access calls (access.pop delSize source)

/-- Every pop is covered by the last block that was returned since the pop before it,
which has `last` bytes at first. -/
def Covered (last : Nat) : List SourceCall → BlockDataSource → Prop
  | [], _ => True
  | top reqSize :: calls, source => Covered (source.top reqSize).length calls source
  | pop delSize :: calls, source => delSize ≤ last ∧ Covered 0 calls (source.pop delSize)

/-- Every request fits when it is made. -/
def Fitting (garbage : UInt8) : List SourceCall → IstreamDataSource → Prop
  | [], _ => True
  | top reqSize :: calls, source =>
      source.Fits reqSize ∧ Fitting garbage calls (source.top garbage reqSize).2
  | pop delSize :: calls, source => Fitting garbage calls (source.pop garbage delSize)

/-- From sources with the same bytes left to be read, the blocks are the same exactly if
all the requests fit. -/
theorem blocks_eq_iff {garbage : UInt8} (calls : List SourceCall) {last : Nat}
    {source : IstreamDataSource} {blockSource : BlockDataSource}
    (buffers : source.Buffers blockSource.remaining) (inBuffer : last ≤ source.curSize)
    (covered : Covered last calls blockSource) :
    blocks (istreamDataSource garbage) calls source = blocks blockDataSource calls blockSource ↔
      Fitting garbage calls source := by
  induction calls generalizing last source blockSource with
  | nil => exact iff_of_true rfl trivial
  | cons call calls ih =>
      cases call with
      | top reqSize =>
          have answered := IstreamDataSource.top_eq_iff garbage buffers reqSize
          rw [blocks, blocks, cons_eq_cons, Fitting]
          apply (and_congr_left' answered).trans
          apply and_congr_right
          intro fits
          have enough := (IstreamDataSource.le_curSize_top_iff garbage buffers
            reqSize).mpr fits
          have size : (blockSource.top reqSize).length = min reqSize blockSource.remaining.length :=
            length_take
          exact ih (IstreamDataSource.top_buffers garbage buffers reqSize) (size ▸ enough) covered
      | pop delSize =>
          have popped := IstreamDataSource.pop_buffers garbage buffers
            (covered.1.trans inBuffer)
          rw [← BlockDataSource.remaining_pop] at popped
          exact ih popped (Nat.zero_le _) covered.2

/-- A source over a stream and a source over a block with the same bytes return the same
blocks exactly if every request fits the buffer when it is made. -/
theorem blocks_istreamDataSource_iff (garbage : UInt8) (bytes : Block) (calls : List SourceCall)
    (covered : Covered 0 calls (.ofBlock bytes)) :
    blocks (istreamDataSource garbage) calls (.ofStream bytes) =
        blocks blockDataSource calls (.ofBlock bytes) ↔
      Fitting garbage calls (.ofStream bytes) :=
  blocks_eq_iff calls (IstreamDataSource.buffers_ofStream bytes) (Nat.zero_le _) covered

/-- A part of a block is popped, and more is requested than there is. -/
theorem blocks_istreamDataSource_three :
    blocks (istreamDataSource 0) [top 2, pop 1, top 9] (.ofStream [1, 2, 3]) =
        blocks blockDataSource [top 2, pop 1, top 9] (.ofBlock [1, 2, 3]) ↔
      Fitting 0 [top 2, pop 1, top 9] (.ofStream [1, 2, 3]) :=
  blocks_istreamDataSource_iff 0 [1, 2, 3] [top 2, pop 1, top 9]
    ⟨by decide, trivial⟩

/-- The largest request of all is not answered from a stream. -/
theorem blocks_differ_at_limit :
    let calls := [top (2 ^ 63 - 1)]
    Covered 0 calls (.ofBlock [97]) ∧
      blocks (istreamDataSource 0) calls (.ofStream [97]) = [[]] ∧
      blocks blockDataSource calls (.ofBlock [97]) = [[97]] := by
  constructor
  · trivial
  · constructor
    · decide
    · decide

end SourceCall

end Eagine.Serialization
