import Eagine.Serialization.StoredBlocks
import Eagine.Theory.Refinement

/-!
# Temporary chunk storage

Chunks of data are appended to a temporary file, each behind the multi-byte
sequence for its size, and they are replayed to a handler from the start of the
file.  A handler may leave the iteration by an exception.
-/

namespace Eagine.Runtime

open Serialization MultiByte List

/-- The temporary file.  The file `isReading` while its last access is a read
that did not meet the end: until it is positioned anew it must not be written. -/
structure ChunkFile where
  content : Block := []
  position : Nat := 0
  isReading : Bool := false
  deriving DecidableEq, Repr

namespace ChunkFile

/-- `std::fwrite`, where it is defined. -/
def write (blk : Block) (file : ChunkFile) : Option ChunkFile :=
  if file.isReading then none
  else
    some
      { content := file.content.take file.position ++ blk ++
          file.content.drop (file.position + blk.length)
        position := file.position + blk.length
        isReading := false }

/-- `std::fread` of bytes. -/
def read (size : Nat) (file : ChunkFile) : Block × ChunkFile :=
  let bytes := (file.content.drop file.position).take size
  (bytes,
    { content := file.content
      position := file.position + bytes.length
      isReading := bytes.length == size })

/-- `std::rewind`. -/
def rewind (file : ChunkFile) : ChunkFile :=
  { content := file.content, position := 0, isReading := false }

/-- The inner loop of `for_each_chunk`, for at most the given number of reads:
the bytes that are to do are read, unless the file ends before. -/
def fill : Nat → Nat → ChunkFile → Option Block × ChunkFile
  | 0, _, file => (some [], file)
  | fuel + 1, todo, file =>
      if todo = 0 then (some [], file)
      else
        match file.read todo with
        | ([], file) => (none, file)
        | (byte :: bytes, file) =>
            match fill fuel (todo - (bytes.length + 1)) file with
            | (some rest, file) => (some (byte :: bytes ++ rest), file)
            | (none, file) => (none, file)

end ChunkFile

section Storage

variable {σ : Type}

/-- What is called with the chunks: the result tells if the call returned, and
the state that the call changed. -/
abbrev ChunkHandler (σ : Type) :=
  Block → σ → Bool × σ

/-- The loop of `for_each_chunk` over the bytes of the headers, for at most the
given number of them.  The result tells if the loop was left without an
exception. -/
def forEachChunkFrom (handler : ChunkHandler σ) :
    Nat → Block → ChunkFile → σ → Bool × ChunkFile × σ
  | 0, _, file, state => (true, file, state)
  | fuel + 1, header, file, state =>
      if header.length = 8 then (true, file, state)
      else
        match file.read 1 with
        | ([], file) => (true, file, state)
        | (b :: _, file) =>
            let header := header ++ [b]
            if decodeSequenceLength header = some header.length then
              let header := header ++ [0]
              match doDecodeLengthAndCodePoint header with
              | (some _, some dataLen) =>
                  match file.fill dataLen.toNat dataLen.toNat with
                  | (some buffer, file) =>
                      match handler buffer state with
                      | (true, state) => forEachChunkFrom handler fuel [] file state
                      | (false, state) => (false, file, state)
                  | (none, file) => (true, file, state)
              | _ => forEachChunkFrom handler fuel header file state
            else forEachChunkFrom handler fuel header file state

/-- `temporary_chunk_storage_impl`: there is no store if the temporary file
could not be created. -/
structure ChunkStorage where
  store : Option ChunkFile := some {}
  done : Nat := 0
  deriving DecidableEq, Repr

namespace ChunkStorage

def isEmpty (storage : ChunkStorage) : Bool :=
  storage.done == 0

/-- `_write`, where it is defined. -/
def write (blk : Block) (storage : ChunkStorage) : Option ChunkStorage :=
  storage.store.bind fun file =>
    (file.write blk).map fun file => { store := some file, done := storage.done + blk.length }

def addChunk (chunk : Block) (storage : ChunkStorage) : Option ChunkStorage :=
  if storage.store.isSome then
    match sizeCodePoint chunk with
    | none => some storage
    | some sizeCp =>
        match requiredSequenceLength sizeCp with
        | none => some storage
        | some sizeLen =>
            if sizeLen ≤ 8 then
              match encodeCodePoint (some sizeCp) (List.replicate 8 0) with
              | (some skipLen, header) =>
                  (storage.write (header.take skipLen)).bind (write chunk)
              | (none, _) => some storage
            else some storage
  else some storage

def forEachChunk (handler : ChunkHandler σ) (storage : ChunkStorage) (state : σ) :
    Bool × ChunkStorage × σ :=
  match storage.store with
  | none => (true, storage, state)
  | some file =>
      let (returned, file, state) :=
        forEachChunkFrom handler (file.content.length + 1) [] file.rewind state
      (returned, { store := some file, done := storage.done }, state)

/-- `clear`, with a new temporary file if one is created. -/
def clear (created : Bool) (storage : ChunkStorage) : ChunkStorage :=
  { store := if created then some {} else none, done := storage.done }

/-- What is done with a storage; the handler of an iteration is always the same. -/
inductive Operation
  | add (chunk : Block)
  | forEach
  | clear (created : Bool)
  deriving DecidableEq, Repr

/-- One operation on a storage and the state of the handler, where it is
defined. -/
def step (handler : ChunkHandler σ) (now : ChunkStorage × σ) (operation : Operation) :
    Option (ChunkStorage × σ) :=
  match operation with
  | .add chunk => (now.1.addChunk chunk).map fun storage => (storage, now.2)
  | .forEach => some (now.1.forEachChunk handler now.2).2
  | .clear created => some (now.1.clear created, now.2)

end ChunkStorage

end Storage

section Kept

variable {σ : Type}

/-- The handler is called with the chunks one after another, until a call does
not return. -/
def replay (handler : ChunkHandler σ) : List Block → σ → Bool × σ
  | [], state => (true, state)
  | chunk :: chunks, state =>
      match handler chunk state with
      | (true, state) => replay handler chunks state
      | (false, state) => (false, state)

/-- The chunks that a storage has to keep.  A storage is `isTorn` after an
iteration that was left by an exception, until it is iterated or cleared again. -/
structure KeptChunks where
  isCreated : Bool := true
  chunks : List Block := []
  isTorn : Bool := false
  deriving DecidableEq, Repr

namespace KeptChunks

def addChunk (chunk : Block) (kept : KeptChunks) : Option KeptChunks :=
  if kept.isCreated ∧ HasSize chunk then
    if kept.isTorn then none else some { kept with chunks := kept.chunks ++ [chunk] }
  else some kept

def forEachChunk (handler : ChunkHandler σ) (kept : KeptChunks) (state : σ) : KeptChunks × σ :=
  let (returned, state) := replay handler kept.chunks state
  ({ kept with isTorn := !returned }, state)

def step (handler : ChunkHandler σ) (now : KeptChunks × σ)
    (operation : ChunkStorage.Operation) : Option (KeptChunks × σ) :=
  match operation with
  | .add chunk => (now.1.addChunk chunk).map fun kept => (kept, now.2)
  | .forEach => some (now.1.forEachChunk handler now.2)
  | .clear created => some ({ isCreated := created }, now.2)

end KeptChunks

end Kept

variable {chunk : Block}

section Reading

variable {σ : Type}

namespace ChunkFile

/-- The file with its position between two parts of its content. -/
def between (before after : Block) (isReading : Bool) : ChunkFile :=
  { content := before ++ after, position := before.length, isReading := isReading }

theorem write_between (before blk : Block) :
    (between before [] false).write blk = some (between (before ++ blk) [] false) := by
  simp [between, write]

theorem read_between (before bytes after : Block) (isReading : Bool) :
    (between before (bytes ++ after) isReading).read bytes.length =
      (bytes, between (before ++ bytes) after true) := by
  simp [between, read]

theorem read_between_end {size : Nat} (positive : 0 < size) (before : Block) (isReading : Bool) :
    (between before [] isReading).read size = ([], between before [] false) := by
  have unequal : ((0 : Nat) == size) = false := beq_false_of_ne (Nat.ne_of_lt positive)
  simp [between, read, unequal]

/-- The bytes of a chunk are read as a whole. -/
theorem fill_between (before bytes after : Block) :
    (between before (bytes ++ after) true).fill bytes.length bytes.length =
      (some bytes, between (before ++ bytes) after true) := by
  cases bytes with
  | nil => simp [fill]
  | cons byte bytes =>
      have whole := read_between before (byte :: bytes) after true
      have nothingLeft : (byte :: bytes).length - (bytes.length + 1) = 0 := Nat.sub_self _
      rw [length_cons, fill, if_neg (Nat.succ_ne_zero bytes.length), ← length_cons, whole]
      simp only [nothingLeft]
      cases bytes with
      | nil => rfl
      | cons next bytes => simp [fill]

end ChunkFile

open ChunkFile (between)

/-- The multi-byte sequence for the size of a chunk. -/
def headerOf (chunk : Block) : Block :=
  sequenceOf (sizeLength chunk) (BitVec.ofNat 32 chunk.length)

theorem length_headerOf (sized : HasSize chunk) :
    (headerOf chunk).length = sizeLength chunk :=
  length_sequenceOf sized.sequence.2.1 _

theorem decodeSequenceLength_of_append {len : Nat} (positive : 1 ≤ len) (atMost : len ≤ 6)
    {cp : CodePoint} {header others : Block} (nonempty : header ≠ [])
    (parts : sequenceOf len cp = header ++ others) : decodeSequenceLength header = some len := by
  cases header with
  | nil => exact absurd rfl nonempty
  | cons b header =>
      rw [sequenceOf, cons_append, List.cons.injEq] at parts
      have decoded := doDecodeSequenceLength_eq positive atMost cp
      rw [parts.1] at decoded
      exact decoded

/-- The header is read byte by byte until the size of the chunk is complete, and
the chunk is handled. -/
theorem forEachChunkFrom_header (sized : HasSize chunk)
    (handler : ChunkHandler σ) {seen unseen : Block} (parts : headerOf chunk = seen ++ unseen)
    (more : unseen ≠ []) (fuel : Nat) (before after : Block) (isReading : Bool) (state : σ) :
    forEachChunkFrom handler (fuel + unseen.length) seen
        (between (before ++ seen) (unseen ++ (chunk ++ after)) isReading) state =
      match handler chunk state with
      | (true, state) =>
          forEachChunkFrom handler fuel []
            (between (before ++ storedBlock chunk) after true) state
      | (false, state) => (false, between (before ++ storedBlock chunk) after true, state) := by
  obtain ⟨-, positive, atMost, fits⟩ := sized.sequence
  have whole := length_headerOf sized
  induction unseen generalizing seen isReading with
  | nil => exact absurd rfl more
  | cons b unseen ih =>
      have headerParts : headerOf chunk = (seen ++ [b]) ++ unseen := by
        rw [parts, append_assoc]
        rfl
      have lengths : seen.length + unseen.length + 1 = sizeLength chunk := by
        rw [← whole, parts, length_append, length_cons]
        rfl
      have notFull : seen.length ≠ 8 := by omega
      have oneByte := ChunkFile.read_between (before ++ seen) [b] (unseen ++ (chunk ++ after))
        isReading
      have decoded := decodeSequenceLength_of_append positive atMost
        (append_ne_nil_of_right_ne_nil seen (cons_ne_nil b [])) headerParts
      have fuelEq : fuel + (b :: unseen).length = fuel + unseen.length + 1 := rfl
      rw [cons_append, fuelEq, forEachChunkFrom, if_neg notFull]
      rw [singleton_append, length_singleton] at oneByte
      simp only [oneByte, decoded, Option.some.injEq, length_append, length_singleton]
      cases unseen with
      | nil =>
          -- The sequence is complete: one more byte lets the decoder accept it.
          have complete : sizeLength chunk = seen.length + 1 := lengths.symm
          have sequenceEq : seen ++ [b] = headerOf chunk := by
            rw [headerParts, append_nil]
          have decodedBoth : doDecodeLengthAndCodePoint (seen ++ [b] ++ [0]) =
              (some (sizeLength chunk), some (BitVec.ofNat 32 chunk.length)) := by
            rw [sequenceEq, headerOf, doDecodeLengthAndCodePoint_eq positive atMost sized.isValid
              fits, if_neg (cons_ne_nil _ _)]
          have filled := ChunkFile.fill_between (before ++ (seen ++ [b])) chunk after
          have stored : before ++ (seen ++ [b]) ++ chunk = before ++ storedBlock chunk := by
            rw [sequenceEq, headerOf, storedBlock, append_assoc]
          rw [if_pos complete, decodedBoth]
          simp only [sized.toNat_eq, nil_append, append_assoc before seen [b], filled,
            stored]
          rfl
      | cons next unseen =>
          have incomplete : sizeLength chunk ≠ seen.length + 1 := by
            rw [length_cons] at lengths
            omega
          rw [if_neg incomplete, append_assoc before seen [b]]
          exact ih headerParts (cons_ne_nil next unseen) true

/-- The iteration replays the stored chunks.  It meets the end of the file if it
is not left before. -/
theorem forEachChunkFrom_eq {chunks : List Block} (sized : ∀ chunk ∈ chunks, HasSize chunk)
    (handler : ChunkHandler σ) {fuel : Nat} (enough : (storedBlocks chunks).length < fuel)
    (before : Block) (isReading : Bool) (state : σ) :
    ∃ position,
      forEachChunkFrom handler fuel [] (between before (storedBlocks chunks) isReading) state =
        ((replay handler chunks state).1,
          { content := before ++ storedBlocks chunks
            position := position
            isReading := !(replay handler chunks state).1 },
          (replay handler chunks state).2) ∧
      ((replay handler chunks state).1 = true →
        position = (before ++ storedBlocks chunks).length) := by
  induction chunks generalizing fuel before isReading state with
  | nil =>
      obtain ⟨fuel, rfl⟩ : ∃ fewer, fuel = fewer + 1 :=
        Nat.exists_eq_succ_of_ne_zero (Nat.ne_of_gt (Nat.zero_lt_of_lt enough))
      have atEnd := ChunkFile.read_between_end Nat.one_pos before isReading
      refine ⟨before.length, ?_, fun _ => by rw [storedBlocks, map_nil, flatten_nil,
        append_nil]⟩
      rw [show storedBlocks [] = [] from rfl, forEachChunkFrom, if_neg (by decide), atEnd]
      rfl
  | cons chunk chunks ih =>
      rw [forall_mem_cons] at sized
      obtain ⟨chunkSized, restSized⟩ := sized
      rw [storedBlocks_cons, length_append, chunkSized.length_storedBlock, storedSize]
        at enough
      obtain ⟨fewer, rfl⟩ : ∃ fewer, fuel = fewer + sizeLength chunk :=
        ⟨fuel - sizeLength chunk, by omega⟩
      have round := forEachChunkFrom_header chunkSized handler (nil_append _).symm
        (cons_ne_nil _ _) fewer before (storedBlocks chunks) isReading state
      rw [length_headerOf chunkSized, append_nil, ← append_assoc, headerOf, ← storedBlock]
        at round
      rw [storedBlocks_cons, round, replay, ← append_assoc]
      rcases handler chunk state with ⟨returned, next⟩
      cases returned with
      | false => exact ⟨_, rfl, fun returned => Bool.noConfusion returned⟩
      | true => exact ih restSized (by omega) (before ++ storedBlock chunk) true next

end Reading

section Refinement

variable {σ : Type}

open ChunkFile (between)

/-- A storage keeps the chunks: the file holds them, and it can be written to
unless the last iteration was left by an exception. -/
inductive Keeps : ChunkStorage → KeptChunks → Prop
  | absent (done : Nat) (isTorn : Bool) :
      Keeps { store := none, done := done }
        { isCreated := false, chunks := [], isTorn := isTorn }
  | created {chunks : List Block} {file : ChunkFile} (done : Nat)
      (sized : ∀ chunk ∈ chunks, HasSize chunk) (counted : done = 0 → chunks = [])
      (content : file.content = storedBlocks chunks)
      (atEnd : file.isReading = false → file.position = file.content.length) :
      Keeps { store := some file, done := done }
        { isCreated := true, chunks := chunks, isTorn := file.isReading }

variable {storage : ChunkStorage} {kept : KeptChunks}

/-- An empty storage keeps no chunks; the converse fails after `clear`. -/
theorem Keeps.chunks_eq_nil (keeps : Keeps storage kept)
    (empty : storage.isEmpty = true) : kept.chunks = [] := by
  cases keeps with
  | absent done isTorn => rfl
  | created done sized counted => exact counted (eq_of_beq empty)

theorem keeps_created (created : Bool) (done : Nat) :
    Keeps { store := if created then some {} else none, done := done }
      { isCreated := created } := by
  cases created with
  | false => exact Keeps.absent done false
  | true => exact Keeps.created done (forall_mem_nil _) (fun _ => rfl) rfl fun _ => rfl

theorem ChunkStorage.addChunk_of_not_hasSize (limited : chunk.length < 2 ^ 32)
    (unsized : ¬HasSize chunk) (storage : ChunkStorage) :
    storage.addChunk chunk = some storage := by
  have sizeEq : (BitVec.ofNat 32 chunk.length).toNat = chunk.length := Nat.mod_eq_of_lt limited
  have invalid : ¬isValid (BitVec.ofNat 32 chunk.length) = true := by
    rw [isValid, sizeEq, decide_eq_true_eq]
    exact unsized
  rw [addChunk, sizeCodePoint, codePoint, if_neg invalid]
  exact ite_self _

/-- A chunk with a size is written behind the header for it. -/
theorem ChunkStorage.addChunk_of_hasSize (sized : HasSize chunk) (file : ChunkFile) (done : Nat) :
    addChunk chunk { store := some file, done := done } =
      (write (headerOf chunk) { store := some file, done := done }).bind (write chunk) := by
  obtain ⟨required, positive, atMost, -⟩ := sized.sequence
  have room : sizeLength chunk ≤ 8 := by omega
  have encoded := encodeCodePoint_eq positive atMost required
    (room.trans (length_replicate (a := (0 : UInt8))).ge)
  rw [addChunk, sized.sizeCodePoint_eq]
  simp only [Option.isSome_some, if_true, required, if_pos room, encoded]
  rw [← headerOf, take_left' (length_headerOf sized)]

theorem Keeps.addChunk (keeps : Keeps storage kept) (limited : chunk.length < 2 ^ 32) :
    Option.Rel Keeps (storage.addChunk chunk) (kept.addChunk chunk) := by
  by_cases sized : HasSize chunk
  case neg =>
    have ignored : kept.addChunk chunk = some kept := if_neg fun both => sized both.2
    rw [ChunkStorage.addChunk_of_not_hasSize limited sized, ignored]
    exact Option.Rel.some keeps
  case pos =>
    cases keeps with
    | absent done isTorn => exact Option.Rel.some (Keeps.absent done isTorn)
    | @created chunks file done others counted content atEnd =>
        rw [ChunkStorage.addChunk_of_hasSize sized, KeptChunks.addChunk, if_pos ⟨rfl, sized⟩]
        rcases file with ⟨bytes, position, isReading⟩
        obtain rfl : bytes = storedBlocks chunks := content
        cases isReading with
        | true => exact Option.Rel.none
        | false =>
            obtain rfl : position = (storedBlocks chunks).length := atEnd rfl
            have file : (⟨storedBlocks chunks, (storedBlocks chunks).length, false⟩ : ChunkFile) =
                between (storedBlocks chunks) [] false := by
              rw [between, append_nil]
            have whole : storedBlocks chunks ++ headerOf chunk ++ chunk =
                storedBlocks (chunks ++ [chunk]) := by
              rw [headerOf, storedBlocks_append, storedBlocks_cons, storedBlock, append_assoc]
              exact congrArg _ (append_nil _).symm
            rw [if_neg Bool.false_ne_true, file]
            simp only [ChunkStorage.write, Option.bind_some, ChunkFile.write_between,
              Option.map_some, whole]
            refine Option.Rel.some (Keeps.created _ ?_ (fun noneDone => ?_) (append_nil _)
              fun _ => by rw [between, append_nil])
            · exact forall_mem_append.mpr ⟨others, forall_mem_singleton.mpr sized⟩
            · have positive := sized.sequence.2.1
              rw [length_headerOf sized] at noneDone
              omega

theorem length_lt_of_hasSize (sized : HasSize chunk) : chunk.length < 2 ^ 32 :=
  Nat.lt_trans sized (by decide)

theorem Keeps.exists_addChunk {chunks : List Block} (keeps : Keeps storage { chunks := chunks })
    {chunk : Block} (sized : HasSize chunk) :
    ∃ next, storage.addChunk chunk = some next ∧ Keeps next { chunks := chunks ++ [chunk] } := by
  have kept : KeptChunks.addChunk chunk { chunks := chunks } =
      some { chunks := chunks ++ [chunk] } :=
    (if_pos ⟨rfl, sized⟩).trans (if_neg Bool.false_ne_true)
  have added := keeps.addChunk (length_lt_of_hasSize sized)
  rw [kept] at added
  generalize storage.addChunk chunk = next at added ⊢
  cases added with
  | some keepsNext => exact ⟨_, rfl, keepsNext⟩

theorem Keeps.forEachChunk (keeps : Keeps storage kept) (handler : ChunkHandler σ) (state : σ) :
    (storage.forEachChunk handler state).1 = (replay handler kept.chunks state).1 ∧
      Keeps (storage.forEachChunk handler state).2.1 (kept.forEachChunk handler state).1 ∧
      (storage.forEachChunk handler state).2.2 = (kept.forEachChunk handler state).2 := by
  cases keeps with
  | absent done isTorn => exact ⟨rfl, Keeps.absent done false, rfl⟩
  | @created chunks file done sized counted content =>
      have rewound : file.rewind = between [] (storedBlocks chunks) false := by
        rw [ChunkFile.rewind, content]
        rfl
      obtain ⟨position, replayed, whole⟩ := forEachChunkFrom_eq sized handler
        (Nat.lt_succ_self (storedBlocks chunks).length) [] false state
      rw [ChunkStorage.forEachChunk]
      simp only [content, rewound, replayed]
      exact ⟨trivial, Keeps.created done sized counted rfl fun returned =>
        whole (by simpa using returned), rfl⟩

/-- A storage and the state of the handler agree with what is to be kept. -/
def Agree (now : ChunkStorage × σ) (kept : KeptChunks × σ) : Prop :=
  Keeps now.1 kept.1 ∧ now.2 = kept.2

theorem Agree.step {now : ChunkStorage × σ} {kept : KeptChunks × σ} (agree : Agree now kept)
    (handler : ChunkHandler σ) {operation : ChunkStorage.Operation}
    (limited : ∀ chunk, operation = .add chunk → chunk.length < 2 ^ 32) :
    Option.Rel Agree (ChunkStorage.step handler now operation)
      (KeptChunks.step handler kept operation) := by
  obtain ⟨storage, state⟩ := now
  obtain ⟨kept, keptState⟩ := kept
  obtain ⟨keeps, rfl⟩ := agree
  cases operation with
  | add chunk =>
      have added := keeps.addChunk (limited chunk rfl)
      rw [ChunkStorage.step, KeptChunks.step]
      generalize storage.addChunk chunk = next, kept.addChunk chunk = keptNext at added ⊢
      cases added with
      | none => exact Option.Rel.none
      | some keepsNext => exact Option.Rel.some ⟨keepsNext, rfl⟩
  | forEach => exact Option.Rel.some (keeps.forEachChunk handler state).2
  | clear created => exact Option.Rel.some ⟨keeps_created created storage.done, rfl⟩

/-- In every run the handler is called with the chunks that were added since the
last `clear`, in their order, and a run is undefined exactly if a chunk is added
to a torn storage. -/
theorem chunksReplayed (handler : ChunkHandler σ) {operations : List ChunkStorage.Operation}
    (limited : ∀ chunk, .add chunk ∈ operations → chunk.length < 2 ^ 32) (created : Bool)
    (state : σ) :
    Option.Rel Agree
      (Theory.run (ChunkStorage.step handler)
        ({ store := if created then some {} else none }, state) operations)
      (Theory.run (KeptChunks.step handler) ({ isCreated := created }, state) operations) :=
  Theory.run_rel
    (fun _ _ _ member agree => agree.step handler fun chunk same => limited chunk (same ▸ member))
    ⟨keeps_created created 0, rfl⟩

/-- A handler that gives up at the second chunk tears the storage, and the next
iteration replays both chunks. -/
theorem chunksReplayed_torn :
    Option.Rel Agree
      (Theory.run (ChunkStorage.step fun chunk calls => (calls != 1, calls + chunk.length))
        ({ store := some {} }, 0) [.add [5], .add [6, 7], .forEach, .forEach])
      (Theory.run (KeptChunks.step fun chunk calls => (calls != 1, calls + chunk.length))
        ({}, 0) [.add [5], .add [6, 7], .forEach, .forEach]) :=
  chunksReplayed _
    (fun chunk member => by
      simp only [mem_cons, ChunkStorage.Operation.add.injEq, not_mem_nil, reduceCtorEq,
        or_false] at member
      rcases member with rfl | rfl <;> decide) true 0

end Refinement

end Eagine.Runtime
