import Eagine.String.MultiByteRoundTrip
import Eagine.Serialization.Block

/-!
# Retrieving blocks that were stored with their sizes

Blocks that are stored one after another are retrieved by the iteration over the
written bytes, except for an empty last block: the sequence for its size ends the
data, and the decoder wants another byte behind every sequence.
-/

/-!
## Blocks with their sizes

A block is stored behind the multi-byte sequence for its size, so that a sequence
of stored blocks can be taken apart again.
-/

open List

namespace Eagine.Serialization

open MultiByte

/-- The size of a block as a code point; the cast keeps the lower 32 bits. -/
def sizeCodePoint (src : Block) : Option CodePoint :=
  codePoint (BitVec.ofNat 32 src.length)

/-- Encodes the size of the source block into the destination and copies the data
behind it.  The result is the stored block and the destination. -/
def storeDataWithSize (src dst : Block) : Block × Block :=
  match sizeCodePoint src with
  | none => ([], dst)
  | some sizeCp =>
      match requiredSequenceLength sizeCp with
      | none => ([], dst)
      | some sizeLen =>
          if sizeLen + src.length ≤ dst.length then
            match encodeCodePoint (some sizeCp) dst with
            | (some skipLen, dst) =>
                let dst := dst.take skipLen ++ src ++ dst.drop (skipLen + src.length)
                (dst.take (skipLen + src.length), dst)
            | (none, dst) => ([], encodeNil dst)
          else ([], encodeNil dst)

/-- The blocks are stored one after another.  The results are the stored blocks
and the destination. -/
def storeAll : List Block → Block → List Block × Block
  | [], dst => ([], dst)
  | src :: srcs, dst =>
      let (stored, dst) := storeDataWithSize src dst
      let (more, next) := storeAll srcs (dst.drop stored.length)
      (stored :: more, dst.take stored.length ++ next)

/-- The size of the block with its size that the source starts with. -/
def skipDataWithSize (src : Block) : Nat :=
  match doDecodeLengthAndCodePoint src with
  | (some skipLen, some dataLen) => skipLen + dataLen.toNat
  | _ => 0

/-- The loop of `for_each_data_with_size`, for at most the given number of
blocks.  The result are the blocks that the function is called with. -/
def forEachDataWithSizeFrom : Nat → Block → List Block
  | 0, _ => []
  | fuel + 1, src =>
      if src.isEmpty then []
      else
        match doDecodeLengthAndCodePoint src with
        | (some skipLen, some dataLen) =>
            let sk := min src.length (skipLen + dataLen.toNat)
            (src.take sk).drop (min src.length skipLen) ::
              forEachDataWithSizeFrom fuel (src.drop sk)
        | _ => []

/-- `for_each_data_with_size`: every block takes at least one byte. -/
def forEachDataWithSize (src : Block) : List Block :=
  forEachDataWithSizeFrom src.length src

end Eagine.Serialization

namespace Eagine.Serialization

open MultiByte
open BitVec (ofNat)

/-- The size of the block is a valid code point. -/
def HasSize (src : Block) : Prop :=
  src.length < 0x7FFFFFFF

instance (src : Block) : Decidable (HasSize src) :=
  inferInstanceAs (Decidable (src.length < 0x7FFFFFFF))

/-- The length of the sequence for the size of a block. -/
def sizeLength (src : Block) : Nat :=
  ((sizeCodePoint src).bind requiredSequenceLength).getD 0

/-- What a block takes when it is stored. -/
def storedSize (src : Block) : Nat :=
  sizeLength src + src.length

def storedBlock (src : Block) : Block :=
  sequenceOf (sizeLength src) (ofNat 32 src.length) ++ src

/-- What the written bytes hold of the blocks. -/
def storedBlocks (blocks : List Block) : Block :=
  (blocks.map storedBlock).flatten

theorem storedBlocks_cons (src : Block) (srcs : List Block) :
    storedBlocks (src :: srcs) = storedBlock src ++ storedBlocks srcs :=
  rfl

theorem storedBlocks_append (srcs others : List Block) :
    storedBlocks (srcs ++ others) = storedBlocks srcs ++ storedBlocks others := by
  rw [storedBlocks, map_append, flatten_append]
  rfl

variable {src dst : Block} {blocks : List Block}

theorem HasSize.toNat_eq (sized : HasSize src) : (ofNat 32 src.length).toNat = src.length :=
  Nat.mod_eq_of_lt (Nat.lt_trans sized (by decide))

theorem HasSize.isValid (sized : HasSize src) : isValid (ofNat 32 src.length) = true := by
  rw [MultiByte.isValid, sized.toNat_eq]
  exact decide_eq_true sized

theorem HasSize.sizeCodePoint_eq (sized : HasSize src) :
    sizeCodePoint src = some (ofNat 32 src.length) :=
  if_pos sized.isValid

/-- The size of a block has a sequence, and its bits fit into it. -/
theorem HasSize.sequence (sized : HasSize src) :
    requiredSequenceLength (ofNat 32 src.length) = some (sizeLength src) ∧
      1 ≤ sizeLength src ∧ sizeLength src ≤ 6 ∧
      (ofNat 32 src.length).toNat <
        2 ^ (headBits (sizeLength src) + (sizeLength src - 1) * 6) := by
  obtain ⟨len, required, rest⟩ := exists_requiredSequenceLength sized.isValid
  have lenEq : sizeLength src = len := by
    rw [sizeLength, sized.sizeCodePoint_eq, Option.bind_some, required]
    rfl
  rw [lenEq]
  exact ⟨required, rest⟩

theorem HasSize.length_storedBlock (sized : HasSize src) :
    (storedBlock src).length = storedSize src := by
  obtain ⟨-, positive, -, -⟩ := sized.sequence
  rw [storedBlock, length_append, length_sequenceOf positive]
  rfl

theorem storedBlock_ne_nil (src : Block) : storedBlock src ≠ [] :=
  cons_ne_nil _ _

/-- A block that has a size is stored, provided that there is room for it. -/
theorem HasSize.storeDataWithSize_eq (sized : HasSize src) (room : storedSize src ≤ dst.length) :
    storeDataWithSize src dst =
      (storedBlock src, storedBlock src ++ dst.drop (storedSize src)) := by
  obtain ⟨required, positive, atMost, -⟩ := sized.sequence
  have sequenceLength :
      (sequenceOf (sizeLength src) (ofNat 32 src.length)).length = sizeLength src :=
    length_sequenceOf positive _
  have encoded := encodeCodePoint_eq positive atMost required
    (Nat.le_trans (Nat.le_add_right (sizeLength src) src.length) room)
  have storedLength : sizeLength src + src.length = (storedBlock src).length :=
    sized.length_storedBlock.symm
  have copied : (sequenceOf (sizeLength src) (ofNat 32 src.length) ++
        dst.drop (sizeLength src)).take (sizeLength src) ++ src ++
      (sequenceOf (sizeLength src) (ofNat 32 src.length) ++
        dst.drop (sizeLength src)).drop (sizeLength src + src.length) =
      storedBlock src ++ dst.drop (storedSize src) := by
    rw [take_left' sequenceLength, drop_append, sequenceLength, Nat.add_sub_cancel_left,
      drop_eq_nil_of_le (sequenceLength.le.trans (Nat.le_add_right _ _)), drop_drop]
    rfl
  rw [storeDataWithSize, sized.sizeCodePoint_eq]
  simp only [required, if_pos (show sizeLength src + src.length ≤ dst.length from room), encoded,
    copied]
  rw [storedLength, take_left' rfl]

theorem storeAll_eq (sized : ∀ src ∈ blocks, HasSize src)
    (room : (blocks.map storedSize).sum ≤ dst.length) :
    storeAll blocks dst = (blocks.map storedBlock,
      storedBlocks blocks ++ dst.drop (blocks.map storedSize).sum) := by
  induction blocks generalizing dst with
  | nil => simp [storeAll, storedBlocks]
  | cons src srcs ih =>
      rw [forall_mem_cons] at sized
      obtain ⟨srcSized, restSized⟩ := sized
      rw [map_cons, sum_cons] at room
      have srcRoom : storedSize src ≤ dst.length := by omega
      have restRoom : (srcs.map storedSize).sum ≤ (dst.drop (storedSize src)).length := by
        rw [length_drop]
        omega
      have stored := srcSized.storeDataWithSize_eq srcRoom
      have rest := ih restSized restRoom
      rw [storeAll]
      simp only [stored, drop_left' rfl, take_left' rfl, rest]
      rw [storedBlocks_cons, map_cons, map_cons, sum_cons, drop_drop,
        append_assoc]

/-- The decoder finds the size of a stored block, unless the sequence for it is
the end of the source. -/
theorem HasSize.decoded (sized : HasSize src) (rest : Block) :
    doDecodeLengthAndCodePoint (storedBlock src ++ rest) =
      (some (sizeLength src),
        if src ++ rest = [] then none else some (ofNat 32 src.length)) := by
  obtain ⟨-, positive, atMost, fits⟩ := sized.sequence
  rw [storedBlock, append_assoc]
  exact doDecodeLengthAndCodePoint_eq positive atMost sized.isValid fits (src ++ rest)

theorem HasSize.skipDataWithSize_eq (sized : HasSize src) {rest : Block} (more : src ++ rest ≠ []) :
    skipDataWithSize (storedBlock src ++ rest) = (storedBlock src).length := by
  rw [skipDataWithSize, sized.decoded, if_neg more, sized.length_storedBlock, storedSize]
  simp only [sized.toNat_eq]

/-- The blocks that the iteration calls the function with: an empty last one is
missing. -/
def heard : List Block → List Block
  | [] => []
  | [src] => if src = [] then [] else [src]
  | src :: next :: srcs => src :: heard (next :: srcs)

theorem heard_eq_self_iff (blocks : List Block) :
    heard blocks = blocks ↔ blocks.getLast? ≠ some [] := by
  induction blocks using heard.induct with
  | case1 => simp [heard]
  | case2 => simp [heard]
  | case3 src nonempty => simp [heard, nonempty]
  | case4 src next srcs ih => simpa [heard] using ih

/-- One round of the iteration. -/
theorem HasSize.forEachDataWithSizeFrom_succ (sized : HasSize src) {rest : Block}
    (more : src ++ rest ≠ []) (fuel : Nat) :
    forEachDataWithSizeFrom (fuel + 1) (storedBlock src ++ rest) =
      src :: forEachDataWithSizeFrom fuel rest := by
  obtain ⟨-, positive, -, -⟩ := sized.sequence
  have sequenceLength :
      (sequenceOf (sizeLength src) (ofNat 32 src.length)).length = sizeLength src :=
    length_sequenceOf positive _
  have storedLength : sizeLength src + src.length = (storedBlock src).length :=
    sized.length_storedBlock.symm
  have wholeInside : (storedBlock src).length ≤ (storedBlock src ++ rest).length := by
    rw [length_append]
    exact Nat.le_add_right _ _
  have sizeInside : sizeLength src ≤ (storedBlock src ++ rest).length :=
    (Nat.le_add_right _ _).trans (storedLength.le.trans wholeInside)
  have nonempty : (storedBlock src ++ rest).isEmpty = false := by
    simp [storedBlock_ne_nil]
  have content : (storedBlock src).drop (sizeLength src) = src :=
    drop_left' sequenceLength
  rw [forEachDataWithSizeFrom, nonempty, sized.decoded, if_neg more]
  simp only [Bool.false_eq_true, if_false, sized.toNat_eq, storedLength,
    Nat.min_eq_right wholeInside, Nat.min_eq_right sizeInside, take_left' rfl,
    drop_left' rfl, content]

theorem forEachDataWithSizeFrom_last (fuel : Nat) :
    forEachDataWithSizeFrom fuel (storedBlock []) = [] := by
  have sized : HasSize [] := by decide
  cases fuel with
  | zero => rfl
  | succ fuel =>
      rw [← append_nil (storedBlock []), forEachDataWithSizeFrom, sized.decoded]
      simp

/-- The iteration over blocks with sizes gives them back, the empty last one
apart. -/
theorem forEachDataWithSizeFrom_eq (sized : ∀ src ∈ blocks, HasSize src) {fuel : Nat}
    (enough : blocks.length ≤ fuel) :
    forEachDataWithSizeFrom fuel (storedBlocks blocks) = heard blocks := by
  induction blocks generalizing fuel with
  | nil =>
      cases fuel with
      | zero => rfl
      | succ fuel => rfl
  | cons src srcs ih =>
      rw [forall_mem_cons] at sized
      obtain ⟨srcSized, restSized⟩ := sized
      obtain ⟨fuel, rfl⟩ : ∃ fewer, fuel = fewer + 1 := Nat.exists_eq_succ_of_ne_zero (by
        rw [length_cons] at enough
        omega)
      have rest := ih restSized (Nat.le_of_succ_le_succ enough)
      cases srcs with
      | nil =>
          rw [storedBlocks_cons]
          by_cases empty : src = []
          · subst empty
            rw [heard, if_pos rfl]
            exact (congrArg _ (append_nil _)).trans (forEachDataWithSizeFrom_last _)
          · have more : src ++ storedBlocks [] ≠ [] := by
              simp [empty]
            rw [srcSized.forEachDataWithSizeFrom_succ more, rest, heard, heard, if_neg empty]
      | cons next srcs =>
          have more : src ++ storedBlocks (next :: srcs) ≠ [] := by
            rw [storedBlocks_cons]
            simp [storedBlock_ne_nil]
          rw [storedBlocks_cons, srcSized.forEachDataWithSizeFrom_succ more, rest, heard]

/-- Whatever the source is, the function is called with blocks whose sizes were
decoded. -/
theorem hasSize_of_mem_forEachDataWithSizeFrom {block : Block} (fuel : Nat) (src : Block)
    (called : block ∈ forEachDataWithSizeFrom fuel src) : HasSize block := by
  induction fuel generalizing src with
  | zero => simp [forEachDataWithSizeFrom] at called
  | succ fuel ih =>
      rw [forEachDataWithSizeFrom] at called
      split at called
      · simp at called
      · split at called
        case h_1 skipLen dataLen decoded =>
            obtain ⟨-, valid⟩ := valid_of_doDecodeLengthAndCodePoint decoded
            rcases mem_cons.mp called with rfl | later
            · have bound : dataLen.toNat < 0x7FFFFFFF := of_decide_eq_true valid
              rw [HasSize, length_drop, length_take]
              omega
            · exact ih _ later
        case h_2 => simp at called

/-- The bytes that are written when the blocks are stored. -/
def written (blocks : List Block) (dst : Block) : Block :=
  (storeAll blocks dst).2.take (storeAll blocks dst).1.flatten.length

/-- The iteration over the written bytes calls the function with the blocks, and
the size of every stored block is found at its start. -/
def Retrieved (blocks : List Block) (dst : Block) : Prop :=
  forEachDataWithSize (written blocks dst) = blocks ∧
    ∀ before stored after, (storeAll blocks dst).1 = before ++ stored :: after →
      skipDataWithSize ((written blocks dst).drop before.flatten.length) = stored.length

theorem written_eq (sized : ∀ src ∈ blocks, HasSize src)
    (room : (blocks.map storedSize).sum ≤ dst.length) :
    written blocks dst = storedBlocks blocks := by
  rw [written, storeAll_eq sized room]
  exact take_left' rfl

theorem length_le_length_storedBlocks (blocks : List Block) :
    blocks.length ≤ (storedBlocks blocks).length := by
  induction blocks with
  | nil => exact le_rfl
  | cons src srcs ih =>
      have positive := length_pos_of_ne_nil (storedBlock_ne_nil src)
      rw [storedBlocks_cons, length_append, length_cons]
      omega

/-- What the iteration makes of the written bytes. -/
theorem forEachDataWithSize_written (sized : ∀ src ∈ blocks, HasSize src)
    (room : (blocks.map storedSize).sum ≤ dst.length) :
    forEachDataWithSize (written blocks dst) = heard blocks := by
  rw [written_eq sized room]
  exact forEachDataWithSizeFrom_eq sized (length_le_length_storedBlocks blocks)

/-- The size of a stored block is found at its start, if it is not an empty last
one. -/
theorem skipDataWithSize_written (sized : ∀ src ∈ blocks, HasSize src)
    (room : (blocks.map storedSize).sum ≤ dst.length) (lastNonempty : blocks.getLast? ≠ some [])
    {before after : List Block} {stored : Block}
    (split : (storeAll blocks dst).1 = before ++ stored :: after) :
    skipDataWithSize ((written blocks dst).drop before.flatten.length) = stored.length := by
  rw [storeAll_eq sized room] at split
  obtain ⟨first, others, rfl, rfl, othersEq⟩ := map_eq_append_iff.mp split
  obtain ⟨src, last, rfl, rfl, rfl⟩ := map_eq_cons_iff.mp othersEq
  have srcSized : HasSize src := sized src (by simp)
  have more : src ++ storedBlocks last ≠ [] := by
    intro empty
    rw [append_eq_nil_iff] at empty
    obtain ⟨rfl, noneLeft⟩ := empty
    cases last with
    | nil => exact lastNonempty (by simp)
    | cons next last => exact storedBlock_ne_nil next (append_eq_nil_iff.mp noneLeft).1
  have suffix : (storedBlocks first ++ (storedBlock src ++ storedBlocks last)).drop
      (storedBlocks first).length = storedBlock src ++ storedBlocks last :=
    drop_left' rfl
  rw [written_eq sized room, storedBlocks_append, storedBlocks_cons]
  exact (congrArg skipDataWithSize suffix).trans (srcSized.skipDataWithSize_eq more)

/-- Stored blocks are retrieved exactly if every one has a size and the last one
is not empty. -/
theorem retrieved_iff {blocks : List Block} {dst : Block}
    (room : (blocks.map storedSize).sum ≤ dst.length) :
    Retrieved blocks dst ↔
      (∀ src ∈ blocks, HasSize src) ∧ blocks.getLast? ≠ some [] := by
  constructor
  · rintro ⟨called, -⟩
    have sized : ∀ src ∈ blocks, HasSize src := by
      intro src member
      rw [← called] at member
      exact hasSize_of_mem_forEachDataWithSizeFrom _ _ member
    rw [forEachDataWithSize_written sized room, heard_eq_self_iff] at called
    exact ⟨sized, called⟩
  · rintro ⟨sized, lastNonempty⟩
    refine ⟨?_, fun before stored after => skipDataWithSize_written sized room lastNonempty⟩
    rw [forEachDataWithSize_written sized room]
    exact (heard_eq_self_iff blocks).mpr lastNonempty

/-- A full block and an empty one in front of a short one. -/
theorem retrieved_three : Retrieved [[1, 2], [], [3]] (List.replicate 16 0) :=
  (retrieved_iff (by decide)).mpr (by decide)

/-- An empty block alone is not retrieved. -/
theorem not_retrieved_empty : ¬Retrieved [[]] (List.replicate 16 0) := by
  rintro ⟨called, -⟩
  exact absurd called (by decide)

end Eagine.Serialization
