import Eagine.Serialization.StoredBlocks

/-!
# Padded blocks

A block is stored behind its size and padded with scrambled copies of itself. The padding goes on
in steps of the size of the block, so that an empty block never fills it.
-/

namespace Eagine.Serialization

open MultiByte List
open BitVec (ofNat)

/-- The loop of `scramble`, from both ends of the source. -/
def scrambleFrom : UInt8 → Block → Block → Block
  | xr, fi :: front, ri :: back => (fi ^^^ (ri ^^^ xr)) :: scrambleFrom fi front back
  | _, _, _ => []

/-- What `scramble` writes to the front of its destination. -/
def scramble (src : Block) : Block :=
  match src.reverse with
  | [] => []
  | last :: _ => scrambleFrom (0xA5 ^^^ last) src src.reverse

theorem length_scrambleFrom {front back : Block} (sameLength : front.length = back.length)
    (xr : UInt8) : (scrambleFrom xr front back).length = front.length := by
  induction front generalizing back xr with
  | nil => rfl
  | cons fi front ih =>
      rcases exists_cons_of_length_eq_add_one sameLength.symm with ⟨ri, back, rfl⟩
      rw [scrambleFrom, length_cons, ih (Nat.succ.inj sameLength),
        length_cons]

theorem length_scramble (src : Block) : (scramble src).length = src.length := by
  rw [scramble]
  split
  · rename_i nothing
    rw [reverse_eq_nil_iff.mp nothing]
  · exact length_scrambleFrom (length_reverse).symm _

/-- The padding after a step, behind which the next one goes on. -/
def padStep (src fill : Block) : Block :=
  let head := src.take fill.length
  scramble head ++ fill.drop head.length

/-- The loop that fills the padding, for so many steps. There is no result where it goes on. -/
def padWith (src : Block) : Nat → Block → Option Block
  | 0, fill => if fill = [] then some [] else none
  | fuel + 1, fill =>
      if fill = [] then some []
      else
        let scrambled := padStep src fill
        (padWith src fuel (scrambled.drop src.length)).map
          fun rest => scrambled.take src.length ++ rest

/-- The parts of the destination: the block with its size and padding, the block with its padding,
the block and the padding. They are empty where nothing was stored. -/
structure PaddedBlock where
  stored : Block := []
  content : Block := []
  data : Block := []
  padding : Block := []
deriving DecidableEq

/-- The parts and the destination after so many steps of the loop. -/
def padAndStoreDataWithSize (fuel : Nat) (src : Block) (paddedSize : Nat) (dst : Block) :
    Option (PaddedBlock × Block) :=
  match sizeCodePoint src with
  | none => some ({}, dst)
  | some sizeCp =>
      match requiredSequenceLength sizeCp with
      | none => some ({}, dst)
      | some sizeLen =>
          if sizeLen + paddedSize ≤ dst.length then
            match encodeCodePoint (some sizeCp) dst with
            | (some skipLen, dst) =>
                let copied := dst.take skipLen ++ src ++ dst.drop (skipLen + src.length)
                let fill := (copied.drop (skipLen + src.length)).take (paddedSize - src.length)
                (padWith src fuel fill).map fun padding =>
                  let padded := copied.take (skipLen + src.length) ++ padding ++
                    copied.drop (skipLen + paddedSize)
                  ({ stored := padded.take (skipLen + paddedSize)
                     content := (padded.drop skipLen).take paddedSize
                     data := (padded.drop skipLen).take src.length
                     padding }, padded)
            | (none, dst) => some ({}, encodeNil dst)
          else some ({}, encodeNil dst)

/-- The block that the source starts with, behind its size. -/
def getDataWithSize (src : Block) : Block :=
  match doDecodeLengthAndCodePoint src with
  | (some skipLen, some dataLen) => (src.drop skipLen).take dataLen.toNat
  | _ => []

theorem padWith_nil_of_ne_nil {fill : Block} (nonempty : fill ≠ []) (fuel : Nat) :
    padWith [] fuel fill = none := by
  induction fuel with
  | zero => exact if_neg nonempty
  | succ fuel ih =>
      have unchanged : padStep [] fill = fill := by
        rw [padStep, take_nil]
        rfl
      rw [padWith, if_neg nonempty]
      simp only [unchanged, length_nil, drop_zero, ih, Option.map_none]

variable {src dst : Block} {paddedSize sizeLen : Nat}

theorem padWith_succ {fill : Block} (some : fill ≠ []) (fuel : Nat) :
    padWith src (fuel + 1) fill = (padWith src fuel ((padStep src fill).drop src.length)).map
      fun rest => (padStep src fill).take src.length ++ rest :=
  if_neg some

theorem length_padStep (src fill : Block) : (padStep src fill).length = fill.length := by
  simp only [padStep, length_append, length_scramble, length_drop, length_take]
  omega

variable {fuel : Nat}

theorem length_of_padWith {fill padding : Block}
    (filled : padWith src fuel fill = some padding) : padding.length = fill.length := by
  by_cases nothing : fill = []
  · have same : padWith src fuel fill = some [] := by
      cases fuel <;> exact if_pos nothing
    rw [nothing, Option.some.inj (filled.symm.trans same)]
  · induction fuel generalizing fill padding with
    | zero =>
        rw [padWith, if_neg nothing] at filled
        cases filled
    | succ fuel ih =>
        rw [padWith_succ nothing, Option.map_eq_some_iff] at filled
        rcases filled with ⟨rest, restFilled, rfl⟩
        have restLength : rest.length = ((padStep src fill).drop src.length).length := by
          by_cases done : (padStep src fill).drop src.length = []
          · have same : padWith src fuel ((padStep src fill).drop src.length) = some [] := by
              cases fuel <;> exact if_pos done
            rw [done, Option.some.inj (restFilled.symm.trans same)]
          · exact ih restFilled done
        rw [length_append, restLength, ← length_append, take_append_drop,
          length_padStep]

/-- Every step fills a byte at least. -/
theorem exists_padWith (nonempty : src ≠ []) {fill : Block}
    (enough : fill.length ≤ fuel) : ∃ padding, padWith src fuel fill = some padding := by
  induction fuel generalizing fill with
  | zero =>
      have nothing : fill = [] := eq_nil_of_length_eq_zero (Nat.le_zero.mp enough)
      exact ⟨[], if_pos nothing⟩
  | succ fuel ih =>
      by_cases nothing : fill = []
      · exact ⟨[], if_pos nothing⟩
      · have positive := length_pos_of_ne_nil nonempty
        have shorter : ((padStep src fill).drop src.length).length ≤ fuel := by
          rw [length_drop, length_padStep]
          omega
        rcases ih shorter with ⟨rest, filled⟩
        exact ⟨_, by rw [padWith_succ nothing, filled, Option.map_some]⟩

/-- The size has a sequence of so many bytes, and there is room for it and the padded block. -/
structure Storable (src : Block) (paddedSize : Nat) (dst : Block) (sizeLen : Nat) : Prop where
  sequence : (sizeCodePoint src).bind requiredSequenceLength = some sizeLen
  room : sizeLen + paddedSize ≤ dst.length

theorem padAndStore_of_not_storable (notStorable : ∀ sizeLen, ¬Storable src paddedSize dst sizeLen)
    (fuel : Nat) : ∃ after, padAndStoreDataWithSize fuel src paddedSize dst = some ({}, after) := by
  unfold padAndStoreDataWithSize
  cases sized : sizeCodePoint src with
  | none => exact ⟨_, rfl⟩
  | some sizeCp =>
      dsimp only
      cases required : requiredSequenceLength sizeCp with
      | none => exact ⟨_, rfl⟩
      | some sizeLen =>
          have noRoom : ¬sizeLen + paddedSize ≤ dst.length := fun room =>
            notStorable sizeLen ⟨by rw [sized, Option.bind_some, required], room⟩
          exact ⟨_, if_neg noRoom⟩

/-- The block behind the sequence for its size, with the padding. -/
theorem Storable.exists_sequence (storable : Storable src paddedSize dst sizeLen) :
    isValid (ofNat 32 src.length) = true ∧
      requiredSequenceLength (ofNat 32 src.length) = some sizeLen ∧ 1 ≤ sizeLen ∧
        sizeLen ≤ 6 ∧ (ofNat 32 src.length).toNat <
          2 ^ (headBits sizeLen + (sizeLen - 1) * 6) := by
  have sequence := storable.sequence
  rw [sizeCodePoint, codePoint] at sequence
  by_cases valid : isValid (ofNat 32 src.length) = true
  · rw [if_pos valid, Option.bind_some] at sequence
    rcases exists_requiredSequenceLength valid with ⟨len, required, positive, atMost, fits⟩
    have lenEq : len = sizeLen := Option.some.inj (required.symm.trans sequence)
    exact ⟨valid, sequence, lenEq ▸ positive, lenEq ▸ atMost, lenEq ▸ fits⟩
  · rw [if_neg valid] at sequence
    cases sequence

/-- What is to be padded, behind the block. -/
def fillOf (src : Block) (paddedSize : Nat) (dst : Block) (sizeLen : Nat) : Block :=
  (dst.drop (sizeLen + src.length)).take (paddedSize - src.length)

theorem Storable.length_fillOf (storable : Storable src paddedSize dst sizeLen)
    (upTo : src.length ≤ paddedSize) :
    (fillOf src paddedSize dst sizeLen).length = paddedSize - src.length := by
  have room := storable.room
  rw [fillOf, length_take, length_drop]
  omega

theorem Storable.padAndStore_eq (storable : Storable src paddedSize dst sizeLen)
    (upTo : src.length ≤ paddedSize) (fuel : Nat) :
    ((padAndStoreDataWithSize fuel src paddedSize dst).map fun result => result.1.stored) =
      (padWith src fuel (fillOf src paddedSize dst sizeLen)).map fun padding =>
        (sequenceOf sizeLen (ofNat 32 src.length) ++ (src ++ padding) ++
          dst.drop (sizeLen + paddedSize)).take (sizeLen + paddedSize) := by
  rcases storable.exists_sequence with ⟨valid, required, positive, atMost, _⟩
  have room := storable.room
  have cp : sizeCodePoint src = some (ofNat 32 src.length) := if_pos valid
  have encoded := encodeCodePoint_eq positive atMost required
    (Nat.le_trans (Nat.le_add_right sizeLen paddedSize) room)
  have length_eq : (sequenceOf sizeLen (ofNat 32 src.length)).length = sizeLen :=
    length_sequenceOf positive _
  generalize sequenceOf sizeLen (ofNat 32 src.length) = sequence at encoded length_eq ⊢
  have copied : (sequence ++ dst.drop sizeLen).take sizeLen ++ src ++
      (sequence ++ dst.drop sizeLen).drop (sizeLen + src.length) =
      sequence ++ src ++ dst.drop (sizeLen + src.length) := by
    rw [take_left' length_eq, drop_append, length_eq, Nat.add_sub_cancel_left,
      drop_eq_nil_of_le (length_eq.le.trans (Nat.le_add_right _ _)), drop_drop,
      nil_append]
  have frontLength : (sequence ++ src).length = sizeLen + src.length := by
    rw [length_append, length_eq]
  have behind : (sequence ++ src ++ dst.drop (sizeLen + src.length)).drop (sizeLen + paddedSize) =
      dst.drop (sizeLen + paddedSize) := by
    rw [drop_append, frontLength, drop_drop, drop_eq_nil_of_le (by omega),
      nil_append]
    congr 1
    omega
  unfold padAndStoreDataWithSize
  rw [cp]
  simp only [required, if_pos room, encoded, copied, behind, drop_left' frontLength,
    take_left' frontLength, Option.map_map]
  congr 1
  funext padding
  simp only [Function.comp_apply, append_assoc]

/-- The function returns, and if it stores the block, this is the first block of the result. -/
def PadsAndStores (src : Block) (paddedSize : Nat) (dst : Block) : Prop :=
  ∃ fuel block after, padAndStoreDataWithSize fuel src paddedSize dst = some (block, after) ∧
    (block.stored ≠ [] → getDataWithSize block.stored = src)

/-- What is read back is as long as the size says. -/
theorem Storable.getDataWithSize_eq (storable : Storable src paddedSize dst sizeLen)
    (content : Block) :
    getDataWithSize (sequenceOf sizeLen (ofNat 32 src.length) ++ content) =
      content.take (ofNat 32 src.length).toNat := by
  rcases storable.exists_sequence with ⟨valid, _, positive, atMost, fits⟩
  have decoded := doDecodeLengthAndCodePoint_eq positive atMost valid fits content
  rw [getDataWithSize, decoded]
  by_cases nothing : content = []
  · rw [if_pos nothing, nothing, take_nil]
  · simp only [if_neg nothing, drop_left' (length_sequenceOf positive _)]

/-- The function returns the block and the padding if the loop does. -/
theorem Storable.exists_stored (storable : Storable src paddedSize dst sizeLen)
    (upTo : src.length ≤ paddedSize) {padding : Block}
    (filled : padWith src fuel (fillOf src paddedSize dst sizeLen) = some padding)
    (paddingLength : padding.length = paddedSize - src.length) :
    ∃ block after, padAndStoreDataWithSize fuel src paddedSize dst = some (block, after) ∧
      block.stored = sequenceOf sizeLen (ofNat 32 src.length) ++ (src ++ padding) := by
  have stored := storable.padAndStore_eq upTo fuel
  rcases storable.exists_sequence with ⟨_, _, positive, _, _⟩
  have length_eq : (sequenceOf sizeLen (ofNat 32 src.length) ++ (src ++ padding)).length =
      sizeLen + paddedSize := by
    rw [length_append, length_sequenceOf positive, length_append, paddingLength]
    omega
  rw [filled, Option.map_some, take_left' length_eq, Option.map_eq_some_iff] at stored
  rcases stored with ⟨⟨block, after⟩, returned, storedEq⟩
  exact ⟨block, after, returned, storedEq⟩

/-- The function returns exactly if the loop does. -/
theorem Storable.isSome_padWith (storable : Storable src paddedSize dst sizeLen)
    (upTo : src.length ≤ paddedSize) {result : PaddedBlock × Block}
    (returned : padAndStoreDataWithSize fuel src paddedSize dst = some result) :
    ∃ padding, padWith src fuel (fillOf src paddedSize dst sizeLen) = some padding := by
  have stored := storable.padAndStore_eq upTo fuel
  rw [returned, Option.map_some] at stored
  rcases Option.map_eq_some_iff.mp stored.symm with ⟨padding, filled, _⟩
  exact ⟨padding, filled⟩

/-- A block that is to be stored is padded and stored exactly if it is not an empty one that is
to be padded, and has a size. -/
theorem padsAndStores_iff {src : Block} {paddedSize : Nat} (upTo : src.length ≤ paddedSize)
    (dst : Block) :
    PadsAndStores src paddedSize dst ↔
      ∀ sizeLen, Storable src paddedSize dst sizeLen →
        (src = [] → paddedSize = 0) ∧ HasSize src := by
  constructor
  · rintro ⟨fuel, block, after, returned, isSource⟩ sizeLen storable
    rcases storable.isSome_padWith upTo returned with ⟨padding, filled⟩
    have fillLength := storable.length_fillOf upTo
    by_cases empty : src = []
    · subst empty
      refine ⟨fun _ => ?_, by decide⟩
      by_contra positive
      have toFill : fillOf [] paddedSize dst sizeLen ≠ [] := by
        intro nothing
        rw [nothing] at fillLength
        exact positive fillLength.symm
      rw [padWith_nil_of_ne_nil toFill] at filled
      cases filled
    · refine ⟨fun none => absurd none empty, ?_⟩
      rcases storable.exists_stored upTo filled ((length_of_padWith filled).trans fillLength) with
        ⟨same, sameAfter, sameReturned, storedEq⟩
      cases returned.symm.trans sameReturned
      have retrieved := isSource (storedEq ▸ cons_ne_nil _ _)
      rw [storedEq, storable.getDataWithSize_eq] at retrieved
      have shorter := congrArg List.length retrieved
      have valid : (ofNat 32 src.length).toNat < 0x7FFFFFFF :=
        of_decide_eq_true storable.exists_sequence.1
      rw [length_take] at shorter
      exact Nat.lt_of_le_of_lt (shorter.symm.le.trans (Nat.min_le_left _ _)) valid
  · intro condition
    by_cases storable : ∃ sizeLen, Storable src paddedSize dst sizeLen
    · rcases storable with ⟨sizeLen, storable⟩
      rcases condition sizeLen storable with ⟨notPadded, sized⟩
      have fillLength := storable.length_fillOf upTo
      have returns : ∃ fuel padding,
          padWith src fuel (fillOf src paddedSize dst sizeLen) = some padding := by
        by_cases empty : src = []
        · have nothing : fillOf src paddedSize dst sizeLen = [] := by
            apply eq_nil_of_length_eq_zero
            rw [fillLength, notPadded empty, Nat.zero_sub]
          exact ⟨0, [], if_pos nothing⟩
        · exact ⟨_, exists_padWith empty (Nat.le_refl _)⟩
      rcases returns with ⟨fuel, padding, filled⟩
      rcases storable.exists_stored upTo filled ((length_of_padWith filled).trans fillLength) with
        ⟨block, after, returned, storedEq⟩
      refine ⟨fuel, block, after, returned, fun _ => ?_⟩
      rw [storedEq, storable.getDataWithSize_eq, sized.toNat_eq, take_left' rfl]
    · rcases padAndStore_of_not_storable (not_exists.mp storable) 0 with ⟨after, returned⟩
      exact ⟨0, {}, after, returned, fun stored => absurd rfl stored⟩

/-- A block of three bytes is padded to eight. -/
theorem padsAndStores_three :
    PadsAndStores [1, 2, 3] 8 (List.replicate 16 0) ↔
      ∀ sizeLen, Storable [1, 2, 3] 8 (List.replicate 16 0) sizeLen →
        (([1, 2, 3] : Block) = [] → 8 = 0) ∧ HasSize [1, 2, 3] :=
  padsAndStores_iff (by decide) _

/-- An empty block is never padded to eight bytes. -/
theorem not_forall_padsAndStores :
    ¬∀ (src : Block) (paddedSize : Nat) (dst : Block), src.length ≤ paddedSize →
      PadsAndStores src paddedSize dst := by
  intro pads
  rcases pads [] 8 (List.replicate 16 0) (by decide) with ⟨fuel, block, after, returned, _⟩
  have storable : Storable [] 8 (List.replicate 16 0) 1 := ⟨by decide, by decide⟩
  rcases storable.isSome_padWith (by decide) returned with ⟨padding, filled⟩
  rw [padWith_nil_of_ne_nil (by decide)] at filled
  cases filled

end Eagine.Serialization
