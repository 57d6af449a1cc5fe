import Eagine.Serialization.FragmentDelivery

/-!
# Ranges that were marked done

However the ranges that are marked overlap and whichever order they come in, the counter of a
wrapper is the number of the indices of the target that they cover. What they say of an index
behind the end of the target is cut off.
-/

namespace Eagine.Serialization

/-- The arguments of a call of `mark_done`. -/
structure MarkedRange where
  offs : Nat
  size : Nat

/-- An index is in some of the ranges. -/
def IsCovered (ranges : List MarkedRange) (q : Nat) : Prop :=
  ∃ range ∈ ranges, range.offs ≤ q ∧ q < range.offs + range.size

instance (ranges : List MarkedRange) (q : Nat) : Decidable (IsCovered ranges q) :=
  inferInstanceAs (Decidable (∃ range ∈ ranges, _))

theorem isCovered_cons (range : MarkedRange) (ranges : List MarkedRange) (q : Nat) :
    IsCovered (range :: ranges) q ↔
      (range.offs ≤ q ∧ q < range.offs + range.size) ∨ IsCovered ranges q := by
  simp only [IsCovered, List.mem_cons, exists_eq_or_imp]

/-- The indices of a target of this size that the ranges cover. -/
def coveredIndices (count : Nat) (ranges : List MarkedRange) : Finset Nat :=
  (Finset.range count).filter (IsCovered ranges)

theorem coveredIndices_perm {count : Nat} {ranges others : List MarkedRange}
    (perm : others.Perm ranges) : coveredIndices count others = coveredIndices count ranges := by
  apply Finset.filter_congr
  intro q _
  simp only [IsCovered, perm.mem_iff]

namespace FragmentDeserializeWrapper

variable {α : Type}

/-- The wrapper after some calls of `mark_done`. -/
def markAll (frag : FragmentDeserializeWrapper α) (ranges : List MarkedRange) :
    FragmentDeserializeWrapper α :=
  ranges.foldl (fun frag range => frag.markDone range.offs range.size) frag

/-- The wrapper of a target of which a set of indices is done. -/
def ofDone (dst : List α) (done : Finset Nat) : FragmentDeserializeWrapper α where
  dst := dst
  doneBits := (List.range dst.length).map fun q => decide (q ∈ done)
  doneSize := ((Finset.range dst.length).filter (· ∈ done)).card

theorem markAll_cons (frag : FragmentDeserializeWrapper α) (range : MarkedRange)
    (ranges : List MarkedRange) :
    frag.markAll (range :: ranges) = (frag.markDone range.offs range.size).markAll ranges :=
  rfl

@[simp]
theorem markAll_dst (frag : FragmentDeserializeWrapper α) (ranges : List MarkedRange) :
    (frag.markAll ranges).dst = frag.dst := by
  induction ranges generalizing frag with
  | nil => rfl
  | cons range ranges ih => rw [markAll_cons, ih, markDone_dst]

@[simp]
theorem markAll_length (frag : FragmentDeserializeWrapper α) (ranges : List MarkedRange) :
    (frag.markAll ranges).doneBits.length = frag.doneBits.length := by
  induction ranges generalizing frag with
  | nil => rfl
  | cons range ranges ih => rw [markAll_cons, ih, markDone_length]

theorem markAll_counts {frag : FragmentDeserializeWrapper α} (counts : frag.Counts)
    (ranges : List MarkedRange) : (frag.markAll ranges).Counts := by
  induction ranges generalizing frag with
  | nil => exact counts
  | cons range ranges ih => exact ih (markDone_counts _ _ counts)

/-- A bit is set by any of the ranges, and by nothing else. -/
theorem markAll_bit (frag : FragmentDeserializeWrapper α) (ranges : List MarkedRange) (q : Nat)
    (inRange : q < frag.doneBits.length) :
    (frag.markAll ranges).doneBits.getD q false =
      (frag.doneBits.getD q false || decide (IsCovered ranges q)) := by
  induction ranges generalizing frag with
  | nil => simp [markAll, IsCovered]
  | cons range ranges ih =>
      have stillInRange : q < (frag.markDone range.offs range.size).doneBits.length := by
        rwa [markDone_length]
      rw [markAll_cons, ih _ stillInRange, markDone_bit _ _ _ _ inRange, Bool.or_assoc,
        ← Bool.decide_or, decide_eq_decide.mpr (isCovered_cons range ranges q)]

theorem counts_ofTarget (dst : List α) : (ofTarget dst).Counts := by
  unfold Counts ofTarget
  exact (List.count_eq_zero_of_not_mem (by simp)).symm

theorem count_map_range (count : Nat) (done : Finset Nat) :
    ((List.range count).map fun q => decide (q ∈ done)).count true =
      ((Finset.range count).filter (· ∈ done)).card := by
  rw [List.count, List.countP_map, List.countP_eq_length_filter]
  have same : ((fun bit : Bool => bit == true) ∘ fun q => decide (q ∈ done)) =
      fun q => decide (q ∈ done) := by
    funext q
    exact beq_true _
  rw [same]
  rfl

/-- The wrapper is that of the indices that the ranges cover. -/
theorem markAll_ofTarget (dst : List α) (ranges : List MarkedRange) :
    (ofTarget dst).markAll ranges = ofDone dst (coveredIndices dst.length ranges) := by
  have length : (ofTarget dst).doneBits.length = dst.length := List.length_replicate
  have bits : ((ofTarget dst).markAll ranges).doneBits =
      (ofDone dst (coveredIndices dst.length ranges)).doneBits := by
    apply List.ext_getElem
    · rw [markAll_length, length, ofDone, List.length_map, List.length_range]
    · intro q within _
      have inside : q < dst.length := by rwa [markAll_length, length] at within
      have unmarked : (ofTarget dst).doneBits.getD q false = false := by
        simp [ofTarget]
      have marked := markAll_bit (ofTarget dst) ranges q (length.symm ▸ inside)
      rw [unmarked, Bool.false_or, List.getD_eq_getElem _ _ within] at marked
      rw [marked]
      simp [ofDone, coveredIndices, inside]
  have counted := markAll_counts (counts_ofTarget dst) ranges
  rw [Counts, bits] at counted
  have sameSize : ((ofTarget dst).markAll ranges).doneSize =
      (ofDone dst (coveredIndices dst.length ranges)).doneSize :=
    counted.trans (count_map_range _ _)
  have sameTarget : ((ofTarget dst).markAll ranges).dst = dst := markAll_dst _ _
  calc
    (ofTarget dst).markAll ranges = ⟨((ofTarget dst).markAll ranges).dst,
        ((ofTarget dst).markAll ranges).doneBits, ((ofTarget dst).markAll ranges).doneSize⟩ := rfl
    _ = _ := by rw [sameTarget, bits, sameSize]; rfl

/-- What is asked of the books that a wrapper keeps of the ranges. -/
structure BooksExactly (dst : List α) (ranges : List MarkedRange) : Prop where
  counted : ((ofTarget dst).markAll ranges).doneSize = (coveredIndices dst.length ranges).card
  unordered : ∀ others : List MarkedRange, others.Perm ranges →
    (ofTarget dst).markAll others = (ofTarget dst).markAll ranges
  done : ((ofTarget dst).markAll ranges).isDone = true ↔ ∀ q < dst.length, IsCovered ranges q

/-- The books are exact for all targets and all ranges. -/
theorem booksExactly (dst : List α) (ranges : List MarkedRange) : BooksExactly dst ranges where
  counted := by
    have inside : (Finset.range dst.length).filter (· ∈ coveredIndices dst.length ranges) =
        coveredIndices dst.length ranges := by
      rw [Finset.filter_mem_eq_inter]
      exact Finset.inter_eq_right.mpr (Finset.filter_subset _ _)
    rw [markAll_ofTarget, ofDone, inside]
  unordered := by
    intro others perm
    rw [markAll_ofTarget, markAll_ofTarget, coveredIndices_perm perm]
  done := by
    have length : (ofTarget dst).doneBits.length = dst.length := List.length_replicate
    rw [isDone_iff (markAll_counts (counts_ofTarget dst) ranges)
      (by rw [markAll_length, markAll_dst, length]; rfl), markAll_dst]
    change (∀ q < dst.length, _) ↔ _
    refine forall₂_congr fun q inside => ?_
    rw [markAll_bit _ _ _ (length.symm ▸ inside)]
    simp [ofTarget]

end FragmentDeserializeWrapper

end Eagine.Serialization
