import Mathlib.Data.List.Basic
import Mathlib.Data.Nat.Init

/-!
# Rows of frames

A frame tells its length by the symbols at its start. A text starts with a row of frames,
and what is behind the row is nothing, something that starts no frame, or a frame that the
text ends in.
-/

open List

namespace Theory

/-- The length that the start of a text announces. It does not depend on what is behind the
frame. -/
structure Framing (α : Type) where
  size : List α → Option Nat
  positive : ∀ text length, size text = some length → 0 < length
  settled : ∀ text length rest, size text = some length → length ≤ text.length →
    size (text.take length ++ rest) = some length

namespace Framing

variable {α : Type} (framing : Framing α)

def IsFrame (frame : List α) : Prop :=
  framing.size frame = some frame.length

/-- Frames one after another. -/
def IsRow (frames : List (List α)) : Prop :=
  ∀ frame ∈ frames, framing.IsFrame frame

/-- No frame starts here. -/
def IsStuck (text : List α) : Prop :=
  text ≠ [] ∧ framing.size text = none

/-- A frame that is announced and not complete. -/
def IsCut (text : List α) : Prop :=
  text ≠ [] ∧ ∃ length, framing.size text = some length ∧ text.length < length

variable {framing}

variable {frame : List α} {frames : List (List α)}

theorem isRow_cons_iff :
    framing.IsRow (frame :: frames) ↔ framing.IsFrame frame ∧ framing.IsRow frames :=
  forall_mem_cons

theorem isRow_nil : framing.IsRow [] :=
  fun _ mem => absurd mem not_mem_nil

theorem isRow_append_iff {others : List (List α)} :
    framing.IsRow (frames ++ others) ↔ framing.IsRow frames ∧ framing.IsRow others :=
  forall_mem_append

theorem IsFrame.length_pos (isFrame : framing.IsFrame frame) : 0 < frame.length :=
  framing.positive frame frame.length isFrame

theorem IsFrame.size_append (isFrame : framing.IsFrame frame) (rest : List α) :
    framing.size (frame ++ rest) = some frame.length := by
  have settled := framing.settled frame frame.length rest isFrame (Nat.le_refl _)
  rwa [take_length] at settled

theorem isFrame_take {text : List α} {length : Nat} (announced : framing.size text = some length)
    (complete : length ≤ text.length) : framing.IsFrame (text.take length) := by
  rw [IsFrame, length_take_of_le complete]
  have settled := framing.settled text length [] announced complete
  rwa [append_nil] at settled

/-- A text starts with one frame at most. -/
theorem IsFrame.unique {other rest otherRest : List α} (isFrame : framing.IsFrame frame)
    (isOther : framing.IsFrame other) (same : frame ++ rest = other ++ otherRest) :
    frame = other ∧ rest = otherRest := by
  have announced := isFrame.size_append rest
  rw [same, isOther.size_append otherRest] at announced
  exact append_inj same (Option.some.inj announced).symm

/-- A text starts with one row at most that has a given number of frames. -/
theorem IsRow.unique {others : List (List α)} {rest otherRest : List α}
    (isRow : framing.IsRow frames) (isOther : framing.IsRow others)
    (same : frames.flatten ++ rest = others.flatten ++ otherRest)
    (lengths : frames.length = others.length) : frames = others ∧ rest = otherRest := by
  induction frames generalizing others with
  | nil =>
      cases length_eq_zero_iff.mp lengths.symm
      exact ⟨rfl, same⟩
  | cons frame frames ih =>
      cases others with
      | nil => cases lengths
      | cons other others =>
          rcases isRow_cons_iff.mp isRow with ⟨head, tail⟩
          rcases isRow_cons_iff.mp isOther with ⟨otherHead, otherTail⟩
          rw [flatten_cons, flatten_cons, append_assoc, append_assoc] at same
          rcases head.unique otherHead same with ⟨rfl, rests⟩
          rcases ih tail otherTail rests (Nat.succ.inj lengths) with ⟨rfl, restEq⟩
          exact ⟨rfl, restEq⟩

theorem IsRow.length_le (isRow : framing.IsRow frames) : frames.length ≤ frames.flatten.length := by
  induction frames with
  | nil => exact Nat.le_refl 0
  | cons frame frames ih =>
      rcases isRow_cons_iff.mp isRow with ⟨head, tail⟩
      rw [length_cons, flatten_cons, length_append, Nat.add_comm]
      exact Nat.add_le_add head.length_pos (ih tail)

/-- A text is a row of frames up to its end, up to where no frame starts or up to a frame that
is cut. -/
theorem exists_row (framing : Framing α) (text : List α) :
    ∃ frames rest, text = frames.flatten ++ rest ∧ framing.IsRow frames ∧
      (rest = [] ∨ framing.IsStuck rest ∨ framing.IsCut rest) := by
  induction total : text.length using Nat.strong_induction_on generalizing text with
  | _ _ ih =>
      have atStart (ends : text = [] ∨ framing.IsStuck text ∨ framing.IsCut text) :
          ∃ frames rest, text = frames.flatten ++ rest ∧ framing.IsRow frames ∧
            (rest = [] ∨ framing.IsStuck rest ∨ framing.IsCut rest) :=
        ⟨[], text, rfl, isRow_nil, ends⟩
      by_cases empty : text = []
      · exact atStart (.inl empty)
      · cases announced : framing.size text with
        | none => exact atStart (.inr (.inl ⟨empty, announced⟩))
        | some length =>
            by_cases cut : text.length < length
            · exact atStart (.inr (.inr ⟨empty, length, announced, cut⟩))
            · have complete : length ≤ text.length := Nat.le_of_not_lt cut
              have less : (text.drop length).length < text.length := by
                rw [length_drop]
                exact Nat.sub_lt (length_pos_of_ne_nil empty)
                  (framing.positive text length announced)
              rcases ih _ (total ▸ less) _ rfl with ⟨frames, rest, split, isRow, ends⟩
              refine ⟨text.take length :: frames, rest, ?_, ?_, ends⟩
              · rw [flatten_cons, append_assoc, ← split, take_append_drop]
              · exact isRow_cons_iff.mpr ⟨isFrame_take announced complete, isRow⟩

end Framing

end Theory
