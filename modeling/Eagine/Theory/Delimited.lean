import Mathlib.Data.List.Infix

/-!
# Texts with separators

A text is cut at the leftmost occurrence of a separator, and so is what remains behind it.
The pieces joined by the separator are the text again, and there is no separator in any of
them.
-/

namespace Theory

open List

variable {α : Type*} {sep : List α}

/-- No separator starts before the position. -/
def NoneBefore (sep text : List α) (position : Nat) : Prop :=
  ∀ i < position, ¬sep <+: text.drop i

/-- The pieces of a text. Behind every piece but the last one there is the leftmost separator
of what remains. -/
inductive Delimited (sep : List α) : List α → List (List α) → Prop
  | last {piece : List α} : ¬sep <:+: piece → Delimited sep piece [piece]
  | next {piece rest : List α} {pieces : List (List α)} :
      NoneBefore sep (piece ++ (sep ++ rest)) piece.length → Delimited sep rest pieces →
        Delimited sep (piece ++ (sep ++ rest)) (piece :: pieces)

variable {text : List α}

theorem isInfix_of_isPrefix_drop {i : Nat} (occurs : sep <+: text.drop i) : sep <:+: text :=
  occurs.isInfix.trans (drop_suffix i text).isInfix

theorem exists_of_isPrefix_drop (nonempty : sep ≠ []) {i : Nat} (occurs : sep <+: text.drop i) :
    ∃ front rest, text = front ++ (sep ++ rest) ∧ front.length = i := by
  rcases occurs with ⟨rest, split⟩
  have within : i < text.length := by
    apply Nat.lt_of_not_le
    intro outside
    rw [drop_of_length_le outside] at split
    exact nonempty (append_eq_nil_iff.mp split).1
  refine ⟨text.take i, rest, ?_, length_take_of_le (Nat.le_of_lt within)⟩
  rw [split, take_append_drop]

theorem NoneBefore.append {front : List α} {position : Nat}
    (none : NoneBefore sep (front ++ text) front.length)
    (noneBehind : NoneBefore sep text position) :
    NoneBefore sep (front ++ text) (front.length + position) := by
  intro i before
  rcases Nat.lt_or_ge i front.length with inside | behind
  · exact none i inside
  · rcases Nat.exists_eq_add_of_le behind with ⟨j, rfl⟩
    rw [drop_length_add_append]
    exact noneBehind j (Nat.lt_of_add_lt_add_left before)

namespace Delimited

variable {pieces : List (List α)}

theorem ne_nil (delimited : Delimited sep text pieces) : pieces ≠ [] := by
  cases delimited with
  | last none => exact cons_ne_nil _ _
  | next none tail => exact cons_ne_nil _ _

theorem intercalate_eq (delimited : Delimited sep text pieces) : sep.intercalate pieces = text := by
  induction delimited with
  | last none => exact intercalate_singleton
  | next none tail ih =>
      rw [intercalate_cons_of_ne_nil tail.ne_nil, ih, append_assoc]

theorem noneBefore {piece : List α} (delimited : Delimited sep text (piece :: pieces)) :
    NoneBefore sep text piece.length := by
  cases delimited with
  | last none =>
      intro i _ occurs
      exact none (isInfix_of_isPrefix_drop occurs)
  | next none tail => exact none

/-- A separator that is not empty is in none of the pieces. -/
theorem not_isInfix (nonempty : sep ≠ []) (delimited : Delimited sep text pieces) :
    ∀ piece ∈ pieces, ¬sep <:+: piece := by
  induction delimited with
  | last none =>
      intro piece mem
      rw [mem_singleton.mp mem]
      exact none
  | @next piece rest pieces none tail ih =>
      have notInHead : ¬sep <:+: piece := by
        rintro ⟨before, after, rfl⟩
        have inside : before.length < (before ++ sep ++ after).length := by
          rw [length_append, length_append, Nat.add_assoc]
          exact Nat.lt_add_of_pos_right (Nat.add_pos_left (length_pos_of_ne_nil nonempty) _)
        apply none before.length inside
        rw [append_assoc, append_assoc, drop_left]
        exact prefix_append sep _
      exact forall_mem_cons.mpr ⟨notInHead, ih⟩

/-- The pieces between elements are those of the library. -/
theorem splitOn_eq [DecidableEq α] {e : α} (delimited : Delimited [e] text pieces) :
    text.splitOn e = pieces := by
  have apart : ∀ piece ∈ pieces, e ∉ piece := by
    intro piece within inside
    rcases append_of_mem inside with ⟨before, after, rfl⟩
    apply delimited.not_isInfix (cons_ne_nil e []) _ within
    exact ⟨before, after, by rw [append_assoc, singleton_append]⟩
  rw [← delimited.intercalate_eq]
  exact splitOn_intercalate e apart delimited.ne_nil

/-- Behind some of the pieces, each with its separator, is a text with the others. -/
theorem exists_rest {before : List (List α)} {piece : List α}
    (delimited : Delimited sep text (before ++ piece :: pieces)) :
    ∃ rest, text = before.flatMap (· ++ sep) ++ rest ∧ Delimited sep rest (piece :: pieces) := by
  induction before generalizing text with
  | nil => exact ⟨text, rfl, delimited⟩
  | cons other before ih =>
      have more : before ++ piece :: pieces ≠ [] := append_ne_nil_of_right_ne_nil _
        (cons_ne_nil _ _)
      rw [cons_append] at delimited
      generalize others : before ++ piece :: pieces = remaining at delimited
      cases delimited with
      | last none => exact absurd others more
      | next none tail =>
          rcases ih (others ▸ tail) with ⟨rest, rfl, delimited⟩
          refine ⟨rest, ?_, delimited⟩
          rw [flatMap_cons, append_assoc, append_assoc]

end Delimited

theorem intercalate_append_cons (before : List (List α)) (piece : List α)
    (pieces : List (List α)) :
    sep.intercalate (before ++ piece :: pieces) =
      before.flatMap (· ++ sep) ++ sep.intercalate (piece :: pieces) := by
  induction before with
  | nil => rfl
  | cons other before ih =>
      have more : before ++ piece :: pieces ≠ [] := append_ne_nil_of_right_ne_nil _
        (cons_ne_nil _ _)
      rw [cons_append, intercalate_cons_of_ne_nil more, ih, flatMap_cons,
        append_assoc, append_assoc, append_assoc]

theorem intercalate_prepend (front piece : List α) (pieces : List (List α)) :
    sep.intercalate ((front ++ piece) :: pieces) = front ++ sep.intercalate (piece :: pieces) := by
  cases pieces with
  | nil => rw [intercalate_singleton, intercalate_singleton]
  | cons next pieces =>
      rw [intercalate_cons_cons, intercalate_cons_cons, append_assoc,
        append_assoc, append_assoc]

/-- Of all the texts that are joined to the same text, the first piece is the shortest one. -/
theorem Delimited.length_le {piece other : List α} {pieces others : List (List α)}
    (delimited : Delimited sep text (piece :: pieces))
    (joined : sep.intercalate (other :: others) = text) : piece.length ≤ other.length := by
  cases others with
  | nil =>
      rw [intercalate_singleton] at joined
      rw [joined]
      cases delimited with
      | last none => exact Nat.le_refl _
      | next none tail =>
          rw [length_append]
          exact Nat.le_add_right _ _
  | cons next others =>
      rw [intercalate_cons_cons, append_assoc] at joined
      apply Nat.le_of_not_lt
      intro before
      apply delimited.noneBefore other.length before
      rw [← joined, drop_left]
      exact prefix_append sep _

theorem Delimited.length_le_of_append {piece other : List α} {before pieces others : List (List α)}
    (delimited : Delimited sep text (before ++ piece :: pieces))
    (joined : sep.intercalate (before ++ other :: others) = text) :
    piece.length ≤ other.length := by
  rcases delimited.exists_rest with ⟨rest, rfl, tail⟩
  rw [intercalate_append_cons] at joined
  exact tail.length_le (append_cancel_left joined)

/-- Where there is a separator, there is a leftmost one. -/
theorem exists_leftmost (occurs : sep <:+: text) :
    ∃ piece rest, text = piece ++ (sep ++ rest) ∧ NoneBefore sep text piece.length := by
  induction text with
  | nil => exact ⟨[], [], (infix_nil.mp occurs).symm ▸ rfl, fun i before => nomatch before⟩
  | cons e text ih =>
      by_cases atStart : sep <+: e :: text
      · rcases atStart with ⟨rest, split⟩
        exact ⟨[], rest, split.symm, fun i before => nomatch before⟩
      · have inTail : sep <:+: text := (infix_cons_iff.mp occurs).resolve_left atStart
        rcases ih inTail with ⟨piece, rest, rfl, none⟩
        refine ⟨e :: piece, rest, rfl, ?_⟩
        intro i before
        cases i with
        | zero => exact atStart
        | succ i => exact none i (Nat.lt_of_succ_lt_succ before)

/-- What is before the first piece becomes a part of it, where no separator starts in it. -/
theorem Delimited.prepend {front piece : List α} {pieces : List (List α)}
    (none : NoneBefore sep (front ++ text) front.length)
    (delimited : Delimited sep text (piece :: pieces)) :
    Delimited sep (front ++ text) ((front ++ piece) :: pieces) := by
  cases delimited with
  | last notBehind =>
      apply Delimited.last
      intro occurs
      rcases exists_leftmost occurs with ⟨before, rest, split, -⟩
      have here : sep <+: (front ++ text).drop before.length := by
        rw [split, drop_left]
        exact prefix_append sep rest
      rcases Nat.lt_or_ge before.length front.length with inside | behind
      · exact none _ inside here
      · rcases Nat.exists_eq_add_of_le behind with ⟨j, position⟩
        rw [position, drop_length_add_append] at here
        exact notBehind (isInfix_of_isPrefix_drop here)
  | next noneBehind tail =>
      have noneAtAll := none.append noneBehind
      rw [← append_assoc, ← length_append] at noneAtAll
      rw [← append_assoc]
      exact .next noneAtAll tail

theorem exists_delimited (nonempty : sep ≠ []) (text : List α) :
    ∃ pieces, Delimited sep text pieces := by
  induction total : text.length using Nat.strong_induction_on generalizing text with
  | _ _ ih =>
      by_cases occurs : sep <:+: text
      · rcases exists_leftmost occurs with ⟨piece, rest, rfl, none⟩
        have less : rest.length < (piece ++ (sep ++ rest)).length := by
          have positive := length_pos_of_ne_nil nonempty
          rw [length_append, length_append]
          omega
        rcases ih _ (total ▸ less) rest rfl with ⟨pieces, tail⟩
        exact ⟨piece :: pieces, .next none tail⟩
      · exact ⟨[text], .last occurs⟩

end Theory
