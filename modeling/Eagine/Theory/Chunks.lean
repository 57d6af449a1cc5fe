import Mathlib.Algebra.BigOperators.Group.List.Basic
import Mathlib.Algebra.Order.Ring.Nat

/-!
# Items that arrive in chunks

A row of items arrives in chunks, which may end anywhere. Items are taken while a least amount is
unread. An item is severed when it is started before its end has arrived.
-/

open List

namespace Theory

/-- The items that are left and the amount that is unread, when items of these sizes are taken.
There is no result when an item is severed. -/
def takeItems (least : Nat) : List Nat → Nat → Option (List Nat × Nat)
  | [], unread => some ([], unread)
  | size :: sizes, unread =>
      if unread < least then some (size :: sizes, unread)
      else if unread < size then none
      else takeItems least sizes (unread - size)

/-- Items are taken behind each chunk. -/
def takeChunks (least : Nat) : List Nat → List Nat → Nat → Option (List Nat × Nat)
  | [], sizes, unread => some (sizes, unread)
  | chunk :: chunks, sizes, unread =>
      (takeItems least sizes (unread + chunk)).bind fun taken =>
        takeChunks least chunks taken.1 taken.2

/-- The position is in an item and at least that far behind its start. -/
def Severed (least : Nat) (sizes : List Nat) (position : Nat) : Prop :=
  ∃ front size behind, sizes = front ++ size :: behind ∧ front.sum + least ≤ position ∧
    position < front.sum + size

variable {least : Nat}

theorem not_severed_nil (position : Nat) : ¬Severed least [] position := by
  rintro ⟨front, size, behind, sizes_eq, _⟩
  exact absurd sizes_eq.symm (append_ne_nil_of_right_ne_nil _ (cons_ne_nil _ _))

/-- A position in the first item. -/
theorem severed_cons_of_lt {size position : Nat} {sizes : List Nat} (within : position < size) :
    Severed least (size :: sizes) position ↔ least ≤ position := by
  constructor
  · rintro ⟨front, inner, behind, sizes_eq, started, _⟩
    omega
  · intro started
    exact ⟨[], size, sizes, rfl, by simpa using started, by simpa using within⟩

/-- A position behind some items. -/
theorem severed_append (front sizes : List Nat) (position : Nat) :
    Severed least (front ++ sizes) (front.sum + position) ↔ Severed least sizes position := by
  constructor
  · rintro ⟨before, size, behind, sizes_eq, started, within⟩
    rcases append_eq_append_iff.mp sizes_eq with ⟨more, rfl, sizesEq⟩ | ⟨more, rfl, sizesEq⟩
    · rw [sum_append] at started within
      exact ⟨more, size, behind, sizesEq, by omega, by omega⟩
    · cases more with
      | nil =>
          rw [append_nil] at started within
          exact ⟨[], size, behind, sizesEq.symm, by simpa using (by omega : least ≤ position),
            by simpa using (by omega : position < size)⟩
      | cons head more =>
          cases sizesEq
          rw [sum_append, sum_cons] at within
          omega
  · rintro ⟨before, size, behind, rfl, started, within⟩
    refine ⟨front ++ before, size, behind, (append_assoc _ _ _).symm, ?_, ?_⟩
    · rw [sum_append]
      omega
    · rw [sum_append]
      omega

theorem takeItems_eq_none_iff (sizes : List Nat) (unread : Nat) :
    takeItems least sizes unread = none ↔ Severed least sizes unread := by
  induction sizes generalizing unread with
  | nil => exact iff_of_false (by simp [takeItems]) (not_severed_nil unread)
  | cons size sizes ih =>
      rw [takeItems]
      by_cases few : unread < least
      · rw [if_pos few]
        refine iff_of_false (by simp) ?_
        rintro ⟨front, inner, behind, _, started, _⟩
        omega
      · rw [if_neg few]
        by_cases within : unread < size
        · rw [if_pos within, severed_cons_of_lt within]
          exact iff_of_true rfl (Nat.le_of_not_lt few)
        · have behind : Severed least ([size] ++ sizes) ([size].sum + (unread - size)) ↔
              Severed least sizes (unread - size) := severed_append [size] sizes (unread - size)
          rw [sum_singleton, Nat.add_sub_cancel' (Nat.le_of_not_lt within)] at behind
          rw [if_neg within, ih]
          exact behind.symm

/-- What was taken is in front of what is left. -/
theorem takeItems_eq_some {sizes left : List Nat} {unread rest : Nat}
    (taken : takeItems least sizes unread = some (left, rest)) :
    ∃ front, sizes = front ++ left ∧ unread = front.sum + rest := by
  induction sizes generalizing unread with
  | nil =>
      cases taken
      exact ⟨[], rfl, by simp⟩
  | cons size sizes ih =>
      rw [takeItems] at taken
      by_cases few : unread < least
      · rw [if_pos few] at taken
        cases taken
        exact ⟨[], rfl, by simp⟩
      · rw [if_neg few] at taken
        by_cases within : unread < size
        · rw [if_pos within] at taken
          cases taken
        · rw [if_neg within] at taken
          rcases ih taken with ⟨front, rfl, unreadEq⟩
          refine ⟨size :: front, rfl, ?_⟩
          rw [sum_cons]
          omega

/-- No item is severed when no chunk ends in an item that was started. -/
theorem takeChunks_isSome_iff (chunks sizes : List Nat) (unread : Nat) :
    (takeChunks least chunks sizes unread).isSome ↔
      ∀ before after, chunks = before ++ after → before ≠ [] →
        ¬Severed least sizes (unread + before.sum) := by
  induction chunks generalizing sizes unread with
  | nil =>
      refine iff_of_true rfl ?_
      intro before after nothing some
      exact absurd (append_eq_nil_iff.mp nothing.symm).1 some
  | cons chunk chunks ih =>
      rw [takeChunks]
      cases taken : takeItems least sizes (unread + chunk) with
      | none =>
          have severed := (takeItems_eq_none_iff sizes (unread + chunk)).mp taken
          refine iff_of_false Bool.false_ne_true ?_
          intro never
          exact never [chunk] chunks rfl (cons_ne_nil _ _) (by simpa using severed)
      | some result =>
          rcases result with ⟨left, rest⟩
          rcases takeItems_eq_some taken with ⟨front, rfl, restEq⟩
          have shift (before : List Nat) :
              Severed least (front ++ left) (unread + (chunk :: before).sum) ↔
                Severed least left (rest + before.sum) := by
            rw [sum_cons, ← Nat.add_assoc, restEq, Nat.add_assoc, severed_append]
          have first : ¬Severed least (front ++ left) (unread + [chunk].sum) := by
            rw [shift, ← severed_append front, sum_nil, Nat.add_zero, ← restEq,
              ← takeItems_eq_none_iff, taken]
            exact Option.some_ne_none _
          rw [Option.bind_some, ih]
          constructor
          · intro never before after chunksEq notEmpty
            cases before with
            | nil => exact absurd rfl notEmpty
            | cons head before =>
                rw [cons_append, List.cons.injEq] at chunksEq
                rcases chunksEq with ⟨rfl, chunksEq⟩
                cases before with
                | nil => exact first
                | cons next before =>
                    rw [shift]
                    exact never (next :: before) after chunksEq (cons_ne_nil _ _)
          · intro never before after chunksEq _
            rw [← shift]
            exact never (chunk :: before) after (by rw [chunksEq, cons_append])
              (cons_ne_nil _ _)

/-- Chunks of a text, by the texts that end with one. -/
theorem takeChunks_lengths_isSome_iff {α : Type*} (blocks : List (List α)) (sizes : List Nat) :
    (takeChunks least (blocks.map List.length) sizes 0).isSome ↔
      ∀ before after, blocks = before ++ after → before ≠ [] →
        ¬Severed least sizes before.flatten.length := by
  rw [takeChunks_isSome_iff]
  simp only [Nat.zero_add]
  constructor
  · intro never before after blocksEq some
    rw [length_flatten]
    apply never (before.map List.length) (after.map List.length)
    · rw [blocksEq, map_append]
    · exact mt map_eq_nil_iff.mp some
  · intro never before after chunksEq some
    rcases map_eq_append_iff.mp chunksEq with ⟨front, behind, blocksEq, rfl, rfl⟩
    rw [← length_flatten]
    exact never front behind blocksEq (mt map_eq_nil_iff.mpr some)

end Theory
