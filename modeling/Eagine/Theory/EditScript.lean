import Mathlib.Order.Bounds.Basic

/-!
# Edit scripts

A list is edited by inserting, deleting and substituting single elements. The least number of
edits that turn a list into another one obeys a recurrence over the two lists, and it is a
distance.
-/

namespace Theory

universe u

variable {α : Type u}

/-- One insertion, deletion or substitution of a single element -/
inductive Edit : List α → List α → Prop where
  | insert (front back : List α) (element : α) : Edit (front ++ back) (front ++ element :: back)
  | delete (front back : List α) (element : α) : Edit (front ++ element :: back) (front ++ back)
  | substitute (front back : List α) (element other : α) :
      Edit (front ++ element :: back) (front ++ other :: back)

/-- So many edits turn a list into another one. -/
inductive Edits : Nat → List α → List α → Prop where
  | refl (list : List α) : Edits 0 list list
  | step {count : Nat} {first middle last : List α} (edit : Edit first middle)
      (edits : Edits count middle last) : Edits (count + 1) first last

namespace Edit

theorem cons {first last : List α} (edit : Edit first last) (head : α) :
    Edit (head :: first) (head :: last) := by
  cases edit with
  | insert front back element => exact .insert (head :: front) back element
  | delete front back element => exact .delete (head :: front) back element
  | substitute front back element other => exact .substitute (head :: front) back element other

theorem symm {first last : List α} (edit : Edit first last) : Edit last first := by
  cases edit with
  | insert front back element => exact .delete front back element
  | delete front back element => exact .insert front back element
  | substitute front back element other => exact .substitute front back other element

theorem reverse {first last : List α} (edit : Edit first last) :
    Edit first.reverse last.reverse := by
  cases edit with
  | insert front back element =>
      simpa using insert back.reverse front.reverse element
  | delete front back element =>
      simpa using delete back.reverse front.reverse element
  | substitute front back element other =>
      simpa using substitute back.reverse front.reverse element other

end Edit

namespace Edits

theorem cons {count : Nat} {first last : List α} (edits : Edits count first last) (head : α) :
    Edits count (head :: first) (head :: last) := by
  induction edits with
  | refl list => exact .refl (head :: list)
  | step edit _ ih => exact .step (edit.cons head) ih

theorem trans {count more : Nat} {first middle last : List α}
    (one : Edits count first middle) (two : Edits more middle last) :
    Edits (count + more) first last := by
  induction one with
  | refl list =>
      rw [Nat.zero_add]
      exact two
  | @step count _ _ _ edit _ ih =>
      rw [Nat.add_right_comm]
      exact .step edit (ih two)

theorem symm {count : Nat} {first last : List α} (edits : Edits count first last) :
    Edits count last first := by
  induction edits with
  | refl list => exact .refl list
  | step edit _ ih => exact ih.trans (.step edit.symm (.refl _))

theorem reverse {count : Nat} {first last : List α} (edits : Edits count first last) :
    Edits count first.reverse last.reverse := by
  induction edits with
  | refl list => exact .refl list.reverse
  | step edit _ ih => exact .step edit.reverse ih

theorem least {count more : Nat} {first last : List α} (one : Edits count first last)
    (two : Edits more first last) : Edits (min count more) first last := by
  rcases Nat.le_total count more with less | less
  · rw [Nat.min_eq_left less]
    exact one
  · rw [Nat.min_eq_right less]
    exact two

theorem of_nil (list : List α) : Edits list.length [] list := by
  induction list with
  | nil => exact .refl []
  | cons head tail ih =>
      exact ih.trans (.step (.insert [] tail head) (.refl (head :: tail)))

end Edits

variable [DecidableEq α]

/-- The cost of having an element in the place of another one -/
def replacing (element other : α) : Nat :=
  if element = other then 0 else 1

/-- The number of edits, by the heads of the lists. -/
def distance : List α → List α → Nat
  | [], last => last.length
  | element :: first, [] => (element :: first).length
  | element :: first, other :: last =>
      min (min (distance first (other :: last) + 1) (distance (element :: first) last + 1))
        (distance first last + replacing element other)

@[simp]
theorem distance_nil_left (last : List α) : distance [] last = last.length := by
  rw [distance]

@[simp]
theorem distance_nil_right (first : List α) : distance first [] = first.length := by
  cases first with
  | nil => rw [distance]
  | cons element first => rw [distance]

theorem distance_cons (element other : α) (first last : List α) :
    distance (element :: first) (other :: last) =
      min (min (distance first (other :: last) + 1) (distance (element :: first) last + 1))
        (distance first last + replacing element other) := by
  rw [distance]

theorem replacing_le_one (element other : α) : replacing element other ≤ 1 := by
  unfold replacing
  split
  · exact Nat.zero_le 1
  · exact Nat.le_refl 1

/-- So many edits are enough. -/
theorem edits_distance (first last : List α) : Edits (distance first last) first last := by
  induction first, last using distance.induct with
  | case1 last =>
      rw [distance_nil_left]
      exact .of_nil last
  | case2 element first =>
      rw [distance_nil_right]
      exact (Edits.of_nil (element :: first)).symm
  | case3 element first other last deleted inserted kept =>
      have deletes := Edits.step (.delete [] first element) deleted
      have inserts := inserted.trans (.step (.insert [] last other) (.refl (other :: last)))
      have replaces : Edits (distance first last + replacing element other) (element :: first)
          (other :: last) := by
        unfold replacing
        split
        · subst element
          exact kept.cons other
        · exact (kept.cons element).trans
            (.step (.substitute [] last element other) (.refl (other :: last)))
      rw [distance_cons]
      exact (deletes.least inserts).least replaces

/-- The distance of a list to any other one is one more than that of the near one at the most. -/
def Near (first near : List α) : Prop :=
  ∀ last, distance first last ≤ distance near last + 1

theorem Near.cons {first near : List α} (isNear : Near first near) (head : α) :
    Near (head :: first) (head :: near) := by
  intro last
  induction last with
  | nil =>
      have lengths := isNear []
      rw [distance_nil_right, distance_nil_right] at lengths ⊢
      exact Nat.succ_le_succ lengths
  | cons other last ih =>
      have deleted := isNear (other :: last)
      have kept := isNear last
      rw [distance_cons, distance_cons]
      omega

theorem near_delete (element : α) (rest : List α) : Near rest (element :: rest) := by
  intro last
  induction last with
  | nil =>
      rw [distance_nil_right, distance_nil_right, List.length_cons]
      omega
  | cons other last ih =>
      have inserted : distance rest (other :: last) ≤ distance rest last + 1 := by
        cases rest with
        | nil => rw [distance_nil_left, distance_nil_left, List.length_cons]
        | cons head rest =>
            rw [distance_cons]
            exact (Nat.min_le_left _ _).trans (Nat.min_le_right _ _)
      rw [distance_cons]
      omega

theorem near_insert (element : α) (rest : List α) : Near (element :: rest) rest := by
  intro last
  cases last with
  | nil => rw [distance_nil_right, distance_nil_right, List.length_cons]
  | cons other last =>
      rw [distance_cons]
      exact (Nat.min_le_left _ _).trans (Nat.min_le_left _ _)

theorem near_substitute (element other : α) (rest : List α) :
    Near (element :: rest) (other :: rest) := by
  intro last
  induction last with
  | nil =>
      rw [distance_nil_right, distance_nil_right, List.length_cons, List.length_cons]
      exact Nat.le_succ _
  | cons head last ih =>
      have cost := replacing_le_one element head
      rw [distance_cons, distance_cons]
      omega

theorem Near.append {first near : List α} (isNear : Near first near) (front : List α) :
    Near (front ++ first) (front ++ near) := by
  induction front with
  | nil => exact isNear
  | cons head front ih => exact ih.cons head

theorem Edit.near {first near : List α} (edit : Edit first near) : Near first near := by
  cases edit with
  | insert front back element => exact (near_delete element back).append front
  | delete front back element => exact (near_insert element back).append front
  | substitute front back element other => exact (near_substitute element other back).append front

theorem distance_self (list : List α) : distance list list = 0 := by
  induction list with
  | nil => rw [distance_nil_left, List.length_nil]
  | cons head tail ih =>
      rw [distance_cons, ih, replacing, if_pos rfl]
      exact Nat.min_eq_right (Nat.zero_le _)

/-- Fewer edits are not enough. -/
theorem Edits.distance_le {count : Nat} {first last : List α} (edits : Edits count first last) :
    distance first last ≤ count := by
  induction edits with
  | refl list => exact (distance_self list).le
  | step edit _ ih =>
      exact (edit.near _).trans (Nat.succ_le_succ ih)

theorem isLeast_distance (first last : List α) :
    IsLeast {count | Edits count first last} (distance first last) where
  left := edits_distance first last
  right _ edits := Edits.distance_le edits

section Least

omit [DecidableEq α]

variable {first middle last : List α} {count more total : Nat}

theorem eq_of_no_edits (edits : Edits 0 first last) : first = last := by
  cases edits with
  | refl list => rfl

theorem isLeast_edits_symm (isLeast : IsLeast {count | Edits count first last} count) :
    IsLeast {count | Edits count last first} count where
  left := Edits.symm isLeast.1
  right _ edits := isLeast.2 (Edits.symm edits)

theorem isLeast_edits_triangle (one : IsLeast {count | Edits count first middle} count)
    (two : IsLeast {count | Edits count middle last} more)
    (both : IsLeast {count | Edits count first last} total) : total ≤ count + more :=
  both.2 (Edits.trans one.1 two.1)

theorem isLeast_edits_reverse (isLeast : IsLeast {count | Edits count first last} count) :
    IsLeast {count | Edits count first.reverse last.reverse} count where
  left := Edits.reverse isLeast.1
  right more edits := by
    have back := Edits.reverse edits
    rw [List.reverse_reverse, List.reverse_reverse] at back
    exact isLeast.2 back

end Least

end Theory
