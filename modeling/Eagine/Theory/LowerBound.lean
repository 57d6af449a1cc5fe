import Mathlib.Data.List.Basic
import Mathlib.Order.Basic
import Mathlib.Data.Nat.Basic

/-!
# Binary search

The search for the first element of a list that is not before something, where all
the elements that are before it come first.
-/

open List

namespace Theory

universe u

variable {α : Type u}

/-- Halves the range of the given length from a position on. -/
def lowerBoundFrom (isBefore : α → Bool) (list : List α) (first len : Nat) : Nat :=
  if len = 0 then first
  else
    match list[first + len / 2]? with
    | some middle =>
        if isBefore middle then
          lowerBoundFrom isBefore list (first + len / 2 + 1) (len - len / 2 - 1)
        else lowerBoundFrom isBefore list first (len / 2)
    | none => first
termination_by len
decreasing_by
  · omega
  · omega

def lowerBound (isBefore : α → Bool) (list : List α) : Nat :=
  lowerBoundFrom isBefore list 0 list.length

variable {back front : List α} {isBefore : α → Bool}

/-- The search ends at the end of the elements that come before, or at the bound of the range
that is near to it. -/
theorem lowerBoundFrom_append (allBefore : ∀ a ∈ front, isBefore a = true)
    (noneBefore : ∀ a ∈ back, isBefore a = false) (len first : Nat)
    (inside : first + len ≤ (front ++ back).length) :
    lowerBoundFrom isBefore (front ++ back) first len =
      max first (min front.length (first + len)) := by
  induction len using Nat.strong_induction_on generalizing first with
  | _ len ih =>
      rw [lowerBoundFrom]
      split_ifs with nothing
      · omega
      · have within : first + len / 2 < (front ++ back).length := by omega
        rw [getElem?_eq_getElem within]
        by_cases inFront : first + len / 2 < front.length
        · have middle : isBefore (front ++ back)[first + len / 2] = true := by
            rw [getElem_append_left inFront]
            exact allBefore _ (getElem_mem inFront)
          simp only [middle, if_true]
          rw [ih _ (by omega) _ (by omega)]
          omega
        · have middle : isBefore (front ++ back)[first + len / 2] = false := by
            rw [getElem_append_right (Nat.le_of_not_lt inFront)]
            exact noneBefore _ (getElem_mem _)
          simp only [middle, Bool.false_eq_true, if_false]
          rw [ih _ (by omega) _ (by omega)]
          omega

theorem lowerBound_append (allBefore : ∀ a ∈ front, isBefore a = true)
    (noneBefore : ∀ a ∈ back, isBefore a = false) :
    lowerBound isBefore (front ++ back) = front.length := by
  rw [lowerBound, lowerBoundFrom_append allBefore noneBefore _ 0 (Nat.zero_add _).le,
    length_append]
  omega

/-- The elements that come before are those in front of the others. -/
theorem exists_split {list : List α}
    (ordered : list.Pairwise fun a b => isBefore b = true → isBefore a = true) :
    ∃ front back, list = front ++ back ∧ (∀ a ∈ front, isBefore a = true) ∧
      ∀ a ∈ back, isBefore a = false := by
  induction list with
  | nil => exact ⟨[], [], rfl, by simp, by simp⟩
  | cons first list ih =>
      rcases pairwise_cons.mp ordered with ⟨firstOrdered, restOrdered⟩
      cases before : isBefore first with
      | true =>
          rcases ih restOrdered with ⟨front, back, rfl, isFront, isBack⟩
          exact ⟨first :: front, back, rfl, forall_mem_cons.mpr ⟨before, isFront⟩, isBack⟩
      | false =>
          refine ⟨[], first :: list, rfl, by simp, forall_mem_cons.mpr ⟨before, ?_⟩⟩
          intro a within
          by_contra notBefore
          have earlier := firstOrdered a within (Bool.not_eq_false _ ▸ notBefore)
          exact Bool.false_ne_true (before.symm.trans earlier)

/-- A linear scan. -/
theorem findIdx_append (allBefore : ∀ a ∈ front, isBefore a = true)
    (noneBefore : ∀ a ∈ back, isBefore a = false) :
    (front ++ back).findIdx (fun a => !isBefore a) = front.length := by
  have nothing : front.findIdx (fun a => !isBefore a) = front.length :=
    findIdx_eq_length_of_false fun a within => by rw [allBefore a within]; rfl
  rw [List.findIdx_append, nothing, if_neg (Nat.lt_irrefl _)]
  cases back with
  | nil => simp
  | cons first back => simp [findIdx_cons, noneBefore first mem_cons_self]

/-- The search in a range is a linear scan of the range. -/
theorem lowerBoundFrom_eq_findIdx {list : List α}
    (ordered : list.Pairwise fun a b => isBefore b = true → isBefore a = true) {first len : Nat}
    (inside : first + len ≤ list.length) :
    lowerBoundFrom isBefore list first len =
      first + ((list.drop first).take len).findIdx fun a => !isBefore a := by
  rcases exists_split ordered with ⟨front, back, rfl, isFront, isBack⟩
  rw [lowerBoundFrom_append isFront isBack len first inside, drop_append, take_append,
    findIdx_append, length_take, length_drop]
  · omega
  · exact fun a within => isFront a (mem_of_mem_drop (mem_of_mem_take within))
  · exact fun a within => isBack a (mem_of_mem_drop (mem_of_mem_take within))

/-- The search in the elements up to a position. -/
theorem lowerBound_take_append (allBefore : ∀ a ∈ front, isBefore a = true)
    (noneBefore : ∀ a ∈ back, isBefore a = false) (p : Nat) :
    lowerBound isBefore ((front ++ back).take p) = min p front.length := by
  rw [take_append, lowerBound_append, length_take]
  · exact fun a within => allBefore a (mem_of_mem_take within)
  · exact fun a within => noneBefore a (mem_of_mem_take within)

/-- The search in the elements from a position on. -/
theorem lowerBound_drop_append (allBefore : ∀ a ∈ front, isBefore a = true)
    (noneBefore : ∀ a ∈ back, isBefore a = false) (p : Nat) :
    p + lowerBound isBefore ((front ++ back).drop p) = max p front.length := by
  rw [drop_append, lowerBound_append, length_drop]
  · omega
  · exact fun a within => allBefore a (mem_of_mem_drop within)
  · exact fun a within => noneBefore a (mem_of_mem_drop within)

end Theory
