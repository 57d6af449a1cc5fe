import Eagine.Theory.Refinement
import Mathlib.Tactic.Abel

/-!
# Accounts of runs

Several parties take turns in the steps of a system, and each of them has a part of what is to be
accounted for. The total changes by what the party changes that takes the step.
-/

namespace Theory

universe u v w

section Total

variable {S : Type u} {M : Type v} [AddCommMonoid M] (part : S → M)

/-- What all the parties have -/
def total : List S → M
  | [] => 0
  | party :: parties => part party + total parties

@[simp]
theorem total_nil : total part [] = 0 :=
  rfl

@[simp]
theorem total_cons (party : S) (parties : List S) :
    total part (party :: parties) = part party + total part parties :=
  rfl

theorem total_append (front back : List S) :
    total part (front ++ back) = total part front + total part back := by
  induction front with
  | nil => rw [List.nil_append, total_nil, zero_add]
  | cons party parties ih => rw [List.cons_append, total_cons, total_cons, ih, add_assoc]

theorem total_map {R : Type w} (f : R → S) (parties : List R) :
    total part (parties.map f) = total (fun party => part (f party)) parties := by
  induction parties with
  | nil => rfl
  | cons party parties ih => rw [List.map_cons, total_cons, total_cons, ih]

theorem total_eq_zero {parties : List S} (none : ∀ party ∈ parties, part party = 0) :
    total part parties = 0 := by
  induction parties with
  | nil => rfl
  | cons party parties ih =>
      rcases List.forall_mem_cons.mp none with ⟨first, others⟩
      rw [total_cons, first, ih others, add_zero]

variable {part}

/-- A party that takes a step changes the total by what it has itself. -/
theorem total_set {parties : List S} {i : Nat} {before : S} (found : parties[i]? = some before)
    (after : S) :
    total part (parties.set i after) + part before = total part parties + part after := by
  induction parties generalizing i with
  | nil => exact absurd found (by simp)
  | cons party parties ih =>
      cases i with
      | zero =>
          obtain rfl := Option.some.inj found
          rw [List.set_cons_zero, total_cons, total_cons]
          abel
      | succ i =>
          have rest := ih (i := i) found
          rw [List.set_cons_succ, total_cons, total_cons, add_assoc, rest, add_assoc]

end Total

end Theory
