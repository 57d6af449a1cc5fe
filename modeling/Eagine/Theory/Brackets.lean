import Eagine.Theory.Refinement
import Mathlib.Algebra.BigOperators.Group.List.Basic
import Mathlib.Algebra.Order.Group.Int
import Mathlib.Algebra.Ring.Int.Defs

/-!
# Brackets

The marks of a text open and close brackets of some kinds. They are matched with a stack: what is
closed is what was opened last. However the kinds are weighed, the brackets that are opened weigh
as much as those that are closed.
-/

namespace Theory

universe u

inductive Mark (β : Type u) where
  | opens (kind : β)
  | closes (kind : β)
  | neither

namespace Mark

variable {β : Type u}

/-- The weight of the kind, or its opposite for a closing bracket. -/
def weigh (weight : β → Int) : Mark β → Int
  | opens kind => weight kind
  | closes kind => -weight kind
  | neither => 0

variable [DecidableEq β]

/-- Only what was opened last is closed. -/
def step : List β → Mark β → Option (List β)
  | stack, opens kind => some (kind :: stack)
  | top :: stack, closes kind => if top = kind then some stack else none
  | [], closes _ => none
  | stack, neither => some stack

theorem step_closes (kind : β) (stack : List β) : step (kind :: stack) (closes kind) = some stack :=
  if_pos rfl

/-- A bracket that can be closed was opened last. -/
theorem eq_cons_of_step_closes {kind : β} {stack after : List β}
    (stepped : step stack (closes kind) = some after) : stack = kind :: after := by
  rcases stack with _ | ⟨top, stack⟩
  · cases stepped
  · rw [step] at stepped
    split at stepped
    · rename_i same
      cases stepped
      rw [same]
    · cases stepped

theorem weigh_of_step {weight : β → Int} {mark : Mark β} {stack after : List β}
    (stepped : step stack mark = some after) :
    (after.map weight).sum = (stack.map weight).sum + mark.weigh weight := by
  cases mark with
  | opens kind =>
      cases stepped
      rw [List.map_cons, List.sum_cons, weigh, add_comm]
  | closes kind =>
      rw [eq_cons_of_step_closes stepped, List.map_cons, List.sum_cons, weigh,
        add_neg_cancel_comm]
  | neither =>
      cases stepped
      rw [weigh, add_zero]

end Mark

variable {β : Type u}

/-- What is left of the weights. -/
def balance (weight : β → Int) (marks : List (Mark β)) : Int :=
  (marks.map (Mark.weigh weight)).sum

theorem balance_append (weight : β → Int) (front back : List (Mark β)) :
    balance weight (front ++ back) = balance weight front + balance weight back := by
  rw [balance, List.map_append, List.sum_append]
  rfl

variable [DecidableEq β]

/-- As long as no bracket is closed wrongly, fewer brackets than the limit are open at once. -/
def DepthBelow (limit : Nat) : List β → List (Mark β) → Prop
  | stack, [] => stack.length < limit
  | stack, mark :: marks =>
      stack.length < limit ∧ ∀ next, mark.step stack = some next → DepthBelow limit next marks

variable {marks : List (Mark β)}

theorem DepthBelow.lt {limit : Nat} {stack : List β}
    (below : DepthBelow limit stack marks) : stack.length < limit := by
  cases marks with
  | nil => exact below
  | cons mark marks => exact below.1

/-- The brackets that are open behind the marks. -/
def openAfter (marks : List (Mark β)) : Option (List β) :=
  run Mark.step [] marks

/-- Every bracket is closed, and those that were opened last are closed first. -/
def WellBracketed (marks : List (Mark β)) : Prop :=
  openAfter marks = some []

instance (marks : List (Mark β)) : Decidable (WellBracketed marks) :=
  inferInstanceAs (Decidable (_ = _))

theorem openAfter_concat (marks : List (Mark β)) (mark : Mark β) :
    openAfter (marks ++ [mark]) = (openAfter marks).bind fun stack => mark.step stack := by
  rw [openAfter, Theory.run_append]
  apply congrArg (Option.bind _)
  funext stack
  exact Option.bind_fun_some _

/-- What is open in the middle of well bracketed marks. -/
theorem WellBracketed.exists_openAfter {front back : List (Mark β)}
    (bracketed : WellBracketed (front ++ back)) : ∃ stack, openAfter front = some stack := by
  rw [WellBracketed, openAfter, Theory.run_append] at bracketed
  rcases Option.bind_eq_some_iff.mp bracketed with ⟨stack, opened, -⟩
  exact ⟨stack, opened⟩

theorem weight_of_run (weight : β → Int) {stack after : List β}
    (ran : run Mark.step stack marks = some after) :
    (after.map weight).sum = (stack.map weight).sum + balance weight marks := by
  induction marks generalizing stack with
  | nil =>
      cases ran
      exact (add_zero _).symm
  | cons mark marks ih =>
      rcases Option.bind_eq_some_iff.mp ran with ⟨next, stepped, rest⟩
      rw [ih rest, Mark.weigh_of_step stepped, add_assoc]
      rfl

theorem WellBracketed.balance_eq_zero (bracketed : WellBracketed marks)
    (weight : β → Int) : balance weight marks = 0 := by
  have weighed := weight_of_run weight bracketed
  rw [List.map_nil, List.sum_nil, zero_add] at weighed
  exact weighed.symm

end Theory
