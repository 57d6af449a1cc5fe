import Eagine.Theory.Refinement
import Mathlib.Algebra.Order.Group.Int

/-!
# Scheduled actions

An update of a scheduled action handles all the due times up to now, each of which invokes the
action or is skipped after a failed invocation. So it does not matter if there is an update for
each of them or a single one that catches up, as long as the times do not overflow.
-/

namespace Eagine.Utility

open Theory

/-- The range of the counts of nanoseconds -/
def IsTime (time : Int) : Prop :=
  -2 ^ 63 ≤ time ∧ time < 2 ^ 63

instance (time : Int) : Decidable (IsTime time) :=
  inferInstanceAs (Decidable (_ ∧ _))

/-- What is done at a due time: the action is invoked with a result, or it is not invoked. -/
structure Handled where
  due : Int
  result : Option Bool

/-- `action_scheduler::_scheduled`, with what was done at the due times so far. The interval is
what its microseconds are in nanoseconds. -/
structure Scheduled where
  next : Int
  interval : Int
  positive : 0 < interval
  failCounter : UInt32 := 0
  isSuspended : Bool := false
  handled : List Handled := []

namespace Scheduled

def shouldInvoke (s : Scheduled) : Bool × Scheduled :=
  if s.failCounter ≠ 0 then (false, { s with failCounter := s.failCounter - 1 })
  else (!s.isSuspended, s)

/-- The number of invocations so far -/
def invocations (s : Scheduled) : Nat :=
  (s.handled.filterMap Handled.result).length

section Update

variable (action : Nat → Bool)

/-- `invoke`, with the result of the action. The action tells its results in their order. -/
def invoke (s : Scheduled) : Bool × Scheduled :=
  let result := action s.invocations
  (result,
    if result then { s with failCounter := 0 } else { s with failCounter := s.failCounter + 1 })

/-- What an iteration of the loop in `update` does before the time moves on -/
def handleDue (s : Scheduled) : Scheduled :=
  let asked := s.shouldInvoke
  if asked.1 then
    let invoked := asked.2.invoke action
    { invoked.2 with handled := s.handled ++ [⟨s.next, some invoked.1⟩] }
  else { asked.2 with handled := s.handled ++ [⟨s.next, none⟩] }

/-- The loop of `update`. It ends as the interval is positive; a sum that overflows is refused. -/
def updateFrom (now overdue : Int) (s : Scheduled) : Option Scheduled :=
  if 0 ≤ overdue then
    let done := s.handleDue action
    if IsTime done.interval ∧ IsTime (now + done.interval) then
      updateFrom now (overdue - done.interval) { done with next := now + done.interval - overdue }
    else none
  else some s
termination_by (overdue + 1).toNat
decreasing_by
  have positive := (s.handleDue action).positive
  omega

def update (s : Scheduled) (now : Int) : Option Scheduled :=
  if IsTime (now - s.next) then s.updateFrom action now (now - s.next) else none

end Update

section Due

variable (action : Nat → Bool) (s : Scheduled) (now : Int)

/-- The result at the next due time. It is skipped after a failed invocation. -/
def outcome : Option Bool :=
  if s.failCounter ≠ 0 ∨ s.isSuspended = true then none else some (action s.invocations)

def counterBehind : UInt32 :=
  if s.failCounter ≠ 0 then s.failCounter - 1
  else if s.outcome action = some false then 1
  else 0

/-- The state after the next due time -/
def behindDue : Scheduled :=
  { s with
    next := s.next + s.interval
    failCounter := s.counterBehind action
    handled := s.handled ++ [⟨s.next, s.outcome action⟩] }

@[simp]
theorem next_behindDue : (s.behindDue action).next = s.next + s.interval :=
  rfl

theorem handleDue_eq : s.handleDue action =
    { s with
      failCounter := s.counterBehind action
      handled := s.handled ++ [⟨s.next, s.outcome action⟩] } := by
  rw [handleDue, shouldInvoke, counterBehind, outcome]
  by_cases failed : s.failCounter = 0
  · cases suspended : s.isSuspended with
    | true => simp [failed, suspended]
    | false =>
        cases result : action s.invocations with
        | true => simp [failed, suspended, invoke, result]
        | false => simp [failed, suspended, invoke, result]
  · simp [failed]

/-- The state after the due times up to now -/
def catchUp (s : Scheduled) : Scheduled :=
  if s.next ≤ now then (s.behindDue action).catchUp else s
termination_by (now - s.next + 1).toNat
decreasing_by
  have positive := s.positive
  rw [next_behindDue]
  omega

/-- The differences and the sums of an update are in the range. -/
def Fits (s : Scheduled) (now : Int) : Prop :=
  IsTime (now - s.next) ∧ (s.next ≤ now → IsTime s.interval ∧ IsTime (now + s.interval))

instance : Decidable (s.Fits now) :=
  inferInstanceAs (Decidable (_ ∧ _))

variable {s now}

theorem catchUp_of_due (due : s.next ≤ now) :
    s.catchUp action now = (s.behindDue action).catchUp action now := by
  rw [catchUp, if_pos due]

theorem catchUp_of_not_due (notDue : now < s.next) : s.catchUp action now = s := by
  rw [catchUp, if_neg (Int.not_le.mpr notDue)]

variable (now)

/-- Induction on the due times up to now -/
@[elab_as_elim]
theorem due_induction {motive : Scheduled → Prop} (notDue : ∀ s, now < s.next → motive s)
    (due : ∀ s, s.next ≤ now → motive (s.behindDue action) → motive s) (s : Scheduled) :
    motive s := by
  induction left : (now - s.next + 1).toNat using Nat.strong_induction_on generalizing s with
  | _ _ ih =>
      subst left
      rcases Int.lt_or_le now s.next with before | within
      · exact notDue s before
      · apply due s within
        apply ih _ _ _ rfl
        have positive := s.positive
        rw [next_behindDue]
        omega

theorem updateFrom_of_due {s : Scheduled} (due : s.next ≤ now) :
    s.updateFrom action now (now - s.next) =
      if IsTime s.interval ∧ IsTime (now + s.interval) then
        (s.behindDue action).updateFrom action now (now - (s.behindDue action).next)
      else none := by
  have moved : now + s.interval - (now - s.next) = s.next + s.interval := by omega
  have left : now - s.next - s.interval = now - (s.behindDue action).next := by
    rw [next_behindDue]
    omega
  rw [updateFrom, if_pos (Int.sub_nonneg.mpr due)]
  simp only [handleDue_eq, moved, left]
  rfl

theorem updateFrom_eq (s : Scheduled)
    (fits : s.next ≤ now → IsTime s.interval ∧ IsTime (now + s.interval)) :
    s.updateFrom action now (now - s.next) = some (s.catchUp action now) := by
  induction s using due_induction action now with
  | notDue s before =>
      have notYet : ¬0 ≤ now - s.next := by omega
      rw [updateFrom, if_neg notYet, catchUp_of_not_due action before]
  | due s within ih =>
      rw [updateFrom_of_due action now within, if_pos (fits within), catchUp_of_due action within]
      exact ih fun _ => fits within

/-- An update takes the due times up to now exactly if it fits. -/
theorem update_eq (s : Scheduled) :
    s.update action now = if s.Fits now then some (s.catchUp action now) else none := by
  rw [update]
  split
  case isFalse beyond => rw [if_neg fun fits => beyond fits.1]
  case isTrue difference =>
      split
      case isTrue fits => exact updateFrom_eq action now s fits.2
      case isFalse beyond =>
          have due : s.next ≤ now := by
            by_contra notDue
            exact beyond ⟨difference, fun due => absurd due notDue⟩
          rw [updateFrom_of_due action now due, if_neg fun fits => beyond
            ⟨difference, fun _ => fits⟩]

end Due

end Scheduled

end Eagine.Utility
