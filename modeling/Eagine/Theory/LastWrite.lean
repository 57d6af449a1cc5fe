import Mathlib.Data.List.Induction

/-!
# The last write to a cell

A cell is written by a sequence of events, some of which leave it alone.  The
cell ends up with the value of the last event that writes it.  It ends up with
a particular value, written by some event, exactly when every other value that
is written is followed by an event that writes the particular one.
-/

namespace Theory

universe u

variable {α : Type u}

/-- The value of the cell after the events. -/
def settle (cell : α) (events : List (Option α)) : α :=
  events.foldl (fun current event => event.getD current) cell

@[simp]
theorem settle_cons (cell : α) (event : Option α) (events : List (Option α)) :
    settle cell (event :: events) = settle (event.getD cell) events :=
  rfl

theorem settle_concat (cell : α) (events : List (Option α)) (event : Option α) :
    settle cell (events ++ [event]) = event.getD (settle cell events) := by
  rw [settle, List.foldl_append]
  rfl

/-- What a cell was before does not matter exactly when it is written at all. -/
theorem settle_eq_settle_iff (cell other : α) (events : List (Option α)) :
    settle cell events = settle other events ↔
      (∃ event ∈ events, event.isSome = true) ∨ cell = other := by
  induction events generalizing cell other with
  | nil => simp [settle]
  | cons event events ih =>
      rw [settle_cons, settle_cons, ih]
      cases event with
      | none => simp
      | some value => simp

/-- Every write of another value is followed by a write of the target. -/
def Restored (target : α) (events : List (Option α)) : Prop :=
  ∀ before value after, events = before ++ some value :: after →
    value ≠ target → some target ∈ after

theorem restored_concat_none (target : α) (events : List (Option α)) :
    Restored target (events ++ [none]) ↔ Restored target events := by
  constructor
  · intro restored before value after split differs
    have mem := restored before value (after ++ [none]) (by simp [split]) differs
    simpa using mem
  · intro restored before value after split differs
    rcases List.eq_nil_or_concat after with rfl | ⟨front, last, rfl⟩
    · have lastEq := congrArg List.getLast? split
      simp at lastEq
    · have parts : events ++ [none] = (before ++ some value :: front) ++ [last] := by
        rw [split]
        simp
      rcases List.append_inj' parts rfl with ⟨eventsEq, _⟩
      have mem := restored before value front eventsEq differs
      rw [List.concat_eq_append]
      exact List.mem_append_left _ mem

theorem restored_concat_some (target value : α) (events : List (Option α)) :
    Restored target (events ++ [some value]) ↔ value = target := by
  constructor
  · intro restored
    by_contra differs
    exact absurd (restored events value [] rfl differs) List.not_mem_nil
  · rintro rfl before other after split differs
    rcases List.eq_nil_or_concat after with rfl | ⟨front, last, rfl⟩
    · have lastEq := congrArg List.getLast? split
      simp only [List.getLast?_concat, Option.some.injEq] at lastEq
      exact absurd lastEq.symm differs
    · have lastEq := congrArg List.getLast? split
      rw [List.getLast?_concat, List.concat_eq_append, ← List.cons_append, ← List.append_assoc,
        List.getLast?_concat] at lastEq
      rw [List.concat_eq_append, Option.some.inj lastEq]
      exact List.mem_append_right _ List.mem_cons_self

/-- Where the target is written at all, it is the final value exactly when it
is restored after every write of another value. -/
theorem settle_eq_iff (cell target : α) (events : List (Option α))
    (written : some target ∈ events) :
    settle cell events = target ↔ Restored target events := by
  induction events using List.reverseRecOn with
  | nil => exact absurd written List.not_mem_nil
  | append_singleton events event ih =>
      rw [settle_concat]
      cases event with
      | none =>
          rw [restored_concat_none, Option.getD_none]
          exact ih (by simpa using written)
      | some value =>
          rw [restored_concat_some, Option.getD_some]

end Theory
