import Eagine.Theory.Refinement
import Mathlib.Data.List.Induction
import Mathlib.Data.Fin.Rev

/-!
# Variables with history

A variable keeps its latest values in an array, from the oldest to the newest one. It is meant to
be a window on a log of all values. Each step rotates the array before the newest value is
stored, so that the oldest value is in its place in between.
-/

namespace Eagine.Runtime

open Theory

universe u v

variable {T : Type u} {D : Type v} {N K : Nat}

/-- `value_with_history_storage` -/
abbrev HistoryStorage (T : Type u) (N : Nat) :=
  Vector T N

namespace HistoryStorage

def ofInitial (initial : T) : HistoryStorage T N :=
  Vector.replicate N initial

/-- `get`, where 0 is the newest value -/
def get (i : Fin N) (values : HistoryStorage T N) : T :=
  Vector.get values i.rev

def set (i : Fin N) (value : T) (values : HistoryStorage T N) : HistoryStorage T N :=
  values.setIfInBounds i.rev value

/-- `shift`: a rotation to the left by one place -/
def shift (values : HistoryStorage T (N + 1)) : HistoryStorage T (N + 1) :=
  Vector.ofFn fun place => Vector.get values (place + 1)

/-- `sync`: all places but the last one are filled. -/
def sync (values : HistoryStorage T (N + 1)) : HistoryStorage T (N + 1) :=
  Vector.ofFn fun place =>
    if place.val < N then values.get 0 else Vector.get values place

/-- `differentiate_stored_values` -/
def differentiate [Inhabited D] (deltaOp : T → T → D) (values : HistoryStorage T (N + 1)) :
    HistoryStorage D N :=
  (List.finRange N).foldl
    (fun result i => result.set i (deltaOp (values.get i.castSucc) (values.get i.succ)))
    (ofInitial default)

end HistoryStorage

/-- `value_with_history_changed` -/
def valueWithHistoryChanged [BEq T] (a b : T) : Bool :=
  !(a == b)

/-- `variable_with_history`: there are at least two values. -/
structure VariableWithHistory (T : Type u) (K : Nat) where
  values : HistoryStorage T (K + 2)

/-- A `const T&`: a value, or an entry of the array, where 0 is the newest one -/
inductive HistoryArgument (T : Type u) (K : Nat) where
  | value (held : T)
  | entry (i : Fin (K + 2))

/-- What the argument refers to in the array as it is then -/
def HistoryArgument.read (values : HistoryStorage T (K + 2)) : HistoryArgument T K → T
  | value held => held
  | entry i => values.get i

/-- The functions that change a variable -/
inductive HistoryOperation (T : Type u) (K : Nat) where
  | assign (newValue : HistoryArgument T K)
  | push (newValue : HistoryArgument T K)
  | advance (deltaValue : HistoryArgument T K)
  | sync

namespace VariableWithHistory

def ofInitial (initial : T) : VariableWithHistory T K where
  values := .ofInitial initial

def get (i : Fin (K + 2)) (var : VariableWithHistory T K) : T :=
  var.values.get i

def value (var : VariableWithHistory T K) : T :=
  var.values.get 0

def oldValue (var : VariableWithHistory T K) : T :=
  var.values.get 1

/-- `delta`, by an overload of `value_with_history_delta` -/
def delta (deltaOp : T → T → D) (var : VariableWithHistory T K) : D :=
  deltaOp var.value var.oldValue

/-- `deltas`, which a variable with two values has no type for -/
def deltas [Inhabited D] (deltaOp : T → T → D) (var : VariableWithHistory T K) :
    HistoryStorage D (K + 1) :=
  var.values.differentiate deltaOp

/-- `_set_value`: the shift comes before the argument is read. -/
def setValue (newValue : HistoryArgument T K) (var : VariableWithHistory T K) :
    VariableWithHistory T K where
  values := var.values.shift.set 0 (newValue.read var.values.shift)

def updateValue [BEq T] (newValue : HistoryArgument T K) (var : VariableWithHistory T K) :
    VariableWithHistory T K :=
  if valueWithHistoryChanged (var.values.get 0) (newValue.read var.values) then
    var.setValue newValue
  else var

/-- `_advance_value`: the shift comes before the values are read. -/
def advanceValue [Add T] (deltaValue : HistoryArgument T K) (var : VariableWithHistory T K) :
    VariableWithHistory T K where
  values := var.values.shift.set 0 (var.values.shift.get 0 + deltaValue.read var.values.shift)

def sync (var : VariableWithHistory T K) : VariableWithHistory T K where
  values := var.values.sync

variable [BEq T] [Add T]

def perform (var : VariableWithHistory T K) : HistoryOperation T K → VariableWithHistory T K
  | .assign newValue => var.updateValue newValue
  | .push newValue => var.setValue newValue
  | .advance deltaValue => var.advanceValue deltaValue
  | .sync => var.sync

/-- A variable after some operations -/
def after (initial : T) (operations : List (HistoryOperation T K)) : VariableWithHistory T K :=
  operations.foldl perform (ofInitial initial)

end VariableWithHistory

/-- All values, from the latest one. Before the first operation there was the initial value. -/
abbrev HistoryLog (T : Type u) :=
  Nat → T

namespace HistoryLog

def append (log : HistoryLog T) (newest : T) : HistoryLog T
  | 0 => newest
  | i + 1 => log i

/-- The value of an argument -/
def read (log : HistoryLog T) : HistoryArgument T K → T
  | .value held => held
  | .entry i => log i

/-- What an argument refers to when the array was shifted: of an entry, the next newer value, and
the oldest one of the newest entry -/
def readShifted (log : HistoryLog T) : HistoryArgument T K → T
  | .value held => held
  | .entry i => if i.val = 0 then log (K + 1) else log (i - 1)

variable [BEq T] [Add T]

def perform (log : HistoryLog T) : HistoryOperation T K → HistoryLog T
  | .assign newValue =>
      if valueWithHistoryChanged (log 0) (log.read newValue) then log.append (log.read newValue)
      else log
  | .push newValue => log.append (log.read newValue)
  | .advance deltaValue => log.append (log 0 + log.read deltaValue)
  | .sync => fun _ => log 0

/-- The shift makes no difference to the new value. -/
def Suits (log : HistoryLog T) : HistoryOperation T K → Prop
  | .assign newValue =>
      valueWithHistoryChanged (log 0) (log.read newValue) →
        log.readShifted newValue = log.read newValue
  | .push newValue => log.readShifted newValue = log.read newValue
  | .advance deltaValue =>
      log (K + 1) + log.readShifted deltaValue = log 0 + log.read deltaValue
  | .sync => True

def after (initial : T) (operations : List (HistoryOperation T K)) : HistoryLog T :=
  operations.foldl perform fun _ => initial

end HistoryLog

/-- The variable is a window on the log. -/
structure IsWindow [Inhabited D] (deltaOp : T → T → D) (var : VariableWithHistory T K)
    (log : HistoryLog T) : Prop where
  get_eq : ∀ i, var.get i = log i
  delta_eq : var.delta deltaOp = deltaOp (log 0) (log 1)
  deltas_eq : ∀ i, (var.deltas deltaOp).get i = deltaOp (log i) (log (i + 1))

namespace HistoryStorage

theorem get_set (i j : Fin N) (value : T) (values : HistoryStorage T N) :
    (values.set i value).get j = if i = j then value else values.get j := by
  have read : (values.setIfInBounds i.rev value)[j.rev.val] =
      if i.rev.val = j.rev.val then value else values[j.rev.val] :=
    Vector.getElem_setIfInBounds j.rev.isLt
  simp only [← Fin.ext_iff, Fin.rev_inj] at read
  exact read

theorem get_ofFn (entry : Fin N → T) (i : Fin N) :
    get i (Vector.ofFn entry) = entry i.rev :=
  Vector.getElem_ofFn i.rev.isLt

/-- After a shift the oldest value is in the newest place. -/
theorem get_zero_shift (values : HistoryStorage T (N + 1)) :
    values.shift.get 0 = values.get (Fin.last N) := by
  rw [shift, get_ofFn, Fin.rev_zero, Fin.last_add_one, get, Fin.rev_last]

theorem get_succ_shift (values : HistoryStorage T (N + 1)) (i : Fin N) :
    values.shift.get i.succ = values.get i.castSucc := by
  rw [shift, get_ofFn, get, Fin.rev_castSucc, Fin.rev_succ, Fin.coeSucc_eq_succ]

theorem get_sync (values : HistoryStorage T (N + 1)) (i : Fin (N + 1)) :
    values.sync.get i = values.get 0 := by
  rw [sync, get_ofFn]
  split
  case isTrue => rfl
  case isFalse notBelow =>
      have newest : i.rev = Fin.last N := Fin.eq_last_of_not_lt notBelow
      rw [newest, get, Fin.rev_zero]

theorem get_differentiate [Inhabited D] (deltaOp : T → T → D) (values : HistoryStorage T (N + 1))
    (i : Fin N) :
    (values.differentiate deltaOp).get i = deltaOp (values.get i.castSucc) (values.get i.succ) := by
  let IsSet (count : Nat) (result : HistoryStorage D N) : Prop :=
    ∀ i : Fin N, i.val < count →
      result.get i = deltaOp (values.get i.castSucc) (values.get i.succ)
  have keeps (next : Fin N) (result : HistoryStorage D N) (isSet : IsSet next result) :
      IsSet (next + 1)
        (result.set next (deltaOp (values.get next.castSucc) (values.get next.succ))) := by
    intro i before
    rw [get_set]
    split
    case isTrue here => rw [here]
    case isFalse apart =>
        have other : i.val ≠ next.val := fun same => apart (Fin.ext same.symm)
        exact isSet i (by omega)
  have done := foldl_finRange_invariant keeps (s := ofInitial default)
    fun i none => absurd none (Nat.not_lt_zero _)
  exact done i i.isLt

end HistoryStorage

namespace VariableWithHistory

variable {log : HistoryLog T}

/-- The values of the variable are the latest ones of the log. -/
def Shows (var : VariableWithHistory T K) (log : HistoryLog T) : Prop :=
  ∀ i : Fin (K + 2), var.get i = log i

theorem Shows.isWindow [Inhabited D] {var : VariableWithHistory T K} (shown : var.Shows log)
    (deltaOp : T → T → D) : IsWindow deltaOp var log where
  get_eq := shown
  delta_eq := congrArg₂ deltaOp (shown 0) (shown 1)
  deltas_eq i := (HistoryStorage.get_differentiate deltaOp var.values i).trans
    (congrArg₂ deltaOp (shown i.castSucc) (shown i.succ))

theorem shows_ofInitial (initial : T) :
    (ofInitial initial : VariableWithHistory T K).Shows fun _ => initial := by
  intro i
  exact Vector.getElem_replicate i.rev.isLt

variable {var : VariableWithHistory T K}

theorem Shows.read (shown : var.Shows log) (argument : HistoryArgument T K) :
    argument.read var.values = log.read argument := by
  cases argument with
  | value held => rfl
  | entry i => exact shown i

theorem Shows.readShifted (shown : var.Shows log) (argument : HistoryArgument T K) :
    argument.read var.values.shift = log.readShifted argument := by
  cases argument with
  | value held => rfl
  | entry i =>
      rw [HistoryArgument.read, HistoryLog.readShifted]
      refine Fin.cases ?_ (fun i => ?_) i
      · exact var.values.get_zero_shift.trans (shown (Fin.last (K + 1)))
      · exact (var.values.get_succ_shift i).trans (shown i.castSucc)

/-- What is stored behind the shift is to be the newest value of the log. -/
theorem Shows.set_shift_iff (shown : var.Shows log) (stored newest : T) :
    (VariableWithHistory.mk (var.values.shift.set 0 stored)).Shows (log.append newest) ↔
      stored = newest := by
  have first : (var.values.shift.set 0 stored).get 0 = stored :=
    (HistoryStorage.get_set 0 0 stored var.values.shift).trans (if_pos rfl)
  constructor
  · intro shows
    exact first.symm.trans (shows 0)
  · rintro rfl i
    refine Fin.cases first (fun i => ?_) i
    have apart : (0 : Fin (K + 2)) ≠ i.succ := (Fin.succ_ne_zero i).symm
    have read := HistoryStorage.get_set 0 i.succ stored var.values.shift
    rw [if_neg apart, HistoryStorage.get_succ_shift] at read
    exact read.trans (shown i.castSucc)

variable [BEq T] [Add T]

theorem Shows.perform_iff (shown : var.Shows log) (operation : HistoryOperation T K) :
    (var.perform operation).Shows (log.perform operation) ↔ log.Suits operation := by
  have stores (newValue : HistoryArgument T K) :
      (var.setValue newValue).Shows (log.append (log.read newValue)) ↔
        log.readShifted newValue = log.read newValue := by
    rw [setValue, shown.set_shift_iff, shown.readShifted]
  cases operation with
  | assign newValue =>
      have newest : var.values.get 0 = log 0 := shown 0
      rw [VariableWithHistory.perform, HistoryLog.perform, updateValue, newest, shown.read,
        HistoryLog.Suits]
      split
      case isTrue changed => rw [stores, imp_iff_right changed]
      case isFalse same => exact iff_of_true shown fun changed => absurd changed same
  | push newValue => exact stores newValue
  | advance deltaValue =>
      have oldest : var.values.shift.get 0 = log (K + 1) :=
        var.values.get_zero_shift.trans (shown (Fin.last (K + 1)))
      rw [VariableWithHistory.perform, HistoryLog.perform, advanceValue, shown.set_shift_iff,
        oldest,
        shown.readShifted]
      rfl
  | sync =>
      exact iff_of_true (fun i => (HistoryStorage.get_sync var.values i).trans (shown 0)) trivial

theorem after_concat (initial : T) (done : List (HistoryOperation T K))
    (operation : HistoryOperation T K) :
    (after initial (done ++ [operation]) : VariableWithHistory T K) =
      (after initial done).perform operation := by
  rw [after, List.foldl_append]
  rfl

end VariableWithHistory

theorem HistoryLog.after_concat [BEq T] [Add T] (initial : T) (done : List (HistoryOperation T K))
    (operation : HistoryOperation T K) :
    HistoryLog.after initial (done ++ [operation]) =
      (HistoryLog.after initial done).perform operation := by
  rw [HistoryLog.after, List.foldl_append]
  rfl

section Runs

variable [BEq T] [Add T] (initial : T) (operations : List (HistoryOperation T K))

theorem shows_after
    (suits : ∀ done operation rest, operations = done ++ operation :: rest →
      (HistoryLog.after initial done).Suits operation) :
    (VariableWithHistory.after initial operations : VariableWithHistory T K).Shows
      (HistoryLog.after initial operations) := by
  induction operations using List.reverseRecOn with
  | nil => exact VariableWithHistory.shows_ofInitial initial
  | append_singleton done operation ih =>
      have before := ih fun before earlier rest whole =>
        suits before earlier (rest ++ [operation]) (by rw [whole]; simp)
      rw [VariableWithHistory.after_concat, HistoryLog.after_concat]
      exact (before.perform_iff operation).mpr (suits done operation [] rfl)

/-- The variable is a window on its log in the whole of a run exactly if the shift never makes a
difference to the value that is stored. -/
theorem isWindow_iff [Inhabited D] (deltaOp : T → T → D) :
    (∀ done rest, operations = done ++ rest →
        IsWindow deltaOp (VariableWithHistory.after initial done : VariableWithHistory T K)
          (HistoryLog.after initial done)) ↔
      ∀ done operation rest, operations = done ++ operation :: rest →
        (HistoryLog.after initial done).Suits operation := by
  constructor
  · intro isWindow done operation rest whole
    have before := (isWindow done _ whole).get_eq
    have behind := (isWindow (done ++ [operation]) rest (by rw [whole]; simp)).get_eq
    rw [VariableWithHistory.after_concat, HistoryLog.after_concat] at behind
    exact (VariableWithHistory.Shows.perform_iff before operation).mp behind
  · intro suits done rest whole
    refine (shows_after initial done fun before operation more wholeDone => ?_).isWindow deltaOp
    exact suits before operation (more ++ rest) (by rw [whole, wholeDone]; simp)

/-- A variable with two values that is set and then advanced -/
theorem not_forall_isWindow :
    ¬∀ (initial : Int) (operations : List (HistoryOperation Int 0)),
      IsWindow (fun new old => new - old) (VariableWithHistory.after initial operations)
        (HistoryLog.after initial operations) := by
  intro isWindow
  have newest := (isWindow 0 [.push (.value 5), .advance (.value 1)]).get_eq 0
  exact absurd newest (by decide)

end Runs

end Eagine.Runtime
