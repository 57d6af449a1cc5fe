import Eagine.Logging.JsonLogParsing

/-!
# Logs with any end

What is in the output of the backend at any time. Until the log is finished it is an array that
is not closed, and what is logged behind the end comes behind the array.
-/

namespace Eagine.Logging

open Serialization Theory Theory.Json

/-- A call that writes an entry that is no message. -/
inductive EntryCall where
  | setDescription (source : Identifier) (instanceId : LoggerInstanceId)
      (displayName description : Block)
  | declareState (source stateTag beginTag endTag : Identifier)
  | activeState (source stateTag : Identifier)
  | heartbeat
  | finishLog

namespace EntryCall

def call : EntryCall → JsonLogBackend.Call
  | setDescription source instanceId displayName description =>
      .backend (.setDescription source instanceId displayName description)
  | declareState source stateTag beginTag endTag =>
      .backend (.declareState source stateTag beginTag endTag)
  | activeState source stateTag => .backend (.activeState source stateTag)
  | heartbeat => .backend .heartbeat
  | finishLog => .backend .finishLog

/-- The item that the call is for, unless it finishes the log. -/
def item : EntryCall → Option LogItem
  | setDescription source instanceId displayName description =>
      some (.setDescription source instanceId displayName description)
  | declareState source stateTag beginTag endTag =>
      some (.declareState source stateTag beginTag endTag)
  | activeState source stateTag => some (.activeState source stateTag)
  | heartbeat => some .heartbeat
  | finishLog => none

/-- The texts of a call that are not identifiers. -/
def texts : EntryCall → List Block
  | setDescription _ _ displayName description => [displayName, description]
  | _ => []

variable {call : EntryCall} {item : LogItem}

theorem calls_item (found : call.item = some item) :
    item.calls = [call.call] := by
  cases call with
  | finishLog => cases found
  | _ =>
      cases found
      rfl

theorem texts_item (found : call.item = some item) :
    item.texts = call.texts := by
  cases call with
  | finishLog => cases found
  | _ =>
      cases found
      rfl

theorem floats_item (found : call.item = some item) :
    item.floats = [] := by
  cases call with
  | finishLog => cases found
  | _ =>
      cases found
      rfl

theorem eq_finishLog (none : call.item = none) : call = .finishLog := by
  cases call with
  | finishLog => rfl
  | _ => cases none

end EntryCall

namespace JsonLogBackend

/-- The calls for items. -/
def itemCalls (items : List (Clock × LogItem)) : List (Clock × Call) :=
  items.flatMap fun item => item.2.calls.map fun call => (item.1, call)

def entryCalls (calls : List (Clock × EntryCall)) : List (Clock × Call) :=
  calls.map fun call => (call.1, call.2.call)

/-- The items of the calls until the log is finished. -/
def unfinished : List (Clock × EntryCall) → List (Clock × LogItem)
  | [] => []
  | (clock, call) :: calls =>
      match call.item with
      | some item => (clock, item) :: unfinished calls
      | none => []

/-- The calls from the first one on that finishes the log. -/
def finishing : List (Clock × EntryCall) → List (Clock × EntryCall)
  | [] => []
  | (clock, call) :: calls =>
      match call.item with
      | some _ => finishing calls
      | none => (clock, call) :: calls

theorem entryCalls_eq (calls : List (Clock × EntryCall)) :
    entryCalls calls = itemCalls (unfinished calls) ++ entryCalls (finishing calls) := by
  induction calls with
  | nil => rfl
  | cons head calls ih =>
      rcases head with ⟨clock, call⟩
      rw [unfinished, finishing]
      cases found : call.item with
      | none => rfl
      | some item =>
          change (clock, call.call) :: entryCalls calls =
            (item.calls.map fun call => (clock, call)) ++ itemCalls (unfinished calls) ++
              entryCalls (finishing calls)
          rw [ih, EntryCall.calls_item found]
          rfl

theorem finishing_cases (calls : List (Clock × EntryCall)) :
    finishing calls = [] ∨ ∃ stop others, finishing calls = (stop, .finishLog) :: others := by
  induction calls with
  | nil => exact .inl rfl
  | cons head calls ih =>
      rcases head with ⟨clock, call⟩
      rw [finishing]
      cases found : call.item with
      | none => exact .inr ⟨clock, calls, by rw [EntryCall.eq_finishLog found]⟩
      | some item => exact ih

/-- What holds of the items for calls. -/
theorem forall_unfinished {calls : List (Clock × EntryCall)} {P : LogItem → Prop}
    (all : ∀ call ∈ calls, ∀ item, call.2.item = some item → P item) :
    ∀ item ∈ unfinished calls, P item.2 := by
  induction calls with
  | nil => exact List.forall_mem_nil _
  | cons head calls ih =>
      rcases head with ⟨clock, call⟩
      rcases List.forall_mem_cons.mp all with ⟨first, others⟩
      rw [unfinished]
      cases found : call.item with
      | none => exact List.forall_mem_nil _
      | some item => exact List.forall_mem_cons.mpr ⟨first item found, ih others⟩

section

variable (session identity : Block) (start : Clock)

/-- What is in the output after `begin_log` and the calls behind it. -/
def streamed (calls : List (Clock × Call)) : List Char :=
  (({ sessionIdentity := session, logIdentity := identity } : JsonLogBackend).run
    ((start, .backend .beginLog) :: calls)).output.out

/-- The entries of a log up to the items. -/
def streamedEntries (items : List (Clock × LogItem)) : List (List Member) :=
  beginMembers start.start session identity :: JsonLog.itemEntries [] items

/-- The backend behind the items. -/
theorem wrote_items (items : List (Clock × LogItem)) :
    ∃ intervals, Wrote (streamedEntries session identity start items) intervals
      (({ sessionIdentity := session, logIdentity := identity } : JsonLogBackend).run
        ((start, .backend .beginLog) :: itemCalls items)) := by
  have began : Wrote [beginMembers start.start session identity] []
      (({ sessionIdentity := session, logIdentity := identity } : JsonLogBackend).beginLog
        start.start) := by
    rw [beginLog_eq rfl]
    constructor <;>
      simp [wrote, LogOutput.beginStream, LogOutput.beginEntry, LogOutput.write, joined]
  exact began.items items

/-- Nothing that was written is taken back, and no entry is left in the buffer. -/
theorem extends_entryCalls (calls : List (Clock × EntryCall)) {backend : JsonLogBackend}
    (empty : backend.buffer = []) :
    ∃ rest, (backend.run (entryCalls calls)).output.out = backend.output.out ++ rest := by
  induction calls generalizing backend with
  | nil => exact ⟨[], (List.append_nil _).symm⟩
  | cons head calls ih =>
      rcases head with ⟨clock, call⟩
      have one : (backend.call clock call.call).buffer = [] ∧
          ∃ added, (backend.call clock call.call).output.out = backend.output.out ++ added := by
        have wroteOne (text : List Char) : (backend.wrote text).buffer = [] ∧
            ∃ added, (backend.wrote text).output.out = backend.output.out ++ added := by
          refine ⟨empty, ?_⟩
          by_cases first : backend.output.first = true <;>
            simp [wrote, LogOutput.beginEntry, LogOutput.write, first]
        cases call with
        | setDescription source instanceId displayName description =>
            change (backend.setDescription _ _ _ _ _).buffer = [] ∧
              ∃ added, (backend.setDescription _ _ _ _ _).output.out = _ ++ added
            rw [setDescription_eq empty]
            exact wroteOne _
        | declareState source stateTag beginTag endTag =>
            change (backend.declareState _ _ _ _ _).buffer = [] ∧
              ∃ added, (backend.declareState _ _ _ _ _).output.out = _ ++ added
            rw [declareState_eq empty]
            exact wroteOne _
        | activeState source stateTag =>
            change (backend.activeState _ _ _).buffer = [] ∧
              ∃ added, (backend.activeState _ _ _).output.out = _ ++ added
            rw [activeState_eq empty]
            exact wroteOne _
        | heartbeat =>
            change (backend.heartbeat _).buffer = [] ∧
              ∃ added, (backend.heartbeat _).output.out = _ ++ added
            rw [heartbeat_eq empty]
            exact wroteOne _
        | finishLog =>
            change (backend.finishLog _).buffer = [] ∧
              ∃ added, (backend.finishLog _).output.out = _ ++ added
            rw [finishLog_eq empty]
            rcases (wroteOne (objectText (endMembers clock.sec))).2 with ⟨added, outEq⟩
            exact ⟨empty, added ++ "]".toList, by rw [LogOutput.write, outEq, List.append_assoc]⟩
      rcases one.2 with ⟨added, outEq⟩
      rcases ih one.1 with ⟨rest, restEq⟩
      exact ⟨added ++ rest, by rw [← List.append_assoc, ← outEq, ← restEq]; rfl⟩

/-- The text of a log that is not finished. -/
theorem streamed_items (items : List (Clock × LogItem)) :
    streamed session identity start (itemCalls items) =
      '[' :: joined "\n,".toList
        ((streamedEntries session identity start items).map objectText) := by
  rcases wrote_items session identity start items with ⟨intervals, holds⟩
  exact holds.out_eq

/-- The text of a log that was finished once at least. -/
theorem streamed_finished (items : List (Clock × LogItem)) (stop : Clock)
    (others : List (Clock × EntryCall)) :
    ∃ rest, streamed session identity start
        (itemCalls items ++ entryCalls ((stop, .finishLog) :: others)) =
      '[' :: (joined "\n,".toList
        ((streamedEntries session identity start items ++ [endMembers stop.sec]).map objectText) ++
          ']' :: rest) := by
  rcases wrote_items session identity start items with ⟨intervals, holds⟩
  have ended := holds.wrote (endMembers stop.sec)
  have finished := finishLog_eq holds.buffer_eq stop.sec
  have empty : ((({ sessionIdentity := session, logIdentity := identity } : JsonLogBackend).run
      ((start, .backend .beginLog) :: itemCalls items)).finishLog stop.sec).buffer = [] := by
    rw [finished]
    exact ended.buffer_eq
  rcases extends_entryCalls others empty with ⟨rest, outEq⟩
  refine ⟨rest, ?_⟩
  rw [streamed, ← List.cons_append, run_append]
  change (JsonLogBackend.run (entryCalls others) (JsonLogBackend.finishLog stop.sec _)).output.out = _
  rw [outEq, finished]
  simp only [LogOutput.write]
  rw [ended.out_eq]
  simp [streamedEntries]

end

end JsonLogBackend

end Eagine.Logging
