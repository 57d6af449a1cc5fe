import Eagine.Logging.JsonBackendText

/-!
# Whole logs

A log begins with `begin_log`, ends with `finish_log`, and has messages and other entries in
between. Its text is an array of the entries exactly when no text of it needs to be escaped.
-/

namespace Eagine.Logging

open Serialization Theory Theory.Json
open LogOutput (beginEntry write)

/-- What is logged between the begin and the end of a log, with the calls for it. -/
inductive LogItem where
  | message (message : Message)
  | setDescription (source : Identifier) (instanceId : LoggerInstanceId)
      (displayName description : Block)
  | declareState (source stateTag beginTag endTag : Identifier)
  | activeState (source stateTag : Identifier)
  | logChartSample (source : Identifier) (instanceId : LoggerInstanceId) (series : Identifier)
      (value : FloatValue)
  | heartbeat
  | registerTimeInterval (tag : Identifier) (logId : LoggerInstanceId)
  | timeIntervalBegin (id : Nat)
  | timeIntervalEnd (id : Nat)

namespace LogItem

def calls : LogItem → List JsonLogBackend.Call
  | message m =>
      .backend (.beginMessage m.source m.tag m.instanceId m.severity m.format) ::
        (m.args.map fun arg => .backend arg.1) ++ [.backend .finishMessage]
  | setDescription source instanceId displayName description =>
      [.backend (.setDescription source instanceId displayName description)]
  | declareState source stateTag beginTag endTag =>
      [.backend (.declareState source stateTag beginTag endTag)]
  | activeState source stateTag => [.backend (.activeState source stateTag)]
  | logChartSample source instanceId series value =>
      [.backend (.logChartSample source instanceId series value)]
  | heartbeat => [.backend .heartbeat]
  | registerTimeInterval tag logId => [.registerTimeInterval tag logId]
  | timeIntervalBegin id => [.timeIntervalBegin id]
  | timeIntervalEnd id => [.timeIntervalEnd id]

/-- The members of the entry for an item, if there is one. -/
def entry (clock : JsonLogBackend.Clock) (intervals : Intervals) : LogItem → Option (List Member)
  | message m => some (m.members clock.sec)
  | setDescription source instanceId displayName description =>
      some (descriptionMembers clock.sec source instanceId displayName description)
  | declareState source stateTag beginTag endTag =>
      some (declareStateMembers clock.sec source stateTag beginTag endTag)
  | activeState source stateTag => some (activeStateMembers clock.sec source stateTag)
  | heartbeat => some (heartbeatMembers clock.sec)
  | timeIntervalEnd id =>
      (intervals.report clock.now id).map fun reported => intervalMembers reported.1 reported.2
  | _ => none

/-- The intervals behind an item. -/
def intervalsAfter (clock : JsonLogBackend.Clock) (intervals : Intervals) : LogItem → Intervals
  | registerTimeInterval tag logId => intervals.register tag logId
  | timeIntervalBegin id => intervals.begin clock.now id
  | timeIntervalEnd id => intervals.finish clock.now id
  | _ => intervals

end LogItem

/-- The texts that a call adds to a message. -/
def BackendCall.texts : BackendCall FloatValue → List Block
  | .addString _ _ value => [value]
  | _ => []

/-- The numbers of the type `float` that a call adds to a message. -/
def BackendCall.floats : BackendCall FloatValue → List FloatValue
  | .addFloat _ _ value | .addDuration _ _ value => [value]
  | .addFloatRange _ _ min value max => [min, value, max]
  | _ => []

/-- The texts of an item that are not identifiers. -/
def LogItem.texts : LogItem → List Block
  | .message m => m.format :: m.args.flatMap fun arg => arg.1.texts
  | .setDescription _ _ displayName description => [displayName, description]
  | _ => []

def LogItem.floats : LogItem → List FloatValue
  | .message m => m.args.flatMap fun arg => arg.1.floats
  | .logChartSample _ _ _ value => [value]
  | _ => []

/-- A log, with what its calls read from the clocks. -/
structure JsonLog where
  sessionIdentity : Block
  logIdentity : Block
  start : JsonLogBackend.Clock
  items : List (JsonLogBackend.Clock × LogItem)
  stop : JsonLogBackend.Clock

namespace JsonLog

def calls (log : JsonLog) : List (JsonLogBackend.Clock × JsonLogBackend.Call) :=
  (log.start, .backend .beginLog) ::
    (log.items.flatMap fun item => item.2.calls.map fun call => (item.1, call)) ++
      [(log.stop, .backend .finishLog)]

/-- The backend before the log. -/
def backend (log : JsonLog) : JsonLogBackend :=
  { sessionIdentity := log.sessionIdentity, logIdentity := log.logIdentity }

/-- The text that the log leaves in the output. -/
def text (log : JsonLog) : List Char :=
  (log.backend.run log.calls).output.out

def itemEntries : Intervals → List (JsonLogBackend.Clock × LogItem) → List (List Member)
  | _, [] => []
  | intervals, (clock, item) :: items =>
      (item.entry clock intervals).toList ++ itemEntries (item.intervalsAfter clock intervals) items

/-- The entries that the log is to have. -/
def entries (log : JsonLog) : List (List Member) :=
  beginMembers log.start.start log.sessionIdentity log.logIdentity ::
    itemEntries [] log.items ++ [endMembers log.stop.sec]

def texts (log : JsonLog) : List Block :=
  log.sessionIdentity :: log.logIdentity :: log.items.flatMap fun item => item.2.texts

def floats (log : JsonLog) : List FloatValue :=
  log.items.flatMap fun item => item.2.floats

end JsonLog

namespace JsonLogBackend

theorem run_append (first second : List (Clock × Call)) (backend : JsonLogBackend) :
    backend.run (first ++ second) = (backend.run first).run second :=
  List.foldl_append

/-- The entries were written behind the header, and nothing is left in the buffer. -/
structure Wrote (entries : List (List Member)) (intervals : Intervals) (backend : JsonLogBackend) :
    Prop where
  buffer_eq : backend.buffer = []
  out_eq : backend.output.out = '[' :: joined "\n,".toList (entries.map objectText)
  sep_eq : backend.output.sep = "\n,".toList
  first_eq : backend.output.first = false
  intervals_eq : backend.intervals = intervals

variable {intervals : Intervals} {backend : JsonLogBackend} {entries : List (List Member)}

variable {entry : List Member}

theorem Wrote.wrote (holds : Wrote (entry :: entries) intervals backend) (next : List Member) :
    Wrote (entry :: (entries ++ [next])) intervals (backend.wrote (objectText next)) where
  buffer_eq := holds.buffer_eq
  out_eq := by
    simp [JsonLogBackend.wrote, beginEntry, write, holds.first_eq,
      holds.out_eq, holds.sep_eq, joined_append_singleton]
  sep_eq := by
    simp [JsonLogBackend.wrote, beginEntry, write, holds.first_eq,
      holds.sep_eq]
  first_eq := by
    simp [JsonLogBackend.wrote, beginEntry, write, holds.first_eq]
  intervals_eq := holds.intervals_eq

theorem Wrote.setIntervals (holds : Wrote entries intervals backend) (after : Intervals) :
    Wrote entries after { backend with intervals := after } :=
  ⟨holds.buffer_eq, holds.out_eq, holds.sep_eq, holds.first_eq, rfl⟩

theorem run_message (clock : Clock) (message : Message) (empty : backend.buffer = []) :
    backend.run ((LogItem.message message).calls.map fun call => (clock, call)) =
      backend.wrote (objectText (message.members clock.sec)) := by
  rw [← message_eq empty clock message, LogItem.calls, List.map_append, List.map_cons,
    List.map_map, List.cons_append]
  change (backend.beginMessage clock.sec message.source message.tag message.instanceId
    message.severity message.format).run _ = _
  rw [run_append]
  rfl

/-- An item adds its entry behind those that are there. -/
theorem Wrote.item
    (holds : Wrote (entry :: entries) intervals backend) (clock : Clock) (item : LogItem) :
    Wrote (entry :: (entries ++ (item.entry clock intervals).toList))
      (item.intervalsAfter clock intervals)
      (backend.run (item.calls.map fun call => (clock, call))) := by
  have empty := holds.buffer_eq
  have added := holds.wrote
  have unchanged (after : Intervals) :
      Wrote (entry :: (entries ++ [])) after { backend with intervals := after } := by
    rw [List.append_nil]
    exact holds.setIntervals after
  cases item with
  | message m =>
      rw [run_message clock m empty]
      exact added _
  | setDescription source instanceId displayName description =>
      change Wrote _ _ (backend.setDescription clock.sec source instanceId displayName description)
      rw [setDescription_eq empty]
      exact added _
  | declareState source stateTag beginTag endTag =>
      change Wrote _ _ (backend.declareState clock.sec source stateTag beginTag endTag)
      rw [declareState_eq empty]
      exact added _
  | activeState source stateTag =>
      change Wrote _ _ (backend.activeState clock.sec source stateTag)
      rw [activeState_eq empty]
      exact added _
  | heartbeat =>
      change Wrote _ _ (backend.heartbeat clock.sec)
      rw [heartbeat_eq empty]
      exact added _
  | logChartSample source instanceId series value =>
      change Wrote (entry :: (entries ++ [])) _ backend
      rw [List.append_nil]
      exact holds
  | registerTimeInterval tag logId =>
      change Wrote _ _ (backend.registerTimeInterval tag logId)
      rw [registerTimeInterval, holds.intervals_eq]
      exact unchanged _
  | timeIntervalBegin id =>
      change Wrote _ _ (backend.timeIntervalBegin clock.now id)
      rw [timeIntervalBegin, holds.intervals_eq]
      exact unchanged _
  | timeIntervalEnd id =>
      change Wrote _ _ (backend.timeIntervalEnd clock.now id)
      rw [timeIntervalEnd_eq empty, holds.intervals_eq, LogItem.entry]
      cases intervals.report clock.now id with
      | none => exact unchanged _
      | some reported => exact (added _).setIntervals _

/-- The items add their entries. -/
theorem Wrote.items
    (holds : Wrote (entry :: entries) intervals backend) (items : List (Clock × LogItem)) :
    ∃ after, Wrote (entry :: (entries ++ JsonLog.itemEntries intervals items)) after
      (backend.run (items.flatMap fun item => item.2.calls.map fun call => (item.1, call))) := by
  induction items generalizing entries intervals backend with
  | nil => exact ⟨intervals, by simpa [JsonLog.itemEntries, run] using holds⟩
  | cons head items ih =>
      rcases head with ⟨clock, item⟩
      rcases ih (holds.item clock item) with ⟨after, wrote⟩
      refine ⟨after, ?_⟩
      rw [List.flatMap_cons, run_append, JsonLog.itemEntries, ← List.append_assoc]
      exact wrote

end JsonLogBackend

namespace JsonLog

open JsonLogBackend

/-- The whole text of a log. -/
theorem text_eq (log : JsonLog) :
    log.text = '[' :: (joined "\n,".toList (log.entries.map objectText) ++ [']']) := by
  have began : Wrote [beginMembers log.start.start log.sessionIdentity log.logIdentity] []
      (log.backend.beginLog log.start.start) := by
    rw [beginLog_eq rfl]
    constructor <;>
      simp [backend, wrote, LogOutput.beginStream, beginEntry, write, joined]
  rcases began.items log.items with ⟨after, holds⟩
  have ended := holds.wrote (endMembers log.stop.sec)
  rw [text, calls, List.cons_append]
  change ((log.backend.beginLog log.start.start).run _).output.out = _
  rw [run_append]
  change (JsonLogBackend.finishLog log.stop.sec _).output.out = _
  rw [finishLog_eq holds.buffer_eq]
  simp only [write]
  rw [ended.out_eq]
  simp [entries]

end JsonLog

end Eagine.Logging
