import Eagine.Logging.Backend
import Eagine.Logging.NumberText
import Eagine.Memory.BitDensity

/-!
# The JSON log backend

A backend that writes the entries of a log as the elements of a JSON array. The text of an entry
is put together in a buffer, which is appended to the output.
-/

namespace Eagine.Logging

open Serialization

/-- The characters of a string of bytes. -/
def chars (block : Block) : List Char :=
  block.map fun byte => Char.ofNat byte.toNat

/-- The view of an identifier's name. -/
def nameText (id : Identifier) : List Char :=
  chars id.name

/-- The table of `make_base64_encode_transform`. -/
def base64Table : List Char :=
  "ABCDEFGHIJKLMNOPQRSTUVWXYZabcdefghijklmnopqrstuvwxyz0123456789+/=".toList

def base64Encode (b : BitVec 8) : Char :=
  base64Table.getD (min b.toNat 64) '='

def sixBits : BitDensity.GroupSize where
  bits := 6
  one_le := by decide
  le_byteBits := by decide

/-- A character of the dump is passed on. -/
def base64Put (b : BitVec 8) : StateM (List Char) Bool := fun text =>
  (true, text ++ [base64Encode b])

/-- The characters that `base64dump` passes to its function. -/
def base64dump (data : Block) : List Char :=
  (BitDensity.doDissolveBits 16 base64Put sixBits (data.map UInt8.toBitVec) []).2

/-- A finite number. -/
abbrev FiniteFloat :=
  { value : FloatValue // value.isFinite = true }

def padded (width value : Nat) : List Char :=
  List.replicate (width - (unsignedText value).length) '0' ++ unsignedText value

/-- The point of time at which a log starts. -/
structure StartTime where
  year : Nat
  month : Nat
  day : Nat
  hour : Nat
  minute : Nat
  second : Nat
  nanosecond : Nat

/-- The format of the time that the log starts with. -/
def StartTime.text (time : StartTime) : List Char :=
  padded 4 time.year ++ '-' :: (padded 2 time.month ++ '-' :: (padded 2 time.day ++ ' ' ::
    (padded 2 time.hour ++ ':' :: (padded 2 time.minute ++ ':' :: (padded 2 time.second ++ '.' ::
      padded 9 time.nanosecond)))))

/-- `std_log_output_stream`, with what was written. -/
structure LogOutput where
  out : List Char := []
  sep : List Char := []
  first : Bool := true

namespace LogOutput

def write (chunk : List Char) (output : LogOutput) : LogOutput :=
  { output with out := output.out ++ chunk }

def beginStream (header sep : List Char) (output : LogOutput) : LogOutput :=
  { output.write header with sep := output.sep ++ sep }

def beginEntry (output : LogOutput) : LogOutput :=
  if output.first then { output with first := false } else output.write output.sep

def entryAppend (chunk : List Char) (output : LogOutput) : LogOutput :=
  output.write chunk

def finishStream (footer : List Char) (output : LogOutput) : LogOutput :=
  output.write footer

end LogOutput

/-- A time interval that is measured. Times are counted in nanoseconds. -/
structure IntervalInfo where
  tag : Identifier
  logId : LoggerInstanceId
  start : Int := 0
  duration : Int := 0
  count : Nat := 0

/-- The intervals. The identifier of an interval is its position. -/
abbrev Intervals :=
  List IntervalInfo

namespace Intervals

def register (tag : Identifier) (logId : LoggerInstanceId) (intervals : Intervals) : Intervals :=
  if intervals.any fun info => info.tag == tag && info.logId == logId then intervals
  else intervals ++ [{ tag := tag, logId := logId }]

def begin (now : Int) (id : Nat) (intervals : Intervals) : Intervals :=
  intervals.modify id fun info => { info with start := now }

def batch : Nat :=
  1000

/-- The interval that is measured, with the end counted. -/
def ended (now : Int) (id : Nat) (intervals : Intervals) : Option IntervalInfo :=
  intervals[id]?.map fun info =>
    { info with count := info.count + 1, duration := info.duration + (now - info.start) }

def finish (now : Int) (id : Nat) (intervals : Intervals) : Intervals :=
  match intervals.ended now id with
  | some info =>
      intervals.set id (if batch ≤ info.count then { info with count := 0, duration := 0 } else info)
  | none => intervals

/-- The average of a batch, when it is complete. -/
def report (now : Int) (id : Nat) (intervals : Intervals) : Option (IntervalInfo × Int) :=
  (intervals.ended now id).bind fun info =>
    if batch ≤ info.count then some (info, info.duration.tdiv batch) else none

end Intervals

/-- `json_log_backend` -/
structure JsonLogBackend where
  output : LogOutput := {}
  sessionIdentity : Block
  logIdentity : Block
  buffer : List Char := []
  intervals : Intervals := []

namespace JsonLogBackend

def add (text : List Char) (backend : JsonLogBackend) : JsonLogBackend :=
  { backend with buffer := backend.buffer ++ text }

def addBoolean : Bool → JsonLogBackend → JsonLogBackend
  | true => add "true".toList
  | false => add "false".toList

/-- A block of memory goes to the output without the buffer. -/
def addBlock (data : Block) (backend : JsonLogBackend) : JsonLogBackend :=
  { backend with
    output := (backend.output.entryAppend backend.buffer).entryAppend (base64dump data)
    buffer := [] }

def writeEntry (backend : JsonLogBackend) : JsonLogBackend :=
  { backend with output := backend.output.beginEntry.entryAppend backend.buffer, buffer := [] }

def beginLog (start : StartTime) (backend : JsonLogBackend) : JsonLogBackend :=
  let backend := { backend with output := backend.output.beginStream "[".toList "\n,".toList }
  let backend := (backend.add "\x7b\"t\":\"begin\",\"time\":\"".toList).add start.text
  let backend :=
    if backend.sessionIdentity = [] then backend
    else (backend.add "\",\"session\":\"".toList).add (chars backend.sessionIdentity)
  let backend :=
    if backend.logIdentity = [] then backend
    else (backend.add "\",\"identity\":\"".toList).add (chars backend.logIdentity)
  (backend.add "\"\x7d".toList).writeEntry

def setDescription (sec : FiniteFloat) (source : Identifier) (instanceId : LoggerInstanceId)
    (displayName description : Block) (backend : JsonLogBackend) : JsonLogBackend :=
  (backend.add "\x7b\"t\":\"d\",\"src\":\"".toList
    |>.add (nameText source)
    |>.add "\",\"iid\":".toList
    |>.add (unsignedText instanceId.toNat)
    |>.add ",\"ts\":".toList
    |>.add sec.1.text
    |>.add ",\"dn\":\"".toList
    |>.add (chars displayName)
    |>.add "\",\"desc\":\"".toList
    |>.add (chars description)
    |>.add "\"\x7d".toList).writeEntry

def declareState (sec : FiniteFloat) (source stateTag beginTag endTag : Identifier)
    (backend : JsonLogBackend) : JsonLogBackend :=
  (backend.add "\x7b\"t\":\"ds\",\"src\":\"".toList
    |>.add (nameText source)
    |>.add "\",\"tag\":\"".toList
    |>.add (nameText stateTag)
    |>.add "\",\"ts\":".toList
    |>.add sec.1.text
    |>.add ",\"bgn\":\"".toList
    |>.add (nameText beginTag)
    |>.add "\",\"end\":\"".toList
    |>.add (nameText endTag)
    |>.add "\"\x7d".toList).writeEntry

def activeState (sec : FiniteFloat) (source stateTag : Identifier) (backend : JsonLogBackend) :
    JsonLogBackend :=
  (backend.add "\x7b\"t\":\"as\",\"src\":\"".toList
    |>.add (nameText source)
    |>.add "\",\"tag\":\"".toList
    |>.add (nameText stateTag)
    |>.add "\",\"ts\":".toList
    |>.add sec.1.text
    |>.add "\x7d".toList).writeEntry

def beginMessage (sec : FiniteFloat) (source tag : Identifier) (instanceId : LoggerInstanceId)
    (severity : LogEventSeverity) (format : Block) (backend : JsonLogBackend) : JsonLogBackend :=
  let backend := { backend with output := backend.output.beginEntry }
  let backend := backend.add "\x7b\"t\":\"m\",\"lvl\":\"".toList
    |>.add severity.name.toList
    |>.add "\",\"src\":\"".toList
    |>.add (nameText source)
  -- The encoding of an empty name is not zero, but identifiers are their names here.
  let backend :=
    if tag.name = [] then backend else (backend.add "\",\"tag\":\"".toList).add (nameText tag)
  backend.add "\",\"iid\":".toList
    |>.add (unsignedText instanceId.toNat)
    |>.add ",\"ts\":".toList
    |>.add sec.1.text
    |>.add ",\"f\":\"".toList
    |>.add (chars format)
    |>.add "\",\"a\":[null".toList

/-- The beginning of an argument, up to its tag. -/
def addArgument (arg tag : Identifier) (backend : JsonLogBackend) : JsonLogBackend :=
  backend.add ",\x7b\"n\":\"".toList
    |>.add (nameText arg)
    |>.add "\",\"t\":\"".toList
    |>.add (nameText tag)

def addNothing (arg tag : Identifier) (backend : JsonLogBackend) : JsonLogBackend :=
  (backend.addArgument arg tag).add "\"\x7d".toList

def doAddArgU (arg tag : Identifier) (value : List Char) (backend : JsonLogBackend) :
    JsonLogBackend :=
  (backend.addArgument arg tag).add "\",\"v\":".toList
    |>.add value
    |>.add "\x7d".toList

/-- The value is added by one of the functions for it. -/
def doAddArgQ (arg tag : Identifier) (addValue : JsonLogBackend → JsonLogBackend)
    (backend : JsonLogBackend) : JsonLogBackend :=
  (addValue ((backend.addArgument arg tag).add "\",\"v\":\"".toList)).add "\"\x7d".toList

def addIdentifier (arg tag value : Identifier) : JsonLogBackend → JsonLogBackend :=
  doAddArgQ arg tag (add (nameText value))

def addMessageId (arg tag : Identifier) (value : Identifier × Identifier) :
    JsonLogBackend → JsonLogBackend :=
  doAddArgQ arg tag fun backend =>
    ((backend.add (nameText value.1)).add ".".toList).add (nameText value.2)

def addBool (arg tag : Identifier) (value : Bool) (backend : JsonLogBackend) : JsonLogBackend :=
  (((backend.addArgument arg tag).add "\",\"v\":".toList).addBoolean value).add "\x7d".toList

def addInteger (arg tag : Identifier) (value : Int64) : JsonLogBackend → JsonLogBackend :=
  doAddArgU arg tag (signedText value.toInt)

def addUnsigned (arg tag : Identifier) (value : UInt64) : JsonLogBackend → JsonLogBackend :=
  doAddArgU arg tag (unsignedText value.toNat)

def addFloat (arg tag : Identifier) (value : FloatValue) : JsonLogBackend → JsonLogBackend :=
  doAddArgU arg tag value.text

def addFloatRange (arg tag : Identifier) (min value max : FloatValue) (backend : JsonLogBackend) :
    JsonLogBackend :=
  (backend.addArgument arg tag).add "\",\"v\":".toList
    |>.add value.text
    |>.add ",\"min\":".toList
    |>.add min.text
    |>.add ",\"max\":".toList
    |>.add max.text
    |>.add "\x7d".toList

def addDuration (arg tag : Identifier) (value : FloatValue) (backend : JsonLogBackend) :
    JsonLogBackend :=
  (backend.addArgument arg tag).add "\",\"u\":\"s\",\"v\":".toList
    |>.add value.text
    |>.add "\x7d".toList

def addString (arg tag : Identifier) (value : Block) : JsonLogBackend → JsonLogBackend :=
  doAddArgQ arg tag (add (chars value))

def addBlob (arg tag : Identifier) (value : Block) : JsonLogBackend → JsonLogBackend :=
  doAddArgQ arg tag (addBlock value)

def finishMessage (backend : JsonLogBackend) : JsonLogBackend :=
  let backend := backend.add "]\x7d".toList
  { backend with output := backend.output.entryAppend backend.buffer, buffer := [] }

/-- Chart samples are not written. -/
def logChartSample (_source : Identifier) (_instanceId : LoggerInstanceId) (_series : Identifier)
    (_value : FloatValue) (backend : JsonLogBackend) : JsonLogBackend :=
  backend

def heartbeat (sec : FiniteFloat) (backend : JsonLogBackend) : JsonLogBackend :=
  (backend.add "\x7b\"t\":\"hb\"".toList
    |>.add ",\"ts\":".toList
    |>.add sec.1.text
    |>.add "\x7d".toList).writeEntry

def finishLog (sec : FiniteFloat) (backend : JsonLogBackend) : JsonLogBackend :=
  let backend := (backend.add "\x7b\"t\":\"end\"".toList
    |>.add ",\"ts\":".toList
    |>.add sec.1.text
    |>.add "\x7d".toList).writeEntry
  { backend with output := backend.output.finishStream "]".toList }

def registerTimeInterval (tag : Identifier) (logId : LoggerInstanceId) (backend : JsonLogBackend) :
    JsonLogBackend :=
  { backend with intervals := backend.intervals.register tag logId }

def timeIntervalBegin (now : Int) (id : Nat) (backend : JsonLogBackend) : JsonLogBackend :=
  { backend with intervals := backend.intervals.begin now id }

def timeIntervalEnd (now : Int) (id : Nat) (backend : JsonLogBackend) : JsonLogBackend :=
  let reported :=
    match backend.intervals.report now id with
    | some (info, avg) =>
        (backend.add "\x7b\"t\":\"i\",\"iid\":".toList
          |>.add (unsignedText info.logId.toNat)
          |>.add ",\"tag\":\"".toList
          |>.add (nameText info.tag)
          |>.add "\",\"tns\":".toList
          |>.add (signedText avg)
          |>.add "\x7d".toList).writeEntry
    | none => backend
  { reported with intervals := backend.intervals.finish now id }

/-- A call of a function of the backend. -/
inductive Call where
  | backend (call : BackendCall FloatValue)
  | registerTimeInterval (tag : Identifier) (logId : LoggerInstanceId)
  | timeIntervalBegin (id : Nat)
  | timeIntervalEnd (id : Nat)
deriving DecidableEq

/-- What a call reads from the clocks: the time of the start of the log, the nanoseconds since
then, and the same in seconds. -/
structure Clock where
  start : StartTime
  now : Int
  sec : FiniteFloat

def call (clock : Clock) : Call → JsonLogBackend → JsonLogBackend
  | .backend .beginLog => beginLog clock.start
  | .backend (.setDescription source instanceId displayName description) =>
      setDescription clock.sec source instanceId displayName description
  | .backend (.declareState source stateTag beginTag endTag) =>
      declareState clock.sec source stateTag beginTag endTag
  | .backend (.activeState source stateTag) => activeState clock.sec source stateTag
  | .backend (.beginMessage source tag instanceId severity format) =>
      beginMessage clock.sec source tag instanceId severity format
  | .backend (.addNothing arg tag) => addNothing arg tag
  | .backend (.addIdentifier arg tag value) => addIdentifier arg tag value
  | .backend (.addMessageId arg tag value) => addMessageId arg tag value
  | .backend (.addBool arg tag value) => addBool arg tag value
  | .backend (.addInteger arg tag value) => addInteger arg tag value
  | .backend (.addUnsigned arg tag value) => addUnsigned arg tag value
  | .backend (.addFloat arg tag value) => addFloat arg tag value
  | .backend (.addFloatRange arg tag min value max) => addFloatRange arg tag min value max
  | .backend (.addDuration arg tag value) => addDuration arg tag value
  | .backend (.addString arg tag value) => addString arg tag value
  | .backend (.addBlob arg tag value) => addBlob arg tag value
  | .backend .finishMessage => finishMessage
  | .backend (.logChartSample source instanceId series value) =>
      logChartSample source instanceId series value
  | .backend .heartbeat => heartbeat clock.sec
  | .backend .finishLog => finishLog clock.sec
  | .registerTimeInterval tag logId => registerTimeInterval tag logId
  | .timeIntervalBegin id => timeIntervalBegin clock.now id
  | .timeIntervalEnd id => timeIntervalEnd clock.now id

/-- The calls, each at its time. -/
def run (calls : List (Clock × Call)) (backend : JsonLogBackend) : JsonLogBackend :=
  calls.foldl (fun backend step => backend.call step.1 step.2) backend

end JsonLogBackend

end Eagine.Logging
