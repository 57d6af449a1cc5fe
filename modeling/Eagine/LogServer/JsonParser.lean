import Eagine.Theory.LowerBound
import Eagine.ValueTree.BuildingVisitor
import Eagine.ValueTree.Overlay
import Eagine.Logging.Backend

/-!
# The JSON parser of the log server

Each kind of entry has an extractor, which is put together from mixins and keeps an info. The
member `t` of an entry selects the extractor that gets the values behind it, and at the end of
the entry the info of that extractor is handed to the sink.
-/

/-!
## The items of a log stream

What the parser of the log server hands to the sink of a stream.
-/

namespace Eagine.LogServer

open Serialization Logging

universe u

/-- The identifier without a name. -/
def noIdentifier : Identifier :=
  .ofChars []

/-- `begin_info`, with the start in microseconds. -/
structure BeginInfo where
  start : Int
  session : Block := []
  identity : Block := []
deriving DecidableEq

/-- `declare_state_info` -/
structure DeclareStateInfo (F : Type u) where
  offset : F
  source : Identifier := noIdentifier
  stateTag : Identifier := noIdentifier
  beginTag : Identifier := noIdentifier
  endTag : Identifier := noIdentifier
  instanceId : BitVec 64 := 0
deriving DecidableEq

/-- `active_state_info` -/
structure ActiveStateInfo (F : Type u) where
  offset : F
  source : Identifier := noIdentifier
  tag : Identifier := noIdentifier
  instanceId : BitVec 64 := 0
deriving DecidableEq

/-- The alternatives of the value of an argument. -/
inductive ArgValue (F : Type u) where
  | string (value : Block)
  | identifier (value : Identifier)
  | duration (value : F)
  | float (value : F)
  | int64 (value : BitVec 64)
  | uint64 (value : BitVec 64)
  | bool (value : Bool)
deriving DecidableEq

/-- `message_info::arg_info` -/
structure ArgInfo (F : Type u) where
  name : Identifier := noIdentifier
  tag : Identifier := noIdentifier
  value : ArgValue F := .string []
  min : Option F := none
  max : Option F := none
deriving DecidableEq

/-- `message_info` -/
structure MessageInfo (F : Type u) where
  offset : F
  format : Block := []
  severity : LogEventSeverity := .backtrace
  source : Identifier := noIdentifier
  tag : Identifier := noIdentifier
  instanceId : BitVec 64 := 0
  args : List (ArgInfo F) := []
deriving DecidableEq

/-- `interval_info`, with the duration in nanoseconds. -/
structure IntervalInfo where
  tag : Identifier := noIdentifier
  instanceId : BitVec 64 := 0
  duration : BitVec 64 := 0
deriving DecidableEq

/-- `heartbeat_info` -/
structure HeartbeatInfo (F : Type u) where
  offset : F
deriving DecidableEq

/-- `finish_info` -/
structure FinishInfo (F : Type u) where
  offset : F
  clean : Bool := false
deriving DecidableEq

/-- `description_info` -/
structure DescriptionInfo (F : Type u) where
  offset : F
  source : Identifier := noIdentifier
  displayName : Block := []
  description : Block := []
  instanceId : BitVec 64 := 0
deriving DecidableEq

/-- What a `stream_sink` consumes. -/
inductive Info (F : Type u) where
  | begin (info : BeginInfo)
  | description (info : DescriptionInfo F)
  | declareState (info : DeclareStateInfo F)
  | activeState (info : ActiveStateInfo F)
  | message (info : MessageInfo F)
  | interval (info : IntervalInfo)
  | heartbeat (info : HeartbeatInfo F)
  | finish (info : FinishInfo F)
deriving DecidableEq

end Eagine.LogServer

namespace Eagine.LogServer

open Logging ValueTree
open Serialization (Block Identifier)

universe u v

/-- What the parser takes from the standard library. -/
class Conversions (F : Type u) where
  ofInt64 : BitVec 64 → F
  ofUint64 : BitVec 64 → F
  ofDouble : BitVec 64 → F
  /-- An offset that was not set. -/
  unset : F
  /-- The timestamp of a text, in microseconds, when it has the format of one. -/
  parseTimestamp : Block → Option Int
  now : Int

/-- A number that keeps what it was converted from. -/
inductive KeptNumber where
  | unset
  | int64 (value : BitVec 64)
  | uint64 (value : BitVec 64)
  | double (bits : BitVec 64)
deriving DecidableEq

instance : Conversions KeptNumber where
  ofInt64 := .int64
  ofUint64 := .uint64
  ofDouble := .double
  unset := .unset
  parseTimestamp _ := none
  now := 0

/-- The bytes of a string. -/
def bytesOf (text : String) : Block :=
  text.toList.map fun c => UInt8.ofNat c.toNat

/-- The value of an `extractor_arg`. -/
inductive ExtractorArg (F : Type u) where
  | bool (value : Bool)
  | int64 (value : BitVec 64)
  | uint64 (value : BitVec 64)
  | float (value : F)
  | string (value : Block)

/-- The `add` functions of an extractor with an info of the type. There is no result where they
return false. -/
abbrev Adder (F : Type u) (I : Type v) :=
  StringPath → ExtractorArg F → I → Option I

variable {F : Type u} [Conversions F] {I : Type v}

/-- `attrib_extractor` adds nothing. -/
def attribExtractor : Adder F I :=
  fun _ _ _ => none

/-- The number of an argument, converted to `float`. -/
def ExtractorArg.number : ExtractorArg F → Option F
  | .int64 value => some (Conversions.ofInt64 value)
  | .uint64 value => some (Conversions.ofUint64 value)
  | .float value => some value
  | _ => none

def offsetExtractor (setOffset : F → I → I) (base : Adder F I) : Adder F I :=
  fun path arg info =>
    match arg.number with
    | some value =>
        if path.like ["_", "ts"] then some (setOffset value info) else base path arg info
    | none => base path arg info

/-- A string at a path that is like the pattern is used, everything else is left to the base. -/
def stringExtractor (pattern : StringPath) (set : Block → I → I) (base : Adder F I) :
    Adder F I :=
  fun path arg info =>
    match arg with
    | .string value => if path.like pattern then some (set value info) else base path arg info
    | _ => base path arg info

def sourceExtractor (setSource : Identifier → I → I) : Adder F I → Adder F I :=
  stringExtractor ["_", "src"] fun value => setSource (.ofChars value)

def tagExtractor (setTag : Identifier → I → I) : Adder F I → Adder F I :=
  stringExtractor ["_", "tag"] fun value => setTag (.ofChars value)

def instanceExtractor (setInstance : BitVec 64 → I → I) (base : Adder F I) : Adder F I :=
  fun path arg info =>
    match arg with
    | .uint64 value =>
        if path.like ["_", "iid"] then some (setInstance value info) else base path arg info
    | _ => base path arg info

/-- `begin_extractor` -/
def beginAdd : Adder F BeginInfo :=
  let setStart (value : Block) (info : BeginInfo) : BeginInfo :=
    match Conversions.parseTimestamp F value with
    | some ts => { info with start := ts }
    | none => info
  stringExtractor ["_", "time"] setStart <|
    stringExtractor ["_", "session"] (fun value info => { info with session := value }) <|
      stringExtractor ["_", "identity"] (fun value info => { info with identity := value })
        attribExtractor

/-- `declare_state_extractor` -/
def declareStateAdd : Adder F (DeclareStateInfo F) :=
  stringExtractor ["_", "bgn"] (fun value info => { info with beginTag := .ofChars value }) <|
    stringExtractor ["_", "end"] (fun value info => { info with endTag := .ofChars value }) <|
      instanceExtractor (fun value info => { info with instanceId := value }) <|
        sourceExtractor (fun value info => { info with source := value }) <|
          offsetExtractor (fun value info => { info with offset := value }) attribExtractor

/-- `active_state_extractor` -/
def activeStateAdd : Adder F (ActiveStateInfo F) :=
  tagExtractor (fun value info => { info with tag := value }) <|
    instanceExtractor (fun value info => { info with instanceId := value }) <|
      sourceExtractor (fun value info => { info with source := value }) <|
        offsetExtractor (fun value info => { info with offset := value }) attribExtractor

/-- `message_extractor_base` -/
def messageBaseAdd : Adder F (MessageInfo F) :=
  tagExtractor (fun value info => { info with tag := value }) <|
    instanceExtractor (fun value info => { info with instanceId := value }) <|
      sourceExtractor (fun value info => { info with source := value }) <|
        offsetExtractor (fun value info => { info with offset := value }) attribExtractor

/-- `from_string` for the severity. -/
def severityOf (text : Block) : Option LogEventSeverity :=
  [.backtrace, .trace, .debug, .stat, .info, .change, .warning, .error, .fatal].find?
    fun severity : LogEventSeverity => bytesOf severity.name == text

/-- The last argument is changed. -/
def MessageInfo.modifyArg (change : ArgInfo F → ArgInfo F) (info : MessageInfo F) :
    MessageInfo F :=
  { info with args := info.args.modifyLast change }

def argPattern : StringPath :=
  ["_", "a", "_", "*"]

/-- `_add_value`, for a value that is no string. The number is what `min` or `max` is set to. -/
def addValue (value : ArgValue F) (number : F) (arg : ExtractorArg F) (path : StringPath)
    (info : MessageInfo F) : Option (MessageInfo F) :=
  if path.like argPattern then
    if path.endsWith "v" then some (info.modifyArg fun a => { a with value := value })
    else if path.endsWith "min" then some (info.modifyArg fun a => { a with min := some number })
    else if path.endsWith "max" then some (info.modifyArg fun a => { a with max := some number })
    else messageBaseAdd path arg info
  else messageBaseAdd path arg info

/-- `message_extractor` -/
def messageAdd : Adder F (MessageInfo F) :=
  fun path arg info =>
    match arg with
    | .bool value =>
        addValue (.bool value) (Conversions.ofUint64 (if value then 1 else 0)) arg path info
    | .int64 value => addValue (.int64 value) (Conversions.ofInt64 value) arg path info
    | .uint64 value => addValue (.uint64 value) (Conversions.ofUint64 value) arg path info
    | .float value => addValue (.float value) value arg path info
    | .string value =>
        if path.like ["_", "f"] then some { info with format := value }
        else if path.like ["_", "lvl"] then
          some { info with severity := (severityOf value).getD .info }
        else if path.like argPattern then
          if path.endsWith "n" then
            some (info.modifyArg fun a => { a with name := .ofChars value })
          else if path.endsWith "t" then
            some (info.modifyArg fun a => { a with tag := .ofChars value })
          else if path.endsWith "v" then
            some (info.modifyArg fun a => { a with value := .string value })
          else none
        else messageBaseAdd path arg info

/-- `interval_extractor` -/
def intervalAdd : Adder F IntervalInfo :=
  fun path arg info =>
    let base : Adder F IntervalInfo :=
      instanceExtractor (fun value info => { info with instanceId := value }) <|
        tagExtractor (fun value info => { info with tag := value }) attribExtractor
    match arg with
    | .int64 value | .uint64 value =>
        if path.like ["_", "tns"] then some { info with duration := value }
        else base path arg info
    | _ => base path arg info

/-- `heartbeat_extractor` -/
def heartbeatAdd : Adder F (HeartbeatInfo F) :=
  offsetExtractor (fun value info => { info with offset := value }) attribExtractor

/-- `finish_extractor` -/
def finishAdd : Adder F (FinishInfo F) :=
  offsetExtractor (fun value info => { info with offset := value }) attribExtractor

/-- `value_uint64` -/
def ArgInfo.valueUint64 (arg : ArgInfo F) : Option (BitVec 64) :=
  match arg.value with
  | .uint64 value => some value
  | .int64 value => if 0 ≤ value.toInt then some value else none
  | _ => none

/-- The texts for the codes of debug output messages. One that is put behind a `break` in the
source is never used, and the text for an application is followed by that `break`. -/
def dbgOutTexts : String → List (Nat × String)
  | "DbgOutSrce" =>
      [(0x8246, "API"), (0x8247, "window system"), (0x8248, "shader compiler"),
        (0x8249, "third party"), (0x824A, "application")]
  | "DbgOutType" =>
      [(0x824C, "error"), (0x824D, "deprecated behavior"), (0x824E, "undefined  behavior"),
        (0x824F, "portability"), (0x8250, "performance"), (0x8251, "other")]
  | "DbgOutSvrt" =>
      [(0x9146, "high"), (0x9147, "medium"), (0x9148, "low"), (0x826B, "notification")]
  | _ => []

/-- `arg_value_translator::translate` -/
def translate (arg : ArgInfo F) : ArgInfo F :=
  let code := (arg.valueUint64.getD 0).toNat
  match ["DbgOutSrce", "DbgOutType", "DbgOutSvrt"].find? fun tag => arg.tag.name == bytesOf tag with
  | some tag =>
      match (dbgOutTexts tag).lookup code with
      | some text => { arg with value := .string (bytesOf text) }
      | none => arg
  | none => arg

/-- The extractors, by their entries. -/
inductive ExtractorKind where
  | begin
  | message
  | interval
  | declareState
  | activeState
  | heartbeat
  | finish
deriving DecidableEq

/-- The extractor under the name of an entry type. -/
def extractorOf : String → Option ExtractorKind
  | "begin" => some .begin
  | "m" => some .message
  | "i" => some .interval
  | "ds" => some .declareState
  | "as" => some .activeState
  | "hb" => some .heartbeat
  | "end" => some .finish
  | _ => none

/-- The names of the entry types. -/
def entryTypes : List String :=
  ["as", "begin", "ds", "end", "hb", "i", "m"]

/-- What the views of types that are not there any more read, by the lookup and the position. -/
abbrev Memory :=
  Nat → Nat → String

/-- `_extractors`. A key is the literal of an entry type, or a view of the text that was looked up
when it was added. -/
structure ExtractorMap where
  keys : List (Option String) := entryTypes.map some
  memory : Memory

/-- The map at the next lookup. -/
def ExtractorMap.later (map : ExtractorMap) : ExtractorMap :=
  { map with memory := fun lookup => map.memory (lookup + 1) }

/-- `operator[]` finds the place of a type by binary search. A type that is not found is added
without an extractor. -/
def ExtractorMap.lookup (map : ExtractorMap) (type : String) :
    Option ExtractorKind × ExtractorMap :=
  let texts := map.keys.mapIdx fun position key => key.getD (map.memory 0 position)
  let p := Theory.lowerBound (fun text => viewLess (bytesOf text) (bytesOf type)) texts
  if texts[p]? = some type then (map.keys[p]?.join.bind extractorOf, map.later)
  else (none, { map.later with keys := map.keys.insertIdx p none })

/-- `json_data_extractor`, with what its sink has consumed. -/
structure JsonDataExtractor (F : Type u) where
  beginInfo : BeginInfo
  messageInfo : MessageInfo F
  intervalInfo : IntervalInfo
  declareStateInfo : DeclareStateInfo F
  activeStateInfo : ActiveStateInfo F
  heartbeatInfo : HeartbeatInfo F
  finishInfo : FinishInfo F
  extractors : ExtractorMap
  current : Option ExtractorKind := none
  consumed : List (Info F) := []
  cleanFinish : Bool := false

namespace JsonDataExtractor

/-- The extractor before the stream. -/
def initial (memory : Memory) : JsonDataExtractor F where
  beginInfo := { start := Conversions.now F }
  messageInfo := { offset := Conversions.unset }
  intervalInfo := {}
  declareStateInfo := { offset := Conversions.unset }
  activeStateInfo := { offset := Conversions.unset }
  heartbeatInfo := { offset := Conversions.unset }
  finishInfo := { offset := Conversions.unset }
  extractors := { memory := memory }

/-- The extractor that is selected is reset. -/
def reset (extractor : JsonDataExtractor F) : JsonDataExtractor F :=
  match extractor.current with
  | some .message =>
      { extractor with
        messageInfo := { extractor.messageInfo with tag := noIdentifier, args := [] } }
  | _ => extractor

/-- The extractor for the type is selected. -/
def select (type : String) (extractor : JsonDataExtractor F) : JsonDataExtractor F :=
  let found := extractor.extractors.lookup type
  { extractor with current := found.1, extractors := found.2 }.reset

/-- The current extractor adds the value to its info, if it has a use for it. -/
def addArg (path : StringPath) (arg : ExtractorArg F) (extractor : JsonDataExtractor F) :
    JsonDataExtractor F :=
  match extractor.current with
  | some .begin =>
      { extractor with
        beginInfo := (beginAdd path arg extractor.beginInfo).getD extractor.beginInfo }
  | some .message =>
      { extractor with
        messageInfo := (messageAdd path arg extractor.messageInfo).getD extractor.messageInfo }
  | some .interval =>
      { extractor with
        intervalInfo := (intervalAdd path arg extractor.intervalInfo).getD extractor.intervalInfo }
  | some .declareState =>
      { extractor with
        declareStateInfo :=
          (declareStateAdd path arg extractor.declareStateInfo).getD extractor.declareStateInfo }
  | some .activeState =>
      { extractor with
        activeStateInfo :=
          (activeStateAdd path arg extractor.activeStateInfo).getD extractor.activeStateInfo }
  | some .heartbeat =>
      { extractor with
        heartbeatInfo :=
          (heartbeatAdd path arg extractor.heartbeatInfo).getD extractor.heartbeatInfo }
  | some .finish =>
      { extractor with
        finishInfo := (finishAdd path arg extractor.finishInfo).getD extractor.finishInfo }
  | none => extractor

/-- A string may be the type of an entry. -/
def addString (path : StringPath) (value : String) (extractor : JsonDataExtractor F) :
    JsonDataExtractor F :=
  if path.like ["_", "t"] then extractor.select value
  else extractor.addArg path (.string (bytesOf value))

/-- The first of the values is added. -/
def add (path : StringPath) (values : List Scalar) (extractor : JsonDataExtractor F) :
    JsonDataExtractor F :=
  match values with
  | .bool value :: _ => extractor.addArg path (.bool value)
  | .int64 value :: _ => extractor.addArg path (.int64 value)
  | .uint64 value :: _ => extractor.addArg path (.uint64 value)
  | .double bits :: _ => extractor.addArg path (.float (Conversions.ofDouble bits))
  | .string value :: _ => extractor.addString path value
  | _ => extractor

/-- An object in the list of arguments is a new argument of a message. -/
def addObject (path : StringPath) (extractor : JsonDataExtractor F) : JsonDataExtractor F :=
  if extractor.current = some .message ∧ path.like ["_", "a", "_"] then
    { extractor with
      messageInfo :=
        { extractor.messageInfo with args := extractor.messageInfo.args ++ [{}] } }
  else extractor

def consume (info : Info F) (extractor : JsonDataExtractor F) : JsonDataExtractor F :=
  { extractor with consumed := extractor.consumed ++ [info] }

/-- The info of an extractor is consumed by the sink. -/
def consumeBy (kind : ExtractorKind) (extractor : JsonDataExtractor F) : JsonDataExtractor F :=
  match kind with
  | .begin => extractor.consume (.begin extractor.beginInfo)
  | .message =>
      let info := { extractor.messageInfo with args := extractor.messageInfo.args.map translate }
      { extractor with messageInfo := info }.consume (.message info)
  | .interval => extractor.consume (.interval extractor.intervalInfo)
  | .declareState => extractor.consume (.declareState extractor.declareStateInfo)
  | .activeState => extractor.consume (.activeState extractor.activeStateInfo)
  | .heartbeat => extractor.consume (.heartbeat extractor.heartbeatInfo)
  | .finish =>
      let info := { extractor.finishInfo with clean := true }
      { extractor with finishInfo := info }.consume (.finish info)

def finishObject (path : StringPath) (extractor : JsonDataExtractor F) : JsonDataExtractor F :=
  match extractor.current with
  | some kind =>
      if path.like ["_"] then { extractor.consumeBy kind with cleanFinish := true } else extractor
  | none => extractor

def failed (extractor : JsonDataExtractor F) : JsonDataExtractor F :=
  extractor.consume (.finish { offset := Conversions.unset })

def finish (extractor : JsonDataExtractor F) : Bool × JsonDataExtractor F :=
  (true, if extractor.cleanFinish then extractor else extractor.failed)

instance : ObjectBuilder (JsonDataExtractor F) where
  shouldContinue _ := true
  begin extractor := extractor
  add := add
  addObject := addObject
  finishObject := finishObject
  finish := finish
  failed := failed

end JsonDataExtractor

/-- What the sink consumes of a stream, when it is read by the JSON parser. -/
def received (F : Type u) [Conversions F] (memory : Memory) (reading : Reading) :
    Option (List (Info F)) :=
  (reading.traverse (JsonDataExtractor.initial (F := F) memory)).map fun outcome =>
    outcome.2.builder.consumed

namespace ExtractorMap

/-- Nothing but the entry types was added. -/
def IsPlain (map : ExtractorMap) : Prop :=
  map.keys = entryTypes.map some

theorem isPlain_initial (memory : Memory) : IsPlain { memory := memory } :=
  rfl

variable {map : ExtractorMap} {type : String} {kind : ExtractorKind}

/-- Only the extractor of the type is found. -/
theorem lookup_eq_some (found : (map.lookup type).1 = some kind) :
    extractorOf type = some kind := by
  rw [lookup] at found
  dsimp only at found
  split_ifs at found with isType
  · rw [List.getElem?_mapIdx, Option.map_eq_some_iff] at isType
    rcases isType with ⟨key, key_eq, text_eq⟩
    rw [key_eq] at found
    cases key with
    | none => cases found
    | some text =>
        exact (show text = type from text_eq) ▸ found

/-- The entry types are found as long as no other types were added. -/
theorem IsPlain.lookup_eq (plain : map.IsPlain) (known : extractorOf type = some kind) :
    map.lookup type = (some kind, map.later) := by
  have texts : (map.keys.mapIdx fun position key => key.getD (map.memory 0 position)) =
      entryTypes := by
    rw [plain]
    rfl
  have split : ∃ front back, entryTypes = front ++ type :: back ∧
      (∀ text ∈ front, viewLess (bytesOf text) (bytesOf type) = true) ∧
      ∀ text ∈ type :: back, viewLess (bytesOf text) (bytesOf type) = false := by
    unfold extractorOf at known
    split at known
    · exact ⟨["as"], ["ds", "end", "hb", "i", "m"], rfl, by decide, by decide⟩
    · exact ⟨["as", "begin", "ds", "end", "hb", "i"], [], rfl, by decide, by decide⟩
    · exact ⟨["as", "begin", "ds", "end", "hb"], ["m"], rfl, by decide, by decide⟩
    · exact ⟨["as", "begin"], ["end", "hb", "i", "m"], rfl, by decide, by decide⟩
    · exact ⟨[], ["begin", "ds", "end", "hb", "i", "m"], rfl, by decide, by decide⟩
    · exact ⟨["as", "begin", "ds", "end"], ["i", "m"], rfl, by decide, by decide⟩
    · exact ⟨["as", "begin", "ds"], ["hb", "i", "m"], rfl, by decide, by decide⟩
    · cases known
  rcases split with ⟨front, back, types_eq, before, behind⟩
  rw [lookup, texts, types_eq, Theory.lowerBound_append before behind]
  dsimp only
  rw [if_pos (by simp), plain, types_eq]
  simp [known]

end ExtractorMap

/-- The extractor behind the type of an entry that was found. -/
def JsonDataExtractor.typed (kind : ExtractorKind) (map : ExtractorMap)
    (extractor : JsonDataExtractor F) : JsonDataExtractor F :=
  { extractor with current := some kind, extractors := map }.reset

end Eagine.LogServer
