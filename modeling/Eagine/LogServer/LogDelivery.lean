import Eagine.LogServer.MessageBuilding
import Eagine.Logging.JsonLogStream

/-!
# What is received of a log

The infos that the sink gets when the output of the JSON backend is read by a reader that makes
the standard callbacks: one of the beginning, those of the items in turn, and one of the end. A
description is of no known type, which leaves its mark on the map of the extractors.
-/

namespace Eagine.LogServer

open Logging ValueTree Theory Theory.Json
open Logging.JsonLogBackend
open Serialization (Block Identifier)

universe u

/-- The tags under which values are translated to texts. -/
def dbgOutTags : List String :=
  ["DbgOutSrce", "DbgOutType", "DbgOutSvrt"]

def IsDbgOut (tag : Identifier) : Prop :=
  ∃ name ∈ dbgOutTags, tag.name = bytesOf name

section

variable {F : Type u}

/-- The name, the tag and, unless it may be translated, the value of an argument are as they were
logged. -/
structure ArgArrives (arg tag : Identifier) (IsValue : ArgValue F → Prop) (info : ArgInfo F) :
    Prop where
  name_eq : info.name = arg
  tag_eq : info.tag = tag
  value_is : ¬IsDbgOut tag → IsValue info.value

/-- The integer of a value that is one. -/
def ArgValue.integer : ArgValue F → Option Int
  | .int64 value => some value.toInt
  | .uint64 value => some value.toNat
  | _ => none

/-- What is to arrive of an argument. -/
def CallArrives : BackendCall FloatValue → ArgInfo F → Prop
  | .addIdentifier arg tag value => ArgArrives arg tag fun v => v = .string value.name
  | .addString arg tag value => ArgArrives arg tag fun v => v = .string value
  | .addBool arg tag value => ArgArrives arg tag fun v => v = .bool value
  | .addInteger arg tag value => ArgArrives arg tag fun v => v.integer = some value.toInt
  | .addUnsigned arg tag value => ArgArrives arg tag fun v => v.integer = some (value.toNat : Int)
  | .addNothing arg tag | .addMessageId arg tag _ | .addFloat arg tag _
  | .addFloatRange arg tag _ _ _ | .addDuration arg tag _ | .addBlob arg tag _ =>
      ArgArrives arg tag fun _ => True
  | _ => fun _ => True

/-- What is to arrive of a message. -/
structure MessageArrives (message : Message) (info : MessageInfo F) : Prop where
  source_eq : info.source = message.source
  tag_eq : info.tag = message.tag
  instance_eq : info.instanceId = message.instanceId.toBitVec
  severity_eq : info.severity = message.severity
  format_eq : info.format = message.format
  args : List.Forall₂ (fun arg info => CallArrives arg.1 info) message.args info.args

/-- The type of the entry of an item is known, if it has one. -/
def IsKnown : LogItem → Prop
  | .setDescription _ _ _ _ => False
  | _ => True

/-- The infos that an item brings. -/
def Brings : LogItem → List (Info F) → Prop
  | .message message, infos => ∃ info, infos = [.message info] ∧ MessageArrives message info
  | .declareState source _ beginTag endTag, infos =>
      ∃ info, infos = [.declareState info] ∧ info.source = source ∧
        info.stateTag = noIdentifier ∧ info.beginTag = beginTag ∧ info.endTag = endTag
  | .activeState source stateTag, infos =>
      ∃ info, infos = [.activeState info] ∧ info.source = source ∧ info.tag = stateTag
  | .heartbeat, infos => ∃ info, infos = [.heartbeat info]
  | .timeIntervalEnd _, infos => infos = [] ∨ ∃ info, infos = [.interval info]
  | _, infos => infos = []

end

section

variable {F : Type u}

theorem translate_name (info : ArgInfo F) : (translate info).name = info.name := by
  unfold translate
  dsimp only
  split
  · split <;> rfl
  · rfl

theorem translate_tag (info : ArgInfo F) : (translate info).tag = info.tag := by
  unfold translate
  dsimp only
  split
  · split <;> rfl
  · rfl

/-- Under other tags nothing is translated. -/
theorem translate_eq {info : ArgInfo F} (other : ¬IsDbgOut info.tag) : translate info = info := by
  have noTag : dbgOutTags.find? (fun tag => info.tag.name == bytesOf tag) = none := by
    rw [List.find?_eq_none]
    intro name within same
    exact other ⟨name, within, beq_iff_eq.mp same⟩
  rw [dbgOutTags] at noTag
  simp only [translate, noTag]

theorem ArgArrives.translated {arg tag : Identifier} {IsValue : ArgValue F → Prop}
    {info : ArgInfo F} (arrives : ArgArrives arg tag IsValue info) :
    ArgArrives arg tag IsValue (translate info) where
  name_eq := (translate_name info).trans arrives.name_eq
  tag_eq := (translate_tag info).trans arrives.tag_eq
  value_is := by
    intro other
    rw [translate_eq (arrives.tag_eq ▸ other)]
    exact arrives.value_is other

variable [Conversions F] (toDouble : List Char → BitVec 64)

theorem integer_scalarValue {scalar : Scalar} {value : Int}
    (integer : integerOf scalar = some value) :
    (scalarValue scalar : ArgValue F).integer = some value := by
  cases scalar with
  | int64 | uint64 => exact integer
  | _ => cases integer

/-- What the extractor makes of an argument is what is to arrive. -/
theorem arrives_argInfo {call : BackendCall FloatValue} (isArgument : call.isArgument = true) :
    CallArrives call (translate (argInfo (F := F) toDouble call)) := by
  have arrives {arg tag : Identifier} {IsValue : ArgValue F → Prop} {info : ArgInfo F}
      (name_eq : info.name = arg) (tag_eq : info.tag = tag) (value_is : IsValue info.value) :
      ArgArrives arg tag IsValue (translate info) :=
    ArgArrives.translated ⟨name_eq, tag_eq, fun _ => value_is⟩
  cases call with
  | addIdentifier | addString | addBool => exact arrives rfl rfl rfl
  | addInteger arg tag value =>
      exact arrives rfl rfl
        (integer_scalarValue (integerOf_signed toDouble value.le_toInt value.toInt_lt))
  | addUnsigned arg tag value =>
      refine arrives rfl rfl (integer_scalarValue ?_)
      rcases integerOf_unsigned toDouble value.toNat_lt with ⟨bits, scalarEq, bitsEq⟩
      rw [scalarEq, integerOf, bitsEq]
  | addNothing | addMessageId | addFloat | addFloatRange | addDuration | addBlob =>
      exact arrives rfl rfl trivial
  | _ => exact absurd isArgument Bool.false_ne_true

theorem arrives_message (sec : FiniteFloat) (message : Message) :
    MessageArrives message
      { messageInfoOf (F := F) toDouble sec message with
        args := (messageInfoOf toDouble sec message).args.map translate } where
  source_eq := rfl
  tag_eq := rfl
  instance_eq := rfl
  severity_eq := rfl
  format_eq := rfl
  args := by
    rw [messageInfoOf, List.map_map, List.forall₂_map_right_iff, List.forall₂_same]
    intro arg _
    exact arrives_argInfo toDouble arg.2

/-- The infos are consumed, and no type is added. -/
structure Consumes (infos : List (Info F)) (before after : JsonDataExtractor F) : Prop where
  consumed_eq : after.consumed = before.consumed ++ infos
  stateTag_eq : after.declareStateInfo.stateTag = before.declareStateInfo.stateTag
  plain : after.extractors.IsPlain

variable {extractor : JsonDataExtractor F}

omit [Conversions F] in
theorem consumes_nil (plain : extractor.extractors.IsPlain) :
    Consumes [] extractor extractor :=
  ⟨(List.append_nil _).symm, rfl, plain⟩

omit [Conversions F] in
theorem Consumes.trans {first second : List (Info F)} {before middle after : JsonDataExtractor F}
    (one : Consumes first before middle) (two : Consumes second middle after) :
    Consumes (first ++ second) before after where
  consumed_eq := by rw [two.consumed_eq, one.consumed_eq, List.append_assoc]
  stateTag_eq := two.stateTag_eq.trans one.stateTag_eq
  plain := two.plain

omit [Conversions F] in
theorem Delivers.consumes {info : Info F} {before after : JsonDataExtractor F}
    (delivers : Delivers info before after) : Consumes [info] before after :=
  ⟨delivers.consumed_eq, delivers.stateTag_eq, delivers.plain⟩

/-- The extractor behind the entries. -/
def extracted (entries : List (List Member)) (extractor : JsonDataExtractor F) :
    JsonDataExtractor F :=
  entries.foldl (fun extractor entry => (objectDocument toDouble entry).build ["_"] extractor)
    extractor

theorem extracted_append (first second : List (List Member)) (extractor : JsonDataExtractor F) :
    extracted toDouble (first ++ second) extractor =
      extracted toDouble second (extracted toDouble first extractor) :=
  List.foldl_append

/-- One item. -/
theorem consumes_item (clock : Clock) (intervals : Intervals) {item : LogItem}
    (known : IsKnown item) (plain : extractor.extractors.IsPlain)
    (noStateTag : extractor.declareStateInfo.stateTag = noIdentifier) :
    ∃ infos, Brings item infos ∧
      Consumes infos extractor
        (extracted toDouble (item.entry clock intervals).toList extractor) := by
  cases item with
  | message message =>
      exact ⟨_, ⟨_, rfl, arrives_message toDouble clock.sec message⟩,
        (deliver_message toDouble clock.sec message plain).consumes⟩
  | setDescription => exact known.elim
  | declareState source stateTag beginTag endTag =>
      refine ⟨_, ⟨_, rfl, ?_⟩, (deliver_declareState toDouble plain clock.sec source stateTag
        beginTag endTag).consumes⟩
      exact ⟨rfl, noStateTag, rfl, rfl⟩
  | activeState source stateTag =>
      refine ⟨_, ⟨_, rfl, ?_⟩,
        (deliver_activeState toDouble plain clock.sec source stateTag).consumes⟩
      exact ⟨rfl, rfl⟩
  | heartbeat =>
      exact ⟨_, ⟨_, rfl⟩, (deliver_heartbeat toDouble plain clock.sec).consumes⟩
  | timeIntervalEnd id =>
      rw [LogItem.entry]
      cases intervals.report clock.now id with
      | none => exact ⟨[], .inl rfl, consumes_nil plain⟩
      | some reported =>
          rcases deliver_interval toDouble plain reported.1 reported.2 with ⟨info, delivers⟩
          exact ⟨[.interval info], .inr ⟨info, rfl⟩, delivers.consumes⟩
  | logChartSample | registerTimeInterval | timeIntervalBegin =>
      exact ⟨[], rfl, consumes_nil plain⟩

variable {items : List (Clock × LogItem)}

/-- The items bring their infos one after another. -/
theorem consumes_items (known : ∀ item ∈ items, IsKnown item.2)
    (intervals : Intervals) (plain : extractor.extractors.IsPlain)
    (noStateTag : extractor.declareStateInfo.stateTag = noIdentifier) :
    ∃ infos, List.Forall₂ (fun item infos => Brings item.2 infos) items infos ∧
      Consumes infos.flatten extractor
        (extracted toDouble (JsonLog.itemEntries intervals items) extractor) := by
  induction items generalizing intervals extractor with
  | nil => exact ⟨[], .nil, consumes_nil plain⟩
  | cons head items ih =>
      rcases head with ⟨clock, item⟩
      rcases List.forall_mem_cons.mp known with ⟨knownHead, knownOthers⟩
      rcases consumes_item toDouble clock intervals knownHead plain noStateTag with
        ⟨first, brings, one⟩
      rcases ih knownOthers (item.intervalsAfter clock intervals) one.plain
        (one.stateTag_eq.trans noStateTag) with ⟨infos, bringOthers, others⟩
      refine ⟨first :: infos, .cons brings bringOthers, ?_⟩
      rw [JsonLog.itemEntries, extracted_append, List.flatten_cons]
      exact one.trans others

/-- The items of a stream come behind an info of its beginning. -/
theorem consumes_stream (memory : Memory) (session identity : Block) (start : Clock)
    (known : ∀ item ∈ items, IsKnown item.2) :
    ∃ begin infos, List.Forall₂ (fun item infos => Brings item.2 infos) items infos ∧
      Consumes (.begin begin :: infos.flatten) (.initial memory)
        (extracted toDouble (streamedEntries session identity start items)
          (JsonDataExtractor.initial (F := F) memory)) := by
  have plain : (JsonDataExtractor.initial (F := F) memory).extractors.IsPlain := rfl
  rcases deliver_begin toDouble plain start.start session identity with ⟨begin, delivers⟩
  rcases consumes_items toDouble known [] delivers.plain (delivers.stateTag_eq.trans rfl) with
    ⟨infos, brings, consumes⟩
  exact ⟨begin, infos, brings, delivers.consumes.trans consumes⟩

/-- The name of a member can be on a path, and no array in its value has numbers. -/
structure Simple (member : Member) : Prop where
  isElement : StringPath.IsElement (String.ofList member.name)
  wellNamed : (documentOf toDouble member.json).wellNamed = true
  direct : (documentOf toDouble member.json).direct = true

variable {toDouble} in
/-- A value of a named member that is neither a list nor an object. -/
theorem Simple.of_scalar {name : String} (isElement : StringPath.IsElement name) {json : Json}
    {document : Document} (scalar : documentOf toDouble json = document)
    (wellNamed : document.wellNamed = true) (direct : document.direct = true) (text : List Char) :
    Simple toDouble ⟨name.toList, json, text⟩ where
  isElement := by
    rw [String.ofList_toList]
    exact isElement
  wellNamed := by
    rw [scalar]
    exact wellNamed
  direct := by
    rw [scalar]
    exact direct

theorem simple_ofText {name : String} (isElement : StringPath.IsElement name) (text : List Char) :
    Simple toDouble (Member.ofText name.toList text) :=
  .of_scalar isElement (by rw [documentOf]) rfl rfl _

theorem simple_ofNumber {name : String} (isElement : StringPath.IsElement name)
    (literal : List Char) : Simple toDouble (Member.ofNumber name.toList literal) :=
  .of_scalar isElement (by rw [documentOf]) rfl rfl _

theorem simple_ofBool {name : String} (isElement : StringPath.IsElement name) (value : Bool) :
    Simple toDouble (Member.ofBool name.toList value) :=
  .of_scalar isElement (by rw [documentOf]) rfl rfl _

variable {toDouble}

theorem simple_members {members : List Member} (all : ∀ m ∈ members, Simple toDouble m) :
    (memberDocuments toDouble members).wellNamed = true ∧
      (memberDocuments toDouble members).direct = true := by
  induction members with
  | nil => exact ⟨rfl, rfl⟩
  | cons member members ih =>
      rcases List.forall_mem_cons.mp all with ⟨simple, others⟩
      rcases ih others with ⟨wellNamed, direct⟩
      constructor
      · change (decide (StringPath.IsElement (String.ofList member.name)) &&
          ((documentOf toDouble member.json).wellNamed &&
            (memberDocuments toDouble members).wellNamed)) = true
        rw [decide_eq_true simple.isElement, simple.wellNamed, wellNamed]
        rfl
      · change ((documentOf toDouble member.json).direct &&
          (memberDocuments toDouble members).direct) = true
        rw [simple.direct, direct]
        rfl

/-- A list of objects. -/
theorem simple_objects {entries : List (List Member)}
    (all : ∀ entry ∈ entries, ∀ m ∈ entry, Simple toDouble m) :
    (elementsOfJson toDouble (entries.map objectJson)).wellNamed = true ∧
      (elementsOfJson toDouble (entries.map objectJson)).direct = true := by
  induction entries with
  | nil =>
      rw [List.map_nil, elementsOfJson]
      exact ⟨rfl, rfl⟩
  | cons entry entries ih =>
      rcases List.forall_mem_cons.mp all with ⟨simple, others⟩
      rcases ih others with ⟨wellNamed, direct⟩
      rcases simple_members simple with ⟨wellNamedEntry, directEntry⟩
      rw [List.map_cons, elementsOfJson, documentOf_objectJson]
      constructor
      · change ((memberDocuments toDouble entry).wellNamed &&
          (elementsOfJson toDouble (entries.map objectJson)).wellNamed) = true
        rw [wellNamedEntry, wellNamed]
        rfl
      · change (true && ((memberDocuments toDouble entry).direct &&
          (elementsOfJson toDouble (entries.map objectJson)).direct)) = true
        rw [directEntry, direct]
        rfl

end

end Eagine.LogServer
