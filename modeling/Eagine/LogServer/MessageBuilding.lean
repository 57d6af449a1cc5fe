import Eagine.LogServer.EntryBuilding

/-!
# Building infos from messages

The arguments of a message are the objects in a list. Each of them starts a new argument of the
info, and its members are added to the last one.
-/

namespace Eagine.LogServer

open Logging ValueTree Theory Theory.Json Serialization.Identifier
open Serialization (Block Identifier)
open String (ofList ofList_toList)
open JsonDataExtractor (addArg addObject addString finishObject)

universe u

variable {F : Type u} [Conversions F] (toDouble : List Char → BitVec 64)

/-- The extractor with another info of a message. -/
def withMessage (info : MessageInfo F) (extractor : JsonDataExtractor F) : JsonDataExtractor F :=
  { extractor with current := some .message, messageInfo := info }

theorem severityOf_name (severity : LogEventSeverity) :
    severityOf (bytesOf severity.name) = some severity := by
  cases severity <;> decide

/-- The arguments as the extractor gets them. -/
def argInfo : BackendCall FloatValue → ArgInfo F
  | .addNothing arg tag => { name := arg, tag := tag }
  | .addIdentifier arg tag value => { name := arg, tag := tag, value := .string value.name }
  | .addMessageId arg tag value =>
      { name := arg
        tag := tag
        value := .string (bytesOf (ofList (nameText value.1 ++ '.' :: nameText value.2))) }
  | .addBool arg tag value => { name := arg, tag := tag, value := .bool value }
  | .addInteger arg tag value =>
      { name := arg
        tag := tag
        value := scalarValue (numberOf toDouble (signedText value.toInt)).scalar }
  | .addUnsigned arg tag value =>
      { name := arg
        tag := tag
        value := scalarValue (numberOf toDouble (unsignedText value.toNat)).scalar }
  | .addFloat arg tag value =>
      { name := arg, tag := tag, value := scalarValue (numberOf toDouble value.text).scalar }
  | .addFloatRange arg tag min value max =>
      { name := arg
        tag := tag
        value := scalarValue (numberOf toDouble value.text).scalar
        min := some (literalNumber toDouble min.text)
        max := some (literalNumber toDouble max.text) }
  | .addDuration arg tag value =>
      { name := arg, tag := tag, value := scalarValue (numberOf toDouble value.text).scalar }
  | .addString arg tag value => { name := arg, tag := tag, value := .string value }
  | .addBlob arg tag value =>
      { name := arg, tag := tag, value := .string (bytesOf (ofList (base64dump value))) }
  | _ => {}

/-- The path of the arguments of a message. -/
def argsPath : StringPath :=
  ["_", "a", "_"]

variable {change : ArgInfo F → ArgInfo F}

/-- The last argument is changed by the value of a member. -/
theorem addArg_arg {name : String} {value : ExtractorArg F} (added : ∀ info : MessageInfo F,
      messageAdd (argsPath ++ [name]) value info = some (info.modifyArg change))
    (info : MessageInfo F) (args : List (ArgInfo F)) (arg : ArgInfo F)
    (extractor : JsonDataExtractor F) :
    (withMessage { info with args := args ++ [arg] } extractor).addArg (argsPath ++ [name]) value =
      withMessage { info with args := args ++ [change arg] } extractor := by
  simp only [addArg, withMessage, added, Option.getD_some, MessageInfo.modifyArg,
    List.modifyLast_concat]

theorem addString_arg {name : String} {text : String} (added : ∀ info : MessageInfo F,
      messageAdd (argsPath ++ [name]) (.string (bytesOf text)) info = some (info.modifyArg change))
    (info : MessageInfo F) (args : List (ArgInfo F)) (arg : ArgInfo F)
    (extractor : JsonDataExtractor F) :
    (withMessage { info with args := args ++ [arg] } extractor).addString (argsPath ++ [name])
        text =
      withMessage { info with args := args ++ [change arg] } extractor := by
  rw [addString, if_neg]
  · exact addArg_arg added info args arg extractor
  · rw [StringPath.not_like_of_length (by simp [argsPath])]
    exact Bool.false_ne_true

section

variable (info : MessageInfo F) (args : List (ArgInfo F)) (arg : ArgInfo F)
  (extractor : JsonDataExtractor F) (number : Number)

theorem add_value :
    (withMessage { info with args := args ++ [arg] } extractor).add (argsPath ++ ["v"])
        [number.scalar] =
      withMessage { info with args := args ++ [{ arg with value := scalarValue number.scalar }] }
        extractor := by
  have changed {value : ExtractorArg F} {number : ArgValue F}
      (added : ∀ info : MessageInfo F, messageAdd (argsPath ++ ["v"]) value info =
        some (info.modifyArg fun a => { a with value := number })) :=
    addArg_arg added info args arg extractor
  cases number <;> exact changed fun _ => rfl

theorem add_min :
    (withMessage { info with args := args ++ [arg] } extractor).add (argsPath ++ ["min"])
        [number.scalar] =
      withMessage
        { info with args := args ++ [{ arg with min := some (scalarNumber number.scalar) }] }
        extractor := by
  have changed {value : ExtractorArg F} {number : F}
      (added : ∀ info : MessageInfo F, messageAdd (argsPath ++ ["min"]) value info =
        some (info.modifyArg fun a => { a with min := some number })) :=
    addArg_arg added info args arg extractor
  cases number <;> exact changed fun _ => rfl

theorem add_max :
    (withMessage { info with args := args ++ [arg] } extractor).add (argsPath ++ ["max"])
        [number.scalar] =
      withMessage
        { info with args := args ++ [{ arg with max := some (scalarNumber number.scalar) }] }
        extractor := by
  have changed {value : ExtractorArg F} {number : F}
      (added : ∀ info : MessageInfo F, messageAdd (argsPath ++ ["max"]) value info =
        some (info.modifyArg fun a => { a with max := some number })) :=
    addArg_arg added info args arg extractor
  cases number <;> exact changed fun _ => rfl

/-- A string value. -/
theorem add_text (text : List Char) :
    (withMessage { info with args := args ++ [arg] } extractor).addString (argsPath ++ ["v"])
        (ofList text) =
      withMessage
        { info with args := args ++ [{ arg with value := .string (bytesOf (ofList text)) }] }
        extractor := by
  have added : ∀ info : MessageInfo F,
      messageAdd (argsPath ++ ["v"]) (.string (bytesOf (ofList text))) info =
        some (info.modifyArg fun a => { a with value := .string (bytesOf (ofList text)) }) :=
    fun _ => rfl
  exact addString_arg added info args arg extractor

end

/-- The name and the tag of an argument, before its value. -/
theorem build_named (name tag : Identifier) (value : List Member) (info : MessageInfo F)
    (args : List (ArgInfo F)) (extractor : JsonDataExtractor F) :
    (objectDocument toDouble (namedMembers name tag value)).build argsPath
        (withMessage { info with args := args } extractor) =
      (memberDocuments toDouble value).build argsPath
        (withMessage { info with args := args ++ [{ name := name, tag := tag }] } extractor) := by
  have began : (withMessage { info with args := args } extractor).addObject argsPath =
      withMessage { info with args := args ++ [{}] } extractor := by
    rw [addObject, if_pos ⟨rfl, by decide⟩]
    rfl
  have finished (after : JsonDataExtractor F) : after.finishObject argsPath = after := by
    rw [finishObject]
    split <;> rfl
  have nameEq : .ofChars (bytesOf (ofList (nameText name))) = name := by
    rw [nameText, bytesOf_chars, ofChars_name]
  have tagEq : .ofChars (bytesOf (ofList (nameText tag))) = tag := by
    rw [nameText, bytesOf_chars, ofChars_name]
  have named : ∀ info : MessageInfo F,
      messageAdd (argsPath ++ ["n"]) (.string (bytesOf (ofList (nameText name)))) info =
        some (info.modifyArg fun a => { a with name := name }) := by
    intro info
    conv_rhs => rw [← nameEq]
    rfl
  have tagged : ∀ info : MessageInfo F,
      messageAdd (argsPath ++ ["t"]) (.string (bytesOf (ofList (nameText tag)))) info =
        some (info.modifyArg fun a => { a with tag := tag }) := by
    intro info
    conv_rhs => rw [← tagEq]
    rfl
  rw [build_object, namedMembers, began, build_ofText, build_ofText, addString_arg named,
    addString_arg tagged, finished]

/-- The value of an argument follows its name and its tag. -/
theorem build_argument {call : BackendCall FloatValue} (isArgument : call.isArgument = true)
    (info : MessageInfo F) (args : List (ArgInfo F)) (extractor : JsonDataExtractor F) :
    (objectDocument toDouble (argumentMembers call)).build argsPath
        (withMessage { info with args := args } extractor) =
      withMessage { info with args := args ++ [argInfo toDouble call] } extractor := by
  cases call with
  | addNothing arg tag => rw [argumentMembers, build_named, build_nil, argInfo]
  | addIdentifier arg tag value =>
      rw [argumentMembers, build_named, build_ofText, build_nil, add_text, nameText, bytesOf_chars,
        argInfo]
  | addMessageId arg tag value =>
      rw [argumentMembers, build_named, build_ofText, build_nil, add_text, argInfo]
  | addBool arg tag value =>
      have added : ∀ info : MessageInfo F, messageAdd (argsPath ++ ["v"]) (.bool value) info =
          some (info.modifyArg fun a => { a with value := .bool value }) := fun _ => rfl
      rw [argumentMembers, build_named, build_ofBool, build_nil, addArg_arg added, argInfo]
  | addInteger arg tag value =>
      rw [argumentMembers, build_named, build_ofNumber, build_nil, add_value, argInfo]
  | addUnsigned arg tag value =>
      rw [argumentMembers, build_named, build_ofNumber, build_nil, add_value, argInfo]
  | addFloat arg tag value =>
      rw [argumentMembers, build_named, build_ofNumber, build_nil, add_value, argInfo]
  | addFloatRange arg tag min value max =>
      rw [argumentMembers, build_named, build_ofNumber, build_ofNumber, build_ofNumber, build_nil,
        add_value, add_min, add_max, argInfo]
      rfl
  | addDuration arg tag value =>
      have unused (extractor : JsonDataExtractor F) (info : MessageInfo F) :
          (withMessage info extractor).addString (argsPath ++ ["u"]) (ofList "s".toList) =
            withMessage info extractor := rfl
      rw [argumentMembers, build_named, build_ofText, build_ofNumber, build_nil, unused, add_value,
        argInfo]
  | addString arg tag value =>
      rw [argumentMembers, build_named, build_ofText, build_nil, add_text, bytesOf_chars, argInfo]
  | addBlob arg tag value =>
      rw [argumentMembers, build_named, build_ofText, build_nil, add_text, argInfo]
  | _ => exact absurd isArgument Bool.false_ne_true

/-- The list of arguments. -/
theorem build_arguments (args : List { call : BackendCall FloatValue // call.isArgument = true })
    (info : MessageInfo F) (before : List (ArgInfo F)) (extractor : JsonDataExtractor F) :
    (elementsOfJson toDouble (args.map fun arg => objectJson (argumentMembers arg.1))).build
        argsPath (withMessage { info with args := before } extractor) =
      withMessage { info with args := before ++ args.map fun arg => argInfo toDouble arg.1 }
        extractor := by
  induction args generalizing before with
  | nil =>
      have same : before ++ [] = before := List.append_nil before
      rw [List.map_nil, List.map_nil, same]
      rfl
  | cons arg args ih =>
      rw [List.map_cons, elementsOfJson, documentOf_objectJson]
      change (elementsOfJson toDouble _).build argsPath
        ((objectDocument toDouble (argumentMembers arg.1)).build argsPath _) = _
      rw [build_argument toDouble arg.2, ih, List.append_assoc]
      rfl

theorem documentOf_argsMember (message : Message) :
    documentOf toDouble message.argsMember.json = .array (.cons .null (elementsOfJson toDouble
      (message.args.map fun arg => objectJson (argumentMembers arg.1)))) := by
  have elements : message.elements.map Prod.fst =
      .null :: message.args.map fun arg => objectJson (argumentMembers arg.1) := by
    rw [Message.elements, List.map_cons, List.map_map]
    rfl
  rw [Message.argsMember, elements, documentOf, elementsOfJson, documentOf]

theorem build_argsMember (message : Message) (info : MessageInfo F)
    (extractor : JsonDataExtractor F) :
    (memberDocuments toDouble [message.argsMember]).build ["_"]
        (withMessage { info with args := [] } extractor) =
      withMessage { info with args := message.args.map fun arg => argInfo toDouble arg.1 }
        extractor := by
  have name : ofList message.argsMember.name = "a" := ofList_toList
  rw [build_cons, build_nil, documentOf_argsMember, name]
  exact build_arguments toDouble message.args info [] extractor

theorem noIdentifier_eq {id : Identifier} (noName : id.name = []) : noIdentifier = id := by
  rw [noIdentifier, ← noName, ofChars_name]

/-- The info of a message. -/
def messageInfoOf (sec : FiniteFloat) (message : Message) : MessageInfo F where
  offset := literalNumber toDouble sec.1.text
  format := message.format
  severity := message.severity
  source := message.source
  tag := message.tag
  instanceId := message.instanceId.toBitVec
  args := message.args.map fun arg => argInfo toDouble arg.1

section

variable (info : MessageInfo F) (extractor : JsonDataExtractor F)

theorem add_level (severity : LogEventSeverity) :
    (withMessage info extractor).addString ["_", "lvl"] (ofList severity.name.toList) =
      withMessage { info with severity := severity } extractor := by
  have added : messageAdd ["_", "lvl"] (.string (bytesOf severity.name)) info =
      some { info with severity := (severityOf (bytesOf severity.name)).getD .info } := rfl
  change (withMessage info extractor).addArg ["_", "lvl"] _ = _
  rw [ofList_toList]
  simp only [addArg, withMessage, added, severityOf_name, Option.getD_some]

theorem add_source (source : Identifier) :
    (withMessage info extractor).addString ["_", "src"] (ofList (nameText source)) =
      withMessage { info with source := source } extractor := by
  have added : messageAdd ["_", "src"] (.string source.name) info =
      some { info with source := .ofChars source.name } := rfl
  change (withMessage info extractor).addArg ["_", "src"] _ = _
  rw [nameText, bytesOf_chars]
  simp only [addArg, withMessage, added, ofChars_name,
    Option.getD_some]

theorem add_tag (tag : Identifier) :
    (withMessage info extractor).addString ["_", "tag"] (ofList (nameText tag)) =
      withMessage { info with tag := tag } extractor := by
  have added : messageAdd ["_", "tag"] (.string tag.name) info =
      some { info with tag := .ofChars tag.name } := rfl
  change (withMessage info extractor).addArg ["_", "tag"] _ = _
  rw [nameText, bytesOf_chars]
  simp only [addArg, withMessage, added, ofChars_name,
    Option.getD_some]

theorem add_instance (instanceId : LoggerInstanceId) :
    (withMessage info extractor).add ["_", "iid"]
        [(numberOf toDouble (unsignedText instanceId.toNat)).scalar] =
      withMessage { info with instanceId := instanceId.toBitVec } extractor := by
  rcases integerOf_unsigned toDouble instanceId.toNat_lt with ⟨bits, scalarEq, bitsEq⟩
  have same : bits = instanceId.toBitVec := BitVec.eq_of_toNat_eq bitsEq
  rw [scalarEq, same]
  rfl

theorem add_offset (number : Number) :
    (withMessage info extractor).add ["_", "ts"] [number.scalar] =
      withMessage { info with offset := scalarNumber number.scalar } extractor := by
  cases number <;> rfl

theorem add_format (format : Block) :
    (withMessage info extractor).addString ["_", "f"] (ofList (chars format)) =
      withMessage { info with format := format } extractor := by
  change (withMessage info extractor).addArg ["_", "f"] _ = _
  rw [bytesOf_chars]
  rfl

end

/-- The tag of a message is written when there is one. Each message starts without one. -/
theorem build_tag (tag : Identifier) (members : List Member) {info : MessageInfo F}
    (noTag : info.tag = noIdentifier) (extractor : JsonDataExtractor F) :
    (memberDocuments toDouble
        ((if tag.name = [] then [] else [Member.ofText "tag".toList (nameText tag)]) ++
          members)).build ["_"] (withMessage info extractor) =
      (memberDocuments toDouble members).build ["_"]
        (withMessage { info with tag := tag } extractor) := by
  by_cases noName : tag.name = []
  · rw [if_pos noName, List.nil_append, ← noIdentifier_eq noName, ← noTag]
  · rw [if_neg noName, List.singleton_append, build_ofText]
    exact congrArg _ (add_tag info extractor tag)

/-- The values of arguments are translated when the message is consumed. -/
theorem deliver_message (sec : FiniteFloat) (message : Message)
    {extractor : JsonDataExtractor F} (plain : extractor.extractors.IsPlain) :
    Delivers (.message
        { messageInfoOf toDouble sec message with
          args := (messageInfoOf toDouble sec message).args.map translate }) extractor
      ((objectDocument toDouble (message.members sec)).build ["_"] extractor) := by
  let opened : JsonDataExtractor F :=
    { extractor with extractors := extractor.extractors.later }
  have began : extractor.typed .message extractor.extractors.later =
      withMessage { extractor.messageInfo with tag := noIdentifier, args := [] } opened := rfl
  have level (info : MessageInfo F) := add_level info opened message.severity
  have source (info : MessageInfo F) := add_source info opened message.source
  have built : (memberDocuments toDouble (message.members sec)).build ["_"] extractor =
      withMessage (messageInfoOf toDouble sec message) opened := by
    rw [Message.members, List.cons_append, build_ofText, ofList_toList,
      addString_type extractor plain (rfl : extractorOf "m" = some .message), began,
      List.cons_append, build_ofText, List.cons_append, build_ofText, List.nil_append]
    change (memberDocuments toDouble _).build ["_"]
      (((withMessage _ opened).addString ["_", "lvl"] _).addString ["_", "src"] _) = _
    rw [level, source, build_tag toDouble message.tag _ rfl, build_ofNumber, build_ofNumber,
      build_ofText]
    change (memberDocuments toDouble _).build ["_"]
      ((((withMessage _ opened).add ["_", "iid"] _).add ["_", "ts"] _).addString ["_", "f"] _) =
        _
    rw [add_instance, add_offset, add_format]
    exact build_argsMember toDouble message (messageInfoOf toDouble sec message) opened
  rw [build_object, addObject_entry, built]
  exact ⟨rfl, rfl, rfl, plain⟩

end Eagine.LogServer
