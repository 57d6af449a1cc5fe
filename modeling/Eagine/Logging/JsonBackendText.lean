import Eagine.Logging.JsonBackend

/-!
# The text of a JSON log

Each entry is written as an object, behind the separator unless it is the first one. When no text
of the log needs to be escaped, the whole text is an array of these objects.
-/

open List

namespace Eagine.Logging

open Serialization Theory Theory.Json
open Member (ofNumber ofText)

/-- No byte is a quote, a backslash or a control character. -/
def IsPlainText (text : Block) : Prop :=
  ∀ c ∈ chars text, isPlain c = true

instance (text : Block) : Decidable (IsPlainText text) :=
  inferInstanceAs (Decidable (∀ c ∈ chars text, isPlain c = true))

theorem isPlain_of_isIdentifierChar {byte : UInt8} (isChar : isIdentifierChar byte = true) :
    isPlain (Char.ofNat byte.toNat) = true := by
  have all : (identifierChars.map byteOf).all (fun b => isPlain (Char.ofNat b.toNat)) = true := by
    decide
  exact all_eq_true.mp all byte (contains_iff_mem.mp isChar)

theorem isPlain_nameText (id : Identifier) : ∀ c ∈ nameText id, isPlain c = true := by
  intro c within
  rcases mem_map.mp within with ⟨byte, inName, rfl⟩
  rw [← id.canonical] at inName
  exact isPlain_of_isIdentifierChar (isIdentifierChar_of_mem inName)

theorem isPlain_severity (severity : LogEventSeverity) :
    ∀ c ∈ severity.name.toList, isPlain c = true := by
  cases severity <;> decide

theorem isPlain_base64Encode (b : BitVec 8) : isPlain (base64Encode b) = true := by
  have all : ∀ c ∈ '=' :: base64Table, isPlain c = true := by decide
  apply all
  rw [base64Encode, getD_eq_getElem?_getD]
  cases found : base64Table[min b.toNat 64]? with
  | none => exact mem_cons_self
  | some c => exact mem_cons_of_mem _ (mem_of_getElem? found)

theorem isPlain_base64dump (data : Block) : ∀ c ∈ base64dump data, isPlain c = true := by
  have putPlain : ∀ b text, (∀ c ∈ text, isPlain c = true) →
      ∀ c ∈ (base64Put b text).2, isPlain c = true := by
    intro b text plain
    exact forall_mem_append.mpr
      ⟨plain, fun c within => mem_singleton.mp within ▸ isPlain_base64Encode b⟩
  exact BitDensity.dissolveFrom_preserves (P := fun text => ∀ c ∈ text, isPlain c = true) putPlain
    _ _ _ _ _ (by simp)

theorem isPlain_padded (width value : Nat) : ∀ c ∈ padded width value, isPlain c = true := by
  intro c within
  rcases mem_append.mp within with zero | digit
  · rw [(mem_replicate.mp zero).2]
    rfl
  · exact isPlain_of_isDigit (isDigit_unsignedText value c digit)

theorem isPlain_startTime (time : StartTime) : ∀ c ∈ time.text, isPlain c = true := by
  have separated {front back : List Char} {c : Char} (plain : isPlain c = true)
      (plainFront : ∀ d ∈ front, isPlain d = true) (plainBack : ∀ d ∈ back, isPlain d = true) :
      ∀ d ∈ front ++ c :: back, isPlain d = true :=
    forall_mem_append.mpr ⟨plainFront, forall_mem_cons.mpr ⟨plain, plainBack⟩⟩
  have number := isPlain_padded
  exact separated rfl (number _ _) (separated rfl (number _ _) (separated rfl (number _ _)
    (separated rfl (number _ _) (separated rfl (number _ _) (separated rfl (number _ _)
      (number _ _))))))

def beginMembers (start : StartTime) (session identity : Block) : List Member :=
  [.ofText "t".toList "begin".toList, .ofText "time".toList start.text] ++
    ((if session = [] then [] else [.ofText "session".toList (chars session)]) ++
      if identity = [] then [] else [.ofText "identity".toList (chars identity)])

def descriptionMembers (sec : FiniteFloat) (source : Identifier) (instanceId : LoggerInstanceId)
    (displayName description : Block) : List Member :=
  [.ofText "t".toList "d".toList, .ofText "src".toList (nameText source),
    .ofNumber "iid".toList (unsignedText instanceId.toNat), .ofNumber "ts".toList sec.1.text,
    .ofText "dn".toList (chars displayName), .ofText "desc".toList (chars description)]

def declareStateMembers (sec : FiniteFloat) (source stateTag beginTag endTag : Identifier) :
    List Member :=
  [.ofText "t".toList "ds".toList, .ofText "src".toList (nameText source),
    .ofText "tag".toList (nameText stateTag), .ofNumber "ts".toList sec.1.text,
    .ofText "bgn".toList (nameText beginTag), .ofText "end".toList (nameText endTag)]

def activeStateMembers (sec : FiniteFloat) (source stateTag : Identifier) : List Member :=
  [.ofText "t".toList "as".toList, .ofText "src".toList (nameText source),
    .ofText "tag".toList (nameText stateTag), .ofNumber "ts".toList sec.1.text]

def heartbeatMembers (sec : FiniteFloat) : List Member :=
  [.ofText "t".toList "hb".toList, .ofNumber "ts".toList sec.1.text]

def endMembers (sec : FiniteFloat) : List Member :=
  [.ofText "t".toList "end".toList, .ofNumber "ts".toList sec.1.text]

def intervalMembers (info : IntervalInfo) (avg : Int) : List Member :=
  [.ofText "t".toList "i".toList, .ofNumber "iid".toList (unsignedText info.logId.toNat),
    .ofText "tag".toList (nameText info.tag), .ofNumber "tns".toList (signedText avg)]

def namedMembers (arg tag : Identifier) (value : List Member) : List Member :=
  .ofText "n".toList (nameText arg) :: .ofText "t".toList (nameText tag) :: value

/-- The members of an argument, for a call that adds one. -/
def argumentMembers : BackendCall FloatValue → List Member
  | .addNothing arg tag => namedMembers arg tag []
  | .addIdentifier arg tag value => namedMembers arg tag [.ofText "v".toList (nameText value)]
  | .addMessageId arg tag value =>
      namedMembers arg tag [.ofText "v".toList (nameText value.1 ++ '.' :: nameText value.2)]
  | .addBool arg tag value => namedMembers arg tag [.ofBool "v".toList value]
  | .addInteger arg tag value =>
      namedMembers arg tag [.ofNumber "v".toList (signedText value.toInt)]
  | .addUnsigned arg tag value =>
      namedMembers arg tag [.ofNumber "v".toList (unsignedText value.toNat)]
  | .addFloat arg tag value => namedMembers arg tag [.ofNumber "v".toList value.text]
  | .addFloatRange arg tag min value max =>
      namedMembers arg tag [.ofNumber "v".toList value.text, .ofNumber "min".toList min.text,
        .ofNumber "max".toList max.text]
  | .addDuration arg tag value =>
      namedMembers arg tag [.ofText "u".toList "s".toList, .ofNumber "v".toList value.text]
  | .addString arg tag value => namedMembers arg tag [.ofText "v".toList (chars value)]
  | .addBlob arg tag value => namedMembers arg tag [.ofText "v".toList (base64dump value)]
  | _ => []

def BackendCall.isArgument : BackendCall FloatValue → Bool
  | .addNothing _ _ | .addIdentifier _ _ _ | .addMessageId _ _ _ | .addBool _ _ _
  | .addInteger _ _ _ | .addUnsigned _ _ _ | .addFloat _ _ _ | .addFloatRange _ _ _ _ _
  | .addDuration _ _ _ | .addString _ _ _ | .addBlob _ _ _ => true
  | _ => false

/-- A message, with the calls that add its arguments. -/
structure Message where
  source : Identifier
  tag : Identifier
  instanceId : LoggerInstanceId
  severity : LogEventSeverity
  format : Block
  args : List { call : BackendCall FloatValue // call.isArgument = true }

namespace Message

/-- The elements of the list of arguments, with their texts. -/
def elements (message : Message) : List (Json × List Char) :=
  (.null, "null".toList) :: message.args.map fun arg =>
    (objectJson (argumentMembers arg.1), objectText (argumentMembers arg.1))

def argsMember (message : Message) : Member where
  name := "a".toList
  json := .array (message.elements.map Prod.fst)
  text := '[' :: (joined [','] (message.elements.map Prod.snd) ++ [']'])

def members (sec : FiniteFloat) (message : Message) : List Member :=
  [.ofText "t".toList "m".toList, .ofText "lvl".toList message.severity.name.toList,
      .ofText "src".toList (nameText message.source)] ++
    ((if message.tag.name = [] then [] else [.ofText "tag".toList (nameText message.tag)]) ++
      [.ofNumber "iid".toList (unsignedText message.instanceId.toNat),
        .ofNumber "ts".toList sec.1.text, .ofText "f".toList (chars message.format),
        message.argsMember])

end Message

namespace JsonLogBackend

theorem add_add (first second : List Char) (backend : JsonLogBackend) :
    (backend.add first).add second = backend.add (first ++ second) := by
  simp [add]

/-- The entry is behind what was written before. -/
def wrote (text : List Char) (backend : JsonLogBackend) : JsonLogBackend :=
  { backend with output := backend.output.beginEntry.write text }

theorem writeEntry_add {backend : JsonLogBackend} (empty : backend.buffer = []) (text : List Char) :
    (backend.add text).writeEntry = backend.wrote text := by
  simp [add, writeEntry, wrote, empty, LogOutput.entryAppend]

section

variable {backend : JsonLogBackend} (empty : backend.buffer = [])

include empty

theorem setDescription_eq (sec : FiniteFloat) (source : Identifier) (instanceId : LoggerInstanceId)
    (displayName description : Block) :
    backend.setDescription sec source instanceId displayName description =
      backend.wrote (objectText
        (descriptionMembers sec source instanceId displayName description)) := by
  rw [← writeEntry_add empty]
  simp [setDescription, add_add, objectText, descriptionMembers, joined, memberText, quoted,
    ofText, ofNumber]

theorem declareState_eq (sec : FiniteFloat) (source stateTag beginTag endTag : Identifier) :
    backend.declareState sec source stateTag beginTag endTag =
      backend.wrote (objectText (declareStateMembers sec source stateTag beginTag endTag)) := by
  rw [← writeEntry_add empty]
  simp [declareState, add_add, objectText, declareStateMembers, joined, memberText, quoted,
    ofText, ofNumber]

theorem activeState_eq (sec : FiniteFloat) (source stateTag : Identifier) :
    backend.activeState sec source stateTag =
      backend.wrote (objectText (activeStateMembers sec source stateTag)) := by
  rw [← writeEntry_add empty]
  simp [activeState, add_add, objectText, activeStateMembers, joined, memberText, quoted,
    ofText, ofNumber]

theorem heartbeat_eq (sec : FiniteFloat) :
    backend.heartbeat sec = backend.wrote (objectText (heartbeatMembers sec)) := by
  rw [← writeEntry_add empty]
  simp [heartbeat, add_add, objectText, heartbeatMembers, joined, memberText, quoted,
    ofText, ofNumber]

theorem finishLog_eq (sec : FiniteFloat) :
    backend.finishLog sec =
      { backend.wrote (objectText (endMembers sec)) with
        output := (backend.wrote (objectText (endMembers sec))).output.write "]".toList } := by
  rw [← writeEntry_add empty]
  simp [finishLog, add_add, objectText, endMembers, joined, memberText, quoted,
    ofText, ofNumber, LogOutput.finishStream]

theorem beginLog_eq (start : StartTime) :
    backend.beginLog start =
      { backend with output := backend.output.beginStream "[".toList "\n,".toList }.wrote
        (objectText (beginMembers start backend.sessionIdentity backend.logIdentity)) := by
  have empty' : { backend with
      output := backend.output.beginStream "[".toList "\n,".toList }.buffer = [] := empty
  rw [← writeEntry_add empty']
  by_cases session : backend.sessionIdentity = [] <;>
    by_cases identity : backend.logIdentity = [] <;>
      simp [beginLog, add, objectText, beginMembers, joined, memberText, quoted,
        ofText, session, identity]

theorem timeIntervalEnd_eq (now : Int) (id : Nat) :
    backend.timeIntervalEnd now id =
      match backend.intervals.report now id with
      | some (info, avg) =>
          { backend.wrote (objectText (intervalMembers info avg)) with
            intervals := backend.intervals.finish now id }
      | none => { backend with intervals := backend.intervals.finish now id } := by
  rw [timeIntervalEnd]
  cases backend.intervals.report now id with
  | none => rfl
  | some report =>
      dsimp only
      rw [← writeEntry_add empty]
      simp [add_add, objectText, intervalMembers, joined, memberText, quoted,
        ofText, ofNumber]

end

/-- The text was appended to the output or to the buffer, and nothing else was changed. -/
structure Appends (text : List Char) (before after : JsonLogBackend) : Prop where
  written : after.output.out ++ after.buffer = before.output.out ++ before.buffer ++ text
  sep_eq : after.output.sep = before.output.sep
  first_eq : after.output.first = before.output.first
  sessionIdentity_eq : after.sessionIdentity = before.sessionIdentity
  logIdentity_eq : after.logIdentity = before.logIdentity
  intervals_eq : after.intervals = before.intervals

theorem appends_add (text : List Char) (backend : JsonLogBackend) :
    Appends text backend (backend.add text) := by
  constructor <;> simp [add]

theorem appends_addBlock (data : Block) (backend : JsonLogBackend) :
    Appends (base64dump data) backend (backend.addBlock data) := by
  constructor <;> simp [addBlock, LogOutput.entryAppend, LogOutput.write]

theorem Appends.trans {first second : List Char} {before middle after : JsonLogBackend}
    (one : Appends first before middle) (two : Appends second middle after) :
    Appends (first ++ second) before after where
  written := by rw [two.written, one.written, append_assoc]
  sep_eq := two.sep_eq.trans one.sep_eq
  first_eq := two.first_eq.trans one.first_eq
  sessionIdentity_eq := two.sessionIdentity_eq.trans one.sessionIdentity_eq
  logIdentity_eq := two.logIdentity_eq.trans one.logIdentity_eq
  intervals_eq := two.intervals_eq.trans one.intervals_eq

/-- An argument is written behind a comma. -/
theorem appends_argument {call : BackendCall FloatValue} (isArgument : call.isArgument = true)
    (clock : Clock) (backend : JsonLogBackend) :
    Appends (',' :: objectText (argumentMembers call)) backend
      (backend.call clock (.backend call)) := by
  have quotedValue (arg tag : Identifier) {text : List Char}
      {addValue : JsonLogBackend → JsonLogBackend}
      (adds : ∀ b, Appends text b (addValue b)) :
      Appends (',' :: objectText (namedMembers arg tag [.ofText "v".toList text])) backend
        (backend.doAddArgQ arg tag addValue) := by
    have front := appends_add (",\x7b\"n\":\"".toList ++ (nameText arg ++ ("\",\"t\":\"".toList ++
      (nameText tag ++ "\",\"v\":\"".toList)))) backend
    have whole := (front.trans (adds _)).trans (appends_add "\"\x7d".toList _)
    simpa [doAddArgQ, addArgument, add_add, objectText, namedMembers, joined, memberText, quoted,
      ofText] using whole
  have plainValue (arg tag : Identifier) (middle : List Char) {members : List Member}
      {after : JsonLogBackend} (after_eq : after = (backend.addArgument arg tag).add middle)
      (text : objectText (namedMembers arg tag members) =
        "\x7b\"n\":\"".toList ++ (nameText arg ++ ("\",\"t\":\"".toList ++
          (nameText tag ++ middle)))) :
      Appends (',' :: objectText (namedMembers arg tag members)) backend after := by
    have whole := appends_add (',' :: objectText (namedMembers arg tag members)) backend
    rw [text] at whole ⊢
    rw [after_eq]
    simpa [addArgument, add_add] using whole
  cases call with
  | addNothing arg tag =>
      apply plainValue arg tag "\"\x7d".toList rfl
      simp [objectText, namedMembers, joined, memberText, quoted, ofText]
  | addIdentifier arg tag value =>
      change Appends _ backend (backend.doAddArgQ arg tag (add (nameText value)))
      exact quotedValue arg tag (appends_add _)
  | addMessageId arg tag value =>
      change Appends _ backend (backend.doAddArgQ arg tag fun b =>
        ((b.add (nameText value.1)).add ".".toList).add (nameText value.2))
      apply quotedValue arg tag
      intro b
      have whole := appends_add (nameText value.1 ++ '.' :: nameText value.2) b
      simpa [add_add] using whole
  | addBool arg tag value =>
      apply plainValue arg tag ("\",\"v\":".toList ++ (boolText value ++ "\x7d".toList))
      · cases value <;> simp [call, addBool, addBoolean, add_add, boolText]
      · simp [objectText, namedMembers, joined, memberText, quoted, ofText, Member.ofBool]
  | addInteger arg tag value =>
      apply plainValue arg tag ("\",\"v\":".toList ++ (signedText value.toInt ++ "\x7d".toList))
      · simp [call, addInteger, doAddArgU, add_add]
      · simp [objectText, namedMembers, joined, memberText, quoted, ofText, ofNumber]
  | addUnsigned arg tag value =>
      apply plainValue arg tag ("\",\"v\":".toList ++ (unsignedText value.toNat ++ "\x7d".toList))
      · simp [call, addUnsigned, doAddArgU, add_add]
      · simp [objectText, namedMembers, joined, memberText, quoted, ofText, ofNumber]
  | addFloat arg tag value =>
      apply plainValue arg tag ("\",\"v\":".toList ++ (value.text ++ "\x7d".toList))
      · simp [call, addFloat, doAddArgU, add_add]
      · simp [objectText, namedMembers, joined, memberText, quoted, ofText, ofNumber]
  | addFloatRange arg tag min value max =>
      apply plainValue arg tag ("\",\"v\":".toList ++ (value.text ++ (",\"min\":".toList ++
        (min.text ++ (",\"max\":".toList ++ (max.text ++ "\x7d".toList))))))
      · simp [call, addFloatRange, add_add]
      · simp [objectText, namedMembers, joined, memberText, quoted, ofText, ofNumber]
  | addDuration arg tag value =>
      apply plainValue arg tag ("\",\"u\":\"s\",\"v\":".toList ++ (value.text ++ "\x7d".toList))
      · simp [call, addDuration, add_add]
      · simp [objectText, namedMembers, joined, memberText, quoted, ofText, ofNumber]
  | addString arg tag value =>
      change Appends _ backend (backend.doAddArgQ arg tag (add (chars value)))
      exact quotedValue arg tag (appends_add _)
  | addBlob arg tag value =>
      change Appends _ backend (backend.doAddArgQ arg tag (addBlock value))
      exact quotedValue arg tag (appends_addBlock value)
  | _ => exact absurd isArgument Bool.false_ne_true

/-- The arguments are written one after the other. -/
theorem appends_arguments (args : List { call : BackendCall FloatValue // call.isArgument = true })
    (clock : Clock) (backend : JsonLogBackend) :
    Appends (args.flatMap fun arg => ',' :: objectText (argumentMembers arg.1)) backend
      (backend.run (args.map fun arg => (clock, .backend arg.1))) := by
  induction args generalizing backend with
  | nil => constructor <;> simp [run]
  | cons arg args ih =>
      have first := appends_argument arg.2 clock backend
      exact first.trans (ih _)

/-- The end of a message writes what was appended since the buffer was empty. -/
theorem finishMessage_eq {text : List Char} {before after : JsonLogBackend}
    (appends : Appends text before after) (empty : before.buffer = []) :
    after.finishMessage =
      { before with output := before.output.write (text ++ "]\x7d".toList) } := by
  have written := appends.written
  rw [empty, append_nil] at written
  simp only [finishMessage, add, LogOutput.entryAppend, LogOutput.write, ← append_assoc,
    written, appends.sep_eq, appends.first_eq, appends.sessionIdentity_eq,
    appends.logIdentity_eq, appends.intervals_eq, empty]

theorem argsMember_text (message : Message) :
    message.argsMember.text = "[null".toList ++
      (message.args.flatMap (fun arg => ',' :: objectText (argumentMembers arg.1)) ++ [']']) := by
  simp [Message.argsMember, Message.elements, joined, flatMap_map]

/-- A message up to the list of its arguments. -/
def messageFront (sec : FiniteFloat) (message : Message) : List Char :=
  "\x7b\"t\":\"m\",\"lvl\":\"".toList ++ (message.severity.name.toList ++
    ("\",\"src\":\"".toList ++ (nameText message.source ++
      ((if message.tag.name = [] then [] else "\",\"tag\":\"".toList ++ nameText message.tag) ++
        ("\",\"iid\":".toList ++ (unsignedText message.instanceId.toNat ++
          (",\"ts\":".toList ++ (sec.1.text ++ (",\"f\":\"".toList ++ (chars message.format ++
            "\",\"a\":[null".toList))))))))))

theorem appends_beginMessage (sec : FiniteFloat) (message : Message) (backend : JsonLogBackend) :
    Appends (messageFront sec message) { backend with output := backend.output.beginEntry }
      (backend.beginMessage sec message.source message.tag message.instanceId message.severity
        message.format) := by
  have front_eq : backend.beginMessage sec message.source message.tag message.instanceId
      message.severity message.format =
        { backend with output := backend.output.beginEntry }.add (messageFront sec message) := by
    unfold beginMessage messageFront
    by_cases noTag : message.tag.name = []
    · simp only [if_pos noTag, add_add, nil_append, append_assoc]
    · simp only [if_neg noTag, add_add, append_assoc]
  rw [front_eq]
  exact appends_add _ _

theorem objectText_members (sec : FiniteFloat) (message : Message) :
    objectText (message.members sec) = messageFront sec message ++
      (message.args.flatMap (fun arg => ',' :: objectText (argumentMembers arg.1)) ++
        "]\x7d".toList) := by
  have args_eq := argsMember_text message
  have name_eq : message.argsMember.name = "a".toList := rfl
  unfold messageFront
  by_cases noTag : message.tag.name = [] <;>
    simp [Message.members, noTag, objectText, joined, memberText, quoted, ofText,
      ofNumber, args_eq, name_eq]

/-- A message, from its begin to its end. -/
theorem message_eq {backend : JsonLogBackend} (empty : backend.buffer = []) (clock : Clock)
    (message : Message) :
    (((backend.beginMessage clock.sec message.source message.tag message.instanceId
        message.severity message.format).run
          (message.args.map fun arg => (clock, .backend arg.1)))).finishMessage =
      backend.wrote (objectText (message.members clock.sec)) := by
  have front := appends_beginMessage clock.sec message backend
  have whole := front.trans (appends_arguments message.args clock _)
  rw [finishMessage_eq whole empty, objectText_members, append_assoc]
  rfl

end JsonLogBackend

end Eagine.Logging
