import Eagine.Logging.JsonLog
import Eagine.Theory.JsonWeight

/-!
# When the text of a log is JSON

The text of a log with finite numbers is read as the array of its entries when no text of it has
to be escaped. When one has to be, the log is lighter than the array of its entries.
-/

namespace Eagine.Logging

open Serialization Theory Theory.Json List Member FloatValue

theorem sound_begin (start : StartTime) {session identity : Block}
    (plainSession : IsPlainText session) (plainIdentity : IsPlainText identity) :
    ∀ m ∈ beginMembers start session identity, m.Sound := by
  have optional {name : List Char} (plainName : ∀ c ∈ name, isPlain c = true) {text : Block}
      (plain : IsPlainText text) :
      ∀ m ∈ (if text = [] then [] else [Member.ofText name (chars text)]), m.Sound := by
    split
    · exact forall_mem_nil _
    · exact forall_mem_singleton.mpr (sound_ofText plainName plain)
  refine forall_mem_append.mpr ⟨?_, forall_mem_append.mpr ⟨?_, ?_⟩⟩
  · exact forall_mem_cons.mpr ⟨sound_ofText (by decide) (by decide),
      forall_mem_singleton.mpr (sound_ofText (by decide) (isPlain_startTime start))⟩
  · exact optional (by decide) plainSession
  · exact optional (by decide) plainIdentity

theorem sound_description (sec : FiniteFloat) (source : Identifier)
    (instanceId : LoggerInstanceId) {displayName description : Block}
    (plainName : IsPlainText displayName) (plainDescription : IsPlainText description) :
    ∀ m ∈ descriptionMembers sec source instanceId displayName description, m.Sound := by
  simp only [descriptionMembers, forall_mem_cons]
  exact ⟨sound_ofText (by decide) (by decide),
    sound_ofText (by decide) (isPlain_nameText source),
    sound_ofNumber (by decide) (parses_unsigned _),
    sound_ofNumber (by decide) (parses_text sec.2),
    sound_ofText (by decide) plainName,
    sound_ofText (by decide) plainDescription, forall_mem_nil _⟩

theorem sound_declareState (sec : FiniteFloat) (source stateTag beginTag endTag : Identifier) :
    ∀ m ∈ declareStateMembers sec source stateTag beginTag endTag, m.Sound := by
  simp only [declareStateMembers, forall_mem_cons]
  exact ⟨sound_ofText (by decide) (by decide),
    sound_ofText (by decide) (isPlain_nameText source),
    sound_ofText (by decide) (isPlain_nameText stateTag),
    sound_ofNumber (by decide) (parses_text sec.2),
    sound_ofText (by decide) (isPlain_nameText beginTag),
    sound_ofText (by decide) (isPlain_nameText endTag), forall_mem_nil _⟩

theorem sound_activeState (sec : FiniteFloat) (source stateTag : Identifier) :
    ∀ m ∈ activeStateMembers sec source stateTag, m.Sound := by
  simp only [activeStateMembers, forall_mem_cons]
  exact ⟨sound_ofText (by decide) (by decide),
    sound_ofText (by decide) (isPlain_nameText source),
    sound_ofText (by decide) (isPlain_nameText stateTag),
    sound_ofNumber (by decide) (parses_text sec.2), forall_mem_nil _⟩

theorem sound_heartbeat (sec : FiniteFloat) : ∀ m ∈ heartbeatMembers sec, m.Sound := by
  simp only [heartbeatMembers, forall_mem_cons]
  exact ⟨sound_ofText (by decide) (by decide),
    sound_ofNumber (by decide) (parses_text sec.2), forall_mem_nil _⟩

theorem sound_end (sec : FiniteFloat) : ∀ m ∈ endMembers sec, m.Sound := by
  simp only [endMembers, forall_mem_cons]
  exact ⟨sound_ofText (by decide) (by decide),
    sound_ofNumber (by decide) (parses_text sec.2), forall_mem_nil _⟩

theorem sound_interval (info : IntervalInfo) (avg : Int) :
    ∀ m ∈ intervalMembers info avg, m.Sound := by
  simp only [intervalMembers, forall_mem_cons]
  exact ⟨sound_ofText (by decide) (by decide),
    sound_ofNumber (by decide) (parses_unsigned _),
    sound_ofText (by decide) (isPlain_nameText info.tag),
    sound_ofNumber (by decide) (parses_signed _), forall_mem_nil _⟩

theorem sound_named (arg tag : Identifier) {value : List Member} (sound : ∀ m ∈ value, m.Sound) :
    ∀ m ∈ namedMembers arg tag value, m.Sound :=
  forall_mem_cons.mpr ⟨sound_ofText (by decide) (isPlain_nameText arg),
    forall_mem_cons.mpr ⟨sound_ofText (by decide) (isPlain_nameText tag), sound⟩⟩

variable {call : BackendCall FloatValue}

theorem sound_argument (finite : ∀ value ∈ call.floats, value.isFinite = true)
    (plain : ∀ text ∈ call.texts, IsPlainText text) : ∀ m ∈ argumentMembers call, m.Sound := by
  have text {value : List Char} (plainValue : ∀ c ∈ value, isPlain c = true) :
      ∀ m ∈ [Member.ofText "v".toList value], m.Sound :=
    forall_mem_singleton.mpr (sound_ofText (by decide) plainValue)
  have number {value : List Char} (parses : Parses (.number value) value) :
      ∀ m ∈ [Member.ofNumber "v".toList value], m.Sound :=
    forall_mem_singleton.mpr (sound_ofNumber (by decide) parses)
  cases call with
  | addNothing arg tag => exact sound_named arg tag (forall_mem_nil _)
  | addIdentifier arg tag value => exact sound_named arg tag (text (isPlain_nameText value))
  | addMessageId arg tag value =>
      exact sound_named arg tag (text (forall_mem_append.mpr ⟨isPlain_nameText value.1,
        forall_mem_cons.mpr ⟨by decide, isPlain_nameText value.2⟩⟩))
  | addBool arg tag value =>
      exact sound_named arg tag
        (forall_mem_singleton.mpr (sound_ofBool (by decide) value))
  | addInteger arg tag value => exact sound_named arg tag (number (parses_signed _))
  | addUnsigned arg tag value => exact sound_named arg tag (number (parses_unsigned _))
  | addFloat arg tag value =>
      exact sound_named arg tag
        (number (parses_text (finite value (mem_singleton.mpr rfl))))
  | addFloatRange arg tag min value max =>
      simp only [BackendCall.floats, forall_mem_cons] at finite
      rcases finite with ⟨finiteMin, finiteValue, finiteMax, _⟩
      apply sound_named arg tag
      simp only [forall_mem_cons]
      exact ⟨sound_ofNumber (by decide) (parses_text finiteValue),
        sound_ofNumber (by decide) (parses_text finiteMin),
        sound_ofNumber (by decide) (parses_text finiteMax),
        forall_mem_nil _⟩
  | addDuration arg tag value =>
      have finiteValue := finite value (mem_singleton.mpr rfl)
      apply sound_named arg tag
      simp only [forall_mem_cons]
      exact ⟨sound_ofText (by decide) (by decide),
        sound_ofNumber (by decide) (parses_text finiteValue),
        forall_mem_nil _⟩
  | addString arg tag value =>
      exact sound_named arg tag (text (plain value (mem_singleton.mpr rfl)))
  | addBlob arg tag value => exact sound_named arg tag (text (isPlain_base64dump value))
  | _ => exact forall_mem_nil _

theorem argumentMembers_cons (isArgument : call.isArgument = true) :
    ∃ first others, argumentMembers call = first :: others := by
  cases call with
  | addNothing | addIdentifier | addMessageId | addBool | addInteger | addUnsigned | addFloat
  | addFloatRange | addDuration | addString | addBlob => exact ⟨_, _, rfl⟩
  | _ => exact absurd isArgument Bool.false_ne_true

variable {message : Message}

namespace Message

theorem sound_argsMember
    (finite : ∀ value ∈ (LogItem.message message).floats, value.isFinite = true)
    (plain : ∀ text ∈ (LogItem.message message).texts, IsPlainText text) :
    message.argsMember.Sound := by
  have elements : ∀ e ∈ message.elements, Parses e.1 e.2 := by
    refine forall_mem_cons.mpr ⟨parses_null, forall_mem_map.mpr ?_⟩
    intro arg within
    rcases argumentMembers_cons arg.2 with ⟨first, others, members_eq⟩
    have sound : ∀ m ∈ argumentMembers arg.1, m.Sound := sound_argument
      (fun value inFloats => finite value (mem_flatMap.mpr ⟨arg, within, inFloats⟩))
      (fun text inTexts => plain text
        (mem_cons_of_mem _ (mem_flatMap.mpr ⟨arg, within, inTexts⟩)))
    rw [members_eq] at sound ⊢
    exact parses_objectText sound
  have noSpace : ∀ c ∈ [], isSpace c = true := forall_mem_nil _
  have parses := parsesElements_joined noSpace elements
  have plainName : ∀ c ∈ "a".toList, isPlain c = true := by decide
  exact ⟨plainName, parses_array parses⟩

theorem sound_members (sec : FiniteFloat)
    (finite : ∀ value ∈ (LogItem.message message).floats, value.isFinite = true)
    (plain : ∀ text ∈ (LogItem.message message).texts, IsPlainText text) :
    ∀ m ∈ message.members sec, m.Sound := by
  have tag : ∀ m ∈ (if message.tag.name = [] then []
      else [Member.ofText "tag".toList (nameText message.tag)]), m.Sound := by
    split
    · exact forall_mem_nil _
    · exact forall_mem_singleton.mpr
        (sound_ofText (by decide) (isPlain_nameText message.tag))
  refine forall_mem_append.mpr ⟨?_, forall_mem_append.mpr ⟨tag, ?_⟩⟩
  · simp only [forall_mem_cons]
    exact ⟨sound_ofText (by decide) (by decide),
      sound_ofText (by decide) (isPlain_severity message.severity),
      sound_ofText (by decide) (isPlain_nameText message.source), forall_mem_nil _⟩
  · simp only [forall_mem_cons]
    exact ⟨sound_ofNumber (by decide) (parses_unsigned _),
      sound_ofNumber (by decide) (parses_text sec.2),
      sound_ofText (by decide) (plain message.format mem_cons_self),
      sound_argsMember finite plain, forall_mem_nil _⟩

end Message

/-- No text of a member is heavier than the value that the member is to have. -/
def LightMembers (members : List Member) : Prop :=
  ∀ m ∈ members, weight m.text ≤ weightOf m.json

/-- The texts of the members are as heavy as their values. -/
def TightMembers (members : List Member) : Prop :=
  ∀ m ∈ members, weightOf m.json ≤ weight m.text

theorem light_argument (call : BackendCall FloatValue) : LightMembers (argumentMembers call) := by
  cases call <;>
    simp [LightMembers, argumentMembers, namedMembers, light_ofText, light_ofNumber,
      light_ofBool]

namespace Message

theorem light_elements (message : Message) : ∀ e ∈ message.elements, weight e.2 ≤ weightOf e.1 := by
  refine forall_mem_cons.mpr ⟨by decide, forall_mem_map.mpr ?_⟩
  intro arg _
  rcases argumentMembers_cons arg.2 with ⟨first, others, members_eq⟩
  have light := light_argument arg.1
  dsimp only
  rw [members_eq] at light ⊢
  exact (weight_objectText light).1

theorem light_argsMember (message : Message) :
    weight message.argsMember.text ≤ weightOf message.argsMember.json :=
  (weight_array (by decide) message.light_elements).1

theorem light_members (sec : FiniteFloat) (message : Message) :
    LightMembers (message.members sec) := by
  have args := light_argsMember message
  by_cases noTag : message.tag.name = [] <;>
    simp [LightMembers, members, noTag, light_ofText, light_ofNumber, args]

/-- When the list of arguments is as heavy as it may be, no string in it is to be escaped. -/
theorem plain_of_tight_argsMember
    (tight : weightOf message.argsMember.json ≤ weight message.argsMember.text) :
    ∀ arg ∈ message.args, ∀ text ∈ arg.1.texts, IsPlainText text := by
  intro arg within text inTexts
  have tightElements := (weight_array (by decide) message.light_elements).2 tight
  have tightArgument := tightElements _ (mem_cons_of_mem _ (mem_map_of_mem within))
  rcases argumentMembers_cons arg.2 with ⟨first, others, members_eq⟩
  have light := light_argument arg.1
  rw [members_eq] at light
  rw [members_eq] at tightArgument
  have tightMembers := (weight_objectText light).2 tightArgument
  rw [← members_eq] at tightMembers
  rcases arg with ⟨call, isArgument⟩
  cases call with
  | addString name tag value =>
      rw [mem_singleton.mp inTexts]
      exact plain_of_tight (tightMembers _
        (mem_cons_of_mem _ (mem_cons_of_mem _ mem_cons_self)))
  | _ => exact absurd inTexts not_mem_nil

end Message

theorem light_begin (start : StartTime) (session identity : Block) :
    LightMembers (beginMembers start session identity) := by
  by_cases noSession : session = [] <;> by_cases noIdentity : identity = [] <;>
    simp [LightMembers, beginMembers, noSession, noIdentity, light_ofText]

theorem light_end (sec : FiniteFloat) : LightMembers (endMembers sec) := by
  simp [LightMembers, endMembers, light_ofText, light_ofNumber]

theorem plain_of_tight_begin {start : StartTime} {session identity : Block}
    (tight : TightMembers (beginMembers start session identity)) :
    IsPlainText session ∧ IsPlainText identity := by
  rcases forall_mem_append.mp tight with ⟨_, optional⟩
  rcases forall_mem_append.mp optional with ⟨first, second⟩
  have plain {name : List Char} {text : Block}
      (tightText : ∀ m ∈ (if text = [] then [] else [Member.ofText name (chars text)]),
        weightOf m.json ≤ weight m.text) : IsPlainText text := by
    split at tightText
    · rename_i empty
      rw [empty]
      exact forall_mem_nil _
    · exact plain_of_tight (tightText _ (mem_singleton.mpr rfl))
  exact ⟨plain first, plain second⟩

namespace LogItem

variable {clock : JsonLogBackend.Clock} {intervals : Intervals} {item : LogItem}
  {members : List Member}

theorem entry_cons (entry_eq : item.entry clock intervals = some members) :
    ∃ first others, members = first :: others := by
  cases item with
  | timeIntervalEnd id =>
      rcases Option.map_eq_some_iff.mp entry_eq with ⟨reported, _, rfl⟩
      exact ⟨_, _, rfl⟩
  | logChartSample | registerTimeInterval | timeIntervalBegin => cases entry_eq
  | _ =>
      cases entry_eq
      exact ⟨_, _, rfl⟩

theorem sound_entry (entry_eq : item.entry clock intervals = some members)
    (finite : ∀ value ∈ item.floats, value.isFinite = true)
    (plain : ∀ text ∈ item.texts, IsPlainText text) : ∀ m ∈ members, m.Sound := by
  cases item with
  | message m =>
      cases entry_eq
      exact m.sound_members clock.sec finite plain
  | setDescription source instanceId displayName description =>
      cases entry_eq
      rcases forall_mem_cons.mp plain with ⟨plainName, plainOthers⟩
      exact sound_description clock.sec source instanceId plainName
        (forall_mem_singleton.mp plainOthers)
  | declareState source stateTag beginTag endTag =>
      cases entry_eq
      exact sound_declareState clock.sec source stateTag beginTag endTag
  | activeState source stateTag =>
      cases entry_eq
      exact sound_activeState clock.sec source stateTag
  | heartbeat =>
      cases entry_eq
      exact sound_heartbeat clock.sec
  | timeIntervalEnd id =>
      rcases Option.map_eq_some_iff.mp entry_eq with ⟨reported, _, rfl⟩
      exact sound_interval reported.1 reported.2
  | logChartSample | registerTimeInterval | timeIntervalBegin => cases entry_eq

theorem light_entry (entry_eq : item.entry clock intervals = some members) :
    LightMembers members := by
  cases item with
  | message m =>
      cases entry_eq
      exact m.light_members clock.sec
  | timeIntervalEnd id =>
      rcases Option.map_eq_some_iff.mp entry_eq with ⟨reported, _, rfl⟩
      simp [LightMembers, intervalMembers, light_ofText, light_ofNumber]
  | logChartSample | registerTimeInterval | timeIntervalBegin => cases entry_eq
  | _ =>
      cases entry_eq
      simp [LightMembers, descriptionMembers, declareStateMembers, activeStateMembers,
        heartbeatMembers, light_ofText, light_ofNumber]

theorem plain_of_tight_entry
    (tight : ∀ members, item.entry clock intervals = some members → TightMembers members) :
    ∀ text ∈ item.texts, IsPlainText text := by
  cases item with
  | message m =>
      rcases forall_mem_append.mp (tight _ rfl) with ⟨_, behind⟩
      rcases forall_mem_append.mp behind with ⟨_, last⟩
      simp only [forall_mem_cons] at last
      rcases last with ⟨_, _, tightFormat, tightArgs, _⟩
      refine forall_mem_cons.mpr ⟨plain_of_tight tightFormat, ?_⟩
      intro text within
      rcases mem_flatMap.mp within with ⟨arg, inArgs, inTexts⟩
      exact Message.plain_of_tight_argsMember tightArgs arg inArgs text inTexts
  | setDescription source instanceId displayName description =>
      have tightEntry := tight _ rfl
      simp only [TightMembers, descriptionMembers, forall_mem_cons] at tightEntry
      rcases tightEntry with ⟨_, _, _, _, tightName, tightDescription, _⟩
      exact forall_mem_cons.mpr ⟨plain_of_tight tightName,
        forall_mem_singleton.mpr (plain_of_tight tightDescription)⟩
  | _ => exact forall_mem_nil _

end LogItem

namespace JsonLog

variable {items : List (JsonLogBackend.Clock × LogItem)}

theorem mem_itemEntries {intervals : Intervals} {members : List Member}
    (within : members ∈ itemEntries intervals items) :
    ∃ item ∈ items, ∃ before, item.2.entry item.1 before = some members := by
  induction items generalizing intervals with
  | nil => exact absurd within not_mem_nil
  | cons head items ih =>
      rcases mem_append.mp within with here | later
      · exact ⟨head, mem_cons_self, intervals, Option.mem_toList.mp here⟩
      · rcases ih later with ⟨item, inItems, found⟩
        exact ⟨item, mem_cons_of_mem _ inItems, found⟩

theorem itemEntries_of_mem (intervals : Intervals) {item : JsonLogBackend.Clock × LogItem}
    (within : item ∈ items) :
    ∃ before, ∀ members, item.2.entry item.1 before = some members →
      members ∈ itemEntries intervals items := by
  induction items generalizing intervals with
  | nil => exact absurd within not_mem_nil
  | cons head items ih =>
      rcases mem_cons.mp within with rfl | later
      · exact ⟨intervals, fun members found =>
          mem_append_left _ (Option.mem_toList.mpr found)⟩
      · rcases ih (head.2.intervalsAfter head.1 intervals) later with
          ⟨before, found⟩
        exact ⟨before, fun members entry_eq => mem_append_right _ (found members entry_eq)⟩

variable {log : JsonLog}

/-- What holds of the first entry, of the last one and of the items' entries holds of all. -/
theorem forall_mem_entries {P : List Member → Prop}
    (first : P (beginMembers log.start.start log.sessionIdentity log.logIdentity))
    (items : ∀ item ∈ log.items, ∀ before members,
      item.2.entry item.1 before = some members → P members)
    (last : P (endMembers log.stop.sec)) : ∀ entry ∈ log.entries, P entry := by
  refine forall_mem_append.mpr ⟨forall_mem_cons.mpr ⟨first, ?_⟩,
    forall_mem_singleton.mpr last⟩
  intro entry within
  rcases mem_itemEntries within with ⟨item, inItems, before, found⟩
  exact items item inItems before entry found

/-- The values of the entries. -/
def json (log : JsonLog) : Json :=
  .array (log.entries.map objectJson)

/-- Entries without texts to be escaped are read as they are meant. -/
theorem parses_entries (finite : ∀ value ∈ log.floats, value.isFinite = true)
    (plain : ∀ text ∈ log.texts, IsPlainText text) :
    ∀ entry ∈ log.entries, Parses (objectJson entry) (objectText entry) := by
  simp only [texts, forall_mem_cons] at plain
  rcases plain with ⟨plainSession, plainIdentity, plainItems⟩
  apply forall_mem_entries
  · exact parses_objectText (sound_begin _ plainSession plainIdentity)
  · intro item within before members found
    rcases LogItem.entry_cons found with ⟨first, others, rfl⟩
    exact parses_objectText (LogItem.sound_entry found
      (fun value inFloats => finite value (mem_flatMap.mpr ⟨item, within, inFloats⟩))
      (fun text inTexts => plainItems text (mem_flatMap.mpr ⟨item, within, inTexts⟩)))
  · exact parses_objectText (sound_end _)

/-- A log in which no text has to be escaped is read as the array of its entries. -/
theorem parse_text_of_plain (finite : ∀ value ∈ log.floats, value.isFinite = true)
    (plain : ∀ text ∈ log.texts, IsPlainText text) : parse log.text = some log.json := by
  have entries := parses_entries finite plain
  have parses := parsesElements_joined isSpace_newline entries
  have parsed := (parses_array parses).parse_eq
  rw [text_eq]
  exact parsed

/-- A log that is read as the array of its entries has no text that has to be escaped. -/
theorem plain_of_parse_text (parsed : parse log.text = some log.json) :
    ∀ text ∈ log.texts, IsPlainText text := by
  have light : ∀ entry ∈ log.entries,
      weight (objectText entry) ≤ weightOf (objectJson entry) ∧
        (weightOf (objectJson entry) ≤ weight (objectText entry) → TightMembers entry) := by
    apply forall_mem_entries
    · exact weight_objectText (light_begin _ _ _)
    · intro item within before members found
      have lightMembers := LogItem.light_entry found
      rcases LogItem.entry_cons found with ⟨first, others, rfl⟩
      exact weight_objectText lightMembers
    · exact weight_objectText (light_end _)
  have heavy := weightOf_le_of_parse parsed
  rw [text_eq] at heavy
  have sepWeight : weight "\n,".toList = 2 := by decide
  have tightElements := (weight_array sepWeight
    fun entry within => (light entry within).1).2 heavy
  have tight : ∀ entry ∈ log.entries, TightMembers entry := by
    intro entry within
    exact (light entry within).2 (tightElements entry within)
  rcases plain_of_tight_begin (tight _ mem_cons_self) with ⟨plainSession, plainIdentity⟩
  refine forall_mem_cons.mpr ⟨plainSession, forall_mem_cons.mpr ⟨plainIdentity, ?_⟩⟩
  intro text within
  rcases mem_flatMap.mp within with ⟨item, inItems, inTexts⟩
  rcases itemEntries_of_mem [] inItems with ⟨before, found⟩
  have tightEntry : ∀ members, item.2.entry item.1 before = some members →
      TightMembers members := by
    intro members entry_eq
    exact tight members (mem_append_left _ (mem_cons_of_mem _ (found members entry_eq)))
  exact LogItem.plain_of_tight_entry tightEntry text inTexts

/-- The text of a log with finite numbers is an array of its entries exactly when no text of it
has a quote, a backslash or a control character. -/
theorem parse_text_iff (log : JsonLog) (finite : ∀ value ∈ log.floats, value.isFinite = true) :
    parse log.text = some log.json ↔ ∀ text ∈ log.texts, IsPlainText text :=
  ⟨plain_of_parse_text, parse_text_of_plain finite⟩

/-- A moment at the start of a log. -/
def origin : JsonLogBackend.Clock where
  start := ⟨2024, 1, 1, 0, 0, 0, 0⟩
  now := 0
  sec := ⟨.fixed false 0 [], rfl⟩

/-- A log of one message, with a number and a text as its arguments. -/
def messageLog (value : FloatValue) (text : Block) : JsonLog where
  sessionIdentity := []
  logIdentity := []
  start := origin
  items := [(origin, .message {
    source := ⟨[], rfl⟩
    tag := ⟨[], rfl⟩
    instanceId := 0
    severity := .info
    format := []
    args := [⟨.addFloat ⟨[], rfl⟩ ⟨[], rfl⟩ value, rfl⟩, ⟨.addString ⟨[], rfl⟩ ⟨[], rfl⟩ text, rfl⟩] })]
  stop := origin

theorem parse_text_iff_message :
    parse (messageLog (.fixed true 1 [5]) [65]).text = some (messageLog (.fixed true 1 [5]) [65]).json ↔
      ∀ text ∈ (messageLog (.fixed true 1 [5]) [65]).texts, IsPlainText text :=
  parse_text_iff _ (by decide)

/-- The text of a log with the string of a single quote is no JSON. -/
theorem not_parse_text :
    (∀ value ∈ (messageLog (.fixed false 0 []) [34]).floats, value.isFinite = true) ∧
      parse (messageLog (.fixed false 0 []) [34]).text = none := by
  constructor
  · decide
  · decide +kernel

end JsonLog

end Eagine.Logging
