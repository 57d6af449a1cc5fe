import Eagine.LogServer.EntryBuilding
import Eagine.LogServer.StreamEnd
import Eagine.Theory.Refinement

/-!
# Independence of log entries

What an entry hands to the sink is what it would hand over alone, if its extractor was left with the
default values by the entries before, or if the members of the entry set the values anew. Only the
tag and the arguments of a message are reset, and an entry without a type is for the last extractor.
-/

namespace Eagine.LogServer

open Logging ValueTree Theory Option List
open Serialization (Block Identifier)
open BuildingVisitor (begin builder visit visitAll visitAll_append)

universe u v w x

/-! ## Streams -/

/-- An entry of a log. Its type is its first member, if it has one. -/
structure StreamEntry where
  kind : Option String
  others : Members
  named : others.wellNamed = true
  single : "t" ∉ others.names

namespace StreamEntry

def members (entry : StreamEntry) : Members :=
  match entry.kind with
  | some kind => .cons "t" (.string kind) entry.others
  | none => entry.others

def document (entry : StreamEntry) : Document :=
  .object entry.members

theorem members_wellNamed (entry : StreamEntry) : entry.members.wellNamed = true := by
  rw [members]
  cases entry.kind with
  | none => exact entry.named
  | some kind =>
      rw [Members.wellNamed, entry.named]
      rfl

/-- The extractor for the type of the entry. -/
def extractor (entry : StreamEntry) : Option ExtractorKind :=
  entry.kind.bind extractorOf

/-- The calls that the stream parser makes for the entry in an array. -/
def calls (entry : StreamEntry) : List VisitorCall :=
  ((StreamParser.run entry.document.callbacks { listStack := [true] }).map StreamParser.calls).getD []

end StreamEntry

/-- A stream of entries. Its text may stop before the array is closed. -/
structure EntryStream where
  entries : List StreamEntry
  closed : Bool

def EntryStream.elements (stream : EntryStream) : Elements :=
  elementsOf (stream.entries.map StreamEntry.document)

def EntryStream.reading (stream : EntryStream) : Reading :=
  if stream.closed then ⟨(Document.array stream.elements).callbacks, false⟩
  else ⟨.startArray :: stream.elements.callbacks, true⟩

/-! ## What entries say -/

section

open StringPath (elementsMatch length_eq_of_like like not_like_of_length)

variable {F : Type u} [Conversions F]

/-- The extractor before an entry that is taken alone. -/
def JsonDataExtractor.fresh : JsonDataExtractor F :=
  .initial fun _ _ => ""

/-- The extractor behind an entry. -/
def JsonDataExtractor.take (extractor : JsonDataExtractor F) (entry : StreamEntry) :
    JsonDataExtractor F :=
  (visitAll entry.calls { builder := extractor, path := ["_"] }).builder

variable (F)

/-- What an entry hands over by itself, to an extractor that got nothing before. Without a known type
it is nothing. -/
def StreamEntry.own (entry : StreamEntry) : List (Info F) :=
  match entry.extractor with
  | some _ => (JsonDataExtractor.fresh.take entry).consumed
  | none => []

/-- The sink gets what each entry hands over by itself, and another finish info if the text stops or
no entry has handed over anything. -/
def EntryStream.own (stream : EntryStream) : List (Info F) :=
  stream.entries.flatMap (StreamEntry.own F) ++
    if stream.closed ∧ ∃ entry ∈ stream.entries, entry.extractor.isSome then []
    else [.finish { offset := Conversions.unset }]

/-- The sink gets this of the stream, and of every beginning of it that stops behind an entry. -/
def EntryStream.IsIndependent (memory : Memory) (stream : EntryStream) : Prop :=
  received F memory stream.reading = some (stream.own F) ∧
    ∀ front, front <+: stream.entries →
      received F memory (mk front false).reading = some ((mk front false).own F)

variable {F}

/-! ## Kept fields -/

attribute [ext] BeginInfo MessageInfo IntervalInfo DeclareStateInfo ActiveStateInfo HeartbeatInfo
  FinishInfo

/-- The value of an argument for an extractor. -/
def scalarArg : Scalar → Option (ExtractorArg F)
  | .nothing => none
  | .bool value => some (.bool value)
  | .int64 value => some (.int64 value)
  | .uint64 value => some (.uint64 value)
  | .double bits => some (.float (Conversions.ofDouble bits))
  | .string value => some (.string (bytesOf value))

namespace ExtractorArg

def text : ExtractorArg F → Option Block
  | .string value => some value
  | _ => none

def identifier (arg : ExtractorArg F) : Option Identifier :=
  arg.text.map .ofChars

def timestamp (arg : ExtractorArg F) : Option Int :=
  arg.text.bind (Conversions.parseTimestamp F)

def severity (arg : ExtractorArg F) : Option LogEventSeverity :=
  arg.text.map fun value => (severityOf value).getD .info

def unsigned : ExtractorArg F → Option (BitVec 64)
  | .uint64 value => some value
  | _ => none

def integer : ExtractorArg F → Option (BitVec 64)
  | .int64 value => some value
  | .uint64 value => some value
  | _ => none

end ExtractorArg

variable (F)

/-- A field that is not reset between entries: the member that sets it, by which values, and whether
it has the value that it had before the stream. -/
structure KeptField where
  name : String
  sets : Scalar → Bool
  isDefault : JsonDataExtractor F → Prop

variable {F}

def KeptField.of {V : Type v} (name : String) (value : ExtractorArg F → Option V)
    (get : JsonDataExtractor F → V) : KeptField F where
  name := name
  sets scalar := ((scalarArg scalar).bind value).isSome
  isDefault extractor := get extractor = get .fresh

open ExtractorArg in
/-- The fields that the extractors keep. -/
def keptFields : ExtractorKind → List (KeptField F)
  | .begin =>
      [.of "time" timestamp (·.beginInfo.start), .of "session" text (·.beginInfo.session),
        .of "identity" text (·.beginInfo.identity)]
  | .message =>
      [.of "ts" number (·.messageInfo.offset), .of "f" text (·.messageInfo.format),
        .of "lvl" severity (·.messageInfo.severity), .of "src" identifier (·.messageInfo.source),
        .of "iid" unsigned (·.messageInfo.instanceId)]
  | .interval =>
      [.of "tag" identifier (·.intervalInfo.tag), .of "iid" unsigned (·.intervalInfo.instanceId),
        .of "tns" integer (·.intervalInfo.duration)]
  | .declareState =>
      [.of "ts" number (·.declareStateInfo.offset), .of "src" identifier (·.declareStateInfo.source),
        .of "bgn" identifier (·.declareStateInfo.beginTag),
        .of "end" identifier (·.declareStateInfo.endTag),
        .of "iid" unsigned (·.declareStateInfo.instanceId)]
  | .activeState =>
      [.of "ts" number (·.activeStateInfo.offset), .of "src" identifier (·.activeStateInfo.source),
        .of "tag" identifier (·.activeStateInfo.tag),
        .of "iid" unsigned (·.activeStateInfo.instanceId)]
  | .heartbeat => [.of "ts" number (·.heartbeatInfo.offset)]
  | .finish => [.of "ts" number (·.finishInfo.offset)]

/-- A member of the entry sets the field. -/
def StreamEntry.Sets (entry : StreamEntry) (field : KeptField F) : Prop :=
  ∃ member ∈ entry.others.scalars, member.1 = field.name ∧ field.sets member.2 = true

/-- The extractor for a known type is found, and the entry sets every kept field that does not have
its default. No extractor is selected where an entry has no type. -/
def JsonDataExtractor.Suits (extractor : JsonDataExtractor F) (entry : StreamEntry) : Prop :=
  match entry.kind with
  | none => extractor.current = none
  | some kind =>
      ∀ selected ∈ extractorOf kind, (extractor.extractors.lookup kind).1 = some selected ∧
        ∀ field ∈ keptFields selected, entry.Sets field ∨ field.isDefault extractor

/-! ## What is written to a field -/

/-- The adder writes a value of the member to the field, and leaves it alone otherwise. -/
def Writes {I : Type v} {V : Type w} (adder : Adder F I) (get : I → V) (name : String)
    (value : ExtractorArg F → Option V) : Prop :=
  ∀ path arg info, get ((adder path arg info).getD info) =
    if path = ["_", name] then (value arg).getD (get info) else get info

section Writes

variable {I : Type v} {V : Type w} {X : Type x} {base : Adder F I} {get : I → V}
  {name other : String} {value : ExtractorArg F → Option V}

theorem like_member_iff (path : StringPath) (literal : name ≠ "*") :
    path.like ["_", name] = true ↔ path = ["_", name] := by
  rcases path with _ | ⟨first, _ | ⟨second, _ | ⟨third, others⟩⟩⟩
  · simp [like]
  · simp [like]
  · simp [like, elementsMatch, literal]
  · simp [like]

/-- The value of a member is used, everything else is left to the base. -/
def memberExtractor (name : String) (used : ExtractorArg F → Option X) (set : X → I → I)
    (base : Adder F I) : Adder F I :=
  fun path arg info =>
    match used arg with
    | some x => if path.like ["_", name] then some (set x info) else base path arg info
    | none => base path arg info

omit [Conversions F] in
theorem stringExtractor_eq (name : String) (set : Block → I → I) (base : Adder F I) :
    stringExtractor ["_", name] set base = memberExtractor name ExtractorArg.text set base := by
  funext path arg info
  cases arg <;> rfl

omit [Conversions F] in
theorem instanceExtractor_eq (set : BitVec 64 → I → I) (base : Adder F I) :
    instanceExtractor set base = memberExtractor "iid" ExtractorArg.unsigned set base := by
  funext path arg info
  cases arg <;> rfl

theorem offsetExtractor_eq (set : F → I → I) (base : Adder F I) :
    offsetExtractor set base = memberExtractor "ts" ExtractorArg.number set base := by
  funext path arg info
  cases arg <;> rfl

omit [Conversions F] in
theorem writes_attribExtractor : Writes (attribExtractor (F := F)) get name fun _ => none := by
  intro path arg info
  exact (ite_self _).symm

variable {used : ExtractorArg F → Option X} {set : X → I → I}

omit [Conversions F] in
/-- The member that is used writes to the field. -/
theorem Writes.here (literal : name ≠ "*")
    (written : X → Option V) (value_eq : ∀ arg, value arg = (used arg).bind written)
    (sets : ∀ x info, get (set x info) = (written x).getD (get info))
    (writes : Writes base get name fun _ => none) :
    Writes (memberExtractor name used set base) get name value := by
  intro path arg info
  have rest := writes path arg info
  rw [getD_none, ite_self] at rest
  rw [memberExtractor, value_eq]
  cases used arg with
  | none => simpa using rest
  | some x =>
      rw [bind_some]
      dsimp only
      by_cases isLike : path.like ["_", name] = true
      · rw [if_pos isLike, if_pos ((like_member_iff path literal).mp isLike), getD_some, sets]
      · rw [if_neg isLike, if_neg (mt (like_member_iff path literal).mpr isLike), rest]

omit [Conversions F] in
/-- Another member is used. -/
theorem Writes.behind (literal : other ≠ "*") (different : other ≠ name)
    (leaves : ∀ x info, get (set x info) = get info) (writes : Writes base get name value) :
    Writes (memberExtractor other used set base) get name value := by
  intro path arg info
  rw [memberExtractor]
  cases used arg with
  | none => exact writes path arg info
  | some x =>
      dsimp only
      by_cases isLike : path.like ["_", other] = true
      · have otherPath : path ≠ ["_", name] := by
          rw [(like_member_iff path literal).mp isLike]
          simpa using different
        rw [if_pos isLike, if_neg otherPath, getD_some, leaves]
      · rw [if_neg isLike]
        exact writes path arg info

omit [Conversions F] in
/-- The member that is used always writes to the field. -/
theorem Writes.always (literal : name ≠ "*")
    (converted : X → V) (value_eq : ∀ arg, value arg = (used arg).map converted)
    (sets : ∀ x info, get (set x info) = converted x)
    (writes : Writes base get name fun _ => none) :
    Writes (memberExtractor name used set base) get name value :=
  .here literal (some ∘ converted) (fun arg => (value_eq arg).trans (map_eq_bind ..)) sets
    writes

omit [Conversions F] in
/-- The value itself is written to the field. -/
theorem Writes.itself (literal : name ≠ "*") {used : ExtractorArg F → Option V} {set : V → I → I}
    (sets : ∀ x info, get (set x info) = x) (writes : Writes base get name fun _ => none) :
    Writes (memberExtractor name used set base) get name used :=
  .always literal id (fun _ => map_id_apply.symm) sets writes

end Writes

variable {path : StringPath}

section Kinds

open ExtractorArg

theorem writes_beginAdd :
    Writes beginAdd BeginInfo.start "time" (timestamp (F := F)) ∧
      Writes beginAdd BeginInfo.session "session" (text (F := F)) ∧
        Writes beginAdd BeginInfo.identity "identity" (text (F := F)) := by
  simp only [beginAdd, stringExtractor_eq]
  refine ⟨?_, ?_, ?_⟩
  · refine .here (by simp) _ (fun _ => rfl) (fun x info => ?_) ?_
    · cases Conversions.parseTimestamp F x <;> rfl
    · exact .behind (by simp) (by simp) (fun _ _ => rfl)
        (.behind (by simp) (by simp) (fun _ _ => rfl) writes_attribExtractor)
  · refine .behind (by simp) (by simp) (fun x info => ?_) ?_
    · cases Conversions.parseTimestamp F x <;> rfl
    · exact .itself (by simp) (fun _ _ => rfl)
        (.behind (by simp) (by simp) (fun _ _ => rfl) writes_attribExtractor)
  · refine .behind (by simp) (by simp) (fun x info => ?_) ?_
    · cases Conversions.parseTimestamp F x <;> rfl
    · exact .behind (by simp) (by simp) (fun _ _ => rfl)
        (.itself (by simp) (fun _ _ => rfl) writes_attribExtractor)

theorem writes_declareStateAdd :
    Writes (declareStateAdd (F := F)) DeclareStateInfo.offset "ts" number ∧
      Writes (declareStateAdd (F := F)) DeclareStateInfo.source "src" identifier ∧
        Writes (declareStateAdd (F := F)) DeclareStateInfo.beginTag "bgn" identifier ∧
          Writes (declareStateAdd (F := F)) DeclareStateInfo.endTag "end" identifier ∧
            Writes (declareStateAdd (F := F)) DeclareStateInfo.instanceId "iid" unsigned ∧
              Writes (declareStateAdd (F := F)) DeclareStateInfo.stateTag "" fun _ => none := by
  simp only [declareStateAdd, sourceExtractor, stringExtractor_eq, instanceExtractor_eq,
    offsetExtractor_eq]
  refine ⟨?_, ?_, ?_, ?_, ?_, ?_⟩
  all_goals
    repeat first
      | exact writes_attribExtractor
      | refine .always (by simp) _ (fun _ => rfl) (fun _ _ => rfl) ?_
      | refine .itself (by simp) (fun _ _ => rfl) ?_
      | refine .behind (by simp) (by simp) (fun _ _ => rfl) ?_

theorem writes_activeStateAdd :
    Writes (activeStateAdd (F := F)) ActiveStateInfo.offset "ts" number ∧
      Writes (activeStateAdd (F := F)) ActiveStateInfo.source "src" identifier ∧
        Writes (activeStateAdd (F := F)) ActiveStateInfo.tag "tag" identifier ∧
          Writes (activeStateAdd (F := F)) ActiveStateInfo.instanceId "iid" unsigned := by
  simp only [activeStateAdd, tagExtractor, sourceExtractor, stringExtractor_eq,
    instanceExtractor_eq, offsetExtractor_eq]
  refine ⟨?_, ?_, ?_, ?_⟩
  all_goals
    repeat first
      | exact writes_attribExtractor
      | refine .always (by simp) _ (fun _ => rfl) (fun _ _ => rfl) ?_
      | refine .itself (by simp) (fun _ _ => rfl) ?_
      | refine .behind (by simp) (by simp) (fun _ _ => rfl) ?_

omit [Conversions F] in
theorem writes_intervalAdd :
    Writes (intervalAdd (F := F)) IntervalInfo.tag "tag" identifier ∧
      Writes (intervalAdd (F := F)) IntervalInfo.instanceId "iid" unsigned ∧
        Writes (intervalAdd (F := F)) IntervalInfo.duration "tns" integer := by
  have intervalAdd_eq : intervalAdd (F := F) =
      memberExtractor "tns" integer (fun value info => { info with duration := value })
        (memberExtractor "iid" unsigned (fun value info => { info with instanceId := value })
          (memberExtractor "tag" text (fun value info => { info with tag := .ofChars value })
            attribExtractor)) := by
    rw [← stringExtractor_eq, ← instanceExtractor_eq]
    funext path arg info
    cases arg <;> rfl
  rw [intervalAdd_eq]
  refine ⟨?_, ?_, ?_⟩
  all_goals
    repeat first
      | exact writes_attribExtractor
      | refine .always (by simp) _ (fun _ => rfl) (fun _ _ => rfl) ?_
      | refine .itself (by simp) (fun _ _ => rfl) ?_
      | refine .behind (by simp) (by simp) (fun _ _ => rfl) ?_

theorem writes_heartbeatAdd :
    Writes (heartbeatAdd (F := F)) HeartbeatInfo.offset "ts" number := by
  rw [heartbeatAdd, offsetExtractor_eq]
  exact .itself (by simp) (fun _ _ => rfl) writes_attribExtractor

theorem writes_finishAdd : Writes (finishAdd (F := F)) FinishInfo.offset "ts" number := by
  rw [finishAdd, offsetExtractor_eq]
  exact .itself (by simp) (fun _ _ => rfl) writes_attribExtractor

/-- What is left of `message_extractor` behind the format and the level: the members of arguments. -/
def argExtractor : Adder F (MessageInfo F) :=
  fun path arg info =>
    if path.like argPattern then messageAdd path arg info else messageBaseAdd path arg info

theorem messageAdd_eq :
    messageAdd (F := F) =
      memberExtractor "f" text (fun value info => { info with format := value })
        (memberExtractor "lvl" text
          (fun value info => { info with severity := (severityOf value).getD .info })
          argExtractor) := by
  funext path arg info
  by_cases isArg : path.like argPattern = true
  · have notMember : ∀ name, path.like ["_", name] = false := by
      intro name
      apply not_like_of_length
      rw [length_eq_of_like isArg]
      exact Nat.ne_of_beq_eq_false rfl
    simp only [memberExtractor, notMember, argExtractor, isArg, if_true]
    cases arg <;> rfl
  · simp only [memberExtractor, argExtractor, isArg, Bool.false_eq_true, if_false]
    cases arg with
    | string value => simp only [messageAdd, text, isArg, Bool.false_eq_true, if_false]
    | _ => simp [messageAdd, addValue, text, isArg]

/-- What a member of an argument does depends on the member only. -/
theorem messageAdd_arg (isArg : path.like argPattern = true) (arg : ExtractorArg F) :
    (∀ info, messageAdd path arg info = none) ∨
      (∃ change, ∀ info, messageAdd path arg info = some (info.modifyArg change)) ∨
        ∀ info, messageAdd path arg info = messageBaseAdd path arg info := by
  have value (value : ArgValue F) (number : F) :
      (∃ change, ∀ info, addValue value number arg path info = some (info.modifyArg change)) ∨
        ∀ info, addValue value number arg path info = messageBaseAdd path arg info := by
    simp only [addValue, isArg, if_true]
    split_ifs
    · exact Or.inl ⟨_, fun _ => rfl⟩
    · exact Or.inl ⟨_, fun _ => rfl⟩
    · exact Or.inl ⟨_, fun _ => rfl⟩
    · exact Or.inr fun _ => rfl
  have notMember : ∀ name, path.like ["_", name] = false := by
    intro name
    apply not_like_of_length
    rw [length_eq_of_like isArg]
    exact Nat.ne_of_beq_eq_false rfl
  cases arg with
  | string text =>
      simp only [messageAdd, notMember, isArg, Bool.false_eq_true, if_false, if_true]
      split_ifs
      · exact Or.inr (Or.inl ⟨_, fun _ => rfl⟩)
      · exact Or.inr (Or.inl ⟨_, fun _ => rfl⟩)
      · exact Or.inr (Or.inl ⟨_, fun _ => rfl⟩)
      · exact Or.inl fun _ => rfl
  | _ => exact Or.inr (value _ _)

theorem Writes.argExtractor {V : Type w} {get : MessageInfo F → V} {name : String}
    {value : ExtractorArg F → Option V} (kept : ∀ change info, get (info.modifyArg change) = get info)
    (writes : Writes messageBaseAdd get name value) : Writes argExtractor get name value := by
  intro path arg info
  rw [LogServer.argExtractor]
  split_ifs with isArg isMember
  · rw [isMember] at isArg
    exact Bool.noConfusion isArg
  · have base := writes path arg info
    rw [if_neg isMember] at base
    rcases messageAdd_arg isArg arg with nothing | ⟨change, changed⟩ | same
    · rw [nothing, getD_none]
    · rw [changed, getD_some, kept]
    · rw [same, base]
  · exact (writes path arg info).trans (if_pos ‹_›)
  · exact (writes path arg info).trans (if_neg ‹_›)

theorem writes_messageBaseAdd :
    Writes (messageBaseAdd (F := F)) MessageInfo.offset "ts" number ∧
      Writes (messageBaseAdd (F := F)) MessageInfo.source "src" identifier ∧
        Writes (messageBaseAdd (F := F)) MessageInfo.tag "tag" identifier ∧
          Writes (messageBaseAdd (F := F)) MessageInfo.instanceId "iid" unsigned ∧
            Writes (messageBaseAdd (F := F)) MessageInfo.format "f" (fun _ => none) ∧
              Writes (messageBaseAdd (F := F)) MessageInfo.severity "lvl" (fun _ => none) ∧
                Writes (messageBaseAdd (F := F)) MessageInfo.args "" fun _ => none := by
  simp only [messageBaseAdd, tagExtractor, sourceExtractor, stringExtractor_eq,
    instanceExtractor_eq, offsetExtractor_eq]
  refine ⟨?_, ?_, ?_, ?_, ?_, ?_, ?_⟩
  all_goals
    repeat first
      | exact writes_attribExtractor
      | refine .always (by simp) _ (fun _ => rfl) (fun _ _ => rfl) ?_
      | refine .itself (by simp) (fun _ _ => rfl) ?_
      | refine .behind (by simp) (by simp) (fun _ _ => rfl) ?_

theorem writes_messageAdd :
    Writes (messageAdd (F := F)) MessageInfo.offset "ts" number ∧
      Writes (messageAdd (F := F)) MessageInfo.format "f" text ∧
        Writes (messageAdd (F := F)) MessageInfo.severity "lvl" severity ∧
          Writes (messageAdd (F := F)) MessageInfo.source "src" identifier ∧
            Writes (messageAdd (F := F)) MessageInfo.tag "tag" identifier ∧
              Writes (messageAdd (F := F)) MessageInfo.instanceId "iid" unsigned := by
  rcases writes_messageBaseAdd (F := F) with ⟨offset, source, tag, instanceId, format, level, -⟩
  rw [messageAdd_eq]
  refine ⟨?_, ?_, ?_, ?_, ?_, ?_⟩
  · exact .behind (by simp) (by simp) (fun _ _ => rfl)
      (.behind (by simp) (by simp) (fun _ _ => rfl) (.argExtractor (fun _ _ => rfl) offset))
  · exact .itself (by simp) (fun _ _ => rfl)
      (.behind (by simp) (by simp) (fun _ _ => rfl) (.argExtractor (fun _ _ => rfl) format))
  · exact .behind (by simp) (by simp) (fun _ _ => rfl)
      (.always (by simp) _ (fun _ => rfl) (fun _ _ => rfl) (.argExtractor (fun _ _ => rfl) level))
  · exact .behind (by simp) (by simp) (fun _ _ => rfl)
      (.behind (by simp) (by simp) (fun _ _ => rfl) (.argExtractor (fun _ _ => rfl) source))
  · exact .behind (by simp) (by simp) (fun _ _ => rfl)
      (.behind (by simp) (by simp) (fun _ _ => rfl) (.argExtractor (fun _ _ => rfl) tag))
  · exact .behind (by simp) (by simp) (fun _ _ => rfl)
      (.behind (by simp) (by simp) (fun _ _ => rfl) (.argExtractor (fun _ _ => rfl) instanceId))

/-- The arguments that a message has then depend on those before only. -/
theorem args_messageAdd (path : StringPath) (arg : ExtractorArg F) :
    ∃ change : List (ArgInfo F) → List (ArgInfo F),
      ∀ info, ((messageAdd path arg info).getD info).args = change info.args := by
  rcases writes_messageBaseAdd (F := F) with ⟨-, -, -, -, -, -, args⟩
  have base : ∀ info, ((messageBaseAdd path arg info).getD info).args = info.args := by
    intro info
    have written := args path arg info
    rwa [getD_none, ite_self] at written
  by_cases isArg : path.like argPattern = true
  · rcases messageAdd_arg isArg arg with nothing | ⟨change, changed⟩ | same
    · exact ⟨id, fun info => by rw [nothing]; rfl⟩
    · exact ⟨List.modifyLast change, fun info => by rw [changed]; rfl⟩
    · exact ⟨id, fun info => by rw [same]; exact base info⟩
  · refine ⟨id, fun info => ?_⟩
    have rest : argExtractor path arg info = messageBaseAdd path arg info := if_neg isArg
    rw [messageAdd_eq]
    simp only [memberExtractor, rest, id]
    cases arg.text with
    | none => exact base info
    | some value =>
        dsimp only
        split_ifs
        · rfl
        · rfl
        · exact base info

end Kinds

/-! ## The extractor that is selected -/

theorem not_like_type {name : String} (notType : name ≠ "t") :
    like (["_"] ++ [name]) ["_", "t"] = false := by
  simp [like, elementsMatch, notType]

/-- The same extractor is selected, nothing was looked up, and the sink was told the same. -/
structure Aside (before after : JsonDataExtractor F) : Prop where
  current : after.current = before.current
  extractors : after.extractors = before.extractors
  consumed : after.consumed = before.consumed
  clean : after.cleanFinish = before.cleanFinish

omit [Conversions F] in
theorem Aside.trans {first second third : JsonDataExtractor F} (one : Aside first second)
    (two : Aside second third) : Aside first third :=
  ⟨two.current.trans one.current, two.extractors.trans one.extractors,
    two.consumed.trans one.consumed, two.clean.trans one.clean⟩

namespace JsonDataExtractor

variable (extractor : JsonDataExtractor F)

theorem addArg_aside (path : StringPath) (arg : ExtractorArg F) :
    Aside extractor (extractor.addArg path arg) := by
  unfold addArg
  split <;> exact ⟨rfl, rfl, rfl, rfl⟩

omit [Conversions F] in
/-- Only a message gets an argument. -/
theorem addObject_eq (path : StringPath) :
    extractor.addObject path =
      { extractor with messageInfo := (extractor.addObject path).messageInfo } := by
  unfold addObject
  split_ifs <;> rfl

omit [Conversions F] in
theorem addObject_aside (path : StringPath) : Aside extractor (extractor.addObject path) := by
  rw [addObject_eq]
  exact ⟨rfl, rfl, rfl, rfl⟩

/-- Where the path is not that of a type, the first value is an argument if it is one. -/
theorem add_eq (notType : path.like ["_", "t"] = false) (values : List Scalar) :
    extractor.add path values =
      ((values.head?.bind scalarArg).map fun arg => extractor.addArg path arg).getD extractor := by
  cases values with
  | nil => rfl
  | cons value values =>
      cases value with
      | string text =>
          have notTypeString : ¬path.like ["_", "t"] = true := Bool.not_eq_true _ ▸ notType
          exact if_neg notTypeString
      | _ => rfl

omit [Conversions F] in
theorem finishObject_inside (deep : 2 ≤ path.length) :
    extractor.finishObject path = extractor := by
  have notEntry : path.like ["_"] = false :=
    not_like_of_length (Nat.ne_of_gt deep)
  unfold finishObject
  rw [notEntry]
  split <;> rfl

end JsonDataExtractor

/-- A member writes to a field of the extractor while a kind of extractor is selected. -/
structure Holds (kind : ExtractorKind) {V : Type v} (get : JsonDataExtractor F → V) (name : String)
    (value : ExtractorArg F → Option V) : Prop where
  addArg : ∀ path arg extractor, extractor.current = some kind →
    get (extractor.addArg path arg) =
      if path = ["_", name] then (value arg).getD (get extractor) else get extractor
  addObject : ∀ path extractor, get (extractor.addObject path) = get extractor

variable {before after : JsonDataExtractor F}

section Holds

variable {V : Type v} {name : String} {value : ExtractorArg F → Option V}

/-- What an adder writes to its info is written to the extractor. -/
theorem Writes.holds {I : Type w} {adder : Adder F I} {get : I → V} {kind : ExtractorKind}
    (writes : Writes adder get name value) (info : JsonDataExtractor F → I)
    (added : ∀ path arg extractor, extractor.current = some kind →
      info (extractor.addArg path arg) = (adder path arg (info extractor)).getD
        (info extractor) := by
        intro path arg extractor selected
        rw [JsonDataExtractor.addArg, selected])
    (kept : ∀ path extractor, get (info (extractor.addObject path)) = get (info extractor) := by
      intro path extractor
      rw [extractor.addObject_eq]) :
    Holds kind (fun extractor => get (info extractor)) name value where
  addArg path arg extractor selected := by
    rw [added path arg extractor selected]
    exact writes path arg (info extractor)
  addObject := kept

theorem Writes.begin {get : BeginInfo → V} (writes : Writes beginAdd get name value) :
    Holds .begin (fun extractor => get extractor.beginInfo) name value :=
  writes.holds _

/-- A new argument is not in the field. -/
theorem Writes.message {get : MessageInfo F → V} (writes : Writes messageAdd get name value)
    (kept : ∀ args info, get { info with args := args } = get info) :
    Holds .message (fun extractor => get extractor.messageInfo) name value := by
  refine writes.holds _ (fun path arg extractor selected => ?_) fun path extractor => ?_
  · rw [JsonDataExtractor.addArg, selected]
  · unfold JsonDataExtractor.addObject
    split_ifs
    · exact kept _ _
    · rfl

theorem Writes.interval {get : IntervalInfo → V} (writes : Writes intervalAdd get name value) :
    Holds .interval (fun extractor => get extractor.intervalInfo) name value :=
  writes.holds _

theorem Writes.declareState {get : DeclareStateInfo F → V}
    (writes : Writes declareStateAdd get name value) :
    Holds .declareState (fun extractor => get extractor.declareStateInfo) name value :=
  writes.holds _

theorem Writes.activeState {get : ActiveStateInfo F → V}
    (writes : Writes activeStateAdd get name value) :
    Holds .activeState (fun extractor => get extractor.activeStateInfo) name value :=
  writes.holds _

theorem Writes.heartbeat {get : HeartbeatInfo F → V}
    (writes : Writes heartbeatAdd get name value) :
    Holds .heartbeat (fun extractor => get extractor.heartbeatInfo) name value :=
  writes.holds _

theorem Writes.finish {get : FinishInfo F → V} (writes : Writes finishAdd get name value) :
    Holds .finish (fun extractor => get extractor.finishInfo) name value :=
  writes.holds _

variable {kind : ExtractorKind} {get : JsonDataExtractor F → V}

/-- Values in containers do not write to the field. -/
theorem Holds.keptBelow (holds : Holds kind get name value) (kept : V) :
    KeptBelow 2 fun extractor : JsonDataExtractor F =>
      extractor.current = some kind ∧ get extractor = kept where
  add := by
    rintro path extractor values deep ⟨selected, rfl⟩
    have notType : path.like ["_", "t"] = false :=
      not_like_of_length (Nat.ne_of_gt deep)
    have notMember : path ≠ ["_", name] := by
      rintro rfl
      exact Nat.lt_irrefl 2 deep
    change (extractor.add path values).current = _ ∧ get (extractor.add path values) = _
    rw [extractor.add_eq notType]
    cases values.head?.bind (scalarArg (F := F)) with
    | none => exact ⟨selected, rfl⟩
    | some arg =>
        refine ⟨(extractor.addArg_aside path arg).current.trans selected, ?_⟩
        exact (holds.addArg path arg extractor selected).trans (if_neg notMember)
  addObject := by
    rintro path extractor deep ⟨selected, rfl⟩
    exact ⟨(extractor.addObject_aside path).current.trans selected, holds.addObject path extractor⟩
  finishObject := by
    rintro path extractor deep before
    rwa [show ObjectBuilder.finishObject path extractor = extractor from
      extractor.finishObject_inside deep]

/-- A value of a member writes to the field. -/
def memberWrite (name : String) (value : ExtractorArg F → Option V) (member : String)
    (scalar : Scalar) : Option V :=
  if member = name then (scalarArg scalar).bind value else none

theorem Holds.member (holds : Holds kind get name value) {member : String} (notType : member ≠ "t")
    (scalar : Scalar) (extractor : JsonDataExtractor F) (selected : extractor.current = some kind) :
    (extractor.add (["_"] ++ [member]) [scalar]).current = some kind ∧
      get (extractor.add (["_"] ++ [member]) [scalar]) =
        (memberWrite name value member scalar).getD (get extractor) := by
  rw [extractor.add_eq (not_like_type notType), memberWrite, head?_cons, bind_some]
  cases scalarArg (F := F) scalar with
  | none => exact ⟨selected, by simp⟩
  | some arg =>
      refine ⟨(extractor.addArg_aside _ arg).current.trans selected, ?_⟩
      refine (holds.addArg _ arg extractor selected).trans ?_
      by_cases isMember : member = name
      · rw [if_pos isMember, if_pos (by rw [isMember]; rfl), bind_some]
      · rw [if_neg isMember, if_neg (by simpa using isMember), getD_none]

/-- The field has in the end what the members write to it. -/
theorem Holds.settles (holds : Holds kind get name value) {members : Members}
    (single : "t" ∉ members.names)
    (takes : members.Takes ["_"] before after) (selected : before.current = some kind) :
    get after = settle (get before)
      (members.scalars.map fun member => memberWrite name value member.1 member.2) := by
  refine takes.settles holds.keptBelow (fun member within scalar extractor selected => ?_) selected
  exact holds.member (ne_of_mem_of_not_mem within single) scalar extractor selected

end Holds

/-! ## An entry -/

theorem add_aside (notType : path.like ["_", "t"] = false)
    (values : List Scalar) (extractor : JsonDataExtractor F) :
    Aside extractor (extractor.add path values) := by
  rw [extractor.add_eq notType]
  cases values.head?.bind (scalarArg (F := F)) with
  | none => exact ⟨rfl, rfl, rfl, rfl⟩
  | some arg => exact extractor.addArg_aside path arg

theorem keptBelow_aside (before : JsonDataExtractor F) : KeptBelow 2 (Aside before) where
  add := by
    intro path extractor values deep aside
    have notType : path.like ["_", "t"] = false :=
      not_like_of_length (Nat.ne_of_gt deep)
    exact aside.trans (add_aside notType values extractor)
  addObject := by
    intro path extractor deep aside
    exact aside.trans (extractor.addObject_aside path)
  finishObject := by
    intro path extractor deep aside
    rwa [show ObjectBuilder.finishObject path extractor = extractor from
      extractor.finishObject_inside deep]

/-- The members that are no type leave the selection and the sink alone. -/
theorem aside_of_takes {members : Members} (single : "t" ∉ members.names)
    (takes : members.Takes ["_"] before after) :
    Aside before after := by
  refine takes.keeps (keptBelow_aside before) (fun name within value extractor aside => ?_)
    ⟨rfl, rfl, rfl, rfl⟩
  have notType : name ≠ "t" := ne_of_mem_of_not_mem within single
  exact aside.trans (add_aside (not_like_type notType) [value] extractor)

namespace JsonDataExtractor

/-- The extractor behind the type of an entry. -/
def opened (kind : Option String) (extractor : JsonDataExtractor F) : JsonDataExtractor F :=
  match kind with
  | some kind => extractor.select kind
  | none => extractor

/-- The info that the extractor of the kind has for the sink. -/
def infoBy (kind : ExtractorKind) (extractor : JsonDataExtractor F) : Info F :=
  match kind with
  | .begin => .begin extractor.beginInfo
  | .message =>
      .message
        { extractor.messageInfo with args := extractor.messageInfo.args.map translate }
  | .interval => .interval extractor.intervalInfo
  | .declareState => .declareState extractor.declareStateInfo
  | .activeState => .activeState extractor.activeStateInfo
  | .heartbeat => .heartbeat extractor.heartbeatInfo
  | .finish => .finish { extractor.finishInfo with clean := true }

omit [Conversions F] in
theorem reset_aside (extractor : JsonDataExtractor F) : Aside extractor extractor.reset := by
  unfold reset
  split <;> exact ⟨rfl, rfl, rfl, rfl⟩

omit [Conversions F] in
theorem consumeBy_eq (kind : ExtractorKind) (extractor : JsonDataExtractor F) :
    (extractor.consumeBy kind).consumed = extractor.consumed ++ [extractor.infoBy kind] ∧
      (extractor.consumeBy kind).current = extractor.current := by
  cases kind <;> exact ⟨rfl, rfl⟩

omit [Conversions F] in
/-- At the end of an entry the sink gets the info of the extractor that is selected. -/
theorem finishObject_entry (extractor : JsonDataExtractor F) :
    (extractor.finishObject ["_"]).current = extractor.current ∧
      (extractor.finishObject ["_"]).consumed =
        extractor.consumed ++ (extractor.current.map extractor.infoBy).toList ∧
      (extractor.finishObject ["_"]).cleanFinish =
        (extractor.cleanFinish || extractor.current.isSome) := by
  have isEntry : like ["_"] ["_"] = true := rfl
  unfold finishObject
  cases selected : extractor.current with
  | none => simp [selected]
  | some kind =>
      rcases consumeBy_eq kind extractor with ⟨consumed_eq, current_eq⟩
      simp [isEntry, consumed_eq, current_eq, selected]

/-- An entry is taken member by member. -/
theorem take_taken (extractor : JsonDataExtractor F) (entry : StreamEntry) :
    ∃ built, entry.others.Takes ["_"] (extractor.opened entry.kind) built ∧
      extractor.take entry = built.finishObject ["_"] := by
  let start : BuildingVisitor (JsonDataExtractor F) := { builder := extractor, path := ["_"] }
  have atEntry : (visited start { listStack := [true] }).path = ["_"] := rfl
  rcases takes_object entry.members entry.members_wellNamed atEntry ⟨rfl, rfl, rfl⟩ with
    ⟨after, built, runEq, -, -, -, -, takes, builder_eq⟩
  have calls_eq : entry.calls = after.calls := by
    rw [StreamEntry.calls, StreamEntry.document, runEq]
    rfl
  have take_eq : extractor.take entry = built.finishObject ["_"] := by
    rw [take, calls_eq]
    exact builder_eq
  refine ⟨built, ?_, take_eq⟩
  have unopened : ObjectBuilder.addObject ["_"] (visited start { listStack := [true] }).builder =
      extractor := addObject_entry extractor
  rw [unopened, StreamEntry.members] at takes
  cases kind_eq : entry.kind with
  | none =>
      rw [kind_eq] at takes
      exact takes
  | some kind =>
      rw [kind_eq] at takes
      cases takes with
      | scalar scalar rest =>
          cases scalar
          exact rest
      | container isContainer _ _ => cases isContainer

end JsonDataExtractor

/-! ## What is not kept -/

/-- If messages are selected in both extractors, they have the same arguments. -/
def SameArgs (one other : JsonDataExtractor F) : Prop :=
  one.current = some .message → other.current = some .message →
    one.messageInfo.args = other.messageInfo.args

variable {one other : JsonDataExtractor F}

theorem SameArgs.addArg (same : SameArgs one other) (path : StringPath) (arg : ExtractorArg F) :
    SameArgs (one.addArg path arg) (other.addArg path arg) := by
  rw [SameArgs, (one.addArg_aside path arg).current, (other.addArg_aside path arg).current]
  intro selected selectedOther
  rcases args_messageAdd path arg with ⟨change, changed⟩
  rw [JsonDataExtractor.addArg, JsonDataExtractor.addArg, selected, selectedOther]
  exact (changed _).trans
    ((congrArg change (same selected selectedOther)).trans (changed _).symm)

omit [Conversions F] in
theorem SameArgs.reset (one other : JsonDataExtractor F) : SameArgs one.reset other.reset := by
  rw [SameArgs, one.reset_aside.current, other.reset_aside.current]
  intro selected selectedOther
  rw [JsonDataExtractor.reset, JsonDataExtractor.reset, selected, selectedOther]

theorem SameArgs.add (same : SameArgs one other) (path : StringPath) (values : List Scalar) :
    SameArgs (one.add path values) (other.add path values) := by
  by_cases isType : path.like ["_", "t"] = true
  · cases values with
    | nil => exact same
    | cons value values =>
        cases value with
        | nothing => exact same
        | string text =>
            rw [JsonDataExtractor.add, JsonDataExtractor.add, JsonDataExtractor.addString,
              JsonDataExtractor.addString, if_pos isType, if_pos isType]
            exact .reset _ _
        | _ => exact same.addArg path _
  · rw [one.add_eq (Bool.not_eq_true _ ▸ isType), other.add_eq (Bool.not_eq_true _ ▸ isType)]
    cases values.head?.bind (scalarArg (F := F)) with
    | none => exact same
    | some arg => exact same.addArg path arg

omit [Conversions F] in
theorem SameArgs.addObject (same : SameArgs one other) (path : StringPath) :
    SameArgs (one.addObject path) (other.addObject path) := by
  rw [SameArgs, (one.addObject_aside path).current, (other.addObject_aside path).current]
  intro selected selectedOther
  have args := same selected selectedOther
  by_cases isArg : path.like ["_", "a", "_"] = true
  · simp [JsonDataExtractor.addObject, selected, selectedOther, isArg, args]
  · simp [JsonDataExtractor.addObject, isArg, args]

omit [Conversions F] in
theorem current_finishObject (path : StringPath) (extractor : JsonDataExtractor F) :
    (extractor.finishObject path).current = extractor.current := by
  unfold JsonDataExtractor.finishObject
  split
  · split_ifs
    · exact (extractor.consumeBy_eq _).2
    · rfl
  · rfl

omit [Conversions F] in
theorem SameArgs.finishObject (same : SameArgs one other) (path : StringPath) :
    SameArgs (one.finishObject path) (other.finishObject path) := by
  rw [SameArgs, current_finishObject, current_finishObject]
  intro selected selectedOther
  rw [JsonDataExtractor.finishObject, JsonDataExtractor.finishObject, selected, selectedOther]
  dsimp only
  split_ifs
  · exact congrArg (List.map translate) (same selected selectedOther)
  · exact same selected selectedOther

theorem respected_sameArgs : Respected (SameArgs (F := F)) where
  add path values _ _ same := same.add path values
  addObject path _ _ same := same.addObject path
  finishObject path _ _ same := same.finishObject path

/-- The type of an entry is visited before everything else in it. -/
theorem StreamEntry.calls_of_kind {entry : StreamEntry} {kind : String}
    (kind_eq : entry.kind = some kind) :
    ∃ others, entry.calls =
      [.beginStruct, .beginAttribute "t", .consume [.string kind]] ++ others := by
  let start : BuildingVisitor (JsonDataExtractor KeptNumber) :=
    { builder := .fresh, path := ["_", "t"] }
  let typed : StreamParser :=
    { attrStack := ["t"], listStack := [false, true], oldValTyp := .other }
  have inMember : (visited start typed).path = memberPath ["_"] "t" := by
    rw [memberPath, if_neg (by simp)]
    rfl
  rcases takes_members entry.others entry.named (rfl : typed.attrStack = "t" :: []) inMember
    ⟨rfl, rfl, rfl⟩ (by simp [StreamParser.InList, typed]) with
    ⟨middle, last, runOthers, attrs, -, lists, -, -⟩
  have lists : middle.listStack = [false, true] := lists
  have runRest : StreamParser.run (entry.others.callbacks ++ [.endObject entry.members.length])
      typed = some (endObject last [] [true] middle) := by
    rw [run_append, runOthers, bind_some, run_one]
    simp only [StreamParser.handle, attrs, lists, endObject]
  have runType : ∃ parser, StreamParser.run [.startObject, .key "t", .string kind]
      { listStack := [true] } = some parser ∧
        Behind [.beginStruct, .beginAttribute "t", .consume [.string kind]] typed parser :=
    ⟨_, rfl, rfl, rfl, rfl, rfl, rfl, rfl, Or.inl rfl⟩
  rcases runType with ⟨parser, runType, behind⟩
  rcases behind.run runRest with ⟨after, runAfter, behindAfter⟩
  have callbacks_eq : entry.document.callbacks = [.startObject, .key "t", .string kind] ++
      (entry.others.callbacks ++ [.endObject entry.members.length]) := by
    rw [StreamEntry.document, Document.callbacks, StreamEntry.members, kind_eq]
    rfl
  refine ⟨(endObject last [] [true] middle).calls, ?_⟩
  rw [StreamEntry.calls, callbacks_eq, run_append, runType, bind_some, runAfter]
  exact behindAfter.calls_eq

/-- The tag of a state is never written. -/
theorem addArg_stateTag (path : StringPath) (arg : ExtractorArg F) (extractor : JsonDataExtractor F) :
    (extractor.addArg path arg).declareStateInfo.stateTag = extractor.declareStateInfo.stateTag := by
  rcases writes_declareStateAdd (F := F) with ⟨-, -, -, -, -, stateTag⟩
  have written := stateTag path arg extractor.declareStateInfo
  rw [getD_none, ite_self] at written
  unfold JsonDataExtractor.addArg
  split
  · rfl
  · rfl
  · rfl
  · exact written
  · rfl
  · rfl
  · rfl
  · rfl

omit [Conversions F] in
theorem finishObject_stateTag (path : StringPath) (extractor : JsonDataExtractor F) :
    (extractor.finishObject path).declareStateInfo.stateTag =
      extractor.declareStateInfo.stateTag := by
  unfold JsonDataExtractor.finishObject
  split
  · split_ifs
    · rename_i kind _ _
      cases kind <;> rfl
    · rfl
  · rfl

theorem respected_stateTag (tag : Identifier) :
    Respected fun one _ : JsonDataExtractor F => one.declareStateInfo.stateTag = tag where
  add path values one _ same := by
    change (one.add path values).declareStateInfo.stateTag = tag
    unfold JsonDataExtractor.add
    split
    · rwa [addArg_stateTag]
    · rwa [addArg_stateTag]
    · rwa [addArg_stateTag]
    · rwa [addArg_stateTag]
    · unfold JsonDataExtractor.addString JsonDataExtractor.select JsonDataExtractor.reset
      split_ifs
      · dsimp only
        split <;> exact same
      · rwa [addArg_stateTag]
    · exact same
  addObject path one _ same := by
    change (one.addObject path).declareStateInfo.stateTag = tag
    unfold JsonDataExtractor.addObject
    split_ifs <;> exact same
  finishObject path one _ same := (finishObject_stateTag path one).trans same

/-! ## What is handed over for an entry -/

section Handed

variable {kind : ExtractorKind} {map mapAlone : ExtractorMap} {entry : StreamEntry}
  {extractor one other : JsonDataExtractor F}

/-- A field is the same as for the entry alone if it is set or has its default. -/
theorem Holds.same_iff {V : Type v} {get : JsonDataExtractor F → V} {name : String}
    {value : ExtractorArg F → Option V} (holds : Holds kind get name value)
    (takes : entry.others.Takes ["_"] (extractor.typed kind map) one)
    (takesAlone : entry.others.Takes ["_"] (JsonDataExtractor.fresh.typed kind mapAlone) other)
    (unreset : ∀ (extractor : JsonDataExtractor F) map,
      get (extractor.typed kind map) = get extractor) :
    get one = get other ↔
      entry.Sets (.of name value get) ∨ (KeptField.of name value get).isDefault extractor := by
  have selected (extractor : JsonDataExtractor F) (map : ExtractorMap) :
      (extractor.typed kind map).current = some kind :=
    (JsonDataExtractor.reset_aside
      { extractor with current := some kind, extractors := map }).current
  rw [holds.settles entry.single takes (selected _ _),
    holds.settles entry.single takesAlone (selected _ _), unreset, unreset, settle_eq_settle_iff]
  refine or_congr ?_ Iff.rfl
  simp only [List.mem_map, exists_exists_and_eq_and]
  refine exists_congr fun member => and_congr_right fun _ => ?_
  rw [memberWrite, KeptField.of]
  by_cases isMember : member.1 = name
  · rw [if_pos isMember]
    exact (and_iff_right isMember).symm
  · rw [if_neg isMember]
    simp [isMember]

open JsonDataExtractor in
/-- The info is the same as for the entry alone if all kept fields are. -/
theorem infoBy_same_iff
    (takes : entry.others.Takes ["_"] (extractor.typed kind map) one)
    (takesAlone : entry.others.Takes ["_"] (fresh.typed kind mapAlone) other)
    (args : kind = .message →
      one.messageInfo.args.map translate = other.messageInfo.args.map translate)
    (stateTag : one.declareStateInfo.stateTag = other.declareStateInfo.stateTag) :
    one.infoBy kind = other.infoBy kind ↔
      ∀ field ∈ keptFields kind, entry.Sets field ∨ field.isDefault extractor := by
  cases kind with
  | begin =>
      rcases writes_beginAdd (F := F) with ⟨start, session, identity⟩
      have startIff := start.begin.same_iff takes takesAlone fun _ _ => rfl
      have sessionIff := session.begin.same_iff takes takesAlone fun _ _ => rfl
      have identityIff := identity.begin.same_iff takes takesAlone fun _ _ => rfl
      simp [keptFields, infoBy, BeginInfo.ext_iff, ← startIff, ← sessionIff, ← identityIff]
  | message =>
      rcases writes_messageAdd (F := F) with ⟨offset, format, severity, source, tag, instanceId⟩
      have offsetIff := (offset.message fun _ _ => rfl).same_iff takes takesAlone fun _ _ => rfl
      have formatIff := (format.message fun _ _ => rfl).same_iff takes takesAlone fun _ _ => rfl
      have severityIff := (severity.message fun _ _ => rfl).same_iff takes takesAlone fun _ _ => rfl
      have sourceIff := (source.message fun _ _ => rfl).same_iff takes takesAlone fun _ _ => rfl
      have instanceIff := (instanceId.message fun _ _ => rfl).same_iff takes takesAlone
        fun _ _ => rfl
      have tagEq : one.messageInfo.tag = other.messageInfo.tag := by
        have tagHolds := tag.message fun _ _ => rfl
        have settled := tagHolds.settles entry.single takes rfl
        have settledAlone := tagHolds.settles entry.single takesAlone rfl
        exact settled.trans settledAlone.symm
      simp [keptFields, infoBy, MessageInfo.ext_iff, args rfl, tagEq, ← offsetIff, ← formatIff,
        ← severityIff, ← sourceIff, ← instanceIff]
  | interval =>
      rcases writes_intervalAdd (F := F) with ⟨tag, instanceId, duration⟩
      have tagIff := tag.interval.same_iff takes takesAlone fun _ _ => rfl
      have instanceIff := instanceId.interval.same_iff takes takesAlone fun _ _ => rfl
      have durationIff := duration.interval.same_iff takes takesAlone fun _ _ => rfl
      simp [keptFields, infoBy, IntervalInfo.ext_iff, ← tagIff, ← instanceIff, ← durationIff]
  | declareState =>
      rcases writes_declareStateAdd (F := F) with ⟨offset, source, beginTag, endTag, instanceId, -⟩
      have offsetIff := offset.declareState.same_iff takes takesAlone fun _ _ => rfl
      have sourceIff := source.declareState.same_iff takes takesAlone fun _ _ => rfl
      have beginIff := beginTag.declareState.same_iff takes takesAlone fun _ _ => rfl
      have endIff := endTag.declareState.same_iff takes takesAlone fun _ _ => rfl
      have instanceIff := instanceId.declareState.same_iff takes takesAlone fun _ _ => rfl
      simp [keptFields, infoBy, DeclareStateInfo.ext_iff, stateTag, ← offsetIff, ← sourceIff,
        ← beginIff, ← endIff, ← instanceIff]
  | activeState =>
      rcases writes_activeStateAdd (F := F) with ⟨offset, source, tag, instanceId⟩
      have offsetIff := offset.activeState.same_iff takes takesAlone fun _ _ => rfl
      have sourceIff := source.activeState.same_iff takes takesAlone fun _ _ => rfl
      have tagIff := tag.activeState.same_iff takes takesAlone fun _ _ => rfl
      have instanceIff := instanceId.activeState.same_iff takes takesAlone fun _ _ => rfl
      simp [keptFields, infoBy, ActiveStateInfo.ext_iff, ← offsetIff, ← sourceIff, ← tagIff,
        ← instanceIff]
  | heartbeat =>
      have offsetIff := writes_heartbeatAdd.heartbeat.same_iff takes takesAlone fun _ _ => rfl
      simp [keptFields, infoBy, HeartbeatInfo.ext_iff, ← offsetIff]
  | finish =>
      have offsetIff := writes_finishAdd.finish.same_iff takes takesAlone fun _ _ => rfl
      simp [keptFields, infoBy, FinishInfo.ext_iff, ← offsetIff]

end Handed

/-! ## Entry by entry -/

namespace JsonDataExtractor

/-- What holds of the extractor between two entries. -/
structure Between (extractor : JsonDataExtractor F) : Prop where
  stateTag : extractor.declareStateInfo.stateTag = noIdentifier
  clean : extractor.current.isSome = true → extractor.cleanFinish = true

theorem between_initial (memory : Memory) : Between (initial (F := F) memory) :=
  ⟨rfl, fun selected => Bool.noConfusion selected⟩

theorem stateTag_take {extractor : JsonDataExtractor F} {tag : Identifier}
    (stateTag : extractor.declareStateInfo.stateTag = tag) (entry : StreamEntry) :
    (extractor.take entry).declareStateInfo.stateTag = tag :=
  visitAll_keeps (respected_stateTag tag) stateTag entry.calls

/-- The info for an entry is handed over by the extractor that is selected. -/
theorem take_eq (extractor : JsonDataExtractor F) (entry : StreamEntry) :
    ∃ built, entry.others.Takes ["_"] (extractor.opened entry.kind) built ∧
      extractor.take entry = built.finishObject ["_"] ∧
      (extractor.take entry).current = (extractor.opened entry.kind).current ∧
      (extractor.take entry).consumed = (extractor.opened entry.kind).consumed ++
        ((extractor.opened entry.kind).current.map built.infoBy).toList ∧
      (extractor.take entry).cleanFinish = ((extractor.opened entry.kind).cleanFinish ||
        (extractor.opened entry.kind).current.isSome) := by
  rcases extractor.take_taken entry with ⟨built, takes, taken⟩
  rcases finishObject_entry built with ⟨current, consumed, clean⟩
  have aside := aside_of_takes entry.single takes
  rw [aside.current] at current consumed clean
  rw [aside.consumed] at consumed
  rw [aside.clean] at clean
  rw [← taken] at current consumed clean
  exact ⟨built, takes, taken, current, consumed, clean⟩

omit [Conversions F] in
theorem opened_kind (kind : String) (extractor : JsonDataExtractor F) :
    (extractor.opened (some kind)).current = (extractor.extractors.lookup kind).1 ∧
      (extractor.opened (some kind)).consumed = extractor.consumed ∧
      (extractor.opened (some kind)).cleanFinish = extractor.cleanFinish := by
  let found := extractor.extractors.lookup kind
  rcases reset_aside { extractor with current := found.1, extractors := found.2 } with
    ⟨current, -, consumed, clean⟩
  exact ⟨current, consumed, clean⟩

/-- An entry of a known type leaves the same arguments of a message whatever was before. -/
theorem sameArgs_take (extractor other : JsonDataExtractor F) {entry : StreamEntry} {kind : String}
    (kind_eq : entry.kind = some kind) : SameArgs (extractor.take entry) (other.take entry) := by
  rcases StreamEntry.calls_of_kind kind_eq with ⟨others, calls_eq⟩
  rw [take, take, calls_eq, visitAll_append, visitAll_append]
  have related : VisitorsRelated SameArgs
      ({ builder := extractor, path := ["_"] : BuildingVisitor (JsonDataExtractor F) }.visitAll
        [.beginStruct, .beginAttribute "t", .consume [.string kind]])
      ({ builder := other, path := ["_"] : BuildingVisitor (JsonDataExtractor F) }.visitAll
        [.beginStruct, .beginAttribute "t", .consume [.string kind]]) :=
    ⟨rfl, SameArgs.reset _ _⟩
  exact (related.visitAll respected_sameArgs others).builders

omit [Conversions F] in
/-- What was handed over of a message is kept. -/
theorem args_finishObject {extractor : JsonDataExtractor F}
    (selected : extractor.current = some .message) :
    (extractor.finishObject ["_"]).messageInfo.args = extractor.messageInfo.args.map translate := by
  rw [finishObject, selected]
  rfl

/-- What the sink gets for an entry. It is what the entry hands over alone if the extractor suits. -/
structure HandsOver (extractor : JsonDataExtractor F) (entry : StreamEntry)
    (handed : List (Info F)) : Prop where
  consumed_eq : (extractor.take entry).consumed = extractor.consumed ++ handed
  own_iff : handed = entry.own F ↔ extractor.Suits entry
  between : Between (extractor.take entry)
  clean_eq : extractor.Suits entry → (extractor.take entry).cleanFinish =
    (extractor.cleanFinish || entry.extractor.isSome)

section

variable {extractor : JsonDataExtractor F} (between : Between extractor) {entry : StreamEntry}

include between

/-- An entry without a type is handed over by the extractor of the one before. -/
theorem handsOver_untyped (untyped : entry.kind = none) :
    ∃ handed, HandsOver extractor entry handed := by
  rcases extractor.take_eq entry with ⟨built, -, -, current, consumed, clean⟩
  rw [untyped, opened] at current consumed clean
  have noExtractor : entry.extractor = none := by rw [StreamEntry.extractor, untyped, bind_none]
  have cleanEq : (extractor.cleanFinish || extractor.current.isSome) = extractor.cleanFinish := by
    have cleanIf := between.clean
    cases selected : extractor.current with
    | none => simp
    | some kind =>
        rw [selected] at cleanIf
        simp [cleanIf rfl]
  rw [cleanEq] at clean
  refine ⟨_, consumed, ?_, ⟨stateTag_take between.stateTag entry, ?_⟩, fun _ => ?_⟩
  · rw [StreamEntry.own, noExtractor, Suits, untyped]
    cases extractor.current <;> simp
  · rw [current, clean]
    exact between.clean
  · rw [clean, noExtractor]
    simp

/-- Nothing is handed over for an entry whose type is not found. -/
theorem handsOver_missed {kind : String} (kind_eq : entry.kind = some kind)
    (missed : (extractor.extractors.lookup kind).1 = none)
    (own_iff : [] = entry.own F ↔ extractor.Suits entry)
    (unknown : extractor.Suits entry → entry.extractor = none) : HandsOver extractor entry [] := by
  rcases extractor.take_eq entry with ⟨built, -, -, current, consumed, clean⟩
  rcases extractor.opened_kind kind with ⟨currentOpened, consumedOpened, cleanOpened⟩
  rw [kind_eq, currentOpened, missed] at current consumed clean
  rw [consumedOpened] at consumed
  rw [cleanOpened] at clean
  refine ⟨consumed, own_iff, ⟨stateTag_take between.stateTag entry, ?_⟩, fun suits => ?_⟩
  · rw [current]
    exact fun selected => Bool.noConfusion selected
  · rw [clean, unknown suits]

variable {selected : ExtractorKind}

omit between in
/-- An entry is handed over by the extractor for its type, if it is found. -/
theorem take_found (extractor : JsonDataExtractor F) {kind : String}
    (kind_eq : entry.kind = some kind)
    (found : (extractor.extractors.lookup kind).1 = some selected) :
    ∃ built, entry.others.Takes ["_"]
        (extractor.typed selected (extractor.extractors.lookup kind).2) built ∧
      extractor.take entry = built.finishObject ["_"] ∧
      built.current = some selected ∧ (extractor.take entry).current = some selected ∧
      (extractor.take entry).consumed = extractor.consumed ++ [built.infoBy selected] ∧
      (extractor.take entry).cleanFinish = true := by
  rcases extractor.take_eq entry with ⟨built, takes, taken, current, consumed, clean⟩
  rcases extractor.opened_kind kind with ⟨currentOpened, consumedOpened, -⟩
  have currentBuilt := (aside_of_takes entry.single takes).current
  rw [kind_eq, currentOpened, found] at current consumed clean currentBuilt
  rw [consumedOpened] at consumed
  rw [kind_eq, opened, select, found] at takes
  exact ⟨built, takes, taken, currentBuilt, current, consumed, clean.trans (Bool.or_true _)⟩

omit between in
theorem own_known (F : Type u) [Conversions F] {kind : String} (kind_eq : entry.kind = some kind)
    (known : extractorOf kind = some selected) :
    ∃ (mapAlone : ExtractorMap) (alone : JsonDataExtractor F),
      entry.others.Takes ["_"] (fresh.typed selected mapAlone) alone ∧
      fresh.take entry = alone.finishObject ["_"] ∧ alone.current = some selected ∧
      (fresh (F := F) |>.take entry).current = some selected ∧
      entry.own F = [alone.infoBy selected] := by
  have found : ((fresh (F := F)).extractors.lookup kind).1 = some selected :=
    congrArg Prod.fst ((ExtractorMap.isPlain_initial _).lookup_eq known)
  rcases take_found fresh kind_eq found with
    ⟨alone, takes, taken, currentAlone, current, consumed, -⟩
  refine ⟨_, alone, takes, taken, currentAlone, current, ?_⟩
  have isKnown : entry.extractor = some selected := by
    rw [StreamEntry.extractor, kind_eq, bind_some, known]
  rw [StreamEntry.own, isKnown]
  exact consumed

theorem handsOver_found {kind : String} (kind_eq : entry.kind = some kind)
    (known : extractorOf kind = some selected)
    (found : (extractor.extractors.lookup kind).1 = some selected) :
    ∃ handed, HandsOver extractor entry handed := by
  have stateTag := stateTag_take between.stateTag entry
  have stateTagAlone := stateTag_take (between_initial (F := F) fun _ _ => "").stateTag entry
  have sameArgs := sameArgs_take extractor fresh kind_eq
  rcases take_found extractor kind_eq found with
    ⟨built, takes, taken, currentBuilt, current, consumed, clean⟩
  rcases own_known F kind_eq known with
    ⟨mapAlone, alone, takesAlone, takenAlone, currentAlone, currentTaken, own⟩
  have args : selected = .message →
      built.messageInfo.args.map translate = alone.messageInfo.args.map translate := by
    rintro rfl
    rw [← args_finishObject currentBuilt, ← args_finishObject currentAlone, ← taken, ← takenAlone]
    exact sameArgs current currentTaken
  have stateTags : built.declareStateInfo.stateTag = alone.declareStateInfo.stateTag := by
    rw [← finishObject_stateTag ["_"] built, ← finishObject_stateTag ["_"] alone, ← taken,
      ← takenAlone, stateTag]
    exact stateTagAlone.symm
  refine ⟨[built.infoBy selected], consumed, ?_, ⟨stateTag, fun _ => clean⟩, fun _ => ?_⟩
  · rw [own]
    simpa [Suits, kind_eq, known, found] using infoBy_same_iff takes takesAlone args stateTags
  · rw [clean, StreamEntry.extractor, kind_eq, bind_some, known]
    exact (Bool.or_true _).symm

theorem exists_handsOver (entry : StreamEntry) : ∃ handed, HandsOver extractor entry handed := by
  cases kind_eq : entry.kind with
  | none => exact handsOver_untyped between kind_eq
  | some kind =>
      cases known : extractorOf kind with
      | none =>
          have missed : (extractor.extractors.lookup kind).1 = none := by
            rw [eq_none_iff_forall_ne_some]
            intro selected found
            rw [ExtractorMap.lookup_eq_some found] at known
            cases known
          have noExtractor : entry.extractor = none := by
            rw [StreamEntry.extractor, kind_eq, bind_some, known]
          refine ⟨[], handsOver_missed between kind_eq missed ?_ fun _ => noExtractor⟩
          simp [StreamEntry.own, noExtractor, Suits, kind_eq, known]
      | some selected =>
          cases found : (extractor.extractors.lookup kind).1 with
          | none =>
              have unsuitable : ¬extractor.Suits entry := by
                simp [Suits, kind_eq, known, found]
              rcases own_known F kind_eq known with ⟨_, _, -, -, -, -, own⟩
              refine ⟨[], handsOver_missed between kind_eq found ?_ fun suits =>
                absurd suits unsuitable⟩
              rw [own]
              exact iff_of_false (cons_ne_nil _ _).symm unsuitable
          | some other =>
              have same := known.symm.trans (ExtractorMap.lookup_eq_some found)
              exact handsOver_found between kind_eq known (found.trans same.symm)

end

/-- The run over all entries: what they hand over alone is all that the sink gets, behind each of
them, exactly if the extractor suits each of them. -/
theorem hands_entries (entries : List StreamEntry) {extractor : JsonDataExtractor F}
    (between : Between extractor) :
    ((∀ front, front <+: entries → (front.foldl take extractor).consumed =
        extractor.consumed ++ front.flatMap (StreamEntry.own F)) ↔
      Throughout (fun extractor entry => some (extractor.take entry)) Suits extractor entries) ∧
    (Throughout (fun extractor entry => some (extractor.take entry)) Suits extractor entries →
      (entries.foldl take extractor).cleanFinish =
        (extractor.cleanFinish || entries.any fun entry => entry.extractor.isSome)) := by
  induction entries generalizing extractor with
  | nil =>
      refine ⟨iff_of_true ?_ (by simp [Throughout]), by simp⟩
      intro front isFront
      rw [prefix_nil.mp isFront]
      exact (append_nil _).symm
  | cons entry entries ih =>
      rcases exists_handsOver between entry with ⟨handed, consumed, ownIff, betweenNext, clean⟩
      rcases ih betweenNext with ⟨restIff, restClean⟩
      rw [throughout_cons_iff rfl, ← ownIff, ← restIff]
      refine ⟨⟨fun all => ?_, fun both front isFront => ?_⟩, fun both => ?_⟩
      · have own := all [entry] (prefix_append [entry] entries)
        rw [flatMap_singleton] at own
        have own : handed = entry.own F := append_cancel_left (consumed.symm.trans own)
        refine ⟨own, fun front isFront => ?_⟩
        have whole := all (entry :: front) (cons_prefix_cons.mpr ⟨rfl, isFront⟩)
        rw [flatMap_cons, ← append_assoc, ← own, ← consumed] at whole
        exact whole
      · cases front with
        | nil => exact (append_nil _).symm
        | cons first front =>
            rcases cons_prefix_cons.mp isFront with ⟨rfl, isFrontRest⟩
            rw [flatMap_cons, ← append_assoc, ← both.1, ← consumed]
            exact both.2 front isFrontRest
      · rw [foldl_cons, restClean (restIff.mp both.2), clean (ownIff.mp both.1),
          any_cons, Bool.or_assoc]

end JsonDataExtractor

/-! ## A stream -/

variable {start : BuildingVisitor (JsonDataExtractor F)}

/-- The parser between two entries, with the extractor in the visitor. -/
structure AtEntry (start : BuildingVisitor (JsonDataExtractor F)) (parser : StreamParser)
    (extractor : JsonDataExtractor F) : Prop where
  attrs : parser.attrStack = []
  lists : parser.listStack = [true]
  uncached : Uncached parser
  path_eq : (visited start parser).path = ["_"]
  builder_eq : (visited start parser).builder = extractor

/-- An entry in a stream is taken like an entry in an array of its own. -/
theorem takes_entry (entry : StreamEntry) {parser : StreamParser} {extractor : JsonDataExtractor F}
    (atEntry : AtEntry start parser extractor) :
    ∃ after, StreamParser.run entry.document.callbacks parser = some after ∧
      AtEntry start after (extractor.take entry) := by
  let alone : StreamParser := { listStack := [true] }
  have inArray : (visited { builder := extractor, path := ["_"] } alone).path = ["_"] := rfl
  rcases takes_object entry.members entry.members_wellNamed inArray ⟨rfl, rfl, rfl⟩ with
    ⟨afterAlone, -, runAlone, attrs, lists, uncached, path_eq, -, -⟩
  have behind : Behind parser.calls alone parser :=
    ⟨(append_nil _).symm, atEntry.attrs, atEntry.lists, atEntry.uncached.floats,
      atEntry.uncached.uints, atEntry.uncached.ints, Or.inr ⟨rfl, rfl, rfl⟩⟩
  rcases behind.run runAlone with ⟨after, runEq, behindAfter⟩
  have calls_eq : entry.calls = afterAlone.calls := by
    rw [StreamEntry.calls, StreamEntry.document, runAlone]
    rfl
  have same := visitAll_builder_congr (visited start parser) { builder := extractor, path := ["_"] }
    atEntry.path_eq atEntry.builder_eq entry.calls
  have visited_eq : visited start after = (visited start parser).visitAll entry.calls := by
    rw [visited, behindAfter.calls_eq, visitAll_append, calls_eq]
    rfl
  refine ⟨after, runEq, behindAfter.attrs.trans attrs, behindAfter.lists.trans lists,
    ⟨?_, ?_, ?_⟩, ?_, ?_⟩
  · rw [behindAfter.floats, uncached.floats]
  · rw [behindAfter.uints, uncached.uints]
  · rw [behindAfter.ints, uncached.ints]
  · rw [visited_eq, same.1, calls_eq]
    exact path_eq
  · rw [visited_eq, same.2]
    rfl

theorem takes_entries (entries : List StreamEntry) {parser : StreamParser}
    {extractor : JsonDataExtractor F} (atEntry : AtEntry start parser extractor) :
    ∃ after, StreamParser.run (elementsOf (entries.map StreamEntry.document)).callbacks parser =
        some after ∧ AtEntry start after (entries.foldl JsonDataExtractor.take extractor) := by
  induction entries generalizing parser extractor with
  | nil => exact ⟨parser, rfl, atEntry⟩
  | cons entry entries ih =>
      rcases takes_entry entry atEntry with ⟨middle, runEntry, atMiddle⟩
      rcases ih atMiddle with ⟨after, runEntries, atAfter⟩
      refine ⟨after, ?_, atAfter⟩
      rw [map_cons, elementsOf, Elements.callbacks, run_append, runEntry, bind_some]
      exact runEntries

/-- The calls for the whole text of a stream. -/
theorem takes_stream (stream : EntryStream) (extractor : JsonDataExtractor F) :
    ∃ after, StreamParser.run stream.reading.callbacks {} = some after ∧
      (stream.reading.hasParseError = false →
        (visited (begin { builder := extractor }) after).path = []) ∧
      (visited (begin { builder := extractor }) after).builder =
        stream.entries.foldl JsonDataExtractor.take extractor := by
  have atFirst : AtEntry (begin { builder := extractor }) (beginArray {}) extractor :=
    ⟨rfl, rfl, ⟨rfl, rfl, rfl⟩, rfl, rfl⟩
  rcases takes_entries stream.entries atFirst with ⟨middle, runEntries, atEnd⟩
  rw [EntryStream.reading]
  cases closed : stream.closed with
  | false => exact ⟨middle, runEntries, fun noError => Bool.noConfusion noError, atEnd.builder_eq⟩
  | true =>
      have ended : visited (begin { builder := extractor }) (endArray [] middle) =
          (visited (begin { builder := extractor }) middle).visit .finishList := by
        apply visited_of_calls
        rw [endArray, flushPrevious_uncached atEnd.uncached]
        rfl
      rw [visit, leave_last (show _ = [] ++ [_] from atEnd.path_eq)] at ended
      refine ⟨endArray [] middle, ?_, fun _ => by rw [ended], by rw [ended]; exact atEnd.builder_eq⟩
      rw [if_pos rfl, Document.callbacks, run_cons]
      change StreamParser.run _ (beginArray {}) = _
      rw [run_append]
      change (StreamParser.run (elementsOf _).callbacks _).bind _ = _
      rw [runEntries, bind_some, run_one]
      simp only [StreamParser.handle, atEnd.lists, endArray]

/-- The sink gets what the extractor has handed over for the entries, and the end of the stream. -/
theorem received_entries (memory : Memory) (stream : EntryStream) :
    received F memory stream.reading =
      some ((stream.entries.foldl JsonDataExtractor.take (.initial memory)).consumed ++
        if stream.closed ∧ (stream.entries.foldl JsonDataExtractor.take
          (JsonDataExtractor.initial (F := F) memory)).cleanFinish = true then []
        else [.finish { offset := Conversions.unset }]) := by
  rcases takes_stream stream (JsonDataExtractor.initial (F := F) memory) with
    ⟨after, runEq, closedPath, builder_eq⟩
  rcases flags_visitAll after.calls
    (begin { builder := JsonDataExtractor.initial (F := F) memory }) with
    ⟨finishFlag, failFlag⟩
  have consumed := consumed_end finishFlag failFlag closedPath
  change builder (visitAll after.calls _) = _ at builder_eq
  rw [builder_eq] at consumed
  rw [received, Reading.traverse, runEq, map_some, map_some, consumed]
  have hasError : stream.reading.hasParseError = !stream.closed := by
    rw [EntryStream.reading]
    cases stream.closed <;> rfl
  rw [hasError]
  cases stream.closed with
  | false => simp
  | true =>
      cases (stream.entries.foldl JsonDataExtractor.take
        (JsonDataExtractor.initial (F := F) memory)).cleanFinish <;> simp

/-- Each entry hands over what it hands over alone exactly when the extractor suits each of them. -/
theorem EntryStream.received_own_iff (F : Type u) [Conversions F] (memory : Memory)
    (stream : EntryStream) :
    stream.IsIndependent F memory ↔
      Throughout (fun extractor entry => some (extractor.take entry)) JsonDataExtractor.Suits
        (JsonDataExtractor.initial (F := F) memory) stream.entries := by
  rcases JsonDataExtractor.hands_entries stream.entries
    (JsonDataExtractor.between_initial (F := F) memory) with ⟨suitsIff, clean⟩
  have torn (front : List StreamEntry) :
      received F memory (mk front false).reading = some ((mk front false).own F) ↔
        (front.foldl JsonDataExtractor.take (.initial memory)).consumed =
          front.flatMap (StreamEntry.own F) := by
    rw [received_entries, own, Option.some.injEq]
    simp
  simp only [IsIndependent, torn]
  refine (and_iff_right_of_imp fun fronts => ?_).trans suitsIff
  have known : (stream.entries.foldl JsonDataExtractor.take
      (JsonDataExtractor.initial (F := F) memory)).cleanFinish = true ↔
        ∃ entry ∈ stream.entries, entry.extractor.isSome = true := by
    rw [clean (suitsIff.mp fronts), JsonDataExtractor.initial, Bool.false_or, List.any_eq_true]
  rw [received_entries, fronts stream.entries prefix_rfl, own]
  simp only [known]

/-- The source of a message. -/
def sourceMembers : Members :=
  .cons "src" (.string "x") .nil

theorem wellNamed_sourceMembers : sourceMembers.wellNamed = true :=
  rfl

theorem type_notMem_sourceMembers : "t" ∉ sourceMembers.names := by
  simp [sourceMembers, Members.names]

theorem wellNamed_nil : Members.nil.wellNamed = true :=
  rfl

/-- A message with a source, and one without. -/
def sourceStream : EntryStream where
  entries :=
    [⟨some "m", sourceMembers, wellNamed_sourceMembers, type_notMem_sourceMembers⟩,
      ⟨some "m", .nil, wellNamed_nil, not_mem_nil⟩]
  closed := true

/-- The second message of the stream has the source of the first one. -/
theorem EntryStream.not_forall_received_own :
    ¬∀ stream : EntryStream, stream.IsIndependent KeptNumber fun _ _ => "" := by
  intro independent
  have sources := congrArg (Option.map (List.map fun info : Info KeptNumber =>
    match info with
    | .message info => info.source.name
    | _ => [])) (independent sourceStream).1
  exact absurd sources (by decide +kernel)

end

end Eagine.LogServer
