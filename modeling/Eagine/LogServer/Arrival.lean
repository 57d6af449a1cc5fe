import Eagine.LogServer.EntryIndependence
import Eagine.LogServer.LogReceived

/-!
# What arrives at the log server

Some entries do not arrive as they were logged. There is no extractor for descriptions, and the one
for declared states does not take the tag of the state. What is logged behind the end of a log is not
read any more, and a text that is cut by the end of a block makes the stream fail. All other calls
arrive.
-/

namespace Eagine.LogServer

open Logging ValueTree Theory Theory.Json List
open Logging.JsonLogBackend
open Serialization (Block Identifier)

universe u v

/-- Nothing that was logged by the call is lost on its way. -/
def Carried : EntryCall → Prop
  | .setDescription _ _ _ _ => False
  | .declareState _ stateTag _ _ => stateTag = noIdentifier
  | _ => True

variable {F : Type u}

/-- The info is of the kind of the call and has what was logged. -/
def Corresponds : EntryCall → Info F → Prop
  | .setDescription source instanceId displayName description, .description info =>
      info.source = source ∧ info.instanceId = instanceId.toBitVec ∧
        info.displayName = displayName ∧ info.description = description
  | .declareState source stateTag beginTag endTag, .declareState info =>
      info.source = source ∧ info.stateTag = stateTag ∧ info.beginTag = beginTag ∧
        info.endTag = endTag
  | .activeState source stateTag, .activeState info => info.source = source ∧ info.tag = stateTag
  | .heartbeat, .heartbeat _ => True
  | .finishLog, .finish info => info.clean = true
  | _, _ => False

/-- The sink gets an info of the beginning and one for each call with what was logged. A log that
is not finished breaks off. -/
def EntriesArrive [Conversions F] (calls : List (Clock × EntryCall)) (infos : List (Info F)) :
    Prop :=
  ∃ begin arrived, infos = .begin begin :: arrived ++
      (if finishing calls = [] then [.finish { offset := Conversions.unset }] else []) ∧
    List.Forall₂ (fun call info => Corresponds call.2 info) calls arrived

/-- The sink never gets a description, or the tag of a declared state. -/
def Arriving : Info F → Prop
  | .description _ => False
  | .declareState info => info.stateTag = noIdentifier
  | _ => True

theorem carried_of_corresponds {call : EntryCall} {info : Info F} (arriving : Arriving info)
    (corresponds : Corresponds call info) : Carried call := by
  cases call with
  | setDescription =>
      cases info with
      | description => exact arriving.elim
      | _ => exact corresponds.elim
  | declareState =>
      cases info with
      | declareState => exact corresponds.2.1.symm.trans arriving
      | _ => exact corresponds.elim
  | _ => trivial

variable {calls : List (Clock × EntryCall)}

/-- Each info that arrives is for a call. -/
theorem exists_call {arrived : List (Info F)}
    (all : List.Forall₂ (fun call info => Corresponds call.2 info) calls arrived) :
    ∀ info ∈ arrived, ∃ call, Corresponds call info := by
  induction all with
  | nil => exact forall_mem_nil _
  | cons first _ ih => exact forall_mem_cons.mpr ⟨⟨_, first⟩, ih⟩

section

variable [Conversions F]

theorem consumed_add (path : StringPath) (values : List Scalar) (extractor : JsonDataExtractor F) :
    (extractor.add path values).consumed = extractor.consumed := by
  unfold JsonDataExtractor.add
  split
  · exact (sameControl_addArg _ _ _).consumed_eq
  · exact (sameControl_addArg _ _ _).consumed_eq
  · exact (sameControl_addArg _ _ _).consumed_eq
  · exact (sameControl_addArg _ _ _).consumed_eq
  · unfold JsonDataExtractor.addString
    split
    · exact (sameControl_reset _).consumed_eq
    · exact (sameControl_addArg _ _ _).consumed_eq
  · rfl

theorem respected_arriving : Respected fun one _ : JsonDataExtractor F =>
    one.declareStateInfo.stateTag = noIdentifier ∧ ∀ info ∈ one.consumed, Arriving info where
  add path values one _ holds := by
    refine ⟨@(respected_stateTag noIdentifier).add path values one one holds.1, ?_⟩
    exact (consumed_add path values one).symm ▸ holds.2
  addObject path one _ holds := by
    refine ⟨@(respected_stateTag noIdentifier).addObject path one one holds.1, ?_⟩
    exact (sameControl_addObject path one).consumed_eq.symm ▸ holds.2
  finishObject path one _ holds := by
    refine ⟨@(respected_stateTag noIdentifier).finishObject path one one holds.1, ?_⟩
    change ∀ info ∈ (one.finishObject path).consumed, Arriving info
    unfold JsonDataExtractor.finishObject
    split
    · split_ifs
      · rename_i kind _ _
        cases kind with
        | declareState => exact forall_mem_append.mpr ⟨holds.2, forall_mem_singleton.mpr holds.1⟩
        | _ => exact forall_mem_append.mpr ⟨holds.2, forall_mem_singleton.mpr trivial⟩
      · exact holds.2
    · exact holds.2

variable {S : Type v} {memory : Memory} {reader : JsonReader S} {blocks : List Block}
  {infos : List (Info F)}

variable {visitor : BuildingVisitor (JsonDataExtractor F)}

theorem arriving_failed (arriving : ∀ info ∈ visitor.builder.consumed, Arriving info) :
    ∀ info ∈ visitor.failed.builder.consumed, Arriving info := by
  unfold BuildingVisitor.failed
  split
  · exact arriving
  · exact forall_mem_append.mpr ⟨arriving, forall_mem_singleton.mpr trivial⟩

theorem arriving_finish (arriving : ∀ info ∈ visitor.builder.consumed, Arriving info) :
    ∀ info ∈ visitor.finish.2.builder.consumed, Arriving info := by
  have left : ∀ info ∈ (if visitor.path = [] then visitor else visitor.failed).builder.consumed,
      Arriving info := by
    split
    · exact arriving
    · exact arriving_failed arriving
  unfold BuildingVisitor.finish
  generalize (if visitor.path = [] then visitor else visitor.failed) = last at left ⊢
  dsimp only
  split
  · exact left
  · change ∀ info ∈ (JsonDataExtractor.finish last.builder).2.consumed, Arriving info
    unfold JsonDataExtractor.finish
    split
    · exact left
    · exact forall_mem_append.mpr ⟨left, forall_mem_singleton.mpr trivial⟩

theorem arriving_received (receivedEq : receivedInBlocks F memory reader blocks = some infos) :
    ∀ info ∈ infos, Arriving info := by
  rcases Option.map_eq_some_iff.mp receivedEq with ⟨parser, _, rfl⟩
  let start : BuildingVisitor (JsonDataExtractor F) := .begin { builder := .initial memory }
  have none : start.builder.declareStateInfo.stateTag = noIdentifier ∧
      ∀ info ∈ start.builder.consumed, Arriving info := ⟨rfl, forall_mem_nil _⟩
  have arriving := (visitAll_keeps respected_arriving none parser.handler.calls).2
  dsimp only
  split
  · exact arriving_failed arriving
  · exact arriving_finish arriving

/-- What arrives is carried. -/
theorem EntriesArrive.carried (arrive : EntriesArrive calls infos)
    (receivedEq : receivedInBlocks F memory reader blocks = some infos) :
    ∀ call ∈ calls, Carried call.2 := by
  rcases arrive with ⟨begin, arrived, rfl, all⟩
  have arriving : ∀ info ∈ arrived, Arriving info := fun info within =>
    arriving_received receivedEq info (mem_append_left _ (mem_cons_of_mem _ within))
  clear receivedEq
  induction all with
  | nil => exact forall_mem_nil _
  | cons first _ ih =>
      rcases forall_mem_cons.mp arriving with ⟨head, others⟩
      exact forall_mem_cons.mpr ⟨carried_of_corresponds head first, ih others⟩

end

/-- What an item that is carried brings. -/
theorem Brings.corresponds {call : EntryCall} {item : LogItem} {infos : List (Info F)}
    (brings : Brings item infos) (found : call.item = some item) (carried : Carried call) :
    ∃ info, infos = [info] ∧ Corresponds call info := by
  cases call with
  | setDescription => exact carried.elim
  | declareState =>
      cases found
      rcases brings with ⟨info, rfl, source, noTag, beginTag, endTag⟩
      exact ⟨_, rfl, source, noTag.trans carried.symm, beginTag, endTag⟩
  | activeState =>
      cases found
      rcases brings with ⟨info, rfl, both⟩
      exact ⟨_, rfl, both⟩
  | heartbeat =>
      cases found
      rcases brings with ⟨info, rfl⟩
      exact ⟨_, rfl, trivial⟩
  | finishLog => cases found

/-- The infos of the items are those for the calls before the end of the log. -/
theorem corresponds_items_iff
    (carried : ∀ call ∈ calls, Carried call.2) {brought : List (List (Info F))}
    (brings : List.Forall₂ (fun item infos => Brings item.2 infos) (unfinished calls) brought)
    (infos : List (Info F)) :
    List.Forall₂ (fun call info => Corresponds call.2 info) calls (brought.flatten ++ infos) ↔
      List.Forall₂ (fun call info => Corresponds call.2 info) (finishing calls) infos := by
  induction calls generalizing brought with
  | nil =>
      cases brings
      exact Iff.rfl
  | cons head calls ih =>
      rcases head with ⟨clock, call⟩
      rcases forall_mem_cons.mp carried with ⟨first, others⟩
      rw [unfinished] at brings
      rw [finishing]
      cases found : call.item with
      | none =>
          rw [found] at brings
          cases brings
          exact Iff.rfl
      | some item =>
          rw [found] at brings
          cases brings with
          | cons brings bringOthers =>
              rcases brings.corresponds found first with ⟨info, rfl, corresponds⟩
              rw [flatten_cons, append_assoc, singleton_append, forall₂_cons, ih others bringOthers]
              exact and_iff_right corresponds

theorem finite_unfinished (calls : List (Clock × EntryCall)) :
    ∀ item ∈ unfinished calls, ∀ value ∈ item.2.floats, value.isFinite = true := by
  refine forall_unfinished (P := fun item => ∀ value ∈ item.floats, value.isFinite = true)
    fun call _ item found => ?_
  rw [EntryCall.floats_item found]
  exact forall_mem_nil _

theorem plain_unfinished (plain : ∀ call ∈ calls, ∀ text ∈ call.2.texts, IsPlainText text) :
    ∀ item ∈ unfinished calls, ∀ text ∈ item.2.texts, IsPlainText text := by
  refine forall_unfinished (P := fun item => ∀ text ∈ item.texts, IsPlainText text)
    fun call within item found => ?_
  rw [EntryCall.texts_item found]
  exact plain call within

section

variable [Conversions F] {S : Type v} {toDouble : List Char → BitVec 64} {reader : JsonReader S}
  {pieces : List Piece} {blocks : List Block} (memory : Memory) {session identity : Block}
  (plainSession : IsPlainText session) (plainIdentity : IsPlainText identity) (start : Clock)
  {calls : List (Clock × EntryCall)}
  (plain : ∀ call ∈ calls, ∀ text ∈ call.2.texts, IsPlainText text)
  (reads : ReadsLog toDouble reader (streamed session identity start (entryCalls calls)) pieces
    (!(finishing calls).isEmpty))
  (blocks_eq : blocks.flatten = outputBytes (streamed session identity start (entryCalls calls)))

include plainSession plainIdentity plain reads blocks_eq

/-- All infos that the sink gets when no piece is severed. -/
theorem received_calls (carried : ∀ call ∈ calls, Carried call.2) (uncut : Uncut pieces blocks) :
    ∃ begin brought, List.Forall₂ (fun item infos => Brings item.2 infos) (unfinished calls)
        brought ∧
      receivedInBlocks F memory reader blocks =
        some (.begin begin :: brought.flatten ++
          [.finish (endInfo toDouble (finishing calls))]) := by
  have known : ∀ item ∈ unfinished calls, IsKnown item.2 := by
    refine forall_unfinished (P := IsKnown) fun call within item found => ?_
    have carries := carried call within
    revert carries found
    cases call.2 with
    | setDescription => exact fun _ carries => carries.elim
    | _ => rintro ⟨⟩ _ <;> trivial
  rw [entryCalls_eq] at reads blocks_eq
  exact received_log memory plainSession plainIdentity start (finite_unfinished calls)
    (plain_unfinished plain) (finishing_cases calls) reads blocks_eq known uncut

/-- The sink gets one info for each call with what was logged when no piece is severed, there was no
description, no declared state had a tag, and nothing was logged behind the end. Otherwise it does
not, unless a piece is severed of a log that was not finished. -/
theorem entries_arrive :
    (Uncut pieces blocks → (∀ call ∈ calls, Carried call.2) → (finishing calls).tail = [] →
      ∃ infos : List (Info F), receivedInBlocks F memory reader blocks = some infos ∧
        EntriesArrive calls infos) ∧
    ((∃ infos : List (Info F), receivedInBlocks F memory reader blocks = some infos ∧
        EntriesArrive calls infos) →
      (finishing calls ≠ [] → Uncut pieces blocks) ∧ (∀ call ∈ calls, Carried call.2) ∧
        (finishing calls).tail = []) := by
  constructor
  · intro uncut carried noOthers
    rcases received_calls (F := F) memory plainSession plainIdentity start plain reads
      blocks_eq carried
      uncut with ⟨begin, brought, brings, receivedEq⟩
    refine ⟨_, receivedEq, begin, ?_⟩
    rcases finishing_cases calls with none | ⟨stop, others, finished⟩
    · rw [none, if_pos rfl]
      refine ⟨brought.flatten, rfl, ?_⟩
      have items := (corresponds_items_iff carried brings []).mpr (by rw [none]; exact .nil)
      rwa [append_nil] at items
    · rw [finished] at noOthers
      cases show others = [] from noOthers
      rw [finished, if_neg (cons_ne_nil _ _)]
      refine ⟨_, (append_nil _).symm, (corresponds_items_iff carried brings _).mpr ?_⟩
      rw [finished]
      exact .cons rfl .nil
  · rintro ⟨infos, receivedEq, arrive⟩
    have carried := arrive.carried receivedEq
    rcases finishing_cases calls with none | ⟨stop, others, finished⟩
    · exact ⟨fun some => absurd none some, carried, by rw [none]; rfl⟩
    · rcases arrive with ⟨begin, arrived, infosEq, all⟩
      rw [finished, if_neg (cons_ne_nil _ _), append_nil] at infosEq
      have uncut : Uncut pieces blocks := by
        by_contra cut
        rw [entryCalls_eq] at reads blocks_eq
        have last := last_of_severed memory plainSession plainIdentity start
          (finite_unfinished calls) (plain_unfinished plain) (finishing_cases calls) reads blocks_eq
          (by rw [finished]; exact cons_ne_nil _ _) cut receivedEq
        rw [infosEq] at last
        rcases mem_cons.mp (mem_of_getLast? last) with isBegin | within
        · cases isBegin
        · rcases exists_call all _ within with ⟨call, corresponds⟩
          cases call with
          | finishLog => exact absurd corresponds Bool.false_ne_true
          | _ => exact corresponds
      refine ⟨fun _ => uncut, carried, ?_⟩
      rcases received_calls (F := F) memory plainSession plainIdentity start plain reads
        blocks_eq carried
        uncut with ⟨other, brought, brings, wholeEq⟩
      cases infosEq.symm.trans (Option.some.inj (receivedEq.symm.trans wholeEq))
      have ends := (corresponds_items_iff carried brings _).mp all
      rw [finished] at ends ⊢
      cases ends with
      | cons _ ends => exact forall₂_nil_right_iff.mp ends

end

/-- A reader with the pieces that it has not read. Without any it has failed. -/
def scriptedReader (pieces : List Piece) : JsonReader (Option (List Piece)) where
  parseInit := some pieces
  parseNext state rest :=
    match state with
    | some (piece :: others) =>
        if piece.text <+: rest then ⟨true, [piece.callback], piece.size, some others⟩
        else ⟨false, [], rest.length, none⟩
    | state => ⟨false, [], 0, state⟩
  parseComplete
    | some (_ :: _) => false
    | _ => true
  parseError
    | none => some .other
    | some _ => none

theorem follows_scriptedReader (script pieces : List Piece) :
    (scriptedReader script).Follows (some pieces) pieces := by
  induction pieces with
  | nil => exact ⟨rfl, rfl⟩
  | cons piece pieces ih =>
      refine ⟨rfl, some pieces, ⟨fun rest _ => if_pos (prefix_append _ _), ?_⟩, ih⟩
      intro front missing split some
      have notPrefix : ¬piece.text <+: front := by
        intro isPrefix
        have le := isPrefix.length_le
        rw [split, length_append] at le
        exact some (length_eq_zero_iff.mp (by omega))
      exact .inl (by simp [JsonReader.Failed, scriptedReader, notPrefix])

/-- A token, and what is behind it. -/
def tokenOf : List Char → List Char × List Char
  | '"' :: text => ('"' :: (text.takeWhile (· ≠ '"') ++ ['"']), (text.dropWhile (· ≠ '"')).tail)
  | text =>
      let isWord (c : Char) : Bool := c.isAlpha || isNumberChar c
      if text.takeWhile isWord = [] then (text.take 1, text.drop 1)
      else (text.takeWhile isWord, text.dropWhile isWord)

/-- The pieces of a text, for these callbacks. -/
def piecesOf : List Callback → List Char → List Piece
  | [], _ => []
  | callback :: callbacks, text =>
      let isGap (c : Char) : Bool := isSpace c || c == ',' || c == ':'
      match tokenOf (text.dropWhile isGap) with
      | (c :: token, rest) =>
          ⟨outputBytes (text.takeWhile isGap), outputBytes (c :: token), callback,
            cons_ne_nil _ _⟩ :: piecesOf callbacks rest
      | ([], _) => []

/-- The pieces of the value in front of a text. -/
def piecesFor (toDouble : List Char → BitVec 64) (text : List Char) : List Piece :=
  match readValue (text.length + 1) text with
  | some (json, _) => piecesOf (documentOf toDouble json).callbacks text
  | none => []

/-- The pieces are the text and the callbacks of the value. -/
def fitsPieces (toDouble : List Char → BitVec 64) (text : List Char) : Bool :=
  match readValue (text.length + 1) text with
  | some (json, rest) =>
      outputBytes text == piecesText (piecesFor toDouble text) ++ outputBytes rest &&
        (piecesFor toDouble text).map Piece.callback == (documentOf toDouble json).callbacks
  | none => true

theorem reads_scriptedReader {toDouble : List Char → BitVec 64} {text : List Char}
    (fits : fitsPieces toDouble text = true) :
    ReadsText toDouble (scriptedReader (piecesFor toDouble text)) text
      (piecesFor toDouble text) where
  follows := follows_scriptedReader _ _
  standard := by
    intro json rest read
    simpa only [fitsPieces, read, Bool.and_eq_true, beq_iff_eq] using fits
  keeps := by
    intro state rest failed
    cases state with
    | none => rfl
    | some pieces => cases failed
  fails := by
    intro state notComplete
    cases state with
    | none => cases notComplete
    | some pieces =>
        cases pieces with
        | nil => cases notComplete
        | cons piece others =>
            have notPrefix : ¬piece.text <+: [] := fun isPrefix =>
              piece.text_ne (prefix_nil.mp isPrefix)
            simp [JsonReader.Failed, scriptedReader, notPrefix]

/-- A log with a state. -/
def stateCalls (stateTag : Identifier) : List (Clock × EntryCall) :=
  [(JsonLog.origin, .declareState ⟨[115], rfl⟩ stateTag ⟨[98], rfl⟩ ⟨[101], rfl⟩),
    (JsonLog.origin, .heartbeat), (JsonLog.origin, .finishLog)]

def stateText (stateTag : Identifier) : List Char :=
  streamed [65] [] JsonLog.origin (entryCalls (stateCalls stateTag))

theorem reads_stateText (stateTag : Identifier)
    (fits : fitsPieces (fun _ => 0) (stateText stateTag) = true) :
    ReadsLog (fun _ => 0) (scriptedReader (piecesFor (fun _ => 0) (stateText stateTag)))
      (stateText stateTag) (piecesFor (fun _ => 0) (stateText stateTag)) true :=
  reads_scriptedReader fits

/-- The state arrives in two blocks. -/
theorem entries_arrive_state :
    ∃ infos, receivedInBlocks KeptNumber (fun _ _ => "")
        (scriptedReader (piecesFor (fun _ => 0) (stateText noIdentifier)))
        [(outputBytes (stateText noIdentifier)).take 100,
          (outputBytes (stateText noIdentifier)).drop 100] = some infos ∧
      EntriesArrive (stateCalls noIdentifier) infos := by
  have reads := reads_stateText noIdentifier (by decide +kernel)
  have carried : ∀ call ∈ stateCalls noIdentifier, Carried call.2 := by
    simp [stateCalls, Carried]
  exact (entries_arrive _ (by decide) (by decide) JsonLog.origin (by decide) reads
    (by simp [stateText])).1 ((takeChunks_lengths_isSome_iff _ _).mp (by decide +kernel))
    carried rfl

/-- The tag of a declared state is lost. -/
theorem not_entries_arrive :
    ReadsLog (fun _ => 0) (scriptedReader (piecesFor (fun _ => 0) (stateText ⟨[116], rfl⟩)))
        (stateText ⟨[116], rfl⟩) (piecesFor (fun _ => 0) (stateText ⟨[116], rfl⟩)) true ∧
      ¬∃ infos, receivedInBlocks KeptNumber (fun _ _ => "")
          (scriptedReader (piecesFor (fun _ => 0) (stateText ⟨[116], rfl⟩)))
          [outputBytes (stateText ⟨[116], rfl⟩)] = some infos ∧
        EntriesArrive (stateCalls ⟨[116], rfl⟩) infos := by
  refine ⟨reads_stateText _ (by decide +kernel), ?_⟩
  rintro ⟨infos, receivedEq, arrive⟩
  have noTag : (⟨[116], rfl⟩ : Identifier) = noIdentifier :=
    arrive.carried receivedEq _ mem_cons_self
  exact absurd noTag (by decide)

end Eagine.LogServer

/-!
## Messages arrive as they were logged

The sink gets one info for each message, in the order of the messages, whatever else is logged
between them and if the log was finished or not.
-/

namespace Eagine.LogServer

open Logging ValueTree Theory Theory.Json List
open Logging.JsonLogBackend
open Serialization (Block Identifier)

universe u v

/-- The message that an item is. -/
def loggedMessage : LogItem → Option Message
  | .message message => some message
  | _ => none

section

variable {F : Type u}

/-- The info of a message. -/
def Info.message? : Info F → Option (MessageInfo F)
  | .message info => some info
  | _ => none

theorem Brings.messages {item : LogItem} {infos : List (Info F)} (brings : Brings item infos) :
    List.Forall₂ MessageArrives (loggedMessage item).toList (infos.filterMap Info.message?) := by
  cases item with
  | message message =>
      rcases brings with ⟨info, rfl, arrives⟩
      exact .cons arrives .nil
  | declareState =>
      rcases brings with ⟨info, rfl, _⟩
      exact .nil
  | activeState =>
      rcases brings with ⟨info, rfl, _⟩
      exact .nil
  | heartbeat =>
      rcases brings with ⟨info, rfl⟩
      exact .nil
  | timeIntervalEnd =>
      rcases brings with rfl | ⟨info, rfl⟩
      · exact .nil
      · exact .nil
  | setDescription | logChartSample | registerTimeInterval | timeIntervalBegin =>
      rw [show infos = [] from brings]
      exact .nil

/-- The messages among items and the infos of messages among what the items bring. -/
theorem messages_of_brings {items : List (Clock × LogItem)} {infos : List (List (Info F))}
    (brings : List.Forall₂ (fun item infos => Brings item.2 infos) items infos) :
    List.Forall₂ MessageArrives (items.filterMap fun item => loggedMessage item.2)
      (infos.flatten.filterMap Info.message?) := by
  induction brings with
  | nil => exact .nil
  | cons brings _ ih =>
      rename_i item infos items others _
      have both := List.rel_append brings.messages ih
      rw [List.flatten_cons, List.filterMap_append, List.filterMap_cons]
      cases found : loggedMessage item.2 with
      | none => simpa [found] using both
      | some message => simpa [found] using both

/-- The infos of the beginning and of the end are no messages. -/
theorem messages_between (begin : BeginInfo) (infos : List (Info F)) (finish : FinishInfo F) :
    (Info.begin begin :: infos ++ [Info.finish finish]).filterMap Info.message? =
      infos.filterMap Info.message? := by
  rw [List.cons_append, List.filterMap_cons_none rfl, List.filterMap_append,
    List.filterMap_cons_none rfl, List.filterMap_nil, List.append_nil]

end

/-- The call that finishes a log, if it is finished. -/
def finishCalls (stop : Option Clock) : List (Clock × EntryCall) :=
  stop.toList.map fun clock => (clock, .finishLog)

/-- The infos of messages are those of the messages that were logged, with the same sources, tags,
instances, severities, formats and arguments, and the last info tells if the log was finished. -/
def MessagesArrive {F : Type u} (items : List (Clock × LogItem)) (finished : Bool)
    (infos : List (Info F)) : Prop :=
  List.Forall₂ MessageArrives (items.filterMap fun item => loggedMessage item.2)
      (infos.filterMap Info.message?) ∧
    ∃ finish, infos.getLast? = some (.finish finish) ∧ finish.clean = finished

section

variable {F : Type u} [Conversions F] {S : Type v} {toDouble : List Char → BitVec 64}
  {reader : JsonReader S} {pieces : List Piece} {blocks : List Block} (memory : Memory)
  {session identity : Block} (plainSession : IsPlainText session)
  (plainIdentity : IsPlainText identity) (start : Clock) {items : List (Clock × LogItem)}
  (finite : ∀ item ∈ items, ∀ value ∈ item.2.floats, value.isFinite = true)
  (plain : ∀ item ∈ items, ∀ text ∈ item.2.texts, IsPlainText text) {stop : Option Clock}
  (reads : ReadsLog toDouble reader
    (streamed session identity start (itemCalls items ++ entryCalls (finishCalls stop))) pieces
      stop.isSome)
  (blocks_eq : blocks.flatten = outputBytes
    (streamed session identity start (itemCalls items ++ entryCalls (finishCalls stop))))

theorem finishCalls_cases (stop : Option Clock) :
    finishCalls stop = [] ∨ ∃ clock others, finishCalls stop = (clock, .finishLog) :: others := by
  cases stop with
  | none => exact .inl rfl
  | some clock => exact .inr ⟨clock, [], rfl⟩

include plainSession plainIdentity finite plain reads blocks_eq

/-- No piece is severed of a finished log whose messages arrive. -/
theorem uncut_of_messagesArrive (finished : stop.isSome = true) {infos : List (Info F)}
    (receivedEq : receivedInBlocks F memory reader blocks = some infos)
    (arrive : MessagesArrive items stop.isSome infos) : Uncut pieces blocks := by
  rcases Option.isSome_iff_exists.mp finished with ⟨clock, rfl⟩
  by_contra cut
  have last := last_of_severed memory plainSession plainIdentity start finite plain
    (finishCalls_cases (some clock)) reads blocks_eq (cons_ne_nil _ _) cut receivedEq
  rcases arrive.2 with ⟨finish, lastEq, clean⟩
  cases last.symm.trans lastEq
  cases clean

/-- The messages arrive when no piece is severed. If the log was finished that is needed as well. -/
theorem messages_arrive (known : ∀ item ∈ items, IsKnown item.2) :
    (Uncut pieces blocks → ∃ infos : List (Info F),
      receivedInBlocks F memory reader blocks = some infos ∧
        MessagesArrive items stop.isSome infos) ∧
    (stop.isSome = true → (∃ infos : List (Info F),
      receivedInBlocks F memory reader blocks = some infos ∧
        MessagesArrive items stop.isSome infos) → Uncut pieces blocks) := by
  constructor
  · intro uncut
    have finishedEq : (!(finishCalls stop).isEmpty) = stop.isSome := by cases stop <;> rfl
    rw [← finishedEq] at reads
    rcases received_log (F := F) memory plainSession plainIdentity start finite plain
      (finishCalls_cases stop) reads blocks_eq known uncut with ⟨begin, infos, brings, receivedEq⟩
    refine ⟨_, receivedEq, ?_, _, getLast?_concat, ?_⟩
    · rw [messages_between]
      exact messages_of_brings brings
    · cases stop <;> rfl
  · rintro finished ⟨infos, receivedEq, arrive⟩
    exact uncut_of_messagesArrive memory plainSession plainIdentity start finite plain reads
      blocks_eq finished receivedEq arrive

end

/-- A message with an argument of each of four types. -/
def sampleMessage (format : Block) : Message where
  source := ⟨[109], rfl⟩
  tag := noIdentifier
  instanceId := 7
  severity := .warning
  format := format
  args := [⟨.addIdentifier ⟨[97], rfl⟩ ⟨[116], rfl⟩ ⟨[105], rfl⟩, rfl⟩,
    ⟨.addString ⟨[102], rfl⟩ ⟨[116], rfl⟩ [120, 32], rfl⟩,
    ⟨.addBool ⟨[99], rfl⟩ ⟨[116], rfl⟩ true, rfl⟩,
    ⟨.addInteger ⟨[100], rfl⟩ ⟨[116], rfl⟩ (-3), rfl⟩]

def sampleItems (format : Block) : List (Clock × LogItem) :=
  [(JsonLog.origin, .message (sampleMessage format)), (JsonLog.origin, .heartbeat)]

def sampleText (format : Block) : List Char :=
  streamed [65] [] JsonLog.origin
    (itemCalls (sampleItems format) ++ entryCalls (finishCalls (some JsonLog.origin)))

theorem reads_sampleText (format : Block)
    (fits : fitsPieces (fun _ => 0) (sampleText format) = true) :
    ReadsLog (fun _ => 0) (scriptedReader (piecesFor (fun _ => 0) (sampleText format)))
      (sampleText format) (piecesFor (fun _ => 0) (sampleText format))
        (some JsonLog.origin).isSome :=
  reads_scriptedReader fits

theorem messages_arrive_sample :
    ∃ infos, receivedInBlocks KeptNumber (fun _ _ => "")
        (scriptedReader (piecesFor (fun _ => 0) (sampleText [36, 123, 97, 125])))
        [(outputBytes (sampleText [36, 123, 97, 125])).take 300,
          (outputBytes (sampleText [36, 123, 97, 125])).drop 300] = some infos ∧
      MessagesArrive (sampleItems [36, 123, 97, 125]) true infos := by
  have reads := reads_sampleText [36, 123, 97, 125] (by decide +kernel)
  have known : ∀ item ∈ sampleItems [36, 123, 97, 125], IsKnown item.2 := by
    simp [sampleItems, IsKnown]
  exact (messages_arrive _ (by decide) (by decide) JsonLog.origin
    (by decide) (by decide) reads (by simp [sampleText]) known).1
      ((takeChunks_lengths_isSome_iff _ _).mp (by decide +kernel))

/-- A format of a thousand characters. -/
def longFormat : Block :=
  replicate 1000 120

/-- A long format in which the first block ends does not arrive. -/
theorem not_messages_arrive :
    ReadsLog (fun _ => 0) (scriptedReader (piecesFor (fun _ => 0) (sampleText longFormat)))
        (sampleText longFormat) (piecesFor (fun _ => 0) (sampleText longFormat)) true ∧
      ¬∃ infos, receivedInBlocks KeptNumber (fun _ _ => "")
          (scriptedReader (piecesFor (fun _ => 0) (sampleText longFormat)))
          [(outputBytes (sampleText longFormat)).take 1024,
            (outputBytes (sampleText longFormat)).drop 1024] = some infos ∧
        MessagesArrive (sampleItems longFormat) true infos := by
  have reads := reads_sampleText longFormat (by decide +kernel)
  refine ⟨reads, ?_⟩
  rintro ⟨infos, receivedEq, arrive⟩
  have uncut := uncut_of_messagesArrive _ (by decide) (by decide)
    JsonLog.origin (by decide) (by decide +kernel) reads (by simp [sampleText]) rfl receivedEq
    arrive
  exact absurd ((takeChunks_lengths_isSome_iff _ _).mpr uncut) (by decide +kernel)

end Eagine.LogServer
