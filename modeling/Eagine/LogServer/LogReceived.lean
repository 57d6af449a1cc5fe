import Eagine.LogServer.LogDelivery
import Eagine.LogServer.StreamEnd
import Eagine.ValueTree.StreamIndependence

/-!
# Reading a log back

The output of the JSON backend arrives in blocks and is read as an array of its entries, which is
closed when the log was finished. A block that ends in a piece that the parser has started to read
makes the stream fail.
-/

namespace Eagine.LogServer

open Logging ValueTree Theory Theory.Json List
open Logging.JsonLogBackend
open Serialization (Block Identifier)
open JsonDataExtractor (consumed finish initial)

universe u v

/-- The names that members of entries have. -/
def memberNames : List String :=
  ["t", "time", "session", "identity", "src", "tag", "iid", "ts", "bgn", "end", "dn", "desc",
    "lvl", "f", "a", "tns", "n", "u", "v", "min", "max"]

theorem isElement_memberNames : ∀ name ∈ memberNames, StringPath.IsElement name := by
  decide

section

variable {toDouble : List Char → BitVec 64} {name : String} {text : List Char}
  (within : name ∈ memberNames)

include within

theorem simple_text : Simple toDouble (Member.ofText name.toList text) :=
  simple_ofText toDouble (isElement_memberNames name within) text

theorem simple_number : Simple toDouble (Member.ofNumber name.toList text) :=
  simple_ofNumber toDouble (isElement_memberNames name within) text

theorem simple_bool {value : Bool} : Simple toDouble (Member.ofBool name.toList value) :=
  simple_ofBool toDouble (isElement_memberNames name within) value

/-- A text that is only there when it is not empty. -/
theorem simple_optional {empty : Prop} [Decidable empty] :
    ∀ m ∈ (if empty then [] else [Member.ofText name.toList text]), Simple toDouble m := by
  split
  · exact forall_mem_nil _
  · exact forall_mem_singleton.mpr (simple_text within)

end

section

variable {toDouble : List Char → BitVec 64}

theorem simple_named (arg tag : Identifier) {value : List Member}
    (simple : ∀ m ∈ value, Simple toDouble m) :
    ∀ m ∈ namedMembers arg tag value, Simple toDouble m :=
  forall_mem_cons.mpr ⟨simple_text (by decide),
    forall_mem_cons.mpr ⟨simple_text (by decide), simple⟩⟩

theorem simple_argument (call : BackendCall FloatValue) :
    ∀ m ∈ argumentMembers call, Simple toDouble m := by
  cases call with
  | addNothing arg tag => exact simple_named arg tag (forall_mem_nil _)
  | addIdentifier arg tag | addMessageId arg tag | addString arg tag | addBlob arg tag =>
      exact simple_named arg tag (forall_mem_singleton.mpr (simple_text (by decide)))
  | addBool arg tag =>
      exact simple_named arg tag (forall_mem_singleton.mpr (simple_bool (by decide)))
  | addInteger arg tag | addUnsigned arg tag | addFloat arg tag =>
      exact simple_named arg tag (forall_mem_singleton.mpr (simple_number (by decide)))
  | addFloatRange arg tag =>
      apply simple_named arg tag
      simp only [forall_mem_cons]
      exact ⟨simple_number (by decide), simple_number (by decide),
        simple_number (by decide), forall_mem_nil _⟩
  | addDuration arg tag =>
      apply simple_named arg tag
      simp only [forall_mem_cons]
      exact ⟨simple_text (by decide), simple_number (by decide), forall_mem_nil _⟩
  | _ => exact forall_mem_nil _

theorem simple_argsMember (message : Message) : Simple toDouble message.argsMember := by
  have arguments : ∀ entry ∈ message.args.map (fun arg => argumentMembers arg.1), ∀ m ∈ entry,
      Simple toDouble m :=
    forall_mem_map.mpr fun arg _ => simple_argument arg.1
  rcases simple_objects arguments with ⟨wellNamed, direct⟩
  rw [map_map] at wellNamed direct
  have isElement : StringPath.IsElement (String.ofList "a".toList) := by decide
  refine ⟨isElement, ?_, ?_⟩
  · rw [documentOf_argsMember]
    exact wellNamed
  · rw [documentOf_argsMember]
    exact direct

theorem simple_begin (start : StartTime) (session identity : Block) :
    ∀ m ∈ beginMembers start session identity, Simple toDouble m := by
  refine forall_mem_append.mpr ⟨?_, forall_mem_append.mpr
    ⟨simple_optional (by decide), simple_optional (by decide)⟩⟩
  exact forall_mem_cons.mpr ⟨simple_text (by decide),
    forall_mem_singleton.mpr (simple_text (by decide))⟩

theorem simple_end (sec : FiniteFloat) : ∀ m ∈ endMembers sec, Simple toDouble m :=
  forall_mem_cons.mpr ⟨simple_text (by decide),
    forall_mem_singleton.mpr (simple_number (by decide))⟩

theorem simple_message (sec : FiniteFloat) (message : Message) :
    ∀ m ∈ message.members sec, Simple toDouble m := by
  refine forall_mem_append.mpr ⟨?_, forall_mem_append.mpr ⟨simple_optional (by decide), ?_⟩⟩
  · simp only [forall_mem_cons]
    exact ⟨simple_text (by decide), simple_text (by decide), simple_text (by decide),
      forall_mem_nil _⟩
  · simp only [forall_mem_cons]
    exact ⟨simple_number (by decide), simple_number (by decide), simple_text (by decide),
      simple_argsMember message, forall_mem_nil _⟩

theorem simple_item {clock : Clock} {intervals : Intervals} {item : LogItem}
    {members : List Member} (entry_eq : item.entry clock intervals = some members) :
    ∀ m ∈ members, Simple toDouble m := by
  cases item with
  | message m =>
      cases entry_eq
      exact simple_message clock.sec m
  | setDescription =>
      cases entry_eq
      simp only [descriptionMembers, forall_mem_cons]
      exact ⟨simple_text (by decide), simple_text (by decide), simple_number (by decide),
        simple_number (by decide), simple_text (by decide), simple_text (by decide),
        forall_mem_nil _⟩
  | declareState =>
      cases entry_eq
      simp only [declareStateMembers, forall_mem_cons]
      exact ⟨simple_text (by decide), simple_text (by decide), simple_text (by decide),
        simple_number (by decide), simple_text (by decide), simple_text (by decide),
        forall_mem_nil _⟩
  | activeState =>
      cases entry_eq
      simp only [activeStateMembers, forall_mem_cons]
      exact ⟨simple_text (by decide), simple_text (by decide), simple_text (by decide),
        simple_number (by decide), forall_mem_nil _⟩
  | heartbeat =>
      cases entry_eq
      exact forall_mem_cons.mpr ⟨simple_text (by decide),
        forall_mem_singleton.mpr (simple_number (by decide))⟩
  | timeIntervalEnd id =>
      rcases Option.map_eq_some_iff.mp entry_eq with ⟨reported, _, rfl⟩
      simp only [intervalMembers, forall_mem_cons]
      exact ⟨simple_text (by decide), simple_number (by decide), simple_text (by decide),
        simple_number (by decide), forall_mem_nil _⟩
  | logChartSample | registerTimeInterval | timeIntervalBegin => cases entry_eq

theorem simple_entries (log : JsonLog) : ∀ entry ∈ log.entries, ∀ m ∈ entry, Simple toDouble m := by
  apply JsonLog.forall_mem_entries
  · exact simple_begin _ _ _
  · intro item _ before members found
    exact simple_item found
  · exact simple_end _

section

variable {F : Type u} [Conversions F]

theorem build_entries (entries : List (List Member)) (extractor : JsonDataExtractor F) :
    (elementsOfJson toDouble (entries.map objectJson)).build ["_"] extractor =
      extracted toDouble entries extractor := by
  induction entries generalizing extractor with
  | nil =>
      rw [map_nil, elementsOfJson]
      rfl
  | cons entry entries ih =>
      rw [map_cons, elementsOfJson, documentOf_objectJson]
      exact ih _

variable (memory : Memory) {entries : List (List Member)}
  (simple : ∀ e ∈ entries, ∀ m ∈ e, Simple toDouble m)

include simple

/-- The array is closed. -/
theorem received_closed :
    received F memory ⟨(documentOf toDouble (.array (entries.map objectJson))).callbacks, false⟩ =
      some (extracted toDouble entries (.initial memory)).finish.2.consumed := by
  rcases simple_objects simple with ⟨wellNamed, direct⟩
  have traversed := traverse_document (B := JsonDataExtractor F)
    (by exact wellNamed : (Document.array (elementsOfJson toDouble
      (entries.map objectJson))).wellNamed = true) direct (.initial memory)
  have built : (Document.array (elementsOfJson toDouble (entries.map objectJson))).build
      [] (ObjectBuilder.begin (initial (F := F) memory)) =
        extracted toDouble entries (.initial memory) :=
    build_entries entries (.initial memory)
  rw [built] at traversed
  have consumed := congrArg (Option.map consumed) traversed
  rw [Option.map_map, Option.map_some] at consumed
  rw [documentOf]
  exact consumed

/-- The array is not closed. -/
theorem received_unclosed :
    received F memory
        ⟨.startArray :: (elementsOfJson toDouble (entries.map objectJson)).callbacks, true⟩ =
      some (extracted toDouble entries (.initial memory)).failed.consumed := by
  rcases simple_objects simple with ⟨wellNamed, direct⟩
  have traversed := traverse_unclosed (B := JsonDataExtractor F) wellNamed direct (.initial memory)
  have built : (elementsOfJson toDouble (entries.map objectJson)).build ["_"]
      (ObjectBuilder.begin (initial (F := F) memory)) =
        extracted toDouble entries (.initial memory) :=
    build_entries entries (.initial memory)
  rw [built] at traversed
  have consumed := congrArg (Option.map consumed) traversed
  rw [Option.map_map, Option.map_some] at consumed
  exact consumed

end

end

/-- What the sink consumes of a stream that arrives in blocks. -/
def receivedInBlocks {S : Type v} (F : Type u) [Conversions F] (memory : Memory)
    (reader : JsonReader S) (blocks : List Block) : Option (List (Info F)) :=
  (JsonStreamParser.traverse reader 256 blocks).map fun parser =>
    let start : BuildingVisitor (JsonDataExtractor F) := .begin { builder := .initial memory }
    let visitor := start.visitAll parser.handler.calls
    (if .failed ∈ parser.notes then visitor.failed else visitor.finish.2).builder.consumed

/-- The bytes of an output. -/
def outputBytes (text : List Char) : Block :=
  text.map fun c => UInt8.ofNat c.toNat

/-- No block ends in a piece that the parser has started to read. -/
def Uncut (pieces : List Piece) (blocks : List Block) : Prop :=
  ∀ before after, blocks = before ++ after → before ≠ [] →
    ¬Severed 256 (sizesOf pieces) before.flatten.length

/-- The reader makes the standard callbacks: where there is a value in front of the text, the
pieces are those of the value. -/
structure ReadsText {S : Type v} (toDouble : List Char → BitVec 64) (reader : JsonReader S)
    (text : List Char) (pieces : List Piece) : Prop where
  follows : reader.Follows reader.parseInit pieces
  standard : ∀ json rest, readValue (text.length + 1) text = some (json, rest) →
    outputBytes text = piecesText pieces ++ outputBytes rest ∧
      pieces.map Piece.callback = (documentOf toDouble json).callbacks
  keeps : reader.KeepsErrors
  fails : reader.FailsAtEnd

section

variable {F : Type u} [Conversions F] {S : Type v} {reader : JsonReader S} {memory : Memory}
  {pieces : List Piece} {blocks : List Block}

/-- The callbacks that were handled are what is received. -/
theorem receivedInBlocks_eq {parser : JsonStreamParser S} {handler : StreamParser}
    {callbacks : List Callback}
    (traversed : JsonStreamParser.traverse reader 256 blocks = some parser)
    (ran : StreamParser.run callbacks {} = some handler)
    (calls : parser.handler.calls = handler.calls) :
    receivedInBlocks F memory reader blocks =
      received F memory ⟨callbacks, decide (StreamNote.failed ∈ parser.notes)⟩ := by
  rw [receivedInBlocks, traversed, received, Reading.traverse, ran, Option.map_some,
    Option.map_some,
    Option.map_some, calls]
  by_cases failed : StreamNote.failed ∈ parser.notes
  · simp [failed]
  · simp [failed]

/-- A stream that failed ends with an info that is not clean. -/
theorem receivedInBlocks_failed {infos : List (Info F)}
    (failed : ∀ parser, JsonStreamParser.traverse reader 256 blocks = some parser →
      StreamNote.failed ∈ parser.notes)
    (receivedEq : receivedInBlocks F memory reader blocks = some infos) :
    infos.getLast? = some (.finish { offset := Conversions.unset }) := by
  rcases Option.map_eq_some_iff.mp receivedEq with ⟨parser, traversed, rfl⟩
  rcases flags_visitAll parser.handler.calls
    (.begin { builder := initial (F := F) memory }) with ⟨finishFlag, failFlag⟩
  have notClosed {path : StringPath} : true = false → path = [] := Bool.noConfusion
  dsimp only
  rw [if_pos (failed parser traversed)]
  exact (congrArg getLast? (consumed_end finishFlag failFlag notClosed)).trans getLast?_concat

variable {toDouble : List Char → BitVec 64} {text : List Char}

theorem isContainer_array (elements : List Json) :
    (documentOf toDouble (.array elements)).isContainer = true := by
  rw [documentOf]
  rfl

variable {elements : List Json} {rest : List Char}
  (reads : ReadsText toDouble reader text pieces)
  (array : readValue (text.length + 1) text = some (.array elements, rest))

include reads array

/-- An array that was closed, when no piece is severed. -/
theorem received_uncut (blocks_eq : blocks.flatten = outputBytes text)
    (uncut : Uncut pieces blocks) :
    receivedInBlocks F memory reader blocks =
      received F memory ⟨(documentOf toDouble (.array elements)).callbacks, false⟩ := by
  rcases reads.standard _ _ array with ⟨textEq, callbacks⟩
  have taken := (takeChunks_lengths_isSome_iff blocks (sizesOf pieces)).mpr uncut
  rcases JsonStreamParser.traverse_seen reads.follows callbacks (isContainer_array elements) taken
    (blocks_eq.trans textEq) with ⟨parser, traversed, seen⟩
  rcases seen.handles.calls_eq (append_nil _).symm with ⟨handler, ran, calls⟩
  rw [receivedInBlocks_eq traversed ran calls, decide_eq_false seen.not_failed]

/-- The same array when a piece is severed. -/
theorem last_of_cut (blocks_eq : blocks.flatten = outputBytes text) (cut : ¬Uncut pieces blocks)
    {infos : List (Info F)} (receivedEq : receivedInBlocks F memory reader blocks = some infos) :
    infos.getLast? = some (.finish { offset := Conversions.unset }) := by
  rcases reads.standard _ _ array with ⟨textEq, callbacks⟩
  have severed := mt (takeChunks_lengths_isSome_iff blocks (sizesOf pieces)).mp cut
  apply receivedInBlocks_failed _ receivedEq
  intro parser traversed
  exact JsonStreamParser.failed_of_severed reads.keeps reads.follows callbacks
    (isContainer_array elements) (blocks_eq.trans textEq) severed traversed

/-- An array without its last bracket, when no piece is severed. -/
theorem received_truncated {front : List Piece} {closing : Piece}
    (split : pieces = front ++ [closing])
    (blocks_eq : blocks.flatten = piecesText front)
    (uncut : Uncut pieces blocks) :
    receivedInBlocks F memory reader blocks =
      received F memory ⟨.startArray :: (elementsOfJson toDouble elements).callbacks, true⟩ := by
  rcases reads.standard _ _ array with ⟨_, callbacks⟩
  have taken := (takeChunks_lengths_isSome_iff blocks (sizesOf pieces)).mpr uncut
  rcases JsonStreamParser.traverse_truncated reads.follows callbacks (isContainer_array elements)
    taken reads.fails split blocks_eq with ⟨parser, traversed, failed, handles⟩
  rw [documentOf, Document.callbacks, split, map_append, ← cons_append] at callbacks
  rcases append_inj' callbacks rfl with ⟨_, last⟩
  rw [documentOf, Document.callbacks, ← cons_append, show [closing.callback] = _ from last]
    at handles
  rcases handles.calls_eq rfl with ⟨handler, ran, calls⟩
  rw [receivedInBlocks_eq traversed ran calls, decide_eq_true failed]

end

/-- The reader reads the output of a log. It is one that was finished, or its last bracket is
missing. -/
def ReadsLog {S : Type v} (toDouble : List Char → BitVec 64) (reader : JsonReader S)
    (text : List Char) (pieces : List Piece) : Bool → Prop
  | true => ReadsText toDouble reader text pieces
  | false => ReadsText toDouble reader (text ++ [']']) pieces ∧
      ∃ front closing, pieces = front ++ [closing] ∧ closing.text = outputBytes [']']

section

variable {F : Type u} [Conversions F] {S : Type v} {toDouble : List Char → BitVec 64}
  {reader : JsonReader S} {pieces : List Piece} {blocks : List Block} (memory : Memory)
  {session identity : Block} (plainSession : IsPlainText session)
  (plainIdentity : IsPlainText identity) (start : Clock) {items : List (Clock × LogItem)}
  (finite : ∀ item ∈ items, ∀ value ∈ item.2.floats, value.isFinite = true)
  (plain : ∀ item ∈ items, ∀ text ∈ item.2.texts, IsPlainText text)

include plainSession plainIdentity finite plain in
theorem parses_streamedEntries (stop : Clock) :
    ∀ entry ∈ streamedEntries session identity start items ++ [endMembers stop.sec],
      Parses (objectJson entry) (objectText entry) := by
  have log : ∀ entry ∈ (JsonLog.mk session identity start items stop).entries,
      Parses (objectJson entry) (objectText entry) := by
    apply JsonLog.parses_entries
    · intro value within
      rcases mem_flatMap.mp within with ⟨item, inItems, inFloats⟩
      exact finite item inItems value inFloats
    · refine forall_mem_cons.mpr ⟨plainSession, forall_mem_cons.mpr ⟨plainIdentity, ?_⟩⟩
      intro text within
      rcases mem_flatMap.mp within with ⟨item, inItems, inTexts⟩
      exact plain item inItems text inTexts
  exact log

theorem simple_streamedEntries (session identity : Block) (items : List (Clock × LogItem))
    (stop : Clock) :
    ∀ entry ∈ streamedEntries session identity start items ++ [endMembers stop.sec],
      ∀ m ∈ entry, Simple toDouble m :=
  simple_entries (JsonLog.mk session identity start items stop)

/-- The array of a log is read. -/
theorem readValue_joined {entries : List (List Member)} (some : entries ≠ [])
    (parses : ∀ e ∈ entries, Parses (objectJson e) (objectText e)) (rest : List Char) :
    readValue (('[' :: (joined "\n,".toList (entries.map objectText) ++ ']' :: rest)).length + 1)
        ('[' :: (joined "\n,".toList (entries.map objectText) ++ ']' :: rest)) =
      Option.some (.array (entries.map objectJson), rest) := by
  rcases exists_cons_of_ne_nil some with ⟨entry, others, rfl⟩
  change readValue (('[' :: (joined (['\n'] ++ [',']) _ ++ ']' :: rest)).length + 1)
    ('[' :: (joined (['\n'] ++ [',']) _ ++ ']' :: rest)) = _
  exact readValue_array (parsesElements_joined isSpace_newline parses)
    (by simp only [length_append, length_cons]; omega) rest

/-- The info of the end of a log, from the first call that finished it. -/
def endInfo (toDouble : List Char → BitVec 64) : List (Clock × EntryCall) → FinishInfo F
  | [] => { offset := Conversions.unset }
  | (stop, _) :: _ => ⟨literalNumber toDouble stop.sec.1.text, true⟩

variable {ending : List (Clock × EntryCall)}
  (ends : ending = [] ∨ ∃ stop others, ending = (stop, .finishLog) :: others)
  (reads : ReadsLog toDouble reader
    (streamed session identity start (itemCalls items ++ entryCalls ending)) pieces
      (!ending.isEmpty))
  (blocks_eq : blocks.flatten =
    outputBytes (streamed session identity start (itemCalls items ++ entryCalls ending)))

include plainSession plainIdentity finite plain ends reads blocks_eq

/-- When no piece is severed the sink gets an info of the beginning, those of the items and one of
the end, which is clean if the log was finished. -/
theorem received_log (known : ∀ item ∈ items, IsKnown item.2) (uncut : Uncut pieces blocks) :
    ∃ begin infos, List.Forall₂ (fun item infos => Brings item.2 infos) items infos ∧
      receivedInBlocks F memory reader blocks =
        some (.begin begin :: infos.flatten ++ [.finish (endInfo toDouble ending)]) := by
  rcases consumes_stream (F := F) toDouble memory session identity start known with
    ⟨begin, infos, brings, consumes⟩
  refine ⟨begin, infos, brings, ?_⟩
  have parses := parses_streamedEntries plainSession plainIdentity start finite plain
  have simple (stop : Clock) :
      ∀ entry ∈ streamedEntries session identity start items ++ [endMembers stop.sec],
        ∀ m ∈ entry, Simple toDouble m :=
    simple_streamedEntries start session identity items stop
  rcases ends with rfl | ⟨stop, others, rfl⟩
  · have noCalls : itemCalls items ++ entryCalls [] = itemCalls items := append_nil _
    have array := readValue_joined (cons_ne_nil _ _) (forall_mem_append.mp (parses start)).1 []
    rw [noCalls] at reads blocks_eq
    rcases reads with ⟨reads, front, closing, split, closingEq⟩
    rw [streamed_items, cons_append] at reads
    have textEq := (reads.standard _ _ array).1
    rw [split, piecesText, flatMap_append, flatMap_singleton, closingEq, ← cons_append] at textEq
    have frontEq := append_cancel_right ((map_append.symm.trans textEq).trans (append_nil _))
    have blocksEq := blocks_eq.trans
      ((congrArg outputBytes (streamed_items session identity start items)).trans frontEq)
    refine (received_truncated reads array split blocksEq uncut).trans
      ((received_unclosed memory (forall_mem_append.mp (simple start)).1).trans ?_)
    exact congrArg some (congrArg (· ++ _) consumes.consumed_eq)
  · rcases streamed_finished session identity start items stop others with ⟨rest, textEq⟩
    have array := readValue_joined (append_ne_nil_of_left_ne_nil (cons_ne_nil _ _) _)
      (parses stop) rest
    rw [textEq] at reads blocks_eq
    have ended := deliver_end toDouble consumes.plain stop.sec
    have last : extracted toDouble
        (streamedEntries session identity start items ++ [endMembers stop.sec])
          (initial (F := F) memory) =
        (objectDocument toDouble (endMembers stop.sec)).build ["_"]
          (extracted toDouble (streamedEntries session identity start items) (.initial memory)) :=
      extracted_append toDouble _ _ _
    refine (received_uncut reads array blocks_eq uncut).trans
      ((received_closed memory (simple stop)).trans ?_)
    rw [last, finish, if_pos ended.clean]
    exact congrArg some (consumes.trans ended.consumes).consumed_eq

/-- A log that was finished ends with an info that is not clean when a piece is severed. -/
theorem last_of_severed (finished : ending ≠ []) (cut : ¬Uncut pieces blocks)
    {infos : List (Info F)} (receivedEq : receivedInBlocks F memory reader blocks = some infos) :
    infos.getLast? = some (.finish { offset := Conversions.unset }) := by
  rcases ends with rfl | ⟨stop, others, rfl⟩
  · exact absurd rfl finished
  · rcases streamed_finished session identity start items stop others with ⟨rest, textEq⟩
    have array := readValue_joined (append_ne_nil_of_left_ne_nil (cons_ne_nil _ _) _)
      (parses_streamedEntries plainSession plainIdentity start finite plain stop) rest
    rw [textEq] at reads blocks_eq
    exact last_of_cut reads array blocks_eq cut receivedEq

end

end Eagine.LogServer
