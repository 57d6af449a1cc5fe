import Eagine.ValueTree.StreamCutting
import Mathlib.Data.List.TakeWhile

/-!
# When the cutting does not matter

A stream that is cut into blocks is traversed like a stream in one block exactly when no block ends
in a piece of which the parser has started to read: the maximal size of a token or more behind the
end of the last token, and before the end of the next one.
-/

namespace Eagine.ValueTree

open Serialization Theory StreamParser List

universe u

namespace JsonStreamParser

variable {S : Type u} {reader : JsonReader S} {all : List Callback} {following : Block}
  {maxTokenSize : Nat}

variable {parser : JsonStreamParser S} {pieces : List Piece}

theorem conclude_failed (failed : reader.Failed parser.reader) :
    StreamNote.failed ∈ (parser.conclude reader).notes := by
  rw [conclude, failed]
  exact mem_append_right _ (mem_singleton.mpr rfl)

theorem conclude_finished (noError : reader.parseError parser.reader = none) :
    parser.conclude reader = (parser.note .flush).note .finish := by
  rw [conclude, noError]

theorem handler_conclude (parser : JsonStreamParser S) :
    (parser.conclude reader).handler = parser.handler := by
  rw [conclude]
  split <;> rfl

/-- All pieces are read when the stream is finished. -/
theorem Reading.parseRest {fuel : Nat} (reading : Reading reader all following pieces [] parser)
    (some : pieces ≠ []) (enough : parser.stream.rest.length < fuel) :
    ∃ after, parseRest reader fuel parser = Option.some after ∧
      Reading reader all following [] [] after := by
  induction pieces generalizing parser fuel with
  | nil => exact absurd rfl some
  | cons piece pieces ih =>
      cases fuel with
      | zero => exact absurd enough (Nat.not_lt_zero _)
      | succ fuel =>
          have arrived : piece.size ≤ parser.stream.rest.length := by
            have textEq := congrArg List.length reading.text_eq
            rw [append_nil, length_append, piecesText, flatMap_cons,
              length_append] at textEq
            rw [Piece.size]
            omega
          rcases reading.step arrived with ⟨next, stepEq, readingNext, lengthEq⟩
          rw [JsonStreamParser.parseRest, stepEq, Option.bind_some]
          cases pieces with
          | nil => exact ⟨next, rfl, readingNext⟩
          | cons other pieces =>
              have size := piece.size_pos
              exact ih readingNext (cons_ne_nil _ _) (by omega)

/-- What a visitor has seen of a document and of what follows it. -/
structure Seen (all : List Callback) (following : Block) (parser : JsonStreamParser S) :
    Prop where
  handles : Handles all [] parser.handler
  unparsed_eq : parser.unparsed = following
  ends_eq : parser.ends = [.finish]

theorem seen_conclude (noError : reader.parseError parser.reader = none)
    (handles : Handles all [] parser.handler)
    (unparsed_eq : parser.unparsed = following) (ends_eq : parser.ends = []) :
    Seen all following (parser.conclude reader) := by
  rw [conclude_finished noError]
  refine ⟨handles, ?_, ?_⟩
  · rw [unparsed_note, unparsed_note, unparsed_eq]
    simp
  · rw [ends_note, ends_note, ends_eq]
    rfl

/-- A stream in which no piece was severed. -/
theorem Stage.finish (stage : Stage reader all following [] parser pieces) :
    ∃ after, parser.finish reader = some after ∧ Seen all following after := by
  cases stage with
  | closed closed =>
      have textEq := closed.text_eq
      rw [append_nil] at textEq
      exact ⟨parser.conclude reader, if_pos closed.isClosed,
        seen_conclude closed.noError closed.handles textEq closed.ends_eq⟩
  | reading some settled reading =>
      have isOpen : parser.handler.inUnparsed = false := by
        rw [reading.inUnparsed_eq]
        exact isEmpty_eq_false_iff.mpr some
      rcases reading.parseRest some (Nat.lt_succ_self _) with ⟨last, readEq, readingLast⟩
      rcases unparsed_handOver last with ⟨unparsedEq, endsEq, readerEq, handlerEq⟩
      have textEq : last.stream.rest ++ [] = following := readingLast.text_eq
      refine ⟨last.handOver.conclude reader, ?_, ?_⟩
      · rw [JsonStreamParser.finish, if_neg (by rw [isOpen]; exact Bool.false_ne_true), readEq,
          Option.map_some, if_pos readingLast.follows.1]
      · apply seen_conclude
        · rw [readerEq]
          exact readingLast.follows.2
        · rw [handlerEq]
          exact readingLast.handles
        · rw [unparsedEq, readingLast.unparsed_eq, ← textEq, append_nil]
          rfl
        · rw [endsEq]
          exact readingLast.ends_eq

section

variable {front : List Piece} {closing : Piece} (fails : reader.FailsAtEnd)

include fails

/-- All pieces are read but the last one, which did not arrive. -/
theorem Reading.parseRest_truncated {fuel : Nat}
    (reading : Reading reader all [] (front ++ [closing]) closing.text parser)
    (enough : parser.stream.rest.length < fuel) :
    ∃ after, JsonStreamParser.parseRest reader fuel parser = some after ∧
      reader.Failed after.reader ∧ Handles all [closing.callback] after.handler := by
  induction front generalizing parser fuel with
  | nil =>
      cases fuel with
      | zero => exact absurd enough (Nat.not_lt_zero _)
      | succ fuel =>
          have restEq : parser.stream.rest = [] := by
            have textEq := congrArg List.length reading.text_eq
            simp only [piecesText, length_append, flatMap_append, flatMap_singleton, flatMap_nil,
              length_nil] at textEq
            exact length_eq_zero_iff.mp (by omega)
          rcases fails parser.reader reading.follows.1 with ⟨notOk, callbacks, failed⟩
          refine ⟨{ parser with
            stream := parser.stream.takeMany (reader.parseNext parser.reader []).taken
            reader := (reader.parseNext parser.reader []).state }, ?_, failed, reading.handles⟩
          rw [JsonStreamParser.parseRest, doParseCurrent, restEq, callbacks, notOk]
          rfl
  | cons piece front ih =>
      cases fuel with
      | zero => exact absurd enough (Nat.not_lt_zero _)
      | succ fuel =>
          have arrived : piece.size ≤ parser.stream.rest.length := by
            have textEq := congrArg List.length reading.text_eq
            simp only [piecesText, length_append, cons_append, flatMap_cons, flatMap_append,
              length_nil] at textEq
            rw [Piece.size]
            omega
          rcases reading.step arrived with ⟨next, stepEq, readingNext, lengthEq⟩
          have size := piece.size_pos
          rcases ih readingNext (by omega : next.stream.rest.length < fuel) with
            ⟨after, readEq, others⟩
          refine ⟨after, ?_, others⟩
          have goesOn : (front ++ [closing]).isEmpty = false := by simp
          rw [JsonStreamParser.parseRest, stepEq]
          change (if (!(front ++ [closing]).isEmpty) = true then _ else _) = _
          rw [goesOn]
          exact readEq

/-- A stream in which no piece was severed, and whose last piece did not arrive. -/
theorem Stage.finish_truncated (stage : Stage reader all [] closing.text parser pieces)
    (isSuffix : pieces <:+ front ++ [closing]) :
    ∃ after, parser.finish reader = some after ∧ StreamNote.failed ∈ after.notes ∧
      Handles all [closing.callback] after.handler := by
  cases stage with
  | closed closed =>
      exact absurd (append_eq_nil_iff.mp closed.text_eq).2 closing.text_ne
  | reading some settled reading =>
      rcases isSuffix with ⟨before, split⟩
      rcases eq_nil_or_concat pieces with rfl | ⟨left, last, rfl⟩
      · exact absurd rfl some
      · rw [concat_eq_append, ← append_assoc] at split
        rcases append_inj' split rfl with ⟨_, lastEq⟩
        cases lastEq
        have isOpen : parser.handler.inUnparsed = false := by
          rw [reading.inUnparsed_eq]
          simp
        rw [concat_eq_append] at reading
        rcases reading.parseRest_truncated fails (Nat.lt_succ_self _) with
          ⟨rest, readEq, failed, handles⟩
        rcases unparsed_handOver rest with ⟨_, _, readerEq, handlerEq⟩
        refine ⟨_, (if_neg (by rw [isOpen]; exact Bool.false_ne_true)).trans
          (congrArg (Option.map _) readEq), conclude_failed ?_, ?_⟩
        · split
          · exact readerEq ▸ failed
          · exact failed
        · rw [handler_conclude]
          split
          · exact handlerEq ▸ handles
          · exact handles

end

/-- A stream in which a piece was severed. -/
theorem Lost.finish (keeps : reader.KeepsErrors) {after : JsonStreamParser S}
    (lost : Lost reader [] parser) (finished : parser.finish reader = some after) :
    StreamNote.failed ∈ after.notes := by
  cases isOpen : parser.handler.inUnparsed with
  | true =>
      have failed : reader.Failed parser.reader := by
        cases lost.doomed with
        | failed failed => exact failed
        | stuck notClosed => exact absurd (isOpen.symm.trans notClosed) Bool.noConfusion
      rw [JsonStreamParser.finish, if_pos isOpen] at finished
      rw [← Option.some.inj finished]
      exact conclude_failed failed
  | false =>
      rw [JsonStreamParser.finish, if_neg (by rw [isOpen]; exact Bool.false_ne_true)] at finished
      rcases Option.map_eq_some_iff.mp finished with ⟨last, readEq, afterEq⟩
      have failed := failed_parseRest keeps lost.doomed readEq
      rw [← afterEq]
      apply conclude_failed
      split
      · rw [(unparsed_handOver last).2.2.1]
        exact failed
      · exact failed

/-- The stream in blocks is traversed like the same stream in one block: the visitor sees the same
values in the same order, what is behind the document is handed on as it is, and nothing fails. -/
def TraversedAsWhole (reader : JsonReader S) (maxTokenSize : Nat) (document following : Block)
    (blocks : List Block) : Prop :=
  ∃ whole parts, traverse reader maxTokenSize [document ++ following] = some whole ∧
    traverse reader maxTokenSize blocks = some parts ∧
    parts.handler.trace = whole.handler.trace ∧ parts.ends = whole.ends ∧
    parts.unparsed = following ∧ StreamNote.failed ∉ parts.notes

/-- The parser before the first block. -/
theorem reading_begin (follows : reader.Follows reader.parseInit pieces) {document : Document}
    (callbacks : pieces.map Piece.callback = document.callbacks)
    (isContainer : document.isContainer = true) {remaining : Block}
    (text_eq : remaining = piecesText pieces ++ following) :
    Reading reader document.callbacks following pieces remaining (begin reader) where
  follows := follows
  handles := by
    rcases closes_document isContainer with ⟨final, closes⟩
    rw [callbacks]
    exact ⟨false, {}, rfl, ⟨[], rfl, rfl⟩, final, closes⟩
  text_eq := text_eq
  within := Nat.le_refl 0
  unparsed_eq := rfl
  ends_eq := rfl

theorem pieces_ne {document : Document} (callbacks : pieces.map Piece.callback = document.callbacks)
    (isContainer : document.isContainer = true) : pieces ≠ [] := by
  rintro rfl
  cases document with
  | array elements => exact absurd callbacks.symm (cons_ne_nil _ _)
  | object members => exact absurd callbacks.symm (cons_ne_nil _ _)
  | _ => exact absurd isContainer Bool.false_ne_true

/-- Nothing is severed by one block. -/
theorem not_severed_whole (pieces : List Piece) (following : Block) :
    ¬Severed maxTokenSize (sizesOf pieces) (piecesText pieces ++ following).length := by
  rintro ⟨front, size, behind, sizesEq, _, within⟩
  have total := congrArg List.sum sizesEq
  rw [length_append, length_piecesText] at within
  rw [sum_append, sum_cons] at total
  omega

section

variable {document : Document} {blocks : List Block} {missing : Block}
  (follows : reader.Follows reader.parseInit pieces)
  (callbacks : pieces.map Piece.callback = document.callbacks)
  (isContainer : document.isContainer = true)
  (taken : (takeChunks maxTokenSize (blocks.map List.length) (sizesOf pieces) 0).isSome)

include follows callbacks isContainer taken

/-- Behind the blocks of a stream in which no piece is severed. -/
theorem traverse_stage (text_eq : blocks.flatten ++ missing = piecesText pieces ++ following) :
    ∃ middle left, traverse reader maxTokenSize blocks = middle.finish reader ∧
      left <:+ pieces ∧ Stage reader document.callbacks following missing middle left := by
  have stage : Stage reader document.callbacks following (blocks.flatten ++ missing) (begin reader)
      pieces :=
    .reading (pieces_ne callbacks isContainer) ⟨rfl, Nat.le_refl 0⟩
      (reading_begin follows callbacks isContainer text_eq)
  rcases stage.parseBlocks taken with ⟨middle, left, parsed, isSuffix, stageMiddle⟩
  refine ⟨middle, left, ?_, isSuffix, stageMiddle⟩
  change (parseBlocks reader maxTokenSize blocks (begin reader)).bind _ = _
  rw [parsed, Option.bind_some]

/-- A stream in whose blocks no piece is severed. -/
theorem traverse_seen (text_eq : blocks.flatten = piecesText pieces ++ following) :
    ∃ parser, traverse reader maxTokenSize blocks = some parser ∧
      Seen document.callbacks following parser := by
  rcases traverse_stage follows callbacks isContainer taken
    ((append_nil _).trans text_eq) with ⟨middle, left, traversed, _, stage⟩
  rcases stage.finish with ⟨last, finished, seen⟩
  exact ⟨last, traversed.trans finished, seen⟩

/-- A stream in whose blocks no piece is severed and whose last piece did not arrive. -/
theorem traverse_truncated {front : List Piece} {closing : Piece} (fails : reader.FailsAtEnd)
    (split : pieces = front ++ [closing]) (text_eq : blocks.flatten = piecesText front) :
    ∃ parser, traverse reader maxTokenSize blocks = some parser ∧
      StreamNote.failed ∈ parser.notes ∧
        Handles document.callbacks [closing.callback] parser.handler := by
  have textEq : blocks.flatten ++ closing.text = piecesText pieces ++ [] := by
    rw [text_eq, split, piecesText, piecesText, flatMap_append, flatMap_singleton, append_nil]
  rcases traverse_stage follows callbacks isContainer taken textEq with
    ⟨middle, left, traversed, isSuffix, stage⟩
  rw [traversed]
  exact stage.finish_truncated fails (split ▸ isSuffix)

end

/-- When a piece is severed the visitor is told that the stream failed. -/
theorem failed_of_severed (keeps : reader.KeepsErrors) {document : Document} {blocks : List Block}
    (follows : reader.Follows reader.parseInit pieces)
    (callbacks : pieces.map Piece.callback = document.callbacks)
    (isContainer : document.isContainer = true)
    (text_eq : blocks.flatten = piecesText pieces ++ following)
    (severed : ¬(takeChunks maxTokenSize (blocks.map List.length) (sizesOf pieces) 0).isSome)
    (traversed : traverse reader maxTokenSize blocks = some parser) :
    StreamNote.failed ∈ parser.notes := by
  rcases Option.bind_eq_some_iff.mp traversed with ⟨middle, parsed, finished⟩
  have reading := reading_begin follows callbacks isContainer text_eq
  have lost := reading.severed_parseBlocks keeps (pieces_ne callbacks isContainer)
    ⟨rfl, Nat.le_refl 0⟩ (Option.not_isSome_iff_eq_none.mp severed) parsed
  exact lost.finish keeps finished

theorem Seen.not_failed (seen : Seen all following parser) :
    StreamNote.failed ∉ parser.notes := by
  intro failed
  have isEnd : StreamNote.failed ∈ parser.ends :=
    mem_filter.mpr ⟨failed, by decide⟩
  rw [seen.ends_eq, mem_singleton] at isEnd
  cases isEnd

/-- It does not matter how the stream is cut exactly when no block ends that far in a piece. -/
theorem traversed_as_whole_iff (keeps : reader.KeepsErrors) {pieces : List Piece}
    {document : Document} {blocks : List Block}
    (follows : reader.Follows reader.parseInit pieces)
    (callbacks : pieces.map Piece.callback = document.callbacks)
    (isContainer : document.isContainer = true)
    (text_eq : blocks.flatten = piecesText pieces ++ following) :
    TraversedAsWhole reader maxTokenSize (piecesText pieces) following blocks ↔
      ∀ before after, blocks = before ++ after → before ≠ [] →
        ¬Severed maxTokenSize (sizesOf pieces) before.flatten.length := by
  rw [← takeChunks_lengths_isSome_iff]
  constructor
  · rintro ⟨_, parts, _, traversed, _, _, _, notFailed⟩
    by_contra severed
    exact notFailed (failed_of_severed keeps follows callbacks isContainer text_eq severed
      traversed)
  · intro taken
    have takenWhole : (takeChunks maxTokenSize ([piecesText pieces ++ following].map List.length)
        (sizesOf pieces) 0).isSome := by
      rw [takeChunks_lengths_isSome_iff]
      intro before after blocksEq some
      rcases append_eq_singleton_iff.mp blocksEq.symm with ⟨nothing, _⟩ | ⟨rfl, _⟩
      · exact absurd nothing some
      · rw [flatten_singleton]
        exact not_severed_whole pieces following
    rcases traverse_seen follows callbacks isContainer taken text_eq with
      ⟨parts, traversed, seen⟩
    rcases traverse_seen follows callbacks isContainer takenWhole flatten_singleton with
      ⟨whole, traversedWhole, seenWhole⟩
    rcases seen.handles.calls_eq (append_nil _).symm with ⟨last, lastEq, calls⟩
    rcases seenWhole.handles.calls_eq (append_nil _).symm with ⟨other, otherEq, callsWhole⟩
    cases lastEq.symm.trans otherEq
    exact ⟨whole, parts, traversedWhole, traversed, by rw [trace, trace, calls, callsWhole],
      seen.ends_eq.trans seenWhole.ends_eq.symm, seen.unparsed_eq, seen.not_failed⟩

inductive BracketState where
  | start
  | inArray
  | finished
  | error
deriving DecidableEq

/-- One bracket is read, behind any number of spaces. -/
def expectBracket (bracket : UInt8) (callback : Callback) (next : BracketState) (rest : Block) :
    ReaderStep BracketState :=
  match rest.dropWhile (· = 0x20) with
  | [] => ⟨false, [], rest.length, .error⟩
  | byte :: behind =>
      if byte = bracket then ⟨true, [callback], rest.length - behind.length, next⟩
      else ⟨false, [], rest.length - (byte :: behind).length, .error⟩

/-- A reader of arrays without elements. -/
def bracketReader : JsonReader BracketState where
  parseInit := .start
  parseNext
    | .start => expectBracket 0x5B .startArray .inArray
    | .inArray => expectBracket 0x5D (.endArray 0) .finished
    | state => fun _ => ⟨false, [], 0, state⟩
  parseComplete state := state = .finished ∨ state = .error
  parseError state := if state = .error then some .other else none

theorem bracketReader_keepsErrors : bracketReader.KeepsErrors := by
  intro state rest failed
  cases state with
  | error => rfl
  | _ => cases failed

def bracketPiece (spaces : Nat) (bracket : UInt8) (callback : Callback) : Piece where
  gap := List.replicate spaces 0x20
  token := [bracket]
  callback := callback
  token_ne := cons_ne_nil _ _

theorem expectBracket_whole (spaces : Nat) (bracket : UInt8) (callback : Callback)
    (next : BracketState) (rest : Block) (notSpace : bracket ≠ 0x20) :
    expectBracket bracket callback next ((bracketPiece spaces bracket callback).text ++ rest) =
      ⟨true, [callback], (bracketPiece spaces bracket callback).size, next⟩ := by
  have dropped : ((bracketPiece spaces bracket callback).text ++ rest).dropWhile (· = 0x20) =
      bracket :: rest := by
    rw [Piece.text, append_assoc, dropWhile_append_of_pos]
    · exact dropWhile_cons_of_neg (by simpa using notSpace)
    · intro byte found
      exact decide_eq_true (eq_of_mem_replicate found)
  rw [expectBracket, dropped]
  dsimp only
  rw [if_pos rfl, Piece.size, length_append, Nat.add_sub_cancel]

theorem expectBracket_cut {spaces : Nat} {bracket : UInt8} {callback : Callback}
    {next : BracketState} {front missing : Block}
    (text_eq : (bracketPiece spaces bracket callback).text = front ++ missing)
    (some : missing ≠ []) : (expectBracket bracket callback next front).state = .error := by
  have dropped : front.dropWhile (· = 0x20) = [] := by
    rw [dropWhile_eq_nil_iff]
    intro byte found
    rcases prefix_concat_iff.mp ⟨missing, text_eq.symm⟩ with whole | within
    · rw [Piece.text, whole] at text_eq
      exact absurd (self_eq_append_right.mp text_eq) some
    · exact decide_eq_true (eq_of_mem_replicate (within.subset found))
  rw [expectBracket, dropped]

/-- An array without elements, with as many spaces in it. -/
def emptyArray (spaces : Nat) : List Piece :=
  [bracketPiece 0 0x5B .startArray, bracketPiece spaces 0x5D (.endArray 0)]

theorem bracketReader_follows (spaces : Nat) :
    bracketReader.Follows bracketReader.parseInit (emptyArray spaces) := by
  refine ⟨rfl, .inArray, ⟨?_, ?_⟩, rfl, .finished, ⟨?_, ?_⟩, rfl, rfl⟩
  · intro rest _
    exact expectBracket_whole 0 0x5B .startArray .inArray rest (by decide)
  · intro front missing text_eq some
    refine .inl ?_
    exact congrArg bracketReader.parseError (expectBracket_cut text_eq some)
  · intro rest _
    exact expectBracket_whole spaces 0x5D (.endArray 0) .finished rest (by decide)
  · intro front missing text_eq some
    refine .inl ?_
    exact congrArg bracketReader.parseError (expectBracket_cut text_eq some)

/-- A cut between the brackets, and one behind them. -/
theorem traversed_as_whole_iff_sample :
    TraversedAsWhole bracketReader 4 [0x5B, 0x20, 0x5D] [0x0A]
      [[0x5B], [0x20, 0x5D], [0x0A]] := by
  have callbacks : (emptyArray 1).map Piece.callback = (Document.array .nil).callbacks := rfl
  refine (traversed_as_whole_iff bracketReader_keepsErrors (bracketReader_follows 1) callbacks rfl
    rfl).mpr ?_
  exact (takeChunks_lengths_isSome_iff _ _).mp (by decide)

/-- Four spaces behind a token are enough, when tokens may have four characters. -/
theorem not_traversed_as_whole :
    ¬∀ (maxTokenSize : Nat) (pieces : List Piece) (document : Document) (following : Block)
      (blocks : List Block), bracketReader.Follows bracketReader.parseInit pieces →
      pieces.map Piece.callback = document.callbacks → document.isContainer = true →
      (∀ piece ∈ pieces, piece.token.length < maxTokenSize) →
      blocks.flatten = piecesText pieces ++ following →
      TraversedAsWhole bracketReader maxTokenSize (piecesText pieces) following blocks := by
  intro always
  rcases always 4 (emptyArray 5) (.array .nil) [] [0x5B :: List.replicate 4 0x20, [0x20, 0x5D]]
    (bracketReader_follows 5) rfl rfl (by decide) rfl with ⟨_, parts, _, traversed, _, _, _, notFailed⟩
  have failed : (traverse bracketReader 4 [0x5B :: List.replicate 4 0x20, [0x20, 0x5D]]).map
      notes = some [.failed] := by
    rfl
  rw [traversed, Option.map_some, Option.some.injEq] at failed
  exact notFailed (failed ▸ mem_singleton_self _)

end JsonStreamParser

end Eagine.ValueTree
