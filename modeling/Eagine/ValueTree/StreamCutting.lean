import Eagine.ValueTree.StreamReading

/-!
# Cutting a stream into blocks

A document arrives whole, however its text is cut into blocks, unless a block ends in a piece that
the parser has started to read.
-/

namespace Eagine.ValueTree

open Serialization Theory StreamParser List

universe u

namespace JsonStreamParser

variable {S : Type u} {reader : JsonReader S} {all : List Callback} {following : Block}
  {maxTokenSize : Nat}

variable {parser after : JsonStreamParser S} {pieces : List Piece} {remaining block : Block}
  {blocks : List Block}

theorem le_available_iff (within : parser.stream.Within) :
    (maxTokenSize : Int) ≤ parser.stream.available ↔
      maxTokenSize ≤ parser.stream.rest.length := by
  rw [ProgressiveStream.available_eq within]
  exact Int.ofNat_le

/-- Pieces are taken as long as there is enough data. -/
theorem Reading.parseAvailable {sizes : List Nat} {unread fuel : Nat} {before : Bool}
    (reading : Reading reader all following pieces remaining parser) (some : pieces ≠ [])
    (enough : parser.stream.rest.length < fuel)
    (taken : takeItems maxTokenSize (sizesOf pieces) parser.stream.rest.length =
      Option.some (sizes, unread)) :
    ∃ afterwards after left,
      JsonStreamParser.parseAvailable reader maxTokenSize fuel before parser =
        Option.some (afterwards, after) ∧ sizes = sizesOf left ∧ left <:+ pieces ∧
          unread = after.stream.rest.length ∧
          Reading reader all following left remaining after := by
  induction pieces generalizing parser fuel before with
  | nil => exact absurd rfl some
  | cons piece pieces ih =>
      cases fuel with
      | zero => exact absurd enough (Nat.not_lt_zero _)
      | succ fuel =>
          rw [sizesOf, map_cons, takeItems] at taken
          rw [JsonStreamParser.parseAvailable]
          by_cases few : parser.stream.rest.length < maxTokenSize
          · rw [if_pos few] at taken
            cases taken
            have notEnough : ¬(maxTokenSize : Int) ≤ parser.stream.available := by
              rw [le_available_iff reading.within]
              exact Nat.not_le_of_lt few
            exact ⟨before, parser, piece :: pieces, if_neg notEnough, rfl, suffix_rfl, rfl,
              reading⟩
          · rw [if_neg few] at taken
            have available := (le_available_iff reading.within).mpr (Nat.le_of_not_lt few)
            by_cases short : parser.stream.rest.length < piece.size
            · rw [if_pos short] at taken
              cases taken
            · rw [if_neg short] at taken
              rcases reading.step (Nat.le_of_not_lt short) with ⟨next, stepEq, readingNext, lengthEq⟩
              rw [← lengthEq] at taken
              rw [if_pos available, stepEq, Option.bind_some]
              cases pieces with
              | nil =>
                  cases taken
                  exact ⟨before, next, [], rfl, rfl, nil_suffix, rfl, readingNext⟩
              | cons following pieces =>
                  have size := piece.size_pos
                  have enoughNext : next.stream.rest.length < fuel := by omega
                  rcases ih readingNext (cons_ne_nil _ _) enoughNext taken with
                    ⟨afterwards, after, left, parsed, sizesEq, isSuffix, others⟩
                  exact ⟨afterwards, after, left, parsed, sizesEq,
                    isSuffix.trans (suffix_cons _ _), others⟩

/-- When a piece is severed the reader has to fail. -/
theorem Reading.doomed_parseAvailable (keeps : reader.KeepsErrors) {fuel : Nat}
    {before afterwards : Bool} (reading : Reading reader all following pieces remaining parser)
    (severed : takeItems maxTokenSize (sizesOf pieces) parser.stream.rest.length = none)
    (parsed : JsonStreamParser.parseAvailable reader maxTokenSize fuel before parser =
      some (afterwards, after)) : Doomed reader remaining after := by
  induction pieces generalizing parser fuel before with
  | nil => cases severed
  | cons piece pieces ih =>
      cases fuel with
      | zero => cases parsed
      | succ fuel =>
          rw [sizesOf, map_cons, takeItems] at severed
          rw [JsonStreamParser.parseAvailable] at parsed
          by_cases few : parser.stream.rest.length < maxTokenSize
          · rw [if_pos few] at severed
            cases severed
          · rw [if_neg few] at severed
            have available := (le_available_iff reading.within).mpr (Nat.le_of_not_lt few)
            rw [if_pos available] at parsed
            by_cases short : parser.stream.rest.length < piece.size
            · rcases Option.bind_eq_some_iff.mp parsed with ⟨⟨goesOn, next⟩, step, others⟩
              have doomed := reading.cut short step
              dsimp only at others
              split at others
              · rcases JsonStreamParser.doomed_parseAvailable keeps doomed others with same | failed
                · rw [same]
                  exact doomed
                · exact .failed failed
              · cases others
                exact doomed
            · rw [if_neg short] at severed
              rcases reading.step (Nat.le_of_not_lt short) with ⟨next, stepEq, readingNext, lengthEq⟩
              rw [← lengthEq] at severed
              rw [stepEq, Option.bind_some] at parsed
              cases pieces with
              | nil => cases severed
              | cons following pieces => exact ih readingNext severed parsed

/-- The parser behind a block, when the document goes on. -/
theorem settled_eq (parsedSomething : Bool)
    (notComplete : reader.parseComplete parser.reader = false) :
    parser.parsed reader parsedSomething =
      (true, (if parsedSomething then parser.flush else parser).advance) := by
  rw [parsed, if_neg (by rw [notComplete]; exact Bool.false_ne_true)]

/-- The parser behind a block that ends with the document. -/
theorem ended_eq (parsedSomething : Bool) (isComplete : reader.parseComplete parser.reader = true)
    (nothing : parser.stream.getUnused.1 = []) :
    parser.parsed reader parsedSomething = (false, parser) := by
  rw [parsed, if_pos isComplete, if_pos nothing]

/-- The parser behind a block in which the document ends. -/
theorem unused_eq (parsedSomething : Bool) (isComplete : reader.parseComplete parser.reader = true)
    (unused : parser.stream.getUnused.1 ≠ []) :
    parser.parsed reader parsedSomething =
      (true, (if parsedSomething then
        flush { parser.handOver with handler := { parser.handler with inUnparsed := true } }
        else { parser.handOver with
          handler := { parser.handler with inUnparsed := true } }).advance) := by
  rw [parsed, if_pos isComplete, if_neg unused]

/-- The parser between two blocks, when the reader has to fail. -/
structure Lost (reader : JsonReader S) (remaining : Block) (parser : JsonStreamParser S) :
    Prop where
  doomed : Doomed reader remaining parser
  settled : reader.Failed parser.reader ∨ parser.stream.Settled

theorem Doomed.parsed (doomed : Doomed reader remaining parser) (parsedSomething : Bool) :
    Lost reader remaining (parser.parsed reader parsedSomething).2 := by
  have flushed := flushed_if parsedSomething parser
  cases doomed with
  | failed failed =>
      have same : (parser.parsed reader parsedSomething).2.reader = parser.reader := by
        cases isComplete : reader.parseComplete parser.reader with
        | false =>
            rw [settled_eq parsedSomething isComplete]
            exact flushed.reader_eq
        | true =>
            by_cases nothing : parser.stream.getUnused.1 = []
            · rw [ended_eq parsedSomething isComplete nothing]
            · rw [unused_eq parsedSomething isComplete nothing]
              exact (flushed_if parsedSomething _).reader_eq.trans
                (unparsed_handOver parser).2.2.1
      rw [← same] at failed
      exact ⟨.failed failed, .inl failed⟩
  | stuck isOpen within notComplete stuck =>
      rcases flushed.handler_eq with ⟨flag, handlerEq⟩
      have settled : (if parsedSomething then parser.flush else parser).advance.stream.Settled := by
        rw [stream_advance, flushed.stream_eq]
        exact within.settled_advance
      rw [settled_eq parsedSomething notComplete]
      refine ⟨.stuck ?_ ?_ ?_ ?_, .inr settled⟩
      · rw [handler_advance, handlerEq]
        exact isOpen
      · exact settled.within
      · rw [reader_advance, flushed.reader_eq]
        exact notComplete
      · rw [stream_advance, reader_advance, ProgressiveStream.rest_advance, flushed.stream_eq,
          flushed.reader_eq]
        exact stuck

/-- The document is closed, and what is behind it is handed on. -/
structure Closed (reader : JsonReader S) (all : List Callback) (following remaining : Block)
    (parser : JsonStreamParser S) : Prop where
  isClosed : parser.handler.inUnparsed = true
  noError : reader.parseError parser.reader = none
  handles : Handles all [] parser.handler
  text_eq : parser.unparsed ++ remaining = following
  ends_eq : parser.ends = []

/-- The parser between two blocks, with the pieces that it has not read. -/
inductive Stage (reader : JsonReader S) (all : List Callback) (following remaining : Block)
    (parser : JsonStreamParser S) : List Piece → Prop where
  | reading {pieces : List Piece} (some : pieces ≠ []) (settled : parser.stream.Settled)
      (reading : Reading reader all following pieces remaining parser) :
      Stage reader all following remaining parser pieces
  | closed (closed : Closed reader all following remaining parser) :
      Stage reader all following remaining parser []

/-- Behind the loop of `parse_data`. -/
theorem Reading.parsed (reading : Reading reader all following pieces remaining parser)
    (parsedSomething : Bool) :
    Stage reader all following remaining (parser.parsed reader parsedSomething).2 pieces ∧
      (pieces ≠ [] →
        (parser.parsed reader parsedSomething).2.stream.rest = parser.stream.rest) := by
  have isComplete := reading.follows.parseComplete_eq
  rcases reading.handles with ⟨flag, handler, handlerEq, ran, final, closes⟩
  cases pieces with
  | cons piece pieces =>
      have flushed := flushed_if parsedSomething parser
      have restEq : (if parsedSomething then parser.flush else parser).advance.stream.rest =
          parser.stream.rest := by
        rw [stream_advance, ProgressiveStream.rest_advance, flushed.stream_eq]
      rcases flushed.handler_eq with ⟨other, flushedEq⟩
      rw [settled_eq parsedSomething isComplete]
      refine ⟨.reading (cons_ne_nil _ _) ?_ ?_, fun _ => restEq⟩
      · rw [stream_advance, flushed.stream_eq]
        exact reading.within.settled_advance
      · refine ⟨?_, ⟨other, handler, ?_, ran, final, closes⟩, ?_, ?_, ?_, ?_⟩
        · rw [reader_advance, flushed.reader_eq]
          exact reading.follows
        · rw [handler_advance, flushedEq, handlerEq]
          rfl
        · rw [restEq]
          exact reading.text_eq
        · rw [stream_advance, flushed.stream_eq]
          exact reading.within.settled_advance.within
        · exact flushed.unparsed_eq.trans reading.unparsed_eq
        · exact flushed.ends_eq.trans reading.ends_eq
  | nil =>
      have isClosed := closes.1
      have textEq : parser.stream.rest ++ remaining = following := reading.text_eq
      refine ⟨.closed ?_, fun some => absurd rfl some⟩
      by_cases nothing : parser.stream.getUnused.1 = []
      · rw [ended_eq parsedSomething isComplete nothing]
        have restEq := parser.stream.getUnused_eq.2 nothing
        refine ⟨?_, reading.follows.2, reading.handles, ?_, reading.ends_eq⟩
        · rw [handlerEq]
          exact isClosed
        · rw [restEq] at textEq
          rw [reading.unparsed_eq]
          exact textEq
      · rw [unused_eq parsedSomething isComplete nothing]
        rcases unparsed_handOver parser with ⟨unparsedEq, endsEq, readerEq, _⟩
        have flushed := flushed_if parsedSomething
          { parser.handOver with handler := { parser.handler with inUnparsed := true } }
        rcases flushed.handler_eq with ⟨other, flushedEq⟩
        refine ⟨?_, ?_, ⟨other, handler, ?_, ran, final, closes⟩, ?_, ?_⟩
        · exact congrArg StreamParser.inUnparsed flushedEq
        · exact (congrArg reader.parseError (flushed.reader_eq.trans readerEq)).trans
            reading.follows.2
        · refine flushedEq.trans ?_
          rw [handlerEq]
          exact congrArg (fun closed => { handler with justFlushed := other, inUnparsed := closed })
            isClosed.symm
        · refine (congrArg (· ++ remaining) (flushed.unparsed_eq.trans unparsedEq)).trans ?_
          rw [reading.unparsed_eq]
          exact textEq
        · exact flushed.ends_eq.trans (endsEq.trans reading.ends_eq)

/-- The parser with the next block. -/
theorem Reading.next (reading : Reading reader all following pieces (block ++ remaining) parser)
    (settled : parser.stream.Settled) :
    Reading reader all following pieces remaining
      { parser with stream := parser.stream.next block } where
  follows := reading.follows
  handles := reading.handles
  text_eq := by
    have textEq := reading.text_eq
    rw [← append_assoc] at textEq
    rw [← textEq]
    exact congrArg (· ++ remaining) (settled.rest_next block)
  within := settled.within_next block
  unparsed_eq := reading.unparsed_eq
  ends_eq := reading.ends_eq

theorem parseData_open (isOpen : parser.handler.inUnparsed = false) (block : Block) :
    parser.parseData reader maxTokenSize block =
      (JsonStreamParser.parseAvailable reader maxTokenSize
        ((parser.stream.next block).rest.length + 1) false
        { parser with stream := parser.stream.next block }).map
          fun (parsedSomething, parser) => parser.parsed reader parsedSomething := by
  rw [parseData, if_neg (by rw [isOpen]; exact Bool.false_ne_true)]

/-- A block in which no piece is severed. -/
theorem Reading.parseData {sizes : List Nat} {unread : Nat}
    (reading : Reading reader all following pieces (block ++ remaining) parser)
    (some : pieces ≠ []) (settled : parser.stream.Settled)
    (taken : takeItems maxTokenSize (sizesOf pieces) (parser.stream.rest.length + block.length) =
      Option.some (sizes, unread)) :
    ∃ result after left, parser.parseData reader maxTokenSize block =
        Option.some (result, after) ∧ sizes = sizesOf left ∧ left <:+ pieces ∧
      Stage reader all following remaining after left ∧
      (left ≠ [] → unread = after.stream.rest.length) := by
  have isOpen : parser.handler.inUnparsed = false := by
    rw [reading.inUnparsed_eq]
    exact isEmpty_eq_false_iff.mpr some
  have arrived := reading.next settled
  rw [← length_append, ← settled.rest_next block] at taken
  rcases arrived.parseAvailable some (Nat.lt_succ_self _) taken with
    ⟨parsedSomething, after, left, parsed, sizesEq, isSuffix, unreadEq, readingLeft⟩
  rcases readingLeft.parsed parsedSomething with ⟨stage, restEq⟩
  refine ⟨(after.parsed reader parsedSomething).1, (after.parsed reader parsedSomething).2, left,
    ?_, sizesEq, isSuffix, stage, ?_⟩
  · rw [parseData_open isOpen]
    exact congrArg (Option.map _) parsed
  · intro someLeft
    rw [restEq someLeft]
    exact unreadEq

/-- A block in which a piece is severed. -/
theorem Reading.severed_parseData (keeps : reader.KeepsErrors) {result : Bool}
    (reading : Reading reader all following pieces (block ++ remaining) parser)
    (some : pieces ≠ []) (settled : parser.stream.Settled)
    (severed : takeItems maxTokenSize (sizesOf pieces)
      (parser.stream.rest.length + block.length) = none)
    (parsed : parser.parseData reader maxTokenSize block = Option.some (result, after)) :
    Lost reader remaining after := by
  have isOpen : parser.handler.inUnparsed = false := by
    rw [reading.inUnparsed_eq]
    exact isEmpty_eq_false_iff.mpr some
  have arrived := reading.next settled
  rw [← length_append, ← settled.rest_next block] at severed
  rw [parseData_open isOpen] at parsed
  rcases Option.map_eq_some_iff.mp parsed with ⟨⟨parsedSomething, middle⟩, looped, afterEq⟩
  have lost := (arrived.doomed_parseAvailable keeps severed looped).parsed parsedSomething
  have same : (middle.parsed reader parsedSomething).2 = after := congrArg Prod.snd afterEq
  rw [same] at lost
  exact lost

theorem Closed.parseData (closed : Closed reader all following (block ++ remaining) parser) :
    ∃ result after, parser.parseData reader maxTokenSize block = some (result, after) ∧
      Closed reader all following remaining after := by
  rw [JsonStreamParser.parseData, if_pos closed.isClosed]
  have textEq := closed.text_eq
  by_cases nothing : block = []
  · rw [nothing, nil_append] at textEq
    exact ⟨false, parser, if_pos nothing, closed.isClosed, closed.noError, closed.handles,
      textEq, closed.ends_eq⟩
  · refine ⟨true, parser.note (.unparsedData [block]), if_neg nothing, closed.isClosed,
      closed.noError, closed.handles, ?_, ?_⟩
    · rw [unparsed_note, ← textEq]
      simp
    · rw [ends_note, closed.ends_eq]
      rfl

/-- The next block does not help a parser that has to fail. -/
theorem Lost.parseData (keeps : reader.KeepsErrors) {result : Bool}
    (lost : Lost reader (block ++ remaining) parser)
    (parsed : parser.parseData reader maxTokenSize block = some (result, after)) :
    Lost reader remaining after := by
  cases isOpen : parser.handler.inUnparsed with
  | true =>
      have failed : reader.Failed parser.reader := by
        cases lost.doomed with
        | failed failed => exact failed
        | stuck notClosed => exact absurd (isOpen.symm.trans notClosed) Bool.noConfusion
      have same : after.reader = parser.reader := by
        rw [JsonStreamParser.parseData, if_pos isOpen] at parsed
        split at parsed
        · cases parsed
          rfl
        · cases parsed
          rfl
      rw [← same] at failed
      exact ⟨.failed failed, .inl failed⟩
  | false =>
      rw [parseData_open isOpen] at parsed
      rcases Option.map_eq_some_iff.mp parsed with ⟨⟨parsedSomething, middle⟩, looped, afterEq⟩
      have same : (middle.parsed reader parsedSomething).2 = after := congrArg Prod.snd afterEq
      rw [← same]
      apply Doomed.parsed
      have arrived : Doomed reader remaining
          { parser with stream := parser.stream.next block } := by
        cases lost.doomed with
        | failed failed => exact .failed failed
        | stuck notClosed within notComplete stuck =>
            cases lost.settled with
            | inl failed => exact .failed failed
            | inr settled =>
                refine .stuck notClosed (settled.within_next block) notComplete ?_
                dsimp only
                rw [settled.rest_next block, append_assoc]
                exact stuck
      rcases doomed_parseAvailable keeps arrived looped with unchanged | failed
      · rw [unchanged]
        exact arrived
      · exact .failed failed

/-- The blocks of a stream. -/
def parseBlocks (reader : JsonReader S) (maxTokenSize : Nat) (blocks : List Block)
    (parser : JsonStreamParser S) : Option (JsonStreamParser S) :=
  blocks.foldlM (fun parser block => (parser.parseData reader maxTokenSize block).map Prod.snd)
    parser

theorem parseBlocks_cons (block : Block) (blocks : List Block) (parser : JsonStreamParser S) :
    parseBlocks reader maxTokenSize (block :: blocks) parser =
      (parser.parseData reader maxTokenSize block).bind fun parsed =>
        parseBlocks reader maxTokenSize blocks parsed.2 := by
  rw [parseBlocks, foldlM_cons]
  cases parser.parseData reader maxTokenSize block <;> rfl

theorem Closed.parseBlocks
    (closed : Closed reader all following (blocks.flatten ++ remaining) parser) :
    ∃ after, parseBlocks reader maxTokenSize blocks parser = some after ∧
      Closed reader all following remaining after := by
  induction blocks generalizing parser with
  | nil => exact ⟨parser, rfl, closed⟩
  | cons block blocks ih =>
      rw [flatten_cons, append_assoc] at closed
      rcases closed.parseData with ⟨result, next, parsed, closedNext⟩
      rw [parseBlocks_cons, parsed]
      exact ih closedNext

theorem Lost.parseBlocks (keeps : reader.KeepsErrors) (lost : Lost reader blocks.flatten parser)
    (parsed : parseBlocks reader maxTokenSize blocks parser = some after) :
    Lost reader [] after := by
  induction blocks generalizing parser with
  | nil =>
      cases parsed
      exact lost
  | cons block blocks ih =>
      rw [parseBlocks_cons] at parsed
      rcases Option.bind_eq_some_iff.mp parsed with ⟨⟨result, next⟩, first, others⟩
      exact ih (lost.parseData keeps first) others

/-- No piece is severed by the blocks. -/
theorem Stage.parseBlocks
    (stage : Stage reader all following (blocks.flatten ++ remaining) parser pieces)
    (taken : (takeChunks maxTokenSize (blocks.map List.length) (sizesOf pieces)
      parser.stream.rest.length).isSome) :
    ∃ after left, parseBlocks reader maxTokenSize blocks parser = some after ∧ left <:+ pieces ∧
      Stage reader all following remaining after left := by
  induction blocks generalizing pieces parser with
  | nil => exact ⟨parser, pieces, rfl, suffix_rfl, stage⟩
  | cons block blocks ih =>
      cases stage with
      | closed closed =>
          rcases closed.parseBlocks with ⟨after, parsed, closedAfter⟩
          exact ⟨after, [], parsed, nil_suffix, .closed closedAfter⟩
      | reading some settled reading =>
          rw [map_cons, takeChunks] at taken
          rcases Option.isSome_iff_exists.mp taken with ⟨last, lastEq⟩
          rcases Option.bind_eq_some_iff.mp lastEq with ⟨⟨sizes, unread⟩, first, others⟩
          rw [flatten_cons, append_assoc] at reading
          rcases reading.parseData some settled first with
            ⟨result, next, left, parsed, sizesEq, isSuffix, stageNext, unreadEq⟩
          rw [parseBlocks_cons, parsed]
          cases stageNext with
          | closed closed =>
              rcases closed.parseBlocks with ⟨after, parsedOthers, closedAfter⟩
              exact ⟨after, [], parsedOthers, nil_suffix, .closed closedAfter⟩
          | reading someLeft settledNext readingNext =>
              rw [unreadEq someLeft, sizesEq] at others
              rcases ih (.reading someLeft settledNext readingNext)
                (Option.isSome_of_eq_some others) with ⟨after, last, parsedOthers, ends, stageLast⟩
              exact ⟨after, last, parsedOthers, ends.trans isSuffix, stageLast⟩

/-- A piece is severed by one of the blocks. -/
theorem Reading.severed_parseBlocks (keeps : reader.KeepsErrors)
    (reading : Reading reader all following pieces blocks.flatten parser) (some : pieces ≠ [])
    (settled : parser.stream.Settled)
    (severed : takeChunks maxTokenSize (blocks.map List.length) (sizesOf pieces)
      parser.stream.rest.length = none)
    (parsed : JsonStreamParser.parseBlocks reader maxTokenSize blocks parser =
      Option.some after) : Lost reader [] after := by
  induction blocks generalizing pieces parser with
  | nil => cases severed
  | cons block blocks ih =>
      rw [map_cons, takeChunks] at severed
      rw [parseBlocks_cons] at parsed
      rcases Option.bind_eq_some_iff.mp parsed with ⟨⟨result, next⟩, first, others⟩
      cases taken : takeItems maxTokenSize (sizesOf pieces)
          (parser.stream.rest.length + block.length) with
      | none => exact (reading.severed_parseData keeps some settled taken first).parseBlocks keeps others
      | some items =>
          rcases items with ⟨sizes, unread⟩
          rw [taken, Option.bind_some] at severed
          rcases reading.parseData some settled taken with
            ⟨_, _, left, parsedFirst, sizesEq, _, stageNext, unreadEq⟩
          rw [parsedFirst] at first
          cases first
          cases stageNext with
          | closed closed =>
              have never : takeChunks maxTokenSize (blocks.map List.length) [] unread ≠ none := by
                rw [← Option.isSome_iff_ne_none, takeChunks_isSome_iff]
                intro before after _ _
                exact not_severed_nil _
              rw [sizesEq] at severed
              exact absurd severed never
          | reading someLeft settledNext readingNext =>
              rw [sizesEq, unreadEq someLeft] at severed
              exact ih readingNext someLeft settledNext severed others

end JsonStreamParser

end Eagine.ValueTree
