import Eagine.Theory.Chunks
import Eagine.ValueTree.JsonStreamParser
import Eagine.ValueTree.StreamNesting

/-!
# Reading pieces from a stream

A step of the parser reads the next piece when all of it has arrived. When only a part of it has,
the reader has to fail.
-/

/-!
## Pieces of a document

Each step of the reader skips whitespace and separators and reads one token, so the text of a
document is a row of pieces. A piece that is not there as a whole makes the reader fail, at once or,
when a number was cut, with the step behind it.
-/

open List

namespace Eagine.ValueTree

open Serialization Theory

universe u

/-- What one step of the reader reads: a token, with the whitespace and the separators before it. -/
structure Piece where
  gap : Block
  token : Block
  callback : Callback
  token_ne : token ≠ []

namespace Piece

def text (piece : Piece) : Block :=
  piece.gap ++ piece.token

def size (piece : Piece) : Nat :=
  piece.text.length

theorem text_ne (piece : Piece) : piece.text ≠ [] :=
  append_ne_nil_of_right_ne_nil _ piece.token_ne

theorem size_pos (piece : Piece) : 0 < piece.size :=
  length_pos_iff.mpr piece.text_ne

end Piece

def piecesText (pieces : List Piece) : Block :=
  pieces.flatMap Piece.text

def sizesOf (pieces : List Piece) : List Nat :=
  pieces.map Piece.size

theorem length_piecesText (pieces : List Piece) :
    (piecesText pieces).length = (sizesOf pieces).sum := by
  rw [piecesText, length_flatMap]
  rfl

variable {pieces : List Piece}

theorem piecesText_ne (some : pieces ≠ []) : piecesText pieces ≠ [] := by
  rcases exists_cons_of_ne_nil some with ⟨piece, others, rfl⟩
  exact append_ne_nil_of_left_ne_nil piece.text_ne _

/-- What a reader may find behind a piece when the others are to follow. -/
def CanFollow (pieces : List Piece) (rest : Block) : Prop :=
  rest = [] ∨ pieces = [] ∨ rest.head? = (piecesText pieces).head?

variable {remaining : Block}

theorem canFollow_of_append {rest following : Block}
    (text_eq : rest ++ remaining = piecesText pieces ++ following) : CanFollow pieces rest := by
  by_cases nothing : rest = []
  · exact .inl nothing
  · by_cases none : pieces = []
    · exact .inr (.inl none)
    · refine .inr (.inr ?_)
      have heads := congrArg List.head? text_eq
      rwa [head?_append_of_ne_nil _ nothing, head?_append_of_ne_nil _ (piecesText_ne none)]
        at heads

namespace JsonReader

variable {S : Type u} (reader : JsonReader S)

/-- A parse error was reported, other than for what is behind the document. -/
def Failed (state : S) : Prop :=
  reader.parseError state = some .other

/-- The data ends in a piece, of which the rest is missing. The reader fails, or takes a number
that was cut for a shorter one and fails with the next step. -/
def Truncates (state : S) (front missing : Block) : Prop :=
  reader.Failed (reader.parseNext state front).state ∨
    (∃ number : Number, (reader.parseNext state front).callbacks = [number.callback]) ∧
      (reader.parseNext state front).taken = front.length ∧
      reader.parseComplete (reader.parseNext state front).state = false ∧
      ∀ rest : Block, rest = [] ∨ rest.head? = missing.head? →
        reader.Failed (reader.parseNext (reader.parseNext state front).state rest).state

/-- A step reads the piece, looking at one character behind it at most. -/
structure ReadsPiece (state : S) (piece : Piece) (pieces : List Piece) (next : S) : Prop where
  whole : ∀ rest, CanFollow pieces rest →
    reader.parseNext state (piece.text ++ rest) = ⟨true, [piece.callback], piece.size, next⟩
  cut : ∀ front missing, piece.text = front ++ missing → missing ≠ [] →
    reader.Truncates state front missing

/-- The pieces are read one after another, and the document is complete behind the last one. -/
def Follows : S → List Piece → Prop
  | state, [] => reader.parseComplete state = true ∧ reader.parseError state = none
  | state, piece :: pieces =>
      reader.parseComplete state = false ∧
        ∃ next, reader.ReadsPiece state piece pieces next ∧ Follows next pieces

/-- An error that was reported stays until the reader is initialized. -/
def KeepsErrors : Prop :=
  ∀ state rest, reader.Failed state → reader.Failed (reader.parseNext state rest).state

/-- At the end of the data a document that is not complete makes the reader fail. -/
def FailsAtEnd : Prop :=
  ∀ state, reader.parseComplete state = false →
    (reader.parseNext state []).ok = false ∧ (reader.parseNext state []).callbacks = [] ∧
      reader.Failed (reader.parseNext state []).state

theorem Follows.parseComplete_eq {reader : JsonReader S} {state : S}
    (follows : reader.Follows state pieces) : reader.parseComplete state = pieces.isEmpty := by
  cases pieces with
  | nil => exact follows.1
  | cons piece pieces => exact follows.1

end JsonReader

namespace JsonStreamParser

variable {S : Type u} {reader : JsonReader S}

/-- The reader has failed, or it fails with the next step, whatever part of the rest of the text
has arrived then. -/
inductive Doomed (reader : JsonReader S) (remaining : Block) (parser : JsonStreamParser S) : Prop
  where
  | failed (failed : reader.Failed parser.reader)
  | stuck (isOpen : parser.handler.inUnparsed = false) (within : parser.stream.Within)
      (notComplete : reader.parseComplete parser.reader = false)
      (stuck : ∀ rest, rest <+: parser.stream.rest ++ remaining →
        reader.Failed (reader.parseNext parser.reader rest).state)

variable {after parser : JsonStreamParser S}

theorem doomed_step (keeps : reader.KeepsErrors) {goesOn : Bool}
    (doomed : Doomed reader remaining parser)
    (parsed : doParseCurrent reader parser = some (goesOn, after)) :
    reader.Failed after.reader := by
  rcases Option.map_eq_some_iff.mp parsed with ⟨handler, _, afterEq⟩
  cases afterEq
  cases doomed with
  | failed failed => exact keeps _ _ failed
  | stuck isOpen within notComplete stuck => exact stuck _ (prefix_append _ _)

theorem failed_parseAvailable (keeps : reader.KeepsErrors) {maxTokenSize fuel : Nat}
    {before afterwards : Bool} (failed : reader.Failed parser.reader)
    (parsed : parseAvailable reader maxTokenSize fuel before parser = some (afterwards, after)) :
    reader.Failed after.reader := by
  induction fuel generalizing before parser with
  | zero => cases parsed
  | succ fuel ih =>
      rw [parseAvailable] at parsed
      split at parsed
      · rcases Option.bind_eq_some_iff.mp parsed with ⟨⟨goesOn, next⟩, step, others⟩
        have failedNext := doomed_step keeps (.failed failed : Doomed reader [] parser) step
        dsimp only at others
        split at others
        · exact ih failedNext others
        · cases others
          exact failedNext
      · cases parsed
        exact failed

theorem doomed_parseAvailable (keeps : reader.KeepsErrors) {maxTokenSize fuel : Nat}
    {before afterwards : Bool} (doomed : Doomed reader remaining parser)
    (parsed : parseAvailable reader maxTokenSize fuel before parser = some (afterwards, after)) :
    after = parser ∨ reader.Failed after.reader := by
  cases fuel with
  | zero => cases parsed
  | succ fuel =>
      rw [parseAvailable] at parsed
      split at parsed
      · rcases Option.bind_eq_some_iff.mp parsed with ⟨⟨goesOn, next⟩, step, others⟩
        have failedNext := doomed_step keeps doomed step
        dsimp only at others
        split at others
        · exact .inr (failed_parseAvailable keeps failedNext others)
        · cases others
          exact .inr failedNext
      · cases parsed
        exact .inl rfl

theorem failed_parseRest (keeps : reader.KeepsErrors) {fuel : Nat}
    (doomed : Doomed reader remaining parser) (parsed : parseRest reader fuel parser = some after) :
    reader.Failed after.reader := by
  induction fuel generalizing parser with
  | zero => cases parsed
  | succ fuel ih =>
      rw [parseRest] at parsed
      rcases Option.bind_eq_some_iff.mp parsed with ⟨⟨goesOn, next⟩, step, others⟩
      have failedNext := doomed_step keeps doomed step
      dsimp only at others
      split at others
      · exact ih (.failed failedNext) others
      · cases others
        exact failedNext

end JsonStreamParser

end Eagine.ValueTree

namespace Eagine.ValueTree

open Serialization Theory StreamParser

universe u

namespace JsonStreamParser

variable {S : Type u}

theorem unparsed_note (streamNote : StreamNote) (parser : JsonStreamParser S) :
    (parser.note streamNote).unparsed = parser.unparsed ++
      match streamNote with
      | .unparsedData data => data.flatten
      | _ => [] := by
  rw [unparsed, note, flatMap_append, flatMap_singleton]
  rfl

theorem ends_note (streamNote : StreamNote) (parser : JsonStreamParser S) :
    (parser.note streamNote).ends = parser.ends ++
      if streamNote = .finish ∨ streamNote = .failed then [streamNote] else [] := by
  rw [ends, note, filter_append, filter_singleton]
  by_cases isEnd : streamNote = .finish ∨ streamNote = .failed
  · simp [isEnd, ends]
  · simp [isEnd, ends]

/-- Nothing is different but the flag of the handler and that the visitor was flushed. -/
structure Flushed (before after : JsonStreamParser S) : Prop where
  stream_eq : after.stream = before.stream
  reader_eq : after.reader = before.reader
  handler_eq : ∃ flag, after.handler = before.handler.flagged flag
  unparsed_eq : after.unparsed = before.unparsed
  ends_eq : after.ends = before.ends

theorem flushed_refl (parser : JsonStreamParser S) : Flushed parser parser :=
  ⟨rfl, rfl, ⟨_, rfl⟩, rfl, rfl⟩

theorem flushed_flush (parser : JsonStreamParser S) : Flushed parser parser.flush := by
  unfold flush
  split
  · exact flushed_refl parser
  · refine ⟨rfl, rfl, ⟨true, rfl⟩, ?_, ?_⟩
    · exact (unparsed_note .flush parser).trans (append_nil _)
    · exact (ends_note .flush parser).trans (append_nil _)

theorem flushed_if (parsedSomething : Bool) (parser : JsonStreamParser S) :
    Flushed parser (if parsedSomething then parser.flush else parser) := by
  split
  · exact flushed_flush parser
  · exact flushed_refl parser

@[simp] theorem stream_advance (parser : JsonStreamParser S) :
    parser.advance.stream = parser.stream.advance :=
  rfl

@[simp] theorem reader_advance (parser : JsonStreamParser S) :
    parser.advance.reader = parser.reader :=
  rfl

@[simp] theorem handler_advance (parser : JsonStreamParser S) :
    parser.advance.handler = parser.handler :=
  rfl

/-- What was not taken is handed on. -/
theorem unparsed_handOver (parser : JsonStreamParser S) :
    parser.handOver.unparsed = parser.unparsed ++ parser.stream.rest ∧
      parser.handOver.ends = parser.ends ∧ parser.handOver.reader = parser.reader ∧
      parser.handOver.handler = parser.handler := by
  rcases parser.stream.getUnused_eq with ⟨flat, nothing⟩
  unfold handOver
  split
  · rename_i stream unused
    rw [unused] at nothing
    exact ⟨by rw [nothing rfl, append_nil], rfl, rfl, rfl⟩
  · rename_i unused stream _ found
    rw [found] at flat
    refine ⟨?_, ?_, rfl, rfl⟩
    · exact (unparsed_note (.unparsedData unused) parser).trans (by rw [← flat])
    · exact (ends_note (.unparsedData unused) parser).trans (append_nil _)

variable {reader : JsonReader S} {all : List Callback} {following : Block}

/-- The parser has handled the callbacks of a document in front of the rest. -/
def Handles (all rest : List Callback) (parser : StreamParser) : Prop :=
  ∃ flag handler, parser = handler.flagged flag ∧
    (∃ front, all = front ++ rest ∧ StreamParser.run front {} = some handler) ∧
      ∃ final, ClosesWith rest handler final

theorem Handles.calls_eq {all front rest : List Callback} {parser : StreamParser}
    (handles : Handles all rest parser) (split : all = front ++ rest) :
    ∃ handler, StreamParser.run front {} = some handler ∧ parser.calls = handler.calls := by
  rcases handles with ⟨flag, handler, rfl, ⟨others, rfl, ran⟩, -⟩
  rw [append_cancel_right split] at ran
  exact ⟨handler, ran, rfl⟩

/-- The pieces are still to be read, and what has not arrived of them remains. -/
structure Reading (reader : JsonReader S) (all : List Callback) (following : Block)
    (pieces : List Piece) (remaining : Block) (parser : JsonStreamParser S) : Prop where
  follows : reader.Follows parser.reader pieces
  handles : Handles all (pieces.map Piece.callback) parser.handler
  text_eq : parser.stream.rest ++ remaining = piecesText pieces ++ following
  within : parser.stream.Within
  unparsed_eq : parser.unparsed = []
  ends_eq : parser.ends = []

theorem Reading.inUnparsed_eq {pieces : List Piece} {remaining : Block}
    {parser : JsonStreamParser S} (reading : Reading reader all following pieces remaining parser) :
    parser.handler.inUnparsed = pieces.isEmpty := by
  rcases reading.handles with ⟨flag, handler, handlerEq, -, final, closes⟩
  rw [handlerEq]
  cases pieces with
  | nil => exact closes.1
  | cons piece pieces => exact closes.1

/-- A piece that has arrived is read. -/
theorem Reading.step {piece : Piece} {pieces : List Piece} {remaining : Block}
    {parser : JsonStreamParser S}
    (reading : Reading reader all following (piece :: pieces) remaining parser)
    (arrived : piece.size ≤ parser.stream.rest.length) :
    ∃ next, doParseCurrent reader parser = some (!pieces.isEmpty, next) ∧
      Reading reader all following pieces remaining next ∧
      next.stream.rest.length = parser.stream.rest.length - piece.size := by
  rcases reading.follows with ⟨_, state, reads, follows⟩
  rcases reading.handles with
    ⟨flag, handler, handlerEq, ⟨front, rfl, ran⟩, final, _, nextHandler, handled, closes⟩
  rcases handle_flagged handled flag with ⟨other, handledFlagged⟩
  have textEq : parser.stream.rest ++ remaining =
      piece.text ++ (piecesText pieces ++ following) := by
    rw [reading.text_eq, piecesText, flatMap_cons, append_assoc]
    rfl
  have isPrefix : piece.text <+: parser.stream.rest :=
    prefix_of_prefix_length_le ⟨_, textEq.symm⟩ (prefix_append _ _) arrived
  rcases isPrefix with ⟨rest, restEq⟩
  rw [← restEq, append_assoc, append_cancel_left_eq] at textEq
  have stepEq := reads.whole rest (canFollow_of_append textEq)
  have takenRest : (parser.stream.takeMany piece.size).rest = rest := by
    rw [ProgressiveStream.rest_takeMany, ← restEq, Piece.size, drop_left]
  have isComplete := follows.parseComplete_eq
  refine ⟨{ parser with
    stream := parser.stream.takeMany piece.size
    reader := state
    handler := nextHandler.flagged other }, ?_, ?_, ?_⟩
  · rw [doParseCurrent, ← restEq, stepEq]
    dsimp only
    rw [run_one, handlerEq, handledFlagged, isComplete, Option.map_some, Bool.true_and]
  · have ranNext : StreamParser.run (front ++ [piece.callback]) {} = some nextHandler := by
      rw [run_append, ran, Option.bind_some, run_one, handled]
    have split : front ++ (piece :: pieces).map Piece.callback =
        front ++ [piece.callback] ++ pieces.map Piece.callback := append_cons _ _ _
    exact ⟨follows, ⟨other, nextHandler, rfl, ⟨_, split, ranNext⟩, final, closes⟩,
      by rw [takenRest]; exact textEq, reading.within.takeMany arrived,
      reading.unparsed_eq, reading.ends_eq⟩
  · rw [takenRest, ← restEq, length_append, Piece.size, Nat.add_sub_cancel_left]

/-- A piece that has not arrived is severed by reading it. -/
theorem Reading.cut {piece : Piece} {pieces : List Piece} {remaining : Block}
    {parser next : JsonStreamParser S} {goesOn : Bool}
    (reading : Reading reader all following (piece :: pieces) remaining parser)
    (short : parser.stream.rest.length < piece.size)
    (parsed : doParseCurrent reader parser = some (goesOn, next)) :
    Doomed reader remaining next := by
  have isOpen := reading.inUnparsed_eq
  rcases reading.follows with ⟨_, state, reads, follows⟩
  have textEq : parser.stream.rest ++ remaining =
      piece.text ++ (piecesText pieces ++ following) := by
    rw [reading.text_eq, piecesText, flatMap_cons, append_assoc]
    rfl
  have isPrefix : parser.stream.rest <+: piece.text :=
    prefix_of_prefix_length_le ⟨_, textEq⟩ (prefix_append _ _) (Nat.le_of_lt short)
  rcases isPrefix with ⟨missing, missingEq⟩
  have someMissing : missing ≠ [] := by
    rintro rfl
    rw [Piece.size, ← missingEq, append_nil] at short
    exact Nat.lt_irrefl _ short
  rw [← missingEq, append_assoc, append_cancel_left_eq] at textEq
  rcases Option.map_eq_some_iff.mp parsed with ⟨handler, handled, nextEq⟩
  cases nextEq
  rcases reads.cut _ missing missingEq.symm someMissing with
    failed | ⟨⟨number, callbacks⟩, taken, notComplete, fails⟩
  · exact .failed failed
  · refine .stuck ?_ ?_ notComplete ?_
    · rw [callbacks, run_one, number.handle_callback] at handled
      rw [← Option.some.inj handled]
      exact (sameNest_number number parser.handler).inUnparsed_eq.trans isOpen
    · exact reading.within.takeMany (Nat.le_of_eq taken)
    · dsimp only
      rw [taken, ProgressiveStream.rest_takeMany, drop_length, nil_append, textEq]
      rintro rest ⟨behind, restEq⟩
      apply fails
      by_cases nothing : rest = []
      · exact .inl nothing
      · have heads := congrArg List.head? restEq
        rw [head?_append_of_ne_nil _ nothing, head?_append_of_ne_nil _ someMissing]
          at heads
        exact .inr heads

end JsonStreamParser

end Eagine.ValueTree
