import Eagine.ValueTree.JsonStream
import Eagine.Serialization.Block
import Mathlib.Data.List.GetD

/-!
# The stream parser

The parser gets the text of a document in blocks. As long as there is enough data for any token it
lets the reader of JSON read one, and the rest is read when the stream is finished. What is behind
the document is handed on as it is.
-/

/-!
## The stream of the progressive parser

A reader takes characters one by one from a stream that is put together from what was left of the
previous blocks and the current block.
-/

open List

namespace Eagine.ValueTree

open Serialization

/-- `rapidjson_progressive_stream` -/
structure ProgressiveStream where
  previous : Block := []
  current : Block := []
  done : Nat := 0
  offs : Nat := 0

namespace ProgressiveStream

/-- Behind the data there are zeros. -/
def peek (stream : ProgressiveStream) : UInt8 :=
  if stream.offs < stream.previous.length then stream.previous.getD stream.offs 0
  else
    let offs := stream.offs - stream.previous.length
    if offs < stream.current.length then stream.current.getD offs 0 else 0

def take (stream : ProgressiveStream) : UInt8 × ProgressiveStream :=
  (stream.peek, { stream with offs := stream.offs + 1 })

def available (stream : ProgressiveStream) : Int :=
  stream.previous.length + stream.current.length - stream.offs

def next (blk : Block) (stream : ProgressiveStream) : ProgressiveStream :=
  { stream with current := blk }

def advance (stream : ProgressiveStream) : ProgressiveStream :=
  let sz := stream.previous.length
  let stream :=
    if sz ≤ stream.offs then
      { previous := []
        current := stream.current.drop (stream.offs - sz)
        done := stream.done + sz + (stream.offs - sz)
        offs := 0 }
    else stream
  if stream.current = [] then stream
  else { stream with previous := stream.previous ++ stream.current, current := [] }

/-- The blocks of what was not taken, and the stream behind them. -/
def getUnused (stream : ProgressiveStream) : List Block × ProgressiveStream :=
  let szp := stream.previous.length
  let szc := stream.current.length
  if stream.offs < szp then
    ([stream.previous.drop stream.offs, stream.current], { stream with offs := szp + szc })
  else if stream.offs < szp + szc then
    ([stream.current.drop (stream.offs - szp)], { stream with offs := szp + szc })
  else ([], stream)

def rest (stream : ProgressiveStream) : Block :=
  (stream.previous ++ stream.current).drop stream.offs

/-- Nothing was taken behind the end of the data. -/
def Within (stream : ProgressiveStream) : Prop :=
  stream.offs ≤ stream.previous.length + stream.current.length

/-- The stream between two blocks. -/
structure Settled (stream : ProgressiveStream) : Prop where
  current_eq : stream.current = []
  offs_le : stream.offs ≤ stream.previous.length

/-- As many characters are taken. -/
def takeMany : Nat → ProgressiveStream → ProgressiveStream
  | 0, stream => stream
  | count + 1, stream => takeMany count stream.take.2

theorem peek_eq (stream : ProgressiveStream) : stream.peek = stream.rest.headD 0 := by
  have head : stream.rest.headD 0 = (stream.previous ++ stream.current).getD stream.offs 0 := by
    rw [rest, headD_eq_head?_getD, head?_drop, getD_eq_getElem?_getD]
  rw [head, peek]
  by_cases inPrevious : stream.offs < stream.previous.length
  · rw [if_pos inPrevious, getD_append _ _ _ _ inPrevious]
  · rw [if_neg inPrevious, getD_append_right _ _ _ _ (Nat.le_of_not_lt inPrevious)]
    by_cases inCurrent : stream.offs - stream.previous.length < stream.current.length
    · exact if_pos inCurrent
    · have behind := Nat.le_of_not_lt inCurrent
      rw [getD_eq_default _ _ behind]
      exact if_neg inCurrent

theorem rest_take (stream : ProgressiveStream) : stream.take.2.rest = stream.rest.tail := by
  rw [take, rest, rest, tail_drop]

theorem takeMany_eq (count : Nat) (stream : ProgressiveStream) :
    stream.takeMany count = { stream with offs := stream.offs + count } := by
  induction count generalizing stream with
  | zero => rfl
  | succ count ih =>
      rw [takeMany, ih, take]
      have offs : stream.offs + 1 + count = stream.offs + (count + 1) := by omega
      exact congrArg (fun offs => { stream with offs := offs }) offs

theorem rest_takeMany (count : Nat) (stream : ProgressiveStream) :
    (stream.takeMany count).rest = stream.rest.drop count := by
  induction count generalizing stream with
  | zero => rfl
  | succ count ih =>
      rw [takeMany, ih, rest_take, drop_tail]

theorem length_rest (stream : ProgressiveStream) :
    stream.rest.length = stream.previous.length + stream.current.length - stream.offs := by
  rw [rest, length_drop, length_append]

variable {stream : ProgressiveStream}

theorem available_eq (within : stream.Within) : stream.available = stream.rest.length := by
  rw [Within] at within
  rw [available, length_rest]
  omega

theorem Within.takeMany (within : stream.Within) {count : Nat} (le : count ≤ stream.rest.length) :
    (stream.takeMany count).Within := by
  rw [Within] at within
  rw [length_rest] at le
  rw [takeMany_eq]
  change stream.offs + count ≤ stream.previous.length + stream.current.length
  omega

theorem Settled.within (settled : stream.Settled) : stream.Within :=
  Nat.le_trans settled.offs_le (Nat.le_add_right _ _)

theorem Settled.within_next (settled : stream.Settled) (blk : Block) : (stream.next blk).Within :=
  Nat.le_trans settled.offs_le (Nat.le_add_right _ _)

theorem Settled.rest_next (settled : stream.Settled) (blk : Block) :
    (stream.next blk).rest = stream.rest ++ blk := by
  rw [rest, rest, settled.current_eq, append_nil, next,
    drop_append_of_le_length settled.offs_le]

theorem Within.settled_advance (within : stream.Within) : stream.advance.Settled := by
  rw [Within] at within
  unfold advance
  dsimp only
  by_cases behind : stream.previous.length ≤ stream.offs
  · rw [if_pos behind]
    by_cases empty : stream.current.drop (stream.offs - stream.previous.length) = []
    · rw [if_pos empty]
      exact ⟨empty, Nat.zero_le _⟩
    · rw [if_neg empty]
      exact ⟨rfl, Nat.zero_le _⟩
  · rw [if_neg behind]
    have before := Nat.le_of_not_le behind
    by_cases empty : stream.current = []
    · rw [if_pos empty]
      exact ⟨empty, before⟩
    · rw [if_neg empty]
      refine ⟨rfl, ?_⟩
      change stream.offs ≤ (stream.previous ++ stream.current).length
      rw [length_append]
      omega

theorem rest_advance (stream : ProgressiveStream) : stream.advance.rest = stream.rest := by
  unfold advance
  dsimp only
  by_cases behind : stream.previous.length ≤ stream.offs
  · have dropped : stream.rest = stream.current.drop (stream.offs - stream.previous.length) := by
      rw [rest, drop_append, drop_eq_nil_of_le behind, nil_append]
    rw [if_pos behind, dropped]
    by_cases empty : stream.current.drop (stream.offs - stream.previous.length) = []
    · rw [if_pos empty]
      rfl
    · rw [if_neg empty]
      exact append_nil _
  · rw [if_neg behind]
    by_cases empty : stream.current = []
    · rw [if_pos empty]
    · rw [if_neg empty]
      exact congrArg (List.drop stream.offs) (append_nil _)

/-- The blocks are what is still to be taken, and there are none when nothing is. -/
theorem getUnused_eq (stream : ProgressiveStream) :
    stream.getUnused.1.flatten = stream.rest ∧ (stream.getUnused.1 = [] → stream.rest = []) := by
  rw [getUnused, rest]
  by_cases inPrevious : stream.offs < stream.previous.length
  · rw [if_pos inPrevious, drop_append_of_le_length (Nat.le_of_lt inPrevious)]
    refine ⟨by simp, fun none => ?_⟩
    cases none
  · have behind := Nat.le_of_not_lt inPrevious
    rw [if_neg inPrevious, drop_append, drop_eq_nil_of_le behind, nil_append]
    by_cases inCurrent : stream.offs < stream.previous.length + stream.current.length
    · rw [if_pos inCurrent]
      refine ⟨by simp, fun none => ?_⟩
      cases none
    · have nothing : stream.current.drop (stream.offs - stream.previous.length) = [] :=
        drop_eq_nil_of_le (by omega)
      rw [if_neg inCurrent, nothing]
      exact ⟨rfl, fun _ => rfl⟩

end ProgressiveStream

end Eagine.ValueTree

namespace Eagine.ValueTree

open Serialization

universe u

/-- The codes of parse errors that are told apart. -/
inductive ParseErrorCode where
  | documentRootNotSingular
  | other
deriving DecidableEq

/-- What one step of the reader does. -/
structure ReaderStep (S : Type u) where
  ok : Bool
  callbacks : List Callback
  taken : Nat
  state : S

/-- An iterative reader of JSON. It takes characters from what is still in the stream, which is
followed by zeros. -/
structure JsonReader (S : Type u) where
  parseInit : S
  parseNext : S → Block → ReaderStep S
  parseComplete : S → Bool
  parseError : S → Option ParseErrorCode

/-- What a visitor is told apart from the values. -/
inductive StreamNote where
  | flush
  | unparsedData (data : List Block)
  | finish
  | failed
deriving DecidableEq

/-- `json_value_tree_stream_parser`, with its stream and its reader. -/
structure JsonStreamParser (S : Type u) where
  stream : ProgressiveStream := {}
  reader : S
  handler : StreamParser := {}
  notes : List StreamNote := []

namespace JsonStreamParser

variable {S : Type u}

def note (streamNote : StreamNote) (parser : JsonStreamParser S) : JsonStreamParser S :=
  { parser with notes := parser.notes ++ [streamNote] }

/-- The visitor is flushed unless it just was. -/
def flush (parser : JsonStreamParser S) : JsonStreamParser S :=
  if parser.handler.justFlushed then parser
  else { parser.note .flush with handler := { parser.handler with justFlushed := true } }

def advance (parser : JsonStreamParser S) : JsonStreamParser S :=
  { parser with stream := parser.stream.advance }

variable (reader : JsonReader S)

def begin : JsonStreamParser S where
  reader := reader.parseInit

/-- One step of the reader, which calls the handler. The document may go on behind it. -/
def doParseCurrent (parser : JsonStreamParser S) : Option (Bool × JsonStreamParser S) :=
  let step := reader.parseNext parser.reader parser.stream.rest
  (StreamParser.run step.callbacks parser.handler).map fun handler =>
    (step.ok && !reader.parseComplete step.state,
      { parser with
        stream := parser.stream.takeMany step.taken
        reader := step.state
        handler := handler })

/-- The loop of `parse_data`, and if something was parsed. -/
def parseAvailable (maxTokenSize : Nat) :
    Nat → Bool → JsonStreamParser S → Option (Bool × JsonStreamParser S)
  | 0, _, _ => none
  | fuel + 1, parsedSomething, parser =>
      if maxTokenSize ≤ parser.stream.available then
        (doParseCurrent reader parser).bind fun (goesOn, parser) =>
          if goesOn then parseAvailable maxTokenSize fuel true parser
          else some (parsedSomething, parser)
      else some (parsedSomething, parser)

/-- What was not taken is handed to the visitor, when there is something. -/
def handOver (parser : JsonStreamParser S) : JsonStreamParser S :=
  match parser.stream.getUnused with
  | ([], _) => parser
  | (unused, stream) => { parser.note (.unparsedData unused) with stream := stream }

/-- Behind the loop of `parse_data`. -/
def parsed (parsedSomething : Bool) (parser : JsonStreamParser S) : Bool × JsonStreamParser S :=
  let settled (parser : JsonStreamParser S) : Bool × JsonStreamParser S :=
    (true, (if parsedSomething then parser.flush else parser).advance)
  if reader.parseComplete parser.reader then
    if parser.stream.getUnused.1 = [] then (false, parser)
    else
      settled { parser.handOver with handler := { parser.handler with inUnparsed := true } }
  else settled parser

def parseData (maxTokenSize : Nat) (data : Block) (parser : JsonStreamParser S) :
    Option (Bool × JsonStreamParser S) :=
  if parser.handler.inUnparsed then
    if data = [] then some (false, parser) else some (true, parser.note (.unparsedData [data]))
  else
    let parser := { parser with stream := parser.stream.next data }
    (parseAvailable reader maxTokenSize (parser.stream.rest.length + 1) false parser).map
      fun (parsedSomething, parser) => parser.parsed reader parsedSomething

/-- The loop of `finish`. -/
def parseRest : Nat → JsonStreamParser S → Option (JsonStreamParser S)
  | 0, _ => none
  | fuel + 1, parser =>
      (doParseCurrent reader parser).bind fun (goesOn, parser) =>
        if goesOn then parseRest fuel parser else some parser

/-- The visitor is told how the stream ended. -/
def conclude (parser : JsonStreamParser S) : JsonStreamParser S :=
  match reader.parseError parser.reader with
  | some .other => parser.note .failed
  | _ => (parser.note .flush).note .finish

def finish (parser : JsonStreamParser S) : Option (JsonStreamParser S) :=
  if parser.handler.inUnparsed then some (parser.conclude reader)
  else
    (parseRest reader (parser.stream.rest.length + 1) parser).map fun parser =>
      (if reader.parseComplete parser.reader then parser.handOver else parser).conclude reader

/-- The blocks of a stream, from `begin` to `finish`. There is no result when the handler has
none. -/
def traverse (maxTokenSize : Nat) (blocks : List Block) : Option (JsonStreamParser S) :=
  (blocks.foldlM (fun parser block => (parseData reader maxTokenSize block parser).map Prod.snd)
    (begin reader)).bind (finish reader)

/-- The bytes that were handed on. -/
def unparsed (parser : JsonStreamParser S) : Block :=
  parser.notes.flatMap fun
    | .unparsedData data => data.flatten
    | _ => []

/-- The end of the traversal, as the visitor is told. -/
def ends (parser : JsonStreamParser S) : List StreamNote :=
  parser.notes.filter fun streamNote => streamNote = .finish ∨ streamNote = .failed

end JsonStreamParser

end Eagine.ValueTree
