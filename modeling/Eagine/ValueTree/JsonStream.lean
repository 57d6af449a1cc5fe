import Mathlib.Logic.Basic

/-!
# Streaming of JSON documents

The handler of the callbacks that a JSON reader makes on its way through a
document.  Numbers in a list are not handed to the visitor one by one: they are
collected in a cache for each type, and a cache is handed over as a whole when
one of the callbacks flushes it.
-/

namespace Eagine.ValueTree

/-- What a visitor consumes. -/
inductive Scalar where
  | nothing
  | bool (value : Bool)
  | int64 (value : BitVec 64)
  | uint64 (value : BitVec 64)
  | double (bits : BitVec 64)
  | string (value : String)
  deriving DecidableEq

/-- The calls that a `value_tree_visitor` gets. -/
inductive VisitorCall where
  | consume (values : List Scalar)
  | beginStruct
  | beginAttribute (name : String)
  | beginList
  | finishList
  | finishAttribute (name : String)
  | finishStruct
  deriving DecidableEq

/-- The callbacks of the reader. -/
inductive Callback where
  | null
  | bool (value : Bool)
  | int (value : BitVec 32)
  | uint (value : BitVec 32)
  | int64 (value : BitVec 64)
  | uint64 (value : BitVec 64)
  | double (bits : BitVec 64)
  | string (str : String)
  | startObject
  | key (str : String)
  | endObject (memberCount : Nat)
  | startArray
  | endArray (elementCount : Nat)
deriving DecidableEq

inductive CachedType where
  | none
  | int
  | uint
  | float
  | other
  deriving DecidableEq

/-- `json_value_tree_stream_parser`, with the calls that its visitor got so far. -/
structure StreamParser where
  calls : List VisitorCall := []
  attrStack : List String := []
  listStack : List Bool := []
  floatValues : List (BitVec 64) := []
  intValues : List (BitVec 64) := []
  uintValues : List (BitVec 64) := []
  oldValTyp : CachedType := .none
  justFlushed : Bool := false
  inUnparsed : Bool := false

/-- A reference to one of the caches. -/
structure Cache where
  values : StreamParser → List (BitVec 64)
  assign : List (BitVec 64) → StreamParser → StreamParser
  scalar : BitVec 64 → Scalar

namespace StreamParser

def floatCache : Cache :=
  ⟨floatValues, fun values parser => { parser with floatValues := values }, .double⟩

def uintCache : Cache :=
  ⟨uintValues, fun values parser => { parser with uintValues := values }, .uint64⟩

def intCache : Cache :=
  ⟨intValues, fun values parser => { parser with intValues := values }, .int64⟩

def call (visitorCall : VisitorCall) (parser : StreamParser) : StreamParser :=
  { parser with calls := parser.calls ++ [visitorCall] }

def consume (values : List Scalar) (parser : StreamParser) : StreamParser :=
  { parser.call (.consume values) with justFlushed := false }

def doFlushPrevious (cache : Cache) (curValTyp newValTyp : CachedType) (parser : StreamParser) :
    StreamParser :=
  if (parser.oldValTyp ≠ newValTyp ∧ cache.values parser ≠ []) ∨
      (parser.oldValTyp = curValTyp ∧ 512 ≤ (cache.values parser).length) then
    cache.assign [] (parser.consume ((cache.values parser).map cache.scalar))
  else parser

def flushPrevious (newValTyp : CachedType) (parser : StreamParser) : StreamParser :=
  let parser := doFlushPrevious floatCache .float newValTyp parser
  let parser := doFlushPrevious uintCache .uint newValTyp parser
  let parser := doFlushPrevious intCache .int newValTyp parser
  { parser with oldValTyp := newValTyp }

def doPush (value : BitVec 64) (cache : Cache) (newValTyp : CachedType) (parser : StreamParser) :
    StreamParser :=
  match parser.listStack with
  | true :: _ =>
      let parser := parser.flushPrevious newValTyp
      cache.assign (cache.values parser ++ [value]) parser
  | _ => parser.consume [cache.scalar value]

/-- Null, truth values and strings are consumed at once. -/
def consumeOther (value : Scalar) (parser : StreamParser) : StreamParser :=
  (parser.flushPrevious .other).consume [value]

/-- The name of the last member is finished, unless it is empty. -/
def finishPrevious (name : String) (parser : StreamParser) : StreamParser :=
  if name ≠ "" then parser.call (.finishAttribute name) else parser

/-- The handler of a callback.  There is no result where the top of an empty
stack is taken. -/
def handle : Callback → StreamParser → Option StreamParser
  | .null, parser => some (parser.consumeOther .nothing)
  | .bool value, parser => some (parser.consumeOther (.bool value))
  | .int value, parser => some (parser.doPush (value.signExtend 64) intCache .int)
  | .uint value, parser => some (parser.doPush (value.setWidth 64) uintCache .uint)
  | .int64 value, parser => some (parser.doPush value intCache .int)
  | .uint64 value, parser => some (parser.doPush value uintCache .uint)
  | .double bits, parser => some (parser.doPush bits floatCache .float)
  | .string str, parser => some (parser.consumeOther (.string str))
  | .startObject, parser =>
      some ({ parser with
        attrStack := "" :: parser.attrStack
        listStack := false :: parser.listStack }.call .beginStruct)
  | .key str, parser =>
      match parser.attrStack with
      | [] => none
      | name :: names =>
          some ({ parser.finishPrevious name with attrStack := str :: names }.call
            (.beginAttribute str))
  | .endObject _, parser =>
      match parser.attrStack, parser.listStack with
      | name :: names, _ :: lists =>
          some ({ parser.finishPrevious name with
            attrStack := names
            listStack := lists
            inUnparsed := lists.isEmpty || parser.inUnparsed }.call .finishStruct)
      | _, _ => none
  | .startArray, parser =>
      some ({ parser with listStack := true :: parser.listStack }.call .beginList)
  | .endArray _, parser =>
      match parser.listStack with
      | [] => none
      | _ :: lists =>
          some { (parser.flushPrevious .none).call .finishList with
            listStack := lists
            inUnparsed := lists.isEmpty || parser.inUnparsed }

/-- The callbacks are handled one after another. -/
def run (callbacks : List Callback) (parser : StreamParser) : Option StreamParser :=
  callbacks.foldlM (fun parser callback => parser.handle callback) parser

end StreamParser

/-- A number of a document, by the callback that the reader makes for it. -/
inductive Number where
  | int (value : BitVec 32)
  | uint (value : BitVec 32)
  | int64 (value : BitVec 64)
  | uint64 (value : BitVec 64)
  | double (bits : BitVec 64)

mutual

inductive Document where
  | null
  | bool (value : Bool)
  | number (value : Number)
  | string (value : String)
  | array (elements : Elements)
  | object (members : Members)

inductive Elements where
  | nil
  | cons (head : Document) (tail : Elements)

inductive Members where
  | nil
  | cons (name : String) (head : Document) (tail : Members)

end

namespace Number

def callback : Number → Callback
  | .int value => .int value
  | .uint value => .uint value
  | .int64 value => .int64 value
  | .uint64 value => .uint64 value
  | .double bits => .double bits

def scalar : Number → Scalar
  | .int value => .int64 (value.signExtend 64)
  | .uint value => .uint64 (value.setWidth 64)
  | .int64 value => .int64 value
  | .uint64 value => .uint64 value
  | .double bits => .double bits

end Number

def Elements.length : Elements → Nat
  | .nil => 0
  | .cons _ tail => tail.length + 1

def Members.length : Members → Nat
  | .nil => 0
  | .cons _ _ tail => tail.length + 1

mutual

/-- The callbacks in the order of the document. -/
def Document.callbacks : Document → List Callback
  | .null => [.null]
  | .bool value => [.bool value]
  | .number value => [value.callback]
  | .string value => [.string value]
  | .array elements => .startArray :: (elements.callbacks ++ [.endArray elements.length])
  | .object members => .startObject :: (members.callbacks ++ [.endObject members.length])

def Elements.callbacks : Elements → List Callback
  | .nil => []
  | .cons head tail => head.callbacks ++ tail.callbacks

def Members.callbacks : Members → List Callback
  | .nil => []
  | .cons name head tail => .key name :: (head.callbacks ++ tail.callbacks)

end

/-- A value handed over by itself. -/
def Scalar.call (value : Scalar) : VisitorCall :=
  .consume [value]

/-- The values of a call are handed over one by one. -/
def VisitorCall.split : VisitorCall → List VisitorCall
  | .consume values => values.map Scalar.call
  | other => [other]

/-- What the visitor gets, value by value. -/
def StreamParser.trace (parser : StreamParser) : List VisitorCall :=
  parser.calls.flatMap VisitorCall.split

/-- What the visitor of the document gets. -/
def Document.visit (document : Document) : Option (List VisitorCall) :=
  (StreamParser.run document.callbacks {}).map StreamParser.trace

def Document.isNumber : Document → Bool
  | .number _ => true
  | _ => false

def Document.isContainer : Document → Bool
  | .array _ => true
  | .object _ => true
  | _ => false

mutual

/-- The calls for what is in the document, in its order.  The end of an
attribute is listed when `ends` holds of its name and value. -/
def Document.events (ends : String → Document → Bool) : Document → List VisitorCall
  | .null => [Scalar.nothing.call]
  | .bool value => [(Scalar.bool value).call]
  | .number value => [value.scalar.call]
  | .string value => [(Scalar.string value).call]
  | .array elements => .beginList :: (elements.events ends ++ [.finishList])
  | .object members => .beginStruct :: (members.events ends ++ [.finishStruct])

def Elements.events (ends : String → Document → Bool) : Elements → List VisitorCall
  | .nil => []
  | .cons head tail => head.events ends ++ tail.events ends

def Members.events (ends : String → Document → Bool) : Members → List VisitorCall
  | .nil => []
  | .cons name head tail =>
      .beginAttribute name :: (head.events ends ++
        ((if ends name head then [.finishAttribute name] else []) ++ tail.events ends))

end

/-- The visitor gets what is in the document, in its order.  Everything is there
but perhaps the ends of attributes; where the value of the attribute is a number,
its end is there as well, so that the number lies between begin and finish of the
innermost list or attribute around it. -/
def Document.InOrder (document : Document) (trace : List VisitorCall) : Prop :=
  (document.events fun _ value => value.isNumber).Sublist trace ∧
    trace.Sublist (document.events fun _ _ => true)

mutual

/-- No array has an array or an object directly after a number. -/
def Document.spaced : Document → Bool
  | .array elements => elements.spaced false
  | .object members => members.spaced
  | _ => true

/-- The flag tells if there is a number before the elements. -/
def Elements.spaced (afterNumber : Bool) : Elements → Bool
  | .nil => true
  | .cons head tail =>
      !(afterNumber && head.isContainer) && (head.spaced && tail.spaced head.isNumber)

def Members.spaced : Members → Bool
  | .nil => true
  | .cons _ head tail => head.spaced && tail.spaced

end

mutual

/-- No member with the empty name is a number. -/
def Document.named : Document → Bool
  | .array elements => elements.named
  | .object members => members.named
  | _ => true

def Elements.named : Elements → Bool
  | .nil => true
  | .cons head tail => head.named && tail.named

def Members.named : Members → Bool
  | .nil => true
  | .cons name head tail => !(name == "" && head.isNumber) && (head.named && tail.named)

end

end Eagine.ValueTree
