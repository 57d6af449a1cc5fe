import Eagine.ValueTree.JsonConversion

/-!
# Traversal of documents

How a visitor is taken through the attributes of a JSON document, and what it is handed on the
way. The conversion to floating-point numbers is left open.
-/

namespace Eagine.ValueTree

open Serialization FromString

/-- `convert_real` to a `float`. -/
class RealConversion where
  convertReal : JsonValue → Option (BitVec 32)

/-- The calls that a visitor gets on the way through a document. -/
inductive VisitorEvent where
  | begin
  | finish
  | beginStruct
  | finishStruct
  | beginList
  | finishList
  | beginAttribute (name : Block)
  | finishAttribute (name : Block)
  | consumeBools (values : List Bool)
  | consumeInts (values : List (BitVec 64))
  | consumeFloats (values : List (BitVec 32))
  | consumeStrings (texts : List Block)

/-- A visitor is asked if it wants to go on. -/
structure Visitor where
  shouldContinue : List VisitorEvent → Bool

namespace JsonValue

variable [ExpressionParser] [RealConversion]

/-- The values that are fetched into a buffer are handed over with the whole buffer, if there
are any. -/
def forward {α : Type} (conversion : JsonValue → Option α) (zero : α)
    (consume : List α → VisitorEvent) (value : JsonValue) (count : Nat) : List VisitorEvent :=
  match value.fetchValues conversion count with
  | [] => []
  | values => [consume (values ++ List.replicate (count - values.length) zero)]

/-- `compound_traverse_foward_bool`. -/
def forwardBool (value : JsonValue) (count : Nat) : List VisitorEvent :=
  if count = 1 then value.forward (convert .bool) false .consumeBools 1
  else if count ≤ 256 then value.forward (convert .bool) false .consumeBools count
  else []

/-- `compound_traverse_foward_int`. -/
def forwardInt (value : JsonValue) (count : Nat) : List VisitorEvent :=
  if count = 1 then value.forward (convert (.signed .long)) (BitVec.zero 64) .consumeInts 1
  else value.forward (convert (.signed .long)) (BitVec.zero 64) .consumeInts count

/-- `compound_traverse_foward_float`. -/
def forwardFloat (value : JsonValue) (count : Nat) : List VisitorEvent :=
  if count = 1 then value.forward RealConversion.convertReal 0 .consumeFloats 1
  else value.forward RealConversion.convertReal 0 .consumeFloats count

/-- `compound_traverse_foward_string`. The views of several strings are never assigned. -/
def forwardString (value : JsonValue) (count : Nat) : List VisitorEvent :=
  if count = 1 then value.forward convertString [] .consumeStrings 1
  else
    value.forward convertString [] (fun texts => .consumeStrings (texts.map fun _ => [])) count

/-- The values of an attribute, after those that are nested in it. -/
def forwardValues (value : JsonValue) : List VisitorEvent :=
  let count := value.getValueCount
  if count > 0 then
    match value.getCanonicalType with
    | .boolType => value.forwardBool count
    | .int32Type => value.forwardInt count
    | .int64Type => value.forwardInt count
    | .floatType => value.forwardFloat count
    | .stringType => value.forwardString count
    | _ => []
  else []

/-- One iteration of the loop over what is nested in an attribute. Names that are empty are
no names. -/
def visitNested (visitor : Visitor) (name : Block) (isFirst isLast : Bool)
    (traverse : List VisitorEvent → List VisitorEvent) (events : List VisitorEvent) :
    List VisitorEvent :=
  if visitor.shouldContinue events then
    let named := !name.isEmpty
    let events :=
      if isFirst then events ++ [if named then .beginStruct else .beginList] else events
    let events := if named then events ++ [.beginAttribute name] else events
    let events := traverse events
    let events := if named then events ++ [.finishAttribute name] else events
    if isLast then events ++ [if named then .finishStruct else .finishList] else events
  else events

mutual

/-- `_traverse`, with the calls that the visitor got so far. There are no links. -/
def traverseFrom (visitor : Visitor) : JsonValue → List VisitorEvent → List VisitorEvent
  | .null, events => events ++ null.forwardValues
  | .bool value, events => events ++ (bool value).forwardValues
  | .integer number, events => events ++ (integer number).forwardValues
  | .real bits, events => events ++ (real bits).forwardValues
  | .string text, events => events ++ (string text).forwardValues
  | .array elements, events =>
      traverseElements visitor elements true events ++ (array elements).forwardValues
  | .object members, events =>
      traverseMembers visitor members true events ++ (object members).forwardValues

def traverseElements (visitor : Visitor) : List JsonValue → Bool → List VisitorEvent →
    List VisitorEvent
  | [], _, events => events
  | element :: elements, isFirst, events =>
      traverseElements visitor elements false
        (visitNested visitor [] isFirst elements.isEmpty
          (fun events => traverseFrom visitor element events) events)

def traverseMembers (visitor : Visitor) : List (Block × JsonValue) → Bool → List VisitorEvent →
    List VisitorEvent
  | [], _, events => events
  | (name, value) :: members, isFirst, events =>
      traverseMembers visitor members false
        (visitNested visitor name isFirst members.isEmpty
          (fun events => traverseFrom visitor value events) events)

end

/-- `traverse` of the document. -/
def traverse (visitor : Visitor) (document : JsonValue) : List VisitorEvent :=
  document.traverseFrom visitor [.begin] ++ [.finish]

end JsonValue

end Eagine.ValueTree
