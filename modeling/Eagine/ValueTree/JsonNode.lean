import Eagine.String.FromString
import Eagine.ValueTree.NodeTable

/-!
# JSON documents

The values that the JSON library makes of a document, and what the value tree asks of one
of them. Members are looked up by the library; which of several members with a name it
finds is left open.
-/

namespace Eagine.ValueTree

open Serialization

/-- An integer of a document. A number beyond the limits is a floating-point number. -/
structure JsonInteger where
  value : Int
  lower : -2 ^ 63 ≤ value
  upper : value < 2 ^ 64
deriving DecidableEq

inductive JsonValue where
  | null
  | bool (value : Bool)
  | integer (number : JsonInteger)
  | real (bits : BitVec 64)
  | string (text : Block)
  | array (elements : List JsonValue)
  | object (members : List (Block × JsonValue))

/-- What is used of the JSON library: the position of a member with a name. -/
class JsonLibrary where
  findMember : List Block → Block → Option Nat
  findMember_some : ∀ {names name position}, findMember names name = some position →
    names[position]? = some name
  findMember_none : ∀ {names name}, findMember names name = none → name ∉ names

/-- A linear search finds the first of the members with a name. -/
@[reducible] def linearSearch : JsonLibrary where
  findMember names name := names.findIdx? (· == name)
  findMember_some found := by
    rcases List.findIdx?_eq_some_iff_getElem.mp found with ⟨bound, same, _⟩
    rw [List.getElem?_eq_getElem bound, beq_iff_eq.mp same]
  findMember_none missing mem := by
    have other := List.findIdx?_eq_none_iff.mp missing _ mem
    rw [beq_self_eq_true] at other
    cases other

namespace JsonInteger

def isInt (number : JsonInteger) : Bool :=
  FromString.intFits .w32 number.value

def isInt64 (number : JsonInteger) : Bool :=
  FromString.intFits .w64 number.value

def isUint (number : JsonInteger) : Bool :=
  FromString.uintFits .w32 number.value

def isUint64 (number : JsonInteger) : Bool :=
  FromString.uintFits .w64 number.value

end JsonInteger

/-- The types that are the canonical ones of JSON values. -/
inductive ValueType where
  | unknown
  | boolType
  | int32Type
  | int64Type
  | floatType
  | stringType
  | composite
deriving DecidableEq

namespace JsonValue

/-- The type of a single value. -/
def getType : JsonValue → ValueType
  | .bool _ => .boolType
  | .integer number =>
      if number.isInt then .int32Type else if number.isInt64 then .int64Type else .unknown
  | .real _ => .floatType
  | .string _ => .stringType
  | _ => .unknown

def getCanonicalType : JsonValue → ValueType
  | .object _ => .composite
  | .array [] => .composite
  | .array (first :: elements) =>
      if (first :: elements).all (·.getType == first.getType) then first.getType
      else .composite
  | value => value.getType

def getNestedCount : JsonValue → Nat
  | .array elements => elements.length
  | .object members => members.length
  | _ => 0

def getValueCount : JsonValue → Nat
  | .array elements => elements.length
  | .null => 0
  | _ => 1

end JsonValue

end Eagine.ValueTree

/-!
## Attributes of JSON documents

The nodes that refer to the values of a document, and the ways from one to another: by
position, by name, and along a path. There is no result where an element outside of an
array is accessed.
-/

namespace Eagine.ValueTree

open Serialization FromString

/-- A path, by its elements. -/
abbrev Path := List Block

/-- `rapidjson_value_node`: a value, its place in the document, and its name. -/
structure JsonNode where
  place : List Nat
  value : JsonValue
  name : Option Block

/-- Nodes are equal where they refer to the same value. -/
instance : BEq JsonNode where
  beq node other := node.place == other.place

/-- An access that does not check its index. -/
def subscript {α : Type} (items : List α) : Int → Option α
  | .ofNat index => items[index]?
  | .negSucc _ => none

namespace JsonNode

def nameText (node : JsonNode) : Block :=
  node.name.getD []

/-- The node of a child with this name, if it has one. -/
def below (node : JsonNode) (index : Int) (value : JsonValue) (name : Option Block) : JsonNode :=
  ⟨node.place ++ [index.toNat], value, name⟩

/-- `make_nested` with an index. -/
def nestedAt (node : JsonNode) (index : Int) : Option (Option JsonNode) :=
  match node.value with
  | .array elements =>
      if index < elements.length then
        (subscript elements index).map fun value => some (node.below index value none)
      else some none
  | .object members =>
      if index < members.length then
        (subscript members index).map fun entry => some (node.below index entry.2 (some entry.1))
      else some none
  | _ => some none

variable [ExpressionParser] [JsonLibrary]

/-- The position of the member that the library finds, if there are members. -/
def findMember (node : JsonNode) (name : Block) : Option Nat :=
  match node.value with
  | .object members => JsonLibrary.findMember (members.map Prod.fst) (cString name)
  | _ => none

/-- `make_nested` with a name. -/
def nested (node : JsonNode) (name : Block) : Option (Option JsonNode) :=
  match node.findMember name with
  | some position => node.nestedAt position
  | none =>
      match fromInt .w64 name with
      | some index => node.nestedAt index
      | none => some none

/-- The loop of `find_nested` without tags. Elements of arrays keep the name that was
found last. -/
def findFrom (node : JsonNode) : Path → Option (Option JsonNode)
  | [] => some (some node)
  | entry :: path =>
      match node.value with
      | .object members =>
          match node.findMember entry with
          | some position =>
              (subscript members position).bind fun member =>
                findFrom (node.below position member.2 (some member.1)) path
          | none => some none
      | .array elements =>
          match fromInt .w64 entry with
          | some index =>
              if index < elements.length then
                (subscript elements index).bind fun value =>
                  findFrom (node.below index value node.name) path
              else some none
          | none => some none
      | _ => some none

/-- `find_nested`. The name of the node itself is not used. -/
def find (node : JsonNode) (path : Path) : Option (Option JsonNode) :=
  { node with name := none }.findFrom path

/-- The position of a member with the name and one of the tags, or else with the name. -/
def findTaggedMember (node : JsonNode) (tags : List Block) (entry : Block) : Option Nat :=
  (tags.findSome? fun tag => node.findMember (entry ++ textOf "@" ++ tag)).or
    (node.findMember entry)

/-- The loop of `find_nested` with tags. -/
def findTaggedFrom (tags : List Block) (node : JsonNode) : Path → Option (Option JsonNode)
  | [] => some (some node)
  | entry :: path =>
      match node.value with
      | .object members =>
          match node.findTaggedMember tags entry with
          | some position =>
              (subscript members position).bind fun member =>
                findTaggedFrom tags (node.below position member.2 (some member.1)) path
          | none => some none
      | .array elements =>
          match fromInt .w64 entry with
          | some index =>
              if index < elements.length then
                (subscript elements index).bind fun value =>
                  findTaggedFrom tags (node.below index value node.name) path
              else some none
          | none => some none
      | _ => some none

def findTagged (node : JsonNode) (path : Path) (tags : List Block) : Option (Option JsonNode) :=
  { node with name := none }.findTaggedFrom tags path

end JsonNode

/-- A handle of an attribute: the root of the document, or a node by its address. -/
inductive Attribute where
  | root
  | node (address : Nat)
deriving DecidableEq

/-- `rapidjson_document_compound`. -/
structure JsonCompound where
  document : JsonValue
  table : NodeTable JsonNode := {}

namespace JsonCompound

/-- The node of an attribute that is in use. -/
def unwrap (attrib : Attribute) (compound : JsonCompound) : Option JsonNode :=
  match attrib with
  | .root => some ⟨[], compound.document, none⟩
  | .node address => compound.table.nodeAt address

/-- `make_value_node`, where there is a value. -/
def makeValueNode (made : Option JsonNode) : StateT JsonCompound Option (Option Attribute) :=
  fun compound =>
    match made with
    | some node =>
        let (address, table) := compound.table.makeNode node
        some (some (.node address), { compound with table := table })
    | none => some (none, compound)

def nestedAt (attrib : Attribute) (index : Int) : StateT JsonCompound Option (Option Attribute) :=
  fun compound => do
    let node ← compound.unwrap attrib
    let made ← node.nestedAt index
    makeValueNode made compound

variable [ExpressionParser] [JsonLibrary]

def nested (attrib : Attribute) (name : Block) :
    StateT JsonCompound Option (Option Attribute) := fun compound => do
  let node ← compound.unwrap attrib
  let made ← node.nested name
  makeValueNode made compound

def find (attrib : Attribute) (path : Path) : StateT JsonCompound Option (Option Attribute) :=
  fun compound => do
    let node ← compound.unwrap attrib
    let made ← node.find path
    makeValueNode made compound

def findTagged (attrib : Attribute) (path : Path) (tags : List Block) :
    StateT JsonCompound Option (Option Attribute) := fun compound => do
  let node ← compound.unwrap attrib
  let made ← node.findTagged path tags
  makeValueNode made compound

def addRef (attrib : Attribute) (compound : JsonCompound) : JsonCompound :=
  match attrib with
  | .root => compound
  | .node address => { compound with table := compound.table.addRef address }

def release (attrib : Attribute) (compound : JsonCompound) : JsonCompound :=
  match attrib with
  | .root => compound
  | .node address => { compound with table := compound.table.release address }

/-- The calls that a compound gets. -/
inductive Call where
  | nested (attrib : Attribute) (name : Block)
  | nestedAt (attrib : Attribute) (index : Int)
  | find (attrib : Attribute) (path : Path)
  | addRef (attrib : Attribute)
  | release (attrib : Attribute)

def perform (compound : JsonCompound) : Call → Option JsonCompound
  | .nested attrib name => (nested attrib name compound).map Prod.snd
  | .nestedAt attrib index => (nestedAt attrib index compound).map Prod.snd
  | .find attrib path => (find attrib path compound).map Prod.snd
  | .addRef attrib => some (compound.addRef attrib)
  | .release attrib => some (compound.release attrib)

/-- The compound of a document after some calls. -/
def after (document : JsonValue) (calls : List Call) : Option JsonCompound :=
  calls.foldlM perform { document := document }

end JsonCompound

end Eagine.ValueTree
