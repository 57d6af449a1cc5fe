import Eagine.ValueTree.JsonNode

/-!
# Attributes of YAML documents

The nodes that refer to those of a tree of the YAML library, and the ways from one to
another. What the library does is left open; an access that it refuses has no result.
-/

namespace Eagine.ValueTree

open Serialization FromString

/-- What is used of `ryml::ConstNodeRef`. -/
class YamlLibrary where
  NodeRef : Type
  same : NodeRef → NodeRef → Bool
  invalid : NodeRef → Bool
  isMap : NodeRef → Bool
  isSeq : NodeRef → Bool
  findChild : NodeRef → Block → NodeRef
  child : NodeRef → Int → Option NodeRef
  noNode : NodeRef

/-- `rapidyaml_attribute`. -/
structure YamlNode [YamlLibrary] where
  node : YamlLibrary.NodeRef

namespace YamlNode

variable [YamlLibrary]

instance : BEq YamlNode where
  beq node other := YamlLibrary.same node.node other.node

def usable (node : YamlLibrary.NodeRef) : Bool :=
  !YamlLibrary.invalid node

/-- The node of an attribute is made where it is usable. -/
def ifUsable (node : YamlLibrary.NodeRef) : Option YamlNode :=
  if usable node then some ⟨node⟩ else none

def nestedAt (attrib : YamlNode) (index : Int) : Option (Option YamlNode) :=
  if usable attrib.node then (YamlLibrary.child attrib.node index).map ifUsable else some none

def nested (attrib : YamlNode) (name : Block) : Option YamlNode :=
  if usable attrib.node && YamlLibrary.isMap attrib.node then
    ifUsable (YamlLibrary.findChild attrib.node name)
  else none

/-- The child with the name and one of the tags, or else with the name. -/
def findTaggedChild (node : YamlLibrary.NodeRef) (tags : List Block) (entry : Block) :
    YamlLibrary.NodeRef :=
  let tagged := tags.map fun tag => YamlLibrary.findChild node (entry ++ textOf "@" ++ tag)
  (tagged.find? usable).getD (YamlLibrary.findChild node entry)

variable [ExpressionParser]

/-- The loop of `find`. -/
def findFrom (tags : List Block) (node : YamlLibrary.NodeRef) :
    Path → Option YamlLibrary.NodeRef
  | [] => some node
  | entry :: path =>
      if usable node then
        if YamlLibrary.isMap node then findFrom tags (findTaggedChild node tags entry) path
        else if YamlLibrary.isSeq node then
          match fromInt .w64 entry with
          | some index => (YamlLibrary.child node index).bind fun next => findFrom tags next path
          | none => findFrom tags YamlLibrary.noNode path
        else findFrom tags YamlLibrary.noNode path
      else some node

def find (attrib : YamlNode) (path : Path) (tags : List Block) : Option (Option YamlNode) :=
  (findFrom tags attrib.node path).map ifUsable

end YamlNode

/-- `rapidyaml_tree_compound`. -/
structure YamlCompound [YamlLibrary] where
  root : YamlNode
  table : NodeTable YamlNode := {}

namespace YamlCompound

variable [YamlLibrary]

def unwrap (attrib : Attribute) (compound : YamlCompound) : Option YamlNode :=
  match attrib with
  | .root => some compound.root
  | .node address => compound.table.nodeAt address

/-- `rapidyaml_make_new_node`, where there is a node. -/
def makeNewNode (made : Option YamlNode) : StateT YamlCompound Option (Option Attribute) :=
  fun compound =>
    match made with
    | some node =>
        let (address, table) := compound.table.makeNode node
        some (some (.node address), { compound with table := table })
    | none => some (none, compound)

def nestedAt (attrib : Attribute) (index : Int) : StateT YamlCompound Option (Option Attribute) :=
  fun compound => do
    let node ← compound.unwrap attrib
    let made ← node.nestedAt index
    makeNewNode made compound

def nested (attrib : Attribute) (name : Block) : StateT YamlCompound Option (Option Attribute) :=
  fun compound => do
    let node ← compound.unwrap attrib
    makeNewNode (node.nested name) compound

def find [ExpressionParser] (attrib : Attribute) (path : Path) (tags : List Block) :
    StateT YamlCompound Option (Option Attribute) := fun compound => do
  let node ← compound.unwrap attrib
  let made ← node.find path tags
  makeNewNode made compound

def addRef (attrib : Attribute) (compound : YamlCompound) : YamlCompound :=
  match attrib with
  | .root => compound
  | .node address => { compound with table := compound.table.addRef address }

def release (attrib : Attribute) (compound : YamlCompound) : YamlCompound :=
  match attrib with
  | .root => compound
  | .node address => { compound with table := compound.table.release address }

end YamlCompound

end Eagine.ValueTree
