import Eagine.ValueTree.JsonNode
import Mathlib.Data.List.DropRight

/-!
# Overlays

A compound that merges documents. Its attributes know nothing but their paths: children
are looked for in all the documents, when there may be new ones, and kept; values come
from the first document that has the path. There is no result where a reference to a
node that is gone is used, where a document accesses an element outside of an array, and
where the keys of a map are not in order for the view that is looked for.
-/

namespace Eagine.ValueTree

open Serialization FromString

/-- Names are ordered as their characters are. -/
def nameLe (name other : Block) : Prop :=
  name.map UInt8.toNat ≤ other.map UInt8.toNat

instance : DecidableRel nameLe := fun name other =>
  inferInstanceAs (Decidable (name.map UInt8.toNat ≤ other.map UInt8.toNat))

/-- `strncmp` of what both of them have. It ends at a null character. -/
def strncmp : Block → Block → Ordering
  | char :: name, other :: view =>
      if char < other then .lt
      else if other < char then .gt
      else if char = 0 then .eq
      else strncmp name view
  | _, _ => .eq

/-- `basic_view_less`. -/
def viewLess (name view : Block) : Bool :=
  match strncmp name view with
  | .lt => true
  | .gt => false
  | .eq => name.length < view.length

def viewsEquivalent (name view : Block) : Bool :=
  !viewLess name view && !viewLess view name

/-- What a map asks of its keys, to look for one of them by a view: those before it, those
that are equivalent to it, and those behind it. -/
def Searchable (names : List Block) (view : Block) : Prop :=
  names.Pairwise fun name later =>
    (viewLess later view → viewLess name view) ∧ (viewLess view name → viewLess view later)

instance (names : List Block) (view : Block) : Decidable (Searchable names view) :=
  inferInstanceAs (Decidable (names.Pairwise _))

/-- The elements of a path do not end with null characters. -/
def fixName (name : Block) : Block :=
  name.rdropWhile (· == 0)

structure ChildInfo where
  name : Block
  cached : Option Nat := none

/-- `overlay_attribute`. Its children are in the order of their names. -/
structure OverlayAttribute where
  path : Path
  children : List ChildInfo := []
  needsScan : Bool := true

instance : BEq OverlayAttribute where
  beq node other := node.path == other.path

def OverlayAttribute.name (node : OverlayAttribute) : Block :=
  node.path.getLast?.getD []

/-- `try_emplace` into the map of children. -/
def addChild (children : List ChildInfo) (name : Block) : List ChildInfo :=
  if name ∈ children.map (·.name) then children
  else children.orderedInsert (fun child other => nameLe child.name other.name) { name := name }

/-- `overlay_compound`, with the documents that it merges. -/
structure OverlayCompound where
  overlays : List JsonValue
  root : OverlayAttribute := { path := [] }
  table : NodeTable OverlayAttribute := {}

/-- A JSON document does not change. -/
def JsonValue.isImmutable (_ : JsonValue) : Bool :=
  true

/-- The name of a child, or its index if it has none. -/
def JsonNode.childKey (found : JsonNode) (index : Nat) : Block :=
  let name := match found.nestedAt index with
    | some (some child) => child.nameText
    | _ => []
  if name.isEmpty then indexText index else name

def JsonNode.childKeys (found : JsonNode) : List Block :=
  (List.range found.value.getNestedCount).map found.childKey

section Documents

variable [ExpressionParser] [JsonLibrary]

/-- What is found in a document along a path. -/
def JsonValue.findPath (document : JsonValue) (path : Path) : Option (Option JsonNode) :=
  (⟨[], document, none⟩ : JsonNode).find path

/-- The children that a document adds at a path. -/
def scanOverlay (path : Path) (children : List ChildInfo) (overlay : JsonValue) :
    Option (List ChildInfo) := do
  match ← overlay.findPath path with
  | some found => some (found.childKeys.foldl addChild children)
  | none => some children

/-- `_find_source` among the documents. -/
def findSource (path : Path) : List JsonValue → Option (Option JsonNode)
  | [] => some none
  | overlay :: overlays => do
      match ← overlay.findPath path with
      | some found => some (some found)
      | none => findSource path overlays

end Documents

namespace OverlayCompound

/-- The node of an attribute that is in use. -/
def unwrap (attrib : Attribute) (compound : OverlayCompound) : Option OverlayAttribute :=
  match attrib with
  | .root => some compound.root
  | .node address => compound.table.nodeAt address

def update (attrib : Attribute) (node : OverlayAttribute) (compound : OverlayCompound) :
    OverlayCompound :=
  match attrib with
  | .root => { compound with root := node }
  | .node address => { compound with table := compound.table.replace address node }

/-- `_get_child` of the child at a position. -/
def getChild (attrib : Attribute) (node : OverlayAttribute) (position : Nat) :
    StateT OverlayCompound Option Attribute := fun compound => do
  let child ← node.children[position]?
  match child.cached with
  | some address => some (.node address, compound)
  | none =>
      let (address, table) := compound.table.makeNode { path := node.path ++ [fixName child.name] }
      let children := node.children.set position { child with cached := some address }
      some (.node address,
        { compound with table := table }.update attrib { node with children := children })

section Queries

variable [ExpressionParser] [JsonLibrary]

/-- `_scan`, with the attribute after it. -/
def scan (attrib : Attribute) : StateT OverlayCompound Option OverlayAttribute :=
  fun compound => do
    let node ← compound.unwrap attrib
    if node.needsScan then
      let children ← compound.overlays.foldlM (scanOverlay node.path) node.children
      let scanned : OverlayAttribute :=
        { node with
          children := children
          needsScan := !compound.overlays.all JsonValue.isImmutable }
      some (scanned, compound.update attrib scanned)
    else some (node, compound)

def nestedCount (attrib : Attribute) : StateT OverlayCompound Option Nat := do
  let node ← scan attrib
  pure node.children.length

def nestedAt (attrib : Attribute) (index : Int) :
    StateT OverlayCompound Option (Option Attribute) := do
  let node ← scan attrib
  if index < node.children.length then
    match index with
    | .ofNat position =>
        let child ← getChild attrib node position
        pure (some child)
    | .negSucc _ => failure
  else pure none

def nested (attrib : Attribute) (name : Block) :
    StateT OverlayCompound Option (Option Attribute) := do
  let node ← scan attrib
  if Searchable (node.children.map (·.name)) name then
    match node.children.findIdx? fun child => viewsEquivalent child.name name with
    | some position =>
        let child ← getChild attrib node position
        pure (some child)
    | none => pure none
  else failure

/-- The source of the values of an attribute. -/
def source (attrib : Attribute) (compound : OverlayCompound) : Option (Option JsonNode) := do
  let node ← compound.unwrap attrib
  findSource node.path compound.overlays

end Queries

/-- `overlay_attribute::find` does not look for anything. -/
def find (attrib : Attribute) (_path : Path) : StateT OverlayCompound Option (Option Attribute) :=
  fun compound => do
    let _ ← compound.unwrap attrib
    some (none, compound)

/-- `mark_for_scan`, down to some depth. -/
def markForScan : Nat → Attribute → OverlayCompound → Option OverlayCompound
  | 0, _, _ => none
  | depth + 1, attrib, compound => do
      let node ← compound.unwrap attrib
      let marked := compound.update attrib { node with needsScan := true }
      node.children.foldlM
        (fun compound child =>
          match child.cached with
          | some address => markForScan depth (.node address) compound
          | none => some compound)
        marked

/-- No path of a node is as long as this. -/
def depth (compound : OverlayCompound) : Nat :=
  (compound.table.contents.map fun node => node.path.length).foldr max 0 + 1

/-- `add_overlay`. -/
def addOverlay (overlay : JsonValue) (compound : OverlayCompound) : Option OverlayCompound := do
  let marked ← markForScan compound.depth .root compound
  some { marked with overlays := overlay :: marked.overlays }

def addRef (attrib : Attribute) (compound : OverlayCompound) : OverlayCompound :=
  match attrib with
  | .root => compound
  | .node address => { compound with table := compound.table.addRef address }

def release (attrib : Attribute) (compound : OverlayCompound) : OverlayCompound :=
  match attrib with
  | .root => compound
  | .node address => { compound with table := compound.table.release address }

end OverlayCompound

end Eagine.ValueTree
