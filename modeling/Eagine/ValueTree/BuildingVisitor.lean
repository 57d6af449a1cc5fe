import Eagine.ValueTree.JsonStream
import Mathlib.Data.List.DropRight

/-!
# The visitor that builds objects

The visitor keeps the path of what is visited and calls an object builder with
it.  A stream parser drives the visitor and tells it in the end if there was an
error.
-/

namespace Eagine.ValueTree

universe u

/-- The elements of a `basic_string_path`. -/
abbrev StringPath :=
  List String

namespace StringPath

def elementsMatch (elem patt : String) : Bool :=
  elem == patt || patt == "*"

def like (path pattern : StringPath) : Bool :=
  path.length == pattern.length &&
    (path.zip pattern).all fun elems => elementsMatch elems.1 elems.2

theorem length_eq_of_like {path pattern : StringPath} (isLike : path.like pattern = true) :
    path.length = pattern.length := by
  rw [like, Bool.and_eq_true, beq_iff_eq] at isLike
  exact isLike.1

theorem not_like_of_length {path pattern : StringPath} (differs : path.length ≠ pattern.length) :
    path.like pattern = false :=
  Bool.eq_false_iff.mpr fun isLike => differs (length_eq_of_like isLike)

def endsWith (path : StringPath) (entry : String) : Bool :=
  path.getLast? == some entry

/-- A name without the zeros at its end. -/
def fix (name : String) : String :=
  String.ofList (name.toList.rdropWhile (· == '\x00'))

def pushBack (path : StringPath) (name : String) : StringPath :=
  path ++ [fix name]

def popBack (path : StringPath) : StringPath :=
  path.dropLast

@[simp]
theorem popBack_append_singleton (path : StringPath) (name : String) :
    popBack (path ++ [name]) = path :=
  List.dropLast_concat

/-- A name that is an element of a path as it is. -/
def IsElement (name : String) : Prop :=
  name ≠ "" ∧ fix name = name

instance (name : String) : Decidable (IsElement name) :=
  inferInstanceAs (Decidable (_ ∧ _))

end StringPath

/-- `object_builder`, with the functions that a visitor calls. -/
class ObjectBuilder (B : Type u) where
  shouldContinue : B → Bool
  begin : B → B
  add : StringPath → List Scalar → B → B
  addObject : StringPath → B → B
  finishObject : StringPath → B → B
  finish : B → Bool × B
  failed : B → B

/-- `building_value_tree_visitor` -/
structure BuildingVisitor (B : Type u) where
  builder : B
  path : StringPath := []
  shouldContinueFlag : Bool := false
  finishCalled : Bool := false
  failCalled : Bool := false

namespace BuildingVisitor

variable {B : Type u} [ObjectBuilder B]

def shouldContinue (visitor : BuildingVisitor B) : Bool :=
  visitor.shouldContinueFlag && ObjectBuilder.shouldContinue visitor.builder

def begin (visitor : BuildingVisitor B) : BuildingVisitor B :=
  { visitor with
    path := []
    shouldContinueFlag := true
    builder := ObjectBuilder.begin visitor.builder }

/-- The last element of the path is removed when it is the expected one. -/
def leave (name : String) (visitor : BuildingVisitor B) : BuildingVisitor B :=
  if visitor.path.getLast? = some name then
    { visitor with path := visitor.path.popBack }
  else { visitor with shouldContinueFlag := false }

def visit : VisitorCall → BuildingVisitor B → BuildingVisitor B
  | .consume values, visitor =>
      { visitor with builder := ObjectBuilder.add visitor.path values visitor.builder }
  | .beginStruct, visitor =>
      { visitor with builder := ObjectBuilder.addObject visitor.path visitor.builder }
  | .beginAttribute name, visitor => { visitor with path := visitor.path.pushBack name }
  | .beginList, visitor => { visitor with path := visitor.path.pushBack "_" }
  | .finishList, visitor => visitor.leave "_"
  | .finishAttribute name, visitor => visitor.leave name
  | .finishStruct, visitor =>
      { visitor with builder := ObjectBuilder.finishObject visitor.path visitor.builder }

/-- The calls, one after another. -/
def visitAll (calls : List VisitorCall) (visitor : BuildingVisitor B) : BuildingVisitor B :=
  calls.foldl (fun visitor call => visitor.visit call) visitor

def failed (visitor : BuildingVisitor B) : BuildingVisitor B :=
  if visitor.failCalled then visitor
  else { visitor with failCalled := true, builder := ObjectBuilder.failed visitor.builder }

def finish (visitor : BuildingVisitor B) : Bool × BuildingVisitor B :=
  let visitor := if visitor.path = [] then visitor else visitor.failed
  if visitor.finishCalled then (true, visitor)
  else
    let (result, builder) := ObjectBuilder.finish visitor.builder
    (result, { visitor with finishCalled := true, builder := builder })

@[simp]
theorem visitAll_cons (call : VisitorCall) (calls : List VisitorCall)
    (visitor : BuildingVisitor B) :
    visitor.visitAll (call :: calls) = (visitor.visit call).visitAll calls :=
  rfl

theorem visitAll_append (first second : List VisitorCall) (visitor : BuildingVisitor B) :
    visitor.visitAll (first ++ second) = (visitor.visitAll first).visitAll second :=
  List.foldl_append

end BuildingVisitor

/-- What a reader makes of a stream of text: the callbacks, and if it stops with an error. -/
structure Reading where
  callbacks : List Callback
  hasParseError : Bool

/-- The whole run of a stream parser with a visitor that builds objects, from `begin` to
`finish`.  There is no result when the parser has none. -/
def Reading.traverse {B : Type u} [ObjectBuilder B] (reading : Reading) (builder : B) :
    Option (Bool × BuildingVisitor B) :=
  (StreamParser.run reading.callbacks {}).map fun parser =>
    let visitor := (BuildingVisitor.begin { builder := builder }).visitAll parser.calls
    if reading.hasParseError then (false, visitor.failed) else visitor.finish

mutual

/-- All names can be elements of a path. -/
def Document.wellNamed : Document → Bool
  | .array elements => elements.wellNamed
  | .object members => members.wellNamed
  | _ => true

def Elements.wellNamed : Elements → Bool
  | .nil => true
  | .cons head tail => head.wellNamed && tail.wellNamed

def Members.wellNamed : Members → Bool
  | .nil => true
  | .cons name head tail =>
      decide (StringPath.IsElement name) && (head.wellNamed && tail.wellNamed)

end

/-- The names of the members themselves. -/
def Members.names : Members → List String
  | .nil => []
  | .cons name _ tail => name :: tail.names

end Eagine.ValueTree
