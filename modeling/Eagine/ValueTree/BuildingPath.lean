import Eagine.ValueTree.TraversalBrackets

/-!
# The path of the building visitor

The visitor that builds objects keeps the names of what it is in as a path, which is a list of
strings in a single one. What it leaves is removed from the path if the last element is the name
that is finished, but a path does not keep the null characters at the end of a name.
-/

namespace Eagine.ValueTree

open Serialization Theory List Option

namespace BasicStringPath

/-- `empty`, with its assertion. -/
def empty (path : BasicStringPath) : Option Bool :=
  if (path.size == 0) == path.str.isEmpty then some path.str.isEmpty else none

/-- `back` -/
def back (path : BasicStringPath) : Block :=
  StringList.backValue path.str

/-- `push_back` where it returns: there are lengths without a code. -/
def pushBack? (name : Block) (path : BasicStringPath) : Option BasicStringPath :=
  (StringList.pushBack? path.str (fixName name)).map fun str => ⟨path.size + 1, str⟩

/-- The path has these elements. -/
structure HasNames (path : BasicStringPath) (names : List Block) : Prop where
  size : path.size = names.length
  values : StringList.valuesOf path.str = some names

end BasicStringPath

/-- The calls that an object builder gets. -/
inductive BuilderCall where
  | begin
  | add (path : BasicStringPath) (values : ConsumedValues)
  | addObject (path : BasicStringPath)
  | finishObject (path : BasicStringPath)
  | finish
  | failed

/-- What a visitor is called with between `begin` and `finish`. -/
inductive NestedCall where
  | consume (values : ConsumedValues)
  | beginStruct
  | finishStruct
  | beginAttribute (name : Block)
  | finishAttribute (name : Block)
  | beginList
  | finishList

/-- `building_value_tree_visitor`. What its builder does follows from the calls that it got. -/
structure PathBuildingVisitor where
  calls : List BuilderCall := []
  path : BasicStringPath := {}
  shouldContinueFlag : Bool := false
  finishCalled : Bool := false
  failCalled : Bool := false

namespace PathBuildingVisitor

def call (builderCall : BuilderCall) (visitor : PathBuildingVisitor) : PathBuildingVisitor :=
  { visitor with calls := visitor.calls ++ [builderCall] }

def shouldContinue (builder : List BuilderCall → Bool) (visitor : PathBuildingVisitor) : Bool :=
  visitor.shouldContinueFlag && builder visitor.calls

def begin (visitor : PathBuildingVisitor) : PathBuildingVisitor :=
  { visitor with path := {}, shouldContinueFlag := true }.call .begin

/-- The start of an attribute or a list. -/
def enter (name : Block) (visitor : PathBuildingVisitor) : Option PathBuildingVisitor :=
  (visitor.path.pushBack? name).map fun path => { visitor with path }

/-- The end of an attribute or a list. -/
def leave (name : Block) (visitor : PathBuildingVisitor) : Option PathBuildingVisitor :=
  visitor.path.empty.map fun empty =>
    if !empty && visitor.path.back == name then { visitor with path := visitor.path.popBack }
    else { visitor with shouldContinueFlag := false }

/-- The element of a path for a list. -/
def listName : Block :=
  [byteOf '_']

def visit (visitor : PathBuildingVisitor) : NestedCall → Option PathBuildingVisitor
  | .consume values => some (visitor.call (.add visitor.path values))
  | .beginStruct => some (visitor.call (.addObject visitor.path))
  | .finishStruct => some (visitor.call (.finishObject visitor.path))
  | .beginAttribute name => visitor.enter name
  | .finishAttribute name => visitor.leave name
  | .beginList => visitor.enter listName
  | .finishList => visitor.leave listName

def failed (visitor : PathBuildingVisitor) : PathBuildingVisitor :=
  if visitor.failCalled then visitor else { visitor with failCalled := true }.call .failed

def finish (visitor : PathBuildingVisitor) : Option PathBuildingVisitor :=
  visitor.path.empty.map fun empty =>
    let visitor := if empty then visitor else visitor.failed
    if visitor.finishCalled then visitor else { visitor with finishCalled := true }.call .finish

/-- The visitor after `begin` and some calls. -/
def visited (calls : List NestedCall) : Option PathBuildingVisitor :=
  Theory.run visit ({} : PathBuildingVisitor).begin calls

end PathBuildingVisitor

def NestedCall.mark : NestedCall → Mark Enclosing
  | consume _ => .neither
  | beginStruct => .opens .struct
  | finishStruct => .closes .struct
  | beginAttribute name => .opens (.attribute name)
  | finishAttribute name => .closes (.attribute name)
  | beginList => .opens .list
  | finishList => .closes .list

open NestedCall (mark)

/-- What is begun is finished in the opposite order. -/
def IsNested (calls : List NestedCall) : Prop :=
  WellBracketed (calls.map mark)

instance (calls : List NestedCall) : Decidable (IsNested calls) :=
  inferInstanceAs (Decidable (WellBracketed _))

/-- The element of a path for what is begun. -/
def Enclosing.entry : Enclosing → Option Block
  | .struct => none
  | .list => some PathBuildingVisitor.listName
  | .attribute name => some name

/-- The names of the attributes from the outside in, with `_` for the lists. -/
def enclosingNames (stack : List Enclosing) : List Block :=
  stack.reverse.filterMap Enclosing.entry

/-- What the visitor is meant to do with the calls. -/
structure PathBuildingVisitor.KeepsPath (builder : List BuilderCall → Bool)
    (calls : List NestedCall) : Prop where
  adds : ∀ front values back, calls = front ++ .consume values :: back →
    ∃ visitor stack path, visited front = some visitor ∧
      openAfter (front.map mark) = some stack ∧
        visitor.visit (.consume values) = some (visitor.call (.add path values)) ∧
          path.HasNames (enclosingNames stack)
  continues : ∀ front back, calls = front ++ back →
    ∃ visitor, visited front = some visitor ∧
      visitor.shouldContinue builder = builder visitor.calls
  finishes : ∃ visitor finished, visited calls = some visitor ∧ visitor.path = {} ∧
    visitor.finish = some finished ∧ .failed ∉ finished.calls

/-- The name is an element of a path as it is. -/
def IsPathEntry (name : Block) : Prop :=
  fixName name = name ∧ StringList.IsShort name

namespace BasicStringPath

/-- The path that is made of these elements. -/
def pathOf (names : List Block) : BasicStringPath :=
  ⟨names.length, StringList.elements names⟩

variable {names : List Block} {name : Block}

theorem isEmpty_elements (short : ∀ name ∈ names, StringList.IsShort name) :
    (StringList.elements names).isEmpty = names.isEmpty := by
  cases names with
  | nil => rfl
  | cons name names =>
      have size := StringList.two_le_length_elementOf (short name mem_cons_self)
      rw [StringList.elements_cons, isEmpty_cons, isEmpty_eq_false_iff]
      apply append_ne_nil_of_left_ne_nil
      rintro nothing
      rw [nothing] at size
      exact absurd size (by decide)

theorem empty_pathOf (short : ∀ name ∈ names, StringList.IsShort name) :
    (pathOf names).empty = some names.isEmpty := by
  have size : (names.length == 0) = names.isEmpty := by
    cases names <;> rfl
  rw [empty, pathOf, isEmpty_elements short, size, if_pos (beq_self_eq_true _)]

theorem pushBack?_pathOf (short : StringList.IsShort (fixName name)) (names : List Block) :
    (pathOf names).pushBack? name = some (pathOf (names ++ [fixName name])) := by
  have announced := StringList.announcedValue_eq short
  have pushed := StringList.pushBack?_eq (announced.symm ▸ short) (StringList.elements names)
  rw [announced, ← append_assoc (StringList.lengthCode _)] at pushed
  rw [pushBack?, pathOf, pushed, map_some, pathOf, length_append,
    StringList.elements_concat]
  rfl

/-- The code of the length of a name is that of a shorter one from 4 GiB on only. -/
theorem isShort_fixName_of_pushBack? {path next : BasicStringPath}
    (pushed : path.pushBack? name = some next) (below : name.length < 2 ^ 32) :
    StringList.IsShort (fixName name) := by
  rcases map_eq_some_iff.mp pushed with ⟨str, added, -⟩
  have announced := StringList.isShort_of_pushBack? added
  have prefixed : (fixName name).length ≤ name.length := (List.rdropWhile_prefix _ name).length_le
  rwa [StringList.announcedValue, Nat.mod_eq_of_lt (prefixed.trans_lt below), take_length]
    at announced

theorem back_pathOf (short : StringList.IsShort name) (names : List Block) :
    (pathOf (names ++ [name])).back = name :=
  StringList.backValue_eq short names

theorem popBack_pathOf (short : StringList.IsShort name) (names : List Block) :
    (pathOf (names ++ [name])).popBack = pathOf names := by
  rw [popBack, pathOf, StringList.popBack_eq short, length_append]
  rfl

theorem hasNames_pathOf (short : ∀ name ∈ names, StringList.IsShort name) :
    (pathOf names).HasNames names where
  size := rfl
  values := StringList.valuesOf_elements short

/-- The code of a length has 32 bits. -/
theorem length_back_lt (path : BasicStringPath) : path.back.length < 2 ^ 32 := by
  have sizes (elem : StringList.StringView) (l : Nat) :
      StringList.elementValueSize elem l < 2 ^ 32 := by
    rw [StringList.elementValueSize]
    split
    · exact BitVec.isLt _
    · exact Nat.two_pow_pos 32
  have value := sizes (StringList.skip path.str (StringList.revSeekHeaderStart path.str))
    (StringList.elementHeaderSize
      (StringList.skip path.str (StringList.revSeekHeaderStart path.str)))
  rw [back, StringList.backValue]
  simp only [StringList.slice, length_drop, length_take]
  omega

end BasicStringPath

theorem fixName_fixName (name : Block) : fixName (fixName name) = fixName name :=
  fixName_eq_self (getLast?_fixName name)

theorem isPathEntry_listName : IsPathEntry PathBuildingVisitor.listName := by
  constructor
  · exact fixName_eq_self (by decide)
  · exact Nat.lt_of_lt_of_le Nat.one_lt_two (by decide)

theorem enclosingNames_cons (kind : Enclosing) (stack : List Enclosing) :
    enclosingNames (kind :: stack) = enclosingNames stack ++ kind.entry.toList := by
  rw [enclosingNames, reverse_cons, filterMap_append, enclosingNames]
  cases kind <;> rfl

namespace PathBuildingVisitor

open BasicStringPath

/-! ### The path of a nested sequence -/

/-- The path has the names of what is begun, and nothing went wrong. -/
structure Holds (visitor : PathBuildingVisitor) (stack : List Enclosing) : Prop where
  entries : ∀ name ∈ enclosingNames stack, IsPathEntry name
  path : visitor.path = pathOf (enclosingNames stack)
  continues : visitor.shouldContinueFlag = true
  notFailed : .failed ∉ visitor.calls

namespace Holds

variable {visitor : PathBuildingVisitor} {stack : List Enclosing} {kind : Enclosing} {name : Block}

theorem short (holds : visitor.Holds stack) :
    ∀ name ∈ enclosingNames stack, StringList.IsShort name :=
  fun name mem => (holds.entries name mem).2

theorem call {builderCall : BuilderCall} (holds : visitor.Holds stack)
    (other : .failed ≠ builderCall) : (visitor.call builderCall).Holds stack where
  entries := holds.entries
  path := holds.path
  continues := holds.continues
  notFailed := by
    rw [PathBuildingVisitor.call, mem_append, mem_singleton, not_or]
    exact ⟨holds.notFailed, other⟩

theorem same {other : List Enclosing} (holds : visitor.Holds stack)
    (names : enclosingNames other = enclosingNames stack) : visitor.Holds other where
  entries := names ▸ holds.entries
  path := names ▸ holds.path
  continues := holds.continues
  notFailed := holds.notFailed

theorem enter (holds : visitor.Holds stack) (entry : kind.entry = some name)
    (isEntry : IsPathEntry name) :
    ∃ next, visitor.enter name = some next ∧ next.Holds (kind :: stack) := by
  have names : enclosingNames (kind :: stack) = enclosingNames stack ++ [name] := by
    rw [enclosingNames_cons, entry, toList_some]
  have short : StringList.IsShort (fixName name) := by
    rw [isEntry.1]
    exact isEntry.2
  refine ⟨{ visitor with path := pathOf (enclosingNames (kind :: stack)) }, ?_, ?_, rfl,
    holds.continues, holds.notFailed⟩
  · rw [PathBuildingVisitor.enter, holds.path, pushBack?_pathOf short, isEntry.1, names,
      map_some]
  · intro other mem
    rw [names, mem_append, mem_singleton] at mem
    rcases mem with inside | rfl
    · exact holds.entries other inside
    · exact isEntry

theorem leave (holds : visitor.Holds (kind :: stack)) (entry : kind.entry = some name) :
    ∃ next, visitor.leave name = some next ∧ next.Holds stack := by
  have names : enclosingNames (kind :: stack) = enclosingNames stack ++ [name] := by
    rw [enclosingNames_cons, entry, toList_some]
  have isEntry : IsPathEntry name :=
    holds.entries name (names ▸ mem_append_right _ (mem_singleton_self name))
  have nonempty : (enclosingNames stack ++ [name]).isEmpty = false := by
    rw [isEmpty_eq_false_iff]
    exact append_ne_nil_of_right_ne_nil _ (cons_ne_nil name [])
  refine ⟨{ visitor with path := pathOf (enclosingNames stack) }, ?_, ?_, rfl, holds.continues,
    holds.notFailed⟩
  · rw [PathBuildingVisitor.leave, holds.path, empty_pathOf holds.short, names, nonempty,
      map_some, back_pathOf isEntry.2, popBack_pathOf isEntry.2, beq_self_eq_true]
    rfl
  · intro other mem
    exact holds.entries other (names ▸ mem_append_left _ mem)

/-- The path follows what is open. -/
theorem visit {call : NestedCall} {after : List Enclosing} (holds : visitor.Holds stack)
    (entry : ∀ name, call = .beginAttribute name → IsPathEntry name)
    (stepped : call.mark.step stack = some after) :
    ∃ next, visitor.visit call = some next ∧ next.Holds after := by
  have inStruct (stack : List Enclosing) :
      enclosingNames (.struct :: stack) = enclosingNames stack := by
    rw [enclosingNames_cons]
    exact append_nil _
  cases call with
  | consume values =>
      cases stepped
      exact ⟨_, rfl, holds.call nofun⟩
  | beginStruct =>
      cases stepped
      refine ⟨_, rfl, same ?_ (inStruct stack)⟩
      exact holds.call nofun
  | finishStruct =>
      obtain rfl := Mark.eq_cons_of_step_closes stepped
      refine ⟨_, rfl, same ?_ (inStruct after).symm⟩
      exact holds.call nofun
  | beginAttribute name =>
      cases stepped
      exact holds.enter rfl (entry name rfl)
  | finishAttribute name =>
      obtain rfl := Mark.eq_cons_of_step_closes stepped
      exact holds.leave rfl
  | beginList =>
      cases stepped
      exact holds.enter rfl isPathEntry_listName
  | finishList =>
      obtain rfl := Mark.eq_cons_of_step_closes stepped
      exact holds.leave rfl

end Holds

theorem exists_holds {calls : List NestedCall} {stack : List Enclosing}
    (entries : ∀ name, .beginAttribute name ∈ calls → IsPathEntry name)
    (opened : openAfter (calls.map mark) = some stack) :
    ∃ visitor, visited calls = some visitor ∧ visitor.Holds stack := by
  have start : ({} : PathBuildingVisitor).begin.Holds [] :=
    ⟨nofun, rfl, rfl, by rintro (_ | ⟨_, ⟨⟩⟩)⟩
  rw [openAfter, Theory.run_map] at opened
  refine exists_run (fun visitor stack call after mem holds stepped => ?_) start opened
  exact holds.visit (fun name same => entries name (same ▸ mem)) stepped

theorem exists_holds_front {front back : List NestedCall} (nested : IsNested (front ++ back))
    (entries : ∀ name, .beginAttribute name ∈ front ++ back → IsPathEntry name) :
    ∃ visitor stack, visited front = some visitor ∧
      openAfter (front.map mark) = some stack ∧ visitor.Holds stack := by
  rw [IsNested, map_append] at nested
  rcases nested.exists_openAfter with ⟨stack, opened⟩
  have inFront : ∀ name, .beginAttribute name ∈ front → IsPathEntry name :=
    fun name mem => entries name (mem_append_left _ mem)
  rcases exists_holds inFront opened with ⟨visitor, reached, holds⟩
  exact ⟨visitor, stack, reached, opened, holds⟩

/-- The builder does not fail where nothing is left of the path. -/
theorem Holds.exists_finish {visitor : PathBuildingVisitor} (holds : visitor.Holds []) :
    ∃ finished, visitor.finish = some finished ∧ .failed ∉ finished.calls := by
  have empty : visitor.path.empty = some true := by
    rw [holds.path]
    exact empty_pathOf nofun
  rw [finish, empty, map_some, if_pos rfl]
  by_cases called : visitor.finishCalled = true
  · exact ⟨visitor, congrArg some (if_pos called), holds.notFailed⟩
  · have finished : (visitor.call .finish).Holds [] := holds.call nofun
    exact ⟨_, congrArg some (if_neg called), finished.notFailed⟩

theorem keepsPath_of_entries (builder : List BuilderCall → Bool) {calls : List NestedCall}
    (nested : IsNested calls)
    (entries : ∀ name, .beginAttribute name ∈ calls → IsPathEntry name) :
    KeepsPath builder calls where
  adds := by
    rintro front values back rfl
    rcases exists_holds_front nested entries with ⟨visitor, stack, reached, opened, holds⟩
    refine ⟨visitor, stack, visitor.path, reached, opened, rfl, ?_⟩
    rw [holds.path]
    exact BasicStringPath.hasNames_pathOf holds.short
  continues := by
    rintro front back rfl
    rcases exists_holds_front nested entries with ⟨visitor, stack, reached, -, holds⟩
    refine ⟨visitor, reached, ?_⟩
    rw [shouldContinue, holds.continues, Bool.true_and]
  finishes := by
    rcases exists_holds entries nested with ⟨visitor, reached, holds⟩
    rcases holds.exists_finish with ⟨finished, finishes, notFailed⟩
    exact ⟨visitor, finished, reached, holds.path, finishes, notFailed⟩

end PathBuildingVisitor

/-- The elements of the path for what is begun, but for the attributes with a name. -/
def entryWeight (name : Block) : Enclosing → Int
  | .struct => 0
  | .list => 1
  | .attribute other => if other = name then 0 else 1

namespace PathBuildingVisitor

open BasicStringPath

variable {visitor next : PathBuildingVisitor} {name : Block}

theorem pushBack?_of_enter (entered : visitor.enter name = some next) :
    visitor.path.pushBack? name = some next.path := by
  rcases map_eq_some_iff.mp entered with ⟨path, pushed, rfl⟩
  exact pushed

theorem size_of_enter (entered : visitor.enter name = some next) :
    next.path.size = visitor.path.size + 1 := by
  rcases map_eq_some_iff.mp (pushBack?_of_enter entered) with ⟨str, -, pushed⟩
  exact (congrArg BasicStringPath.size pushed).symm

/-- Only the name that is the last element is removed. -/
theorem path_of_leave (left : visitor.leave name = some next) :
    next.path = visitor.path ∨ visitor.path.empty = some false ∧ visitor.path.back = name ∧
      next.path = visitor.path.popBack := by
  rcases map_eq_some_iff.mp left with ⟨empty, isEmpty, rfl⟩
  split
  · rename_i last
    rw [Bool.and_eq_true, Bool.not_eq_true', beq_iff_eq] at last
    exact .inr ⟨isEmpty.trans (congrArg some last.1), last.2, rfl⟩
  · exact .inl rfl

theorem size_le_of_leave (left : visitor.leave name = some next) :
    visitor.path.size ≤ next.path.size + 1 := by
  rcases path_of_leave left with same | ⟨-, -, popped⟩
  · rw [same]
    exact Nat.le_succ _
  · rw [popped]
    exact Nat.le_add_of_sub_le (Nat.le_refl _)

theorem size_le_of_visit {call : NestedCall}
    (apart : visitor.path.empty = some false → visitor.path.back ≠ name)
    (stepped : visitor.visit call = some next) :
    visitor.path.size + call.mark.weigh (entryWeight name) ≤ next.path.size := by
  cases call with
  | consume values =>
      cases stepped
      exact (Int.add_zero _).le
  | beginStruct =>
      cases stepped
      exact (Int.add_zero _).le
  | finishStruct =>
      cases stepped
      exact (Int.add_zero _).le
  | beginAttribute other =>
      have size := size_of_enter stepped
      rw [mark, Mark.weigh, entryWeight]
      split <;> omega
  | finishAttribute other =>
      rw [mark, Mark.weigh, entryWeight]
      split
      · rename_i same
        rcases path_of_leave stepped with kept | ⟨inside, last, -⟩
        · rw [kept, neg_zero, Int.add_zero]
        · exact absurd (last.trans same) (apart inside)
      · have size := size_le_of_leave stepped
        omega
  | beginList =>
      have size := size_of_enter stepped
      rw [mark, Mark.weigh, entryWeight]
      omega
  | finishList =>
      have size := size_le_of_leave stepped
      rw [mark, Mark.weigh, entryWeight]
      omega

/-- The calls keep an invariant for which the name is not the last element of the path. -/
structure StaysApart (name : Block) (calls : List NestedCall)
    (invariant : PathBuildingVisitor → Prop) : Prop where
  keeps : ∀ visitor next call, call ∈ calls → invariant visitor →
    visitor.visit call = some next → invariant next
  apart : ∀ visitor, invariant visitor → visitor.path.empty = some false →
    visitor.path.back ≠ name

variable {final : PathBuildingVisitor}

namespace StaysApart

variable {invariant : PathBuildingVisitor → Prop} {calls front back : List NestedCall}

theorem front_of_append (stays : StaysApart name (front ++ back) invariant) :
    StaysApart name front invariant :=
  ⟨fun visitor next call mem => stays.keeps visitor next call (mem_append_left _ mem),
    stays.apart⟩

theorem back_of_append (stays : StaysApart name (front ++ back) invariant) :
    StaysApart name back invariant :=
  ⟨fun visitor next call mem => stays.keeps visitor next call (mem_append_right _ mem),
    stays.apart⟩

/-- The path grows with the other names. -/
theorem size_le_of_run (stays : StaysApart name calls invariant)
    {visitor final : PathBuildingVisitor} (start : invariant visitor)
    (ran : Theory.run visit visitor calls = some final) :
    visitor.path.size + balance (entryWeight name) (calls.map mark) ≤
      final.path.size := by
  induction calls generalizing visitor with
  | nil =>
      cases ran
      exact (Int.add_zero _).le
  | cons call calls ih =>
      rcases bind_eq_some_iff.mp ran with ⟨next, stepped, rest⟩
      rw [← singleton_append] at stays
      have first := size_le_of_visit (stays.apart visitor start) stepped
      have others := ih stays.back_of_append
        (stays.keeps visitor next call (mem_cons_self) start stepped) rest
      have one : balance (entryWeight name) [call.mark] = call.mark.weigh (entryWeight name) :=
        sum_singleton
      rw [map_cons, ← singleton_append, balance_append]
      omega

/-- A name that is never the last element of the path is never removed from it. -/
theorem path_ne (stays : StaysApart name calls invariant) (nested : IsNested calls)
    (begun : .beginAttribute name ∈ calls) (start : invariant ({} : PathBuildingVisitor).begin)
    (reached : visited calls = some final) : final.path ≠ {} := by
  rcases append_of_mem begun with ⟨front, back, rfl⟩
  rw [visited, Theory.run_append] at reached
  rcases bind_eq_some_iff.mp reached with ⟨before, ranFront, rest⟩
  rcases bind_eq_some_iff.mp rest with ⟨inside, entered, ranBack⟩
  have keptBefore : invariant before := Theory.run_invariant
    (fun visitor next call mem => stays.front_of_append.keeps visitor next call mem) start ranFront
  have keptInside : invariant inside :=
    stays.back_of_append.keeps before inside _ mem_cons_self keptBefore entered
  rw [← singleton_append] at stays
  have sizeFront := stays.front_of_append.size_le_of_run start ranFront
  have sizeInside := size_of_enter entered
  have sizeBack := stays.back_of_append.back_of_append.size_le_of_run keptInside ranBack
  -- The brackets are level without what is begun here, which weighs nothing.
  have level := nested.balance_eq_zero (entryWeight name)
  have nothing : (Mark.opens (.attribute name)).weigh (entryWeight name) = 0 := if_pos rfl
  rw [map_append, map_cons, ← singleton_append, balance_append,
    balance_append] at level
  have one : balance (entryWeight name) [(NestedCall.beginAttribute name).mark] = 0 := by
    rw [balance, map_singleton, sum_singleton]
    exact nothing
  intro left
  rw [left] at sizeBack
  have zero : (({} : BasicStringPath).size : Int) = 0 := rfl
  omega

end StaysApart

/-! ### Long names -/

theorem exists_enter {calls : List NestedCall}
    (reached : visited calls = some final) (begun : .beginAttribute name ∈ calls) :
    ∃ before inside : PathBuildingVisitor, before.enter name = some inside := by
  rcases append_of_mem begun with ⟨front, back, rfl⟩
  rw [visited, Theory.run_append] at reached
  rcases bind_eq_some_iff.mp reached with ⟨before, -, rest⟩
  rcases bind_eq_some_iff.mp rest with ⟨inside, entered, -⟩
  exact ⟨before, inside, entered⟩

/-- The code of the length of a long name that is pushed is that of a shorter one. -/
theorem two_pow_le_length (entered : visitor.enter name = some next)
    (long : ¬StringList.IsShort (fixName name)) : 2 ^ 32 ≤ name.length := by
  by_contra below
  exact long (isShort_fixName_of_pushBack? (pushBack?_of_enter entered) (Nat.lt_of_not_le below))

theorem staysApart_of_length (long : 2 ^ 32 ≤ name.length) (calls : List NestedCall) :
    StaysApart name calls fun _ => True where
  keeps := fun _ _ _ _ _ _ => trivial
  apart := by
    rintro visitor - - rfl
    exact absurd (length_back_lt visitor.path) (Nat.not_lt.mpr long)

/-! ### Null characters -/

/-- The path has the elements that are told by their codes, and they are fixed. -/
def HasEntries (visitor : PathBuildingVisitor) : Prop :=
  ∃ names, visitor.path = pathOf names ∧ ∀ name ∈ names, IsPathEntry name

theorem HasEntries.enter (has : visitor.HasEntries) (short : StringList.IsShort (fixName name))
    (entered : visitor.enter name = some next) : next.HasEntries := by
  rcases has with ⟨names, path, entries⟩
  have pushed := pushBack?_of_enter entered
  rw [path, pushBack?_pathOf short] at pushed
  refine ⟨names ++ [fixName name], (Option.some.inj pushed).symm, ?_⟩
  intro other mem
  rw [mem_append, mem_singleton] at mem
  rcases mem with inside | rfl
  · exact entries other inside
  · exact ⟨fixName_fixName name, short⟩

/-- The last element of a path that is not empty. -/
theorem HasEntries.exists_back (has : visitor.HasEntries)
    (inside : visitor.path.empty = some false) :
    ∃ names last, visitor.path = pathOf (names ++ [last]) ∧
      ∀ name ∈ names ++ [last], IsPathEntry name := by
  rcases has with ⟨names, path, entries⟩
  rcases eq_nil_or_concat' names with rfl | ⟨front, last, rfl⟩
  · have nothing : (pathOf []).empty = some true := empty_pathOf nofun
    rw [path, nothing] at inside
    cases inside
  · exact ⟨front, last, path, entries⟩

theorem HasEntries.leave (has : visitor.HasEntries) (left : visitor.leave name = some next) :
    next.HasEntries := by
  rcases path_of_leave left with same | ⟨inside, -, popped⟩
  · rw [HasEntries, same]
    exact has
  · rcases has.exists_back inside with ⟨names, last, path, entries⟩
    have isEntry := entries last (mem_append_right _ mem_cons_self)
    rw [path, popBack_pathOf isEntry.2] at popped
    exact ⟨names, popped, fun name mem => entries name (mem_append_left _ mem)⟩

theorem HasEntries.visit {call : NestedCall} (has : visitor.HasEntries)
    (short : ∀ name, call = .beginAttribute name → StringList.IsShort (fixName name))
    (stepped : visitor.visit call = some next) : next.HasEntries := by
  cases call with
  | consume values =>
      cases stepped
      exact has
  | beginStruct =>
      cases stepped
      exact has
  | finishStruct =>
      cases stepped
      exact has
  | beginAttribute name => exact has.enter (short name rfl) stepped
  | finishAttribute name => exact has.leave stepped
  | beginList =>
      have shortList : StringList.IsShort (fixName listName) := by
        rw [isPathEntry_listName.1]
        exact isPathEntry_listName.2
      exact has.enter shortList stepped
  | finishList => exact has.leave stepped

theorem staysApart_of_fixName_ne {calls : List NestedCall}
    (short : ∀ name, .beginAttribute name ∈ calls → StringList.IsShort (fixName name))
    (cut : fixName name ≠ name) : StaysApart name calls HasEntries where
  keeps := fun visitor next call mem has stepped =>
    has.visit (fun name same => short name (same ▸ mem)) stepped
  apart := by
    rintro visitor has inside rfl
    rcases has.exists_back inside with ⟨names, last, path, entries⟩
    have isEntry := entries last (mem_append_right _ mem_cons_self)
    rw [path, back_pathOf isEntry.2] at cut
    exact cut isEntry.1

/-- Names that are no elements of a path as they are stay in the path. -/
theorem isPathEntry_of_path_eq {calls : List NestedCall}
    (nested : IsNested calls) (reached : visited calls = some final) (nothing : final.path = {})
    (begun : .beginAttribute name ∈ calls) : IsPathEntry name := by
  have short : ∀ name, .beginAttribute name ∈ calls → StringList.IsShort (fixName name) := by
    intro name begun
    by_contra long
    rcases exists_enter reached begun with ⟨before, inside, entered⟩
    have stays := staysApart_of_length (two_pow_le_length entered long) calls
    exact stays.path_ne nested begun trivial reached nothing
  by_contra noEntry
  have cut : fixName name ≠ name := by
    intro same
    exact noEntry ⟨same, same ▸ short name begun⟩
  have start : ({} : PathBuildingVisitor).begin.HasEntries := ⟨[], rfl, nofun⟩
  exact (staysApart_of_fixName_ne short cut).path_ne nested begun start reached nothing

/-- The visitor keeps the path exactly if the names of the attributes have less than 2³¹ - 1 bytes
and do not end with null characters. -/
theorem keepsPath_iff (builder : List BuilderCall → Bool) {calls : List NestedCall}
    (nested : IsNested calls) :
    KeepsPath builder calls ↔ ∀ name, .beginAttribute name ∈ calls → IsPathEntry name := by
  constructor
  · intro keeps name begun
    rcases keeps.finishes with ⟨final, -, reached, nothing, -⟩
    exact isPathEntry_of_path_eq nested reached nothing begun
  · exact keepsPath_of_entries builder nested

theorem keepsPath_of_list : KeepsPath (fun _ => true)
    [.beginAttribute [byteOf 'a'], .beginList, .consume (.bools [true]), .finishList,
      .finishAttribute [byteOf 'a']] := by
  refine (keepsPath_iff _ (by decide)).mpr ?_
  intro name begun
  have same : name = [byteOf 'a'] := by
    simpa using begun
  subst same
  exact ⟨fixName_eq_self (by decide), Nat.lt_of_lt_of_le Nat.one_lt_two (by decide)⟩

/-- The null character is not in the path, and then the name is not the last element. -/
theorem not_forall_keepsPath : ¬∀ builder calls, IsNested calls → KeepsPath builder calls := by
  intro keeps
  have nested : IsNested [.beginAttribute [byteOf 'a', 0], .finishAttribute [byteOf 'a', 0]] := by
    decide
  rcases (keeps (fun _ => true) _ nested).finishes with ⟨final, -, reached, nothing, -⟩
  have isEntry := isPathEntry_of_path_eq nested reached nothing mem_cons_self
  exact absurd isEntry.1 (by decide)

end PathBuildingVisitor

end Eagine.ValueTree
