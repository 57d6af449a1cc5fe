import Eagine.String.StringSplitting
import Eagine.Theory.PreOrder
import Eagine.ValueTree.OverlayUnion

/-!
# Traversal with a handler

The walk through a value tree that keeps the attributes on the way, the indices and the path on
stacks, and asks a handler at each attribute. The indices are the position of the attribute that
is to be visited: the other two stacks follow from them.
-/

namespace Eagine.ValueTree

open Serialization FromString Theory List

/-- `basic_string_path` -/
structure BasicStringPath where
  size : Nat := 0
  str : Block := []

namespace BasicStringPath

def pushBack (name : Block) (path : BasicStringPath) : BasicStringPath where
  size := path.size + 1
  str := StringList.pushBack path.str (fixName name)

def popBack (path : BasicStringPath) : BasicStringPath where
  size := path.size - 1
  str := StringList.popBack path.str

end BasicStringPath

/-- What the walk sees of an attribute, apart from those that are nested in it. -/
structure AttributeInfo where
  name : Block
  isLink : Bool

/-- An attribute, with all that is nested in it. -/
abbrev AttributeTree :=
  RoseTree AttributeInfo

/-- What the handler is called with. -/
structure VisitCall where
  child : AttributeTree
  path : BasicStringPath
  stack : List AttributeTree

/-- A visit handler. Its answer may depend on the calls before, and on what it answered. -/
abbrev StackVisitHandler :=
  List (VisitCall × Bool) → VisitCall → Bool

/-- The local variables, and the calls of the handler. -/
structure TraverseState where
  atr : List AttributeTree
  pos : List Nat
  path : BasicStringPath := {}
  calls : List (VisitCall × Bool) := []

namespace TraverseState

/-- `++pos.back(); path.pop_back()` -/
def advance (back : Nat) (state : TraverseState) : TraverseState :=
  { state with
    pos := state.pos.dropLast ++ [back + 1]
    path := state.path.popBack }

/-- One round of the loop: the walk is done, or goes on. -/
def round (visit : StackVisitHandler) (state : TraverseState) :
    Option (List (VisitCall × Bool) ⊕ TraverseState) := do
  let atr ← state.atr.getLast?
  let pos ← state.pos.getLast?
  if inside : pos < atr.children.length then
    let child := atr.children[pos]
    let name := child.value.name
    let path := state.path.pushBack (if name ≠ [] then name else indexText pos)
    let call : VisitCall := ⟨child, path, state.atr⟩
    let accepted := visit state.calls call
    let state := { state with path, calls := state.calls ++ [(call, accepted)] }
    if accepted && !child.value.isLink then
      some (.inr { state with atr := state.atr ++ [child], pos := state.pos ++ [0] })
    else
      some (.inr (state.advance pos))
  else
    let state := { state with atr := state.atr.dropLast, pos := state.pos.dropLast }
    match state.pos.getLast? with
    | none => some (.inl state.calls)
    | some pos => some (.inr (state.advance pos))

/-- The loop. -/
def loop (visit : StackVisitHandler) : Nat → TraverseState → Option (List (VisitCall × Bool))
  | 0, _ => none
  | fuel + 1, state => do
      match ← state.round visit with
      | .inl calls => some calls
      | .inr next => loop visit fuel next

end TraverseState

/-- `compound::traverse`, from the root of the attributes. -/
def traverseWith (visit : StackVisitHandler) (fuel : Nat) (root : AttributeTree) :
    Option (List (VisitCall × Bool)) :=
  TraverseState.loop visit fuel { atr := [root], pos := [0] }

/-- What is pushed for an attribute at an index: its name, or the index if it has none. -/
def entryOf (child : AttributeTree) (index : Nat) : Block :=
  if child.value.name ≠ [] then child.value.name else indexText index

/-- The path to a place has the entries without null characters at their ends. -/
def entriesTo : AttributeTree → List Nat → List Block
  | _, [] => []
  | tree, index :: rest =>
      match tree.children[index]? with
      | some child => fixName (entryOf child index) :: entriesTo child rest
      | none => []

/-- The attributes above a place, from the root. -/
def attributesAbove : AttributeTree → List Nat → List AttributeTree
  | _, [] => []
  | tree, index :: rest =>
      match tree.children[index]? with
      | some child => tree :: attributesAbove child rest
      | none => [tree]

/-- What the handler has to be called with for the attribute at a place. -/
structure IsCallAt (root : AttributeTree) (place : List Nat) (call : VisitCall) : Prop where
  child_eq : root.nodeAt place = some call.child
  size_eq : call.path.size = place.length
  values_eq : StringList.valuesOf call.path.str = some (entriesTo root place)
  stack_eq : call.stack = attributesAbove root place

/-- A call of the handler, with the place of the attribute and the answer. -/
structure Visited where
  place : List Nat
  call : VisitCall
  accepted : Bool

def Visited.record (visited : Visited) : VisitCall × Bool :=
  (visited.call, visited.accepted)

/-- What a traversal has to be: the handler is called in pre-order, once for each attribute below
the root for which those between are no links and were accepted. -/
structure IsTraversal (visit : StackVisitHandler) (root : AttributeTree) (log : List Visited) :
    Prop where
  answered : ∀ done visited rest, log = done ++ visited :: rest →
    visit (done.map Visited.record) visited.call = visited.accepted
  preOrder : log.Pairwise fun earlier later => earlier.place < later.place
  visited_iff : ∀ place, (∃ visited ∈ log, visited.place = place) ↔
    place ≠ [] ∧ (root.nodeAt place).isSome = true ∧
      ∀ above below, place = above ++ below → above ≠ [] → below ≠ [] →
        (∃ visited ∈ log, visited.place = above ∧ visited.accepted = true) ∧
          ∃ node, root.nodeAt above = some node ∧ node.value.isLink = false
  isCallAt : ∀ visited ∈ log, IsCallAt root visited.place visited.call

/-- The names fit into a string list, and the nested attributes can be counted. -/
structure Storable (root : AttributeTree) : Prop where
  names : ∀ place node, root.nodeAt place = some node →
    StringList.IsShort (fixName node.value.name)
  counts : ∀ place node, root.nodeAt place = some node → node.children.length < 2 ^ 63

/-- What is nested in an attribute is to be stored with it. -/
theorem Storable.node {info : AttributeInfo} {children : List AttributeTree}
    (short : StringList.IsShort (fixName info.name)) (count : children.length < 2 ^ 63)
    (nested : ∀ child ∈ children, Storable child) : Storable (.node info children) where
  names place node found := by
    cases place with
    | nil =>
        cases Option.some.inj found
        exact short
    | cons index rest =>
        rcases Option.bind_eq_some_iff.mp found with ⟨child, isChild, inChild⟩
        exact (nested child (mem_of_getElem? isChild)).names rest node inChild
  counts place node found := by
    cases place with
    | nil =>
        cases Option.some.inj found
        exact count
    | cons index rest =>
        rcases Option.bind_eq_some_iff.mp found with ⟨child, isChild, inChild⟩
        exact (nested child (mem_of_getElem? isChild)).counts rest node inChild

section Places

variable {root parent child : AttributeTree} {place : List Nat} {index : Nat}

theorem entriesTo_concat (isParent : root.nodeAt place = some parent)
    (isChild : parent.children[index]? = some child) :
    entriesTo root (place ++ [index]) = entriesTo root place ++ [fixName (entryOf child index)] := by
  induction place generalizing root with
  | nil =>
      cases Option.some.inj isParent
      simp [entriesTo, isChild]
  | cons head rest ih =>
      rcases Option.bind_eq_some_iff.mp isParent with ⟨next, found, inNext⟩
      simp only [cons_append, entriesTo, found]
      rw [ih inNext]

theorem attributesAbove_concat (isParent : root.nodeAt place = some parent)
    (isChild : parent.children[index]? = some child) :
    attributesAbove root (place ++ [index]) = attributesAbove root place ++ [parent] := by
  induction place generalizing root with
  | nil =>
      cases Option.some.inj isParent
      simp [attributesAbove, isChild]
  | cons head rest ih =>
      rcases Option.bind_eq_some_iff.mp isParent with ⟨next, found, inNext⟩
      simp only [cons_append, attributesAbove, found]
      rw [ih inNext]

/-- The text of an index that can be counted to is short. -/
theorem isShort_indexText (small : index < 2 ^ 63) : StringList.IsShort (indexText index) := by
  have fits : index < 10 ^ (18 + 1) := small.trans (by decide)
  have length : (indexText index).length ≤ 19 := by
    rw [indexText, length_numeral]
    exact length_digitsOf_le (by decide) fits
  exact length.trans_lt (by decide)

theorem Storable.isShort_entry (storable : Storable root)
    (isParent : root.nodeAt place = some parent)
    (isChild : parent.children[index]? = some child) :
    StringList.IsShort (fixName (entryOf child index)) := by
  have isNode : root.nodeAt (place ++ [index]) = some child :=
    (RoseTree.nodeAt_concat isParent index).trans isChild
  have inside : index < parent.children.length := (List.getElem?_eq_some_iff.mp isChild).1
  rw [entryOf]
  split
  · exact storable.names _ _ isNode
  · rw [fixName_eq_self (getLast?_indexText index)]
    exact isShort_indexText (inside.trans (storable.counts _ _ isParent))

theorem Storable.isShort_entriesTo (storable : Storable root)
    (isNode : (root.nodeAt place).isSome = true) :
    ∀ entry ∈ entriesTo root place, StringList.IsShort entry := by
  induction place using List.reverseRecOn with
  | nil => exact forall_mem_nil _
  | append_singleton place index ih =>
      rcases Option.isSome_iff_exists.mp isNode with ⟨node, nodeEq⟩
      rw [RoseTree.nodeAt_append] at nodeEq
      rcases Option.bind_eq_some_iff.mp nodeEq with ⟨parent, isParent, inParent⟩
      rcases Option.bind_eq_some_iff.mp inParent with ⟨child, isChild, -⟩
      rw [entriesTo_concat isParent isChild]
      intro entry member
      rcases mem_append.mp member with front | last
      · exact ih (Option.isSome_iff_exists.mpr ⟨parent, isParent⟩) entry front
      · rw [mem_singleton.mp last]
        exact storable.isShort_entry isParent isChild

/-- The path to a place. -/
def pathTo (root : AttributeTree) (place : List Nat) : BasicStringPath where
  size := place.length
  str := StringList.elements (entriesTo root place)

theorem pushBack_pathTo (storable : Storable root) (isParent : root.nodeAt place = some parent)
    (isChild : parent.children[index]? = some child) :
    (pathTo root place).pushBack (entryOf child index) = pathTo root (place ++ [index]) := by
  have short := storable.isShort_entry isParent isChild
  rw [BasicStringPath.pushBack, pathTo, pathTo, StringList.pushBack_eq short,
    entriesTo_concat isParent isChild, StringList.elements_concat, length_append]
  rfl

theorem popBack_pathTo (storable : Storable root) (isParent : root.nodeAt place = some parent)
    (isChild : parent.children[index]? = some child) :
    (pathTo root (place ++ [index])).popBack = pathTo root place := by
  have short := storable.isShort_entry isParent isChild
  rw [BasicStringPath.popBack, pathTo, pathTo, entriesTo_concat isParent isChild,
    StringList.popBack_eq short, length_append]
  rfl

end Places

/-- The call for the attribute at a place. -/
def callAt (root : AttributeTree) (place : List Nat) : VisitCall where
  child := (root.nodeAt place).getD root
  path := pathTo root place
  stack := attributesAbove root place

/-- A visit of a place, as the handler sees it. -/
def recordOf (root : AttributeTree) (visit : List Nat × Bool) : VisitCall × Bool :=
  (callAt root visit.1, visit.2)

/-- What a handler answers at a place. -/
def answerOf (visit : StackVisitHandler) (root : AttributeTree) (visits : Visits)
    (place : List Nat) : Bool :=
  visit (visits.map (recordOf root)) (callAt root place)

def AttributeInfo.isOpen (info : AttributeInfo) : Bool :=
  !info.isLink

open AttributeInfo (isOpen)

/-- The loop comes to the attribute at an index below a place. -/
def stateAt (root parent : AttributeTree) (place : List Nat) (index : Nat) (visits : Visits) :
    TraverseState where
  atr := attributesAbove root place ++ [parent]
  pos := place ++ [index]
  path := pathTo root place
  calls := visits.map (recordOf root)

/-- The loop gets from one state to another one. -/
def Runs (visit : StackVisitHandler) (state later : TraverseState) : Prop :=
  ∃ rounds, ∀ fuel,
    TraverseState.loop visit (fuel + rounds) state = TraverseState.loop visit fuel later

section Rounds

variable {visit : StackVisitHandler} {root parent child : AttributeTree} {place : List Nat}
  {index : Nat} {visits : Visits}

theorem Runs.refl (state : TraverseState) : Runs visit state state :=
  ⟨0, fun _ => rfl⟩

theorem Runs.trans {first second third : TraverseState} (one : Runs visit first second)
    (two : Runs visit second third) : Runs visit first third := by
  rcases one with ⟨rounds, one⟩
  rcases two with ⟨more, two⟩
  exact ⟨more + rounds, fun fuel => by rw [← Nat.add_assoc, one, two]⟩

theorem Runs.of_round {state next : TraverseState}
    (round : state.round visit = some (.inr next)) : Runs visit state next :=
  ⟨1, fun fuel => by rw [TraverseState.loop, round]; rfl⟩

/-- The round visits the attribute. -/
theorem round_stateAt (visit : StackVisitHandler) (visits : Visits) (storable : Storable root)
    (isParent : root.nodeAt place = some parent) (isChild : parent.children[index]? = some child) :
    (stateAt root parent place index visits).round visit =
      let accepted := answerOf visit root visits (place ++ [index])
      let visits := visits ++ [(place ++ [index], accepted)]
      if accepted && child.value.isOpen then
        some (.inr (stateAt root child (place ++ [index]) 0 visits))
      else
        some (.inr (stateAt root parent place (index + 1) visits)) := by
  rcases List.getElem?_eq_some_iff.mp isChild with ⟨inside, getElemEq⟩
  have isNode : root.nodeAt (place ++ [index]) = some child :=
    (RoseTree.nodeAt_concat isParent index).trans isChild
  have pushed : (pathTo root place).pushBack
      (if child.value.name ≠ [] then child.value.name else indexText index) =
        pathTo root (place ++ [index]) :=
    pushBack_pathTo storable isParent isChild
  have popped := popBack_pathTo storable isParent isChild
  have above := attributesAbove_concat isParent isChild
  have call : callAt root (place ++ [index]) =
      ⟨child, pathTo root (place ++ [index]), attributesAbove root place ++ [parent]⟩ := by
    rw [callAt, isNode, Option.getD_some, above]
  simp only [TraverseState.round, stateAt, getLast?_concat, Option.bind_eq_bind,
    Option.bind_some, dif_pos inside, getElemEq, pushed, answerOf, call, isOpen]
  split
  · simp [recordOf, call, above]
  · simp [recordOf, call, TraverseState.advance, popped]

/-- The round leaves an attribute with nothing more to be visited below it. -/
theorem round_leave (storable : Storable root) (isParent : root.nodeAt place = some parent)
    (isChild : parent.children[index]? = some child) :
    (stateAt root child (place ++ [index]) child.children.length visits).round visit =
      some (.inr (stateAt root parent place (index + 1) visits)) := by
  have popped := popBack_pathTo storable isParent isChild
  have above := attributesAbove_concat isParent isChild
  simp only [TraverseState.round, stateAt, getLast?_concat, Option.bind_eq_bind,
    Option.bind_some, lt_irrefl, dropLast_concat, TraverseState.advance, popped, above]
  rfl

variable (visit root) in
mutual

/-- The loop walks through an attribute and what is below it. -/
theorem runs_walk (storable : Storable root) (parent : AttributeTree) (place : List Nat)
    (index : Nat) (isParent : root.nodeAt place = some parent) :
    (child : AttributeTree) → (visits : Visits) → parent.children[index]? = some child →
      Runs visit (stateAt root parent place index visits)
        (stateAt root parent place (index + 1)
          (walk (answerOf visit root) isOpen (place ++ [index]) child visits))
  | .node info children, visits, isChild => by
      have round := round_stateAt visit visits storable isParent isChild
      have isNode := (RoseTree.nodeAt_concat isParent index).trans isChild
      rw [walk]
      by_cases enters : (answerOf visit root visits (place ++ [index]) && info.isOpen) = true
      · rw [if_pos enters]
        refine (Runs.of_round (round.trans (if_pos enters))).trans ?_
        refine (runs_walkAll storable (.node info children) (place ++ [index]) isNode children 0
          _ rfl).trans ?_
        rw [Nat.zero_add]
        exact Runs.of_round (round_leave storable isParent isChild)
      · rw [if_neg enters]
        exact Runs.of_round (round.trans (if_neg enters))

theorem runs_walkAll (storable : Storable root) (parent : AttributeTree) (place : List Nat)
    (isParent : root.nodeAt place = some parent) :
    (rest : List AttributeTree) → (index : Nat) → (visits : Visits) →
      parent.children.drop index = rest →
        Runs visit (stateAt root parent place index visits)
          (stateAt root parent place (index + rest.length)
            (walkAll (answerOf visit root) isOpen place rest index visits))
  | [], index, visits, _ => Runs.refl _
  | child :: rest, index, visits, isRest => by
      have isChild : parent.children[index]? = some child := by
        rw [← head?_drop, isRest, head?_cons]
      have isTail : parent.children.drop (index + 1) = rest := by
        rw [← tail_drop, isRest, tail_cons]
      have onward := runs_walkAll storable parent place isParent rest (index + 1)
        (walk (answerOf visit root) isOpen (place ++ [index]) child visits) isTail
      rw [walkAll, length_cons, Nat.add_comm rest.length 1, ← Nat.add_assoc]
      exact (runs_walk storable parent place index isParent child visits isChild).trans onward

end

/-- The loop ends with the visits of all that is below the root. -/
theorem traverseWith_eq_walk (visit : StackVisitHandler) (storable : Storable root) :
    ∃ rounds, ∀ fuel, traverseWith visit (fuel + rounds) root =
      some ((walkAll (answerOf visit root) isOpen [] root.children 0 []).map
        (recordOf root)) := by
  rcases runs_walkAll visit root storable root [] rfl root.children 0 [] rfl with ⟨rounds, runs⟩
  refine ⟨rounds + 1, fun fuel => ?_⟩
  rw [← Nat.add_assoc, Nat.add_right_comm, traverseWith]
  refine (runs (fuel + 1)).trans ?_
  rw [TraverseState.loop, Nat.zero_add, TraverseState.round]
  simp [stateAt, attributesAbove]

/-- A visit of a place, with the call for it. -/
def visitedOf (root : AttributeTree) (visit : List Nat × Bool) : Visited where
  place := visit.1
  call := callAt root visit.1
  accepted := visit.2

theorem visited_at_iff :
    (∃ visited ∈ visits.map (visitedOf root), visited.place = place) ↔
      ∃ accepted, (place, accepted) ∈ visits := by
  constructor
  · rintro ⟨_, member, rfl⟩
    rcases mem_map.mp member with ⟨⟨place, accepted⟩, inVisits, rfl⟩
    exact ⟨accepted, inVisits⟩
  · rintro ⟨accepted, inVisits⟩
    exact ⟨_, mem_map_of_mem inVisits, rfl⟩

theorem accepted_at_iff :
    (∃ visited ∈ visits.map (visitedOf root),
        visited.place = place ∧ visited.accepted = true) ↔ (place, true) ∈ visits := by
  constructor
  · rintro ⟨_, member, rfl, accepted⟩
    rcases mem_map.mp member with ⟨⟨place, answer⟩, inVisits, rfl⟩
    have isTrue : answer = true := accepted
    rwa [isTrue] at inVisits
  · intro inVisits
    exact ⟨_, mem_map_of_mem inVisits, rfl, rfl⟩

theorem AttributeInfo.isOpen_iff {info : AttributeInfo} :
    info.isOpen = true ↔ info.isLink = false := by
  rw [isOpen, Bool.not_eq_true']

/-- The handler is called as it has to be, for the attributes that a walk in pre-order visits. -/
theorem isTraversal_of_isPreOrder (storable : Storable root)
    (isPreOrder : IsPreOrder (answerOf visit root) isOpen root visits) :
    IsTraversal visit root (visits.map (visitedOf root)) where
  answered := by
    intro done visited rest whole
    rcases map_eq_append_iff.mp whole with ⟨before, after, rfl, rfl, afterEq⟩
    rcases map_eq_cons_iff.mp afterEq with ⟨⟨place, accepted⟩, behind, rfl, rfl, rfl⟩
    rw [map_map]
    exact isPreOrder.answered before place accepted behind rfl
  preOrder := by
    rw [pairwise_map]
    exact isPreOrder.ordered
  visited_iff place := by
    simp only [visited_at_iff, accepted_at_iff, ← AttributeInfo.isOpen_iff]
    exact isPreOrder.visited_iff place
  isCallAt visited member := by
    rcases mem_map.mp member with ⟨⟨place, accepted⟩, inVisits, rfl⟩
    have isNode := ((isPreOrder.visited_iff place).mp ⟨accepted, inVisits⟩).2.1
    rcases Option.isSome_iff_exists.mp isNode with ⟨node, nodeEq⟩
    exact {
      child_eq := by simp only [visitedOf, callAt, nodeEq, Option.getD_some]
      size_eq := rfl
      values_eq := StringList.valuesOf_elements (storable.isShort_entriesTo isNode)
      stack_eq := rfl }

/-- A traversal ends, and has called the handler as it has to. -/
theorem traverseWith_isTraversal (visit : StackVisitHandler) (root : AttributeTree)
    (storable : Storable root) :
    ∃ rounds log, IsTraversal visit root log ∧
      ∀ fuel, traverseWith visit (fuel + rounds) root = some (log.map Visited.record) := by
  rcases traverseWith_eq_walk visit storable with ⟨rounds, traversed⟩
  refine ⟨rounds, _, isTraversal_of_isPreOrder storable
    (walkAll_isPreOrder (answerOf visit root) isOpen root), fun fuel => ?_⟩
  rw [traversed, map_map]
  rfl

/-- A link below an attribute with a name. -/
theorem traverseWith_isTraversal_link :
    let root : AttributeTree := .node ⟨[], false⟩ [.node ⟨[0x61], false⟩ [.node ⟨[], true⟩ []]]
    Storable root ∧ ∃ rounds log, IsTraversal (fun _ _ => true) root log ∧
      ∀ fuel, traverseWith (fun _ _ => true) (fuel + rounds) root =
        some (log.map Visited.record) := by
  intro root
  have short {name : Block} (length : name.length ≤ 1) : StringList.IsShort (fixName name) :=
    ((List.rdropWhile_prefix _ name).length_le.trans length).trans_lt (by decide)
  have link : Storable (.node ⟨[], true⟩ []) := .node (short (by decide)) (by decide) nofun
  have named : Storable (.node ⟨[0x61], false⟩ [.node ⟨[], true⟩ []]) :=
    .node (short (by decide)) (by decide) (by simpa using link)
  have storable : Storable root := .node (short (by decide)) (by decide) (by simpa using named)
  exact ⟨storable, traverseWith_isTraversal _ root storable⟩

/-- The names on the way to a place, as they are. -/
def namesTo : AttributeTree → List Nat → List Block
  | _, [] => []
  | tree, index :: rest =>
      match tree.children[index]? with
      | some child => entryOf child index :: namesTo child rest
      | none => []

/-- A name that ends with a null character is not what the path has for it. -/
theorem not_forall_path_eq_names :
    ¬∀ (visit : StackVisitHandler) (root : AttributeTree) (fuel : Nat)
      (calls : List (VisitCall × Bool)), traverseWith visit fuel root = some calls →
        ∀ record ∈ calls, ∃ place, root.nodeAt place = some record.1.child ∧
          StringList.valuesOf record.1.path.str = some (namesTo root place) := by
  intro pathIsNames
  let child : AttributeTree := .node ⟨[0x61, 0x00], false⟩ []
  let root : AttributeTree := .node ⟨[], false⟩ [child]
  let path : BasicStringPath := BasicStringPath.pushBack [0x61, 0x00] {}
  have traversed : traverseWith (fun _ _ => true) 3 root = some [(⟨child, path, [root]⟩, true)] :=
    rfl
  rcases pathIsNames _ root 3 _ traversed _ (mem_singleton_self _) with
    ⟨place, found, valuesEq⟩
  have values : StringList.valuesOf path.str = some [[0x61]] := by decide +kernel
  have names := Option.some.inj (valuesEq.symm.trans values)
  match place with
  | [] => exact absurd names nofun
  | 0 :: rest =>
      have head := (List.cons.inj names).1
      exact absurd head (by decide)
  | (index + 1) :: rest => exact absurd found nofun

end Rounds

end Eagine.ValueTree
