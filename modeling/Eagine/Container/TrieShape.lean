import Eagine.Container.Trie
import Eagine.Theory.LinkedTree

/-!
# Shape of tries

The nodes of a trie are linked as a tree of the prefixes of its keys, as long as
the index type has an index for every node.
-/

namespace Eagine.Container

open Theory

namespace Trie

variable {charset : Charset} {bits : Nat} {Value : Type}

variable {iidx cidx : Nat} {nodes : Nodes charset bits Value}

theorem nodeAt_of_length_le (outside : nodes.length ≤ iidx) : nodeAt nodes iidx = emptyNode :=
  List.getD_eq_default _ _ outside

theorem nodeAt_append_emptyNode (nodes : Nodes charset bits Value) (iidx : Nat) :
    nodeAt (nodes ++ [emptyNode]) iidx = nodeAt nodes iidx := by
  rcases Nat.lt_or_ge iidx nodes.length with inside | outside
  · exact List.getD_append _ _ _ _ inside
  · rw [nodeAt_of_length_le outside, nodeAt, List.getD_append_right _ _ _ _ outside]
    cases iidx - nodes.length with
    | zero => rfl
    | succ more => rfl

theorem nodeAt_modify (nodes : Nodes charset bits Value) (iidx other : Nat)
    (change : Node Value bits (charset.chars.length + 1) →
      Node Value bits (charset.chars.length + 1)) :
    nodeAt (nodes.modify iidx change) other =
      if iidx = other ∧ other < nodes.length then change (nodeAt nodes other)
      else nodeAt nodes other := by
  rcases Nat.lt_or_ge other nodes.length with inside | outside
  · rw [nodeAt, nodeAt, List.getD_eq_getElem _ _ (by simpa using inside),
      List.getD_eq_getElem _ _ inside, List.getElem_modify]
    simp [inside]
  · rw [nodeAt_of_length_le (by simpa using outside), nodeAt_of_length_le outside,
      if_neg fun both => Nat.not_lt.mpr outside both.2]

theorem length_setNext (nodes : Nodes charset bits Value) (iidx cidx next : Nat) :
    (setNext nodes iidx cidx next).length = nodes.length := by
  simp [setNext]

theorem length_setObject (nodes : Nodes charset bits Value) (iidx : Nat)
    (object : Option Value) : (setObject nodes iidx object).length = nodes.length := by
  simp [setObject]

theorem object_setNext (nodes : Nodes charset bits Value) (iidx cidx next other : Nat) :
    (nodeAt (setNext nodes iidx cidx next) other).object = (nodeAt nodes other).object := by
  rw [setNext, nodeAt_modify]
  split
  · rfl
  · rfl

theorem object_setObject (inside : iidx < nodes.length) (object : Option Value) (other : Nat) :
    (nodeAt (setObject nodes iidx object) other).object =
      if iidx = other then object else (nodeAt nodes other).object := by
  rw [setObject, nodeAt_modify]
  by_cases same : iidx = other
  · subst same
    rw [if_pos ⟨rfl, inside⟩, if_pos rfl]
  · rw [if_neg fun both => same both.1, if_neg same]

theorem nextOf_setObject (nodes : Nodes charset bits Value) (iidx : Nat)
    (object : Option Value) (other cidx : Nat) :
    nextOf (setObject nodes iidx object) other cidx = nextOf nodes other cidx := by
  rw [nextOf, setObject, nodeAt_modify]
  split
  · rfl
  · rfl

theorem nextOf_of_length_le (outside : nodes.length ≤ iidx) (cidx : Nat) :
    nextOf nodes iidx cidx = 0 := by
  rw [nextOf, nodeAt_of_length_le outside, emptyNode, Vector.getElem?_replicate]
  split
  · rfl
  · rfl

theorem nextOf_append_emptyNode (nodes : Nodes charset bits Value) (iidx cidx : Nat) :
    nextOf (nodes ++ [emptyNode]) iidx cidx = nextOf nodes iidx cidx := by
  rw [nextOf, nodeAt_append_emptyNode]
  rfl

/-- The index is cut to the width of the index type. -/
theorem nextOf_setNext (inside : iidx < nodes.length) (isIndex : cidx < charset.chars.length + 1)
    (next other otherIdx : Nat) :
    nextOf (setNext nodes iidx cidx next) other otherIdx =
      if iidx = other ∧ cidx = otherIdx then next % 2 ^ bits
      else nextOf nodes other otherIdx := by
  rw [nextOf, setNext, nodeAt_modify]
  by_cases same : iidx = other
  · subst same
    rw [if_pos ⟨rfl, inside⟩, Vector.getElem?_setIfInBounds]
    by_cases sameIdx : cidx = otherIdx
    · subst sameIdx
      simp [isIndex]
    · simp [sameIdx, nextOf]
  · simp [same, nextOf]

/-- The node that a node is linked to by a character. -/
def childOf (nodes : Nodes charset bits Value) (iidx : Nat) (c : UInt8) : Option Nat :=
  (charset.getCharIndex c).bind fun cidx =>
    let next := nextOf nodes iidx cidx
    if isNoIndex next then none else some next

theorem childOf_congr {nodes' : Nodes charset bits Value}
    (same : ∀ cidx, nextOf nodes' iidx cidx = nextOf nodes iidx cidx) (c : UInt8) :
    childOf nodes' iidx c = childOf nodes iidx c := by
  simp only [childOf, same]

theorem childOf_of_length_le (outside : nodes.length ≤ iidx) (c : UInt8) :
    childOf nodes iidx c = none := by
  simp only [childOf, nextOf_of_length_le outside, isNoIndex, beq_self_eq_true, if_true]
  exact Option.bind_fun_none _

/-- The position where a search ends: the links are followed by the characters of
the key. -/
theorem findInsertPosFrom_eq (nodes : Nodes charset bits Value) (key : Key) (iidx offs : Nat) :
    ∃ followed, key = followed ++ (follow (childOf nodes) iidx key).2 ∧
      findInsertPosFrom nodes key iidx offs =
        { iidx := (follow (childOf nodes) iidx key).1
          offs := offs + followed.length
          canInsert := (follow (childOf nodes) iidx key).2.head?.all fun c =>
            (charset.getCharIndex c).isSome } := by
  induction key generalizing iidx offs with
  | nil => exact ⟨[], rfl, rfl⟩
  | cons c key ih =>
      rw [findInsertPosFrom, follow, childOf]
      cases index : charset.getCharIndex c with
      | none => exact ⟨[], by simp, by simp [index]⟩
      | some cidx =>
          cases noNext : isNoIndex (nextOf nodes iidx cidx) with
          | true => exact ⟨[], by simp [noNext], by simp [noNext, index]⟩
          | false =>
              obtain ⟨followed, keyEq, posEq⟩ := ih (nextOf nodes iidx cidx) (offs + 1)
              refine ⟨c :: followed, ?_, ?_⟩
              · simp only [Option.bind_some, noNext]
                exact congrArg (c :: ·) keyEq
              · simp only [Option.bind_some, noNext]
                rw [List.length_cons, Nat.add_comm followed.length 1, ← Nat.add_assoc]
                exact posEq

/-- The nodes with a new one that is linked to another. -/
def addNext (nodes : Nodes charset bits Value) (iidx cidx : Nat) : Nodes charset bits Value :=
  setNext (getNextIdx nodes).2 iidx cidx (getNextIdx nodes).1

theorem length_addNext (nodes : Nodes charset bits Value) (iidx cidx : Nat) :
    (addNext nodes iidx cidx).length = nodes.length + 1 := by
  rw [addNext, length_setNext, getNextIdx, List.length_append]
  rfl

theorem object_addNext (nodes : Nodes charset bits Value) (iidx cidx other : Nat) :
    (nodeAt (addNext nodes iidx cidx) other).object = (nodeAt nodes other).object := by
  rw [addNext, object_setNext, getNextIdx, nodeAt_append_emptyNode]

variable {c : UInt8}

theorem nextOf_addNext (inside : iidx < nodes.length)
    (index : charset.getCharIndex c = some cidx) (other otherIdx : Nat) :
    nextOf (addNext nodes iidx cidx) other otherIdx =
      if iidx = other ∧ cidx = otherIdx then nodes.length % 2 ^ bits
      else nextOf nodes other otherIdx := by
  have inLiteral : cidx < charset.chars.length :=
    (List.getElem?_eq_some_iff.mp (Charset.getElem?_of_getCharIndex index)).1
  have insideAdded : iidx < (nodes ++ [emptyNode]).length := by
    rw [List.length_append]
    exact Nat.lt_add_right _ inside
  rw [addNext, getNextIdx, nextOf_setNext insideAdded (Nat.lt_succ_of_lt inLiteral),
    nextOf_append_emptyNode]

theorem childOf_eq_none_iff (index : charset.getCharIndex c = some cidx) :
    childOf nodes iidx c = none ↔ nextOf nodes iidx cidx = 0 := by
  simp [childOf, index, isNoIndex]

/-- A new node has no links. -/
theorem childOf_addNext_new (inside : iidx < nodes.length)
    (index : charset.getCharIndex c = some cidx) (otherChar : UInt8) :
    childOf (addNext nodes iidx cidx) nodes.length otherChar = none := by
  have unlinked (otherIdx : Nat) :
      nextOf (addNext nodes iidx cidx) nodes.length otherIdx =
        nextOf nodes nodes.length otherIdx := by
    rw [nextOf_addNext inside index, if_neg fun both => Nat.ne_of_lt inside both.1]
  rw [childOf_congr unlinked]
  exact childOf_of_length_le (Nat.le_refl _) otherChar

/-- A new node keeps the shape, if the index type has an index for it. -/
theorem linked_addNext {paths : List Key} {path : Key}
    (linked : Linked (childOf nodes) paths) (lengthEq : paths.length = nodes.length)
    (atNode : paths[iidx]? = some path) (index : charset.getCharIndex c = some cidx)
    (free : childOf nodes iidx c = none) (capacity : nodes.length < 2 ^ bits) :
    Linked (childOf (addNext nodes iidx cidx)) (paths ++ [path ++ [c]]) := by
  have inside : iidx < nodes.length := lengthEq ▸ (List.getElem?_eq_some_iff.mp atNode).1
  have notRoot : nodes.length ≠ 0 := Nat.ne_of_gt (Nat.lt_of_le_of_lt (Nat.zero_le _) inside)
  have nextEq := nextOf_addNext inside index
  apply linked.add atNode free
  case new =>
      rw [childOf, index, Option.bind_some]
      simp [nextEq, Nat.mod_eq_of_lt capacity, isNoIndex, notRoot, lengthEq]
  case same =>
      intro other otherChar before different
      rw [childOf, childOf]
      cases otherIndex : charset.getCharIndex otherChar with
      | none => rfl
      | some otherIdx =>
          have notHere : ¬(iidx = other ∧ cidx = otherIdx) := by
            rintro ⟨rfl, rfl⟩
            exact different ⟨rfl, Charset.getCharIndex_inj otherIndex index⟩
          rw [Option.bind_some, Option.bind_some, nextEq, if_neg notHere]
  case leaf =>
      intro otherChar
      rw [lengthEq]
      exact childOf_addNext_new inside index otherChar

theorem insertFrom_cons (index : charset.getCharIndex c = some cidx)
    (nodes : Nodes charset bits Value) (key : Key) (iidx offs : Nat) :
    insertFrom nodes (c :: key) iidx offs =
      insertFrom (addNext nodes iidx cidx) key nodes.length (offs + 1) := by
  rw [insertFrom, index]
  rfl

theorem object_insertFrom (nodes : Nodes charset bits Value) (key : Key) (iidx offs other : Nat) :
    (nodeAt (insertFrom nodes key iidx offs).1 other).object = (nodeAt nodes other).object := by
  induction key generalizing nodes iidx offs with
  | nil => rfl
  | cons c key ih =>
      cases index : charset.getCharIndex c with
      | none => rw [insertFrom, index]
      | some cidx => rw [insertFrom_cons index, ih, object_addNext]

/-- All valid characters are inserted, each with a node of its own. -/
theorem insertFrom_valid {key : Key} (valid : charset.isValidKey key = true)
    (nodes : Nodes charset bits Value) (iidx offs : Nat) :
    (insertFrom nodes key iidx offs).1.length = nodes.length + key.length ∧
      (insertFrom nodes key iidx offs).2.offs = offs + key.length ∧
      (insertFrom nodes key iidx offs).2.canInsert = true := by
  induction key generalizing nodes iidx offs with
  | nil => exact ⟨rfl, rfl, rfl⟩
  | cons c key ih =>
      obtain ⟨⟨cidx, index⟩, rest⟩ := Charset.exists_index_of_isValidKey_cons valid
      obtain ⟨lengthEq, offsEq, inserted⟩ := ih rest (addNext nodes iidx cidx) nodes.length
        (offs + 1)
      rw [insertFrom_cons index, lengthEq, offsEq, length_addNext, List.length_cons]
      exact ⟨by omega, by omega, inserted⟩

/-- The insertion below a node keeps the shape and adds only beginnings of the
key. -/
theorem linked_insertFrom {paths : List Key} {path key : Key} (offs : Nat)
    (linked : Linked (childOf nodes) paths) (lengthEq : paths.length = nodes.length)
    (atNode : paths[iidx]? = some path) (valid : charset.isValidKey key = true)
    (free : ∀ c ∈ key.head?, childOf nodes iidx c = none)
    (capacity : nodes.length + key.length ≤ 2 ^ bits) :
    ∃ more, Linked (childOf (insertFrom nodes key iidx offs).1) (paths ++ more) ∧
      (paths ++ more).length = (insertFrom nodes key iidx offs).1.length ∧
      (paths ++ more)[(insertFrom nodes key iidx offs).2.iidx]? = some (path ++ key) ∧
      ∀ added ∈ more, added <+: path ++ key := by
  induction key generalizing nodes paths iidx path offs with
  | nil =>
      refine ⟨[], ?_, ?_, ?_, by simp⟩
      · simpa [insertFrom] using linked
      · simpa [insertFrom] using lengthEq
      · simpa [insertFrom] using atNode
  | cons c key ih =>
      obtain ⟨⟨cidx, index⟩, rest⟩ := Charset.exists_index_of_isValidKey_cons valid
      have inside : iidx < nodes.length := lengthEq ▸ (List.getElem?_eq_some_iff.mp atNode).1
      rw [List.length_cons] at capacity
      have added := linked_addNext linked lengthEq atNode index (free c rfl) (by omega)
      have atNew : (paths ++ [path ++ [c]])[nodes.length]? = some (path ++ [c]) := by
        rw [← lengthEq]
        exact List.getElem?_concat_length
      have newLength : (paths ++ [path ++ [c]]).length = (addNext nodes iidx cidx).length := by
        rw [length_addNext, List.length_append, lengthEq]
        rfl
      obtain ⟨more, moreLinked, moreLength, last, prefixes⟩ := ih (offs + 1) added newLength atNew
        rest (fun otherChar _ => childOf_addNext_new inside index otherChar) (by
          rw [length_addNext]
          omega)
      have whole : path ++ [c] ++ key = path ++ c :: key := List.append_assoc _ _ _
      rw [List.append_assoc] at moreLinked moreLength last
      rw [whole] at last prefixes
      rw [insertFrom_cons index]
      refine ⟨(path ++ [c]) :: more, moreLinked, moreLength, last, ?_⟩
      rw [List.forall_mem_cons]
      exact ⟨⟨key, whole⟩, prefixes⟩

end Trie

end Eagine.Container
