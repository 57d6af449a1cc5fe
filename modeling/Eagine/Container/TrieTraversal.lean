import Eagine.Container.TrieUpdates
import Eagine.Theory.WordTree

/-!
# Traversal of tries

The nodes are walked through with a stack of nodes, each with the index of the character
that comes next.  A node is visited again behind each of the nodes that it is linked to,
and its value is passed to the function in every visit.
-/

namespace Eagine.Container

open Theory

namespace Charset

/-- The character at an index of the literal, whose last one is the terminating zero. -/
def charAt (charset : Charset) (cidx : Nat) : UInt8 :=
  (charset.chars ++ [0]).getD cidx 0

end Charset

/-- The variables of `_do_traverse`, with the top of the stack first, and the calls of the
function so far.  The function may have been called with a character that was read through
a reference into the stack after the stack got another storage. -/
structure Traversal (Value : Type) where
  str : Key := []
  idx : List (Nat × Nat) := [(0, 0)]
  calls : List (Key × Value) := []
  storageMoved : Bool := false
deriving DecidableEq

/-- The capacity that `idx.reserve(16U)` provides, with what the container allocates
beyond that. -/
def reservedCapacity (spare : Nat) : Nat :=
  16 + spare

/-- `++idx.back()[0]` on a stack that is not empty. -/
def nextChar : List (Nat × Nat) → List (Nat × Nat)
  | [] => []
  | (cidx, nidx) :: below => (cidx + 1, nidx) :: below

namespace Trie

variable {charset : Charset} {bits : Nat} {Value : Type}

/-- The first index from the given one with a link, of as many as are left. -/
def skipNoIndex (nodes : Nodes charset bits Value) (nidx : Nat) : Nat → Nat → Nat
  | 0, cidx => cidx
  | left + 1, cidx =>
      if isNoIndex (nextOf nodes nidx cidx) then skipNoIndex nodes nidx left (cidx + 1)
      else cidx

/-- The calls of the function with the one for the value of a node, if it has one. -/
def callFunction (nodes : Nodes charset bits Value) (nidx : Nat) (str : Key)
    (calls : List (Key × Value)) : List (Key × Value) :=
  match (nodeAt nodes nidx).object with
  | some object => calls ++ [(str, object)]
  | none => calls

/-- The outer loop of `_do_traverse`.  No character is left to be taken away from the
string when the root is left, where the string is not used any more. -/
def traverseNext (nodes : Nodes charset bits Value) (spare : Nat) (t : Traversal Value) :
    Traversal Value :=
  match t.idx with
  | [] => t
  | (first, nidx) :: below =>
      let cidx := skipNoIndex nodes nidx (charset.chars.length + 1 - first) first
      let calls := callFunction nodes nidx t.str t.calls
      if cidx = charset.chars.length + 1 then
        { t with str := t.str.dropLast, idx := nextChar below, calls }
      else
        { str := t.str ++ [charset.charAt cidx]
          idx := (0, nextOf nodes nidx cidx) :: (cidx, nidx) :: below
          calls
          storageMoved := t.storageMoved || decide (reservedCapacity spare ≤ t.idx.length) }

/-- `traverse` after as many rounds of its loop. -/
def traverse (trie : Trie charset bits Value) (spare rounds : Nat) : Traversal Value :=
  (traverseNext trie.nodes spare)^[rounds] {}

/-- The traversal is over after some round with the calls, and no reference was read after
the storage it points to had moved. -/
def TraversesWith (trie : Trie charset bits Value) (spare : Nat) (calls : List (Key × Value)) :
    Prop :=
  ∃ rounds, trie.traverse spare rounds = { idx := [], calls }

end Trie

/-- The entries of a map in the lexicographic order of their keys, each of them once. -/
structure InOrder {Value : Type} (entries : List (Key × Value))
    (map : Finmap fun _ : Key => Value) : Prop where
  mem_iff (key : Key) (value : Value) : (key, value) ∈ entries ↔ map.lookup key = some value
  increasing : (entries.map Prod.fst).Pairwise (· < ·)

/-- The calls of a traversal are those for the entries of the map. -/
def Trie.TraversesInOrder {charset : Charset} {bits : Nat} {Value : Type}
    (trie : Trie charset bits Value) (spare : Nat) (map : Finmap fun _ : Key => Value) : Prop :=
  ∃ calls, trie.TraversesWith spare calls ∧ InOrder calls map

variable {cidx : Nat} {c : UInt8}

namespace Charset

variable {charset : Charset}

theorem charAt_of_getCharIndex
    (index : charset.getCharIndex c = some cidx) : charset.charAt cidx = c := by
  have atIndex := getElem?_of_getCharIndex index
  have inside : cidx < charset.chars.length := (List.getElem?_eq_some_iff.mp atIndex).1
  rw [charAt, List.getD_append _ _ _ _ inside, List.getD_eq_getElem?_getD, atIndex]
  rfl

/-- The character that has the index. -/
def indexedChar (charset : Charset) (cidx : Nat) : Option UInt8 :=
  if charset.getCharIndex (charset.charAt cidx) = some cidx then some (charset.charAt cidx)
  else none

/-- The characters with an index from the given one on, of as many as are left. -/
def indexedChars (charset : Charset) (cidx left : Nat) : List UInt8 :=
  (List.range' cidx left).filterMap charset.indexedChar

theorem indexedChar_eq_some_iff :
    charset.indexedChar cidx = some c ↔ charset.getCharIndex c = some cidx := by
  rw [indexedChar, Option.ite_none_right_eq_some, Option.some_inj]
  constructor
  · rintro ⟨index, rfl⟩
    exact index
  · intro index
    have atIndex := charAt_of_getCharIndex index
    rw [atIndex]
    exact ⟨index, rfl⟩

theorem indexedChars_succ (charset : Charset) (cidx left : Nat) :
    charset.indexedChars cidx (left + 1) =
      (charset.indexedChar cidx).toList ++ charset.indexedChars (cidx + 1) left := by
  rw [indexedChars, List.range'_succ, List.filterMap_cons]
  cases charset.indexedChar cidx with
  | none => rfl
  | some c => rfl

/-- All characters of the map are among those of the literal. -/
theorem mem_indexedChars (index : charset.getCharIndex c = some cidx) :
    c ∈ charset.indexedChars 0 (charset.chars.length + 1) := by
  have inside : cidx < charset.chars.length :=
    (List.getElem?_eq_some_iff.mp (getElem?_of_getCharIndex index)).1
  refine List.mem_filterMap.mpr ⟨cidx, ?_, indexedChar_eq_some_iff.mpr index⟩
  exact List.mem_range'_1.mpr ⟨Nat.zero_le cidx, by omega⟩

theorem lt_of_index_lt {c c' : UInt8} {cidx cidx' : Nat}
    (index : charset.getCharIndex c = some cidx) (index' : charset.getCharIndex c' = some cidx')
    (before : cidx < cidx') : c < c' := by
  have atIndex := getElem?_of_getCharIndex index
  have atIndex' := getElem?_of_getCharIndex index'
  rcases List.getElem?_eq_some_iff.mp atIndex with ⟨inside, rfl⟩
  rcases List.getElem?_eq_some_iff.mp atIndex' with ⟨inside', rfl⟩
  refine UInt8.lt_of_le_of_ne ?_ ?_
  · exact List.pairwise_iff_getElem.mp charset.sorted cidx cidx' inside inside' before
  · intro same
    rw [same, index'] at index
    exact Nat.ne_of_gt before (Option.some.inj index)

theorem pairwise_indexedChars (charset : Charset) (cidx left : Nat) :
    (charset.indexedChars cidx left).Pairwise (· < ·) := by
  rw [indexedChars, List.pairwise_filterMap]
  refine (List.pairwise_lt_range' 1).imp fun {first second} before => ?_
  intro c atFirst c' atSecond
  exact lt_of_index_lt (indexedChar_eq_some_iff.mp atFirst) (indexedChar_eq_some_iff.mp atSecond)
    before

end Charset

namespace Trie

variable {charset : Charset} {bits : Nat} {Value : Type}

/-- There are links only at the indices of characters. -/
def LinksIndexed (nodes : Nodes charset bits Value) : Prop :=
  ∀ iidx cidx, nextOf nodes iidx cidx ≠ 0 → ∃ c, charset.getCharIndex c = some cidx

theorem nextOf_setNext_of_ne (nodes : Nodes charset bits Value) {cidx otherIdx : Nat}
    (different : cidx ≠ otherIdx) (iidx next other : Nat) :
    nextOf (setNext nodes iidx cidx next) other otherIdx = nextOf nodes other otherIdx := by
  rw [nextOf, setNext, nodeAt_modify]
  split
  · rw [Vector.getElem?_setIfInBounds_ne different]
    rfl
  · rfl

variable {nodes : Nodes charset bits Value}

theorem LinksIndexed.addNext (indexed : LinksIndexed nodes)
    (index : charset.getCharIndex c = some cidx) (iidx : Nat) :
    LinksIndexed (addNext nodes iidx cidx) := by
  intro other otherIdx linked
  by_cases same : cidx = otherIdx
  · exact ⟨c, same ▸ index⟩
  · rw [Trie.addNext, nextOf_setNext_of_ne _ same, getNextIdx, nextOf_append_emptyNode] at linked
    exact indexed other otherIdx linked

theorem LinksIndexed.insertFrom (indexed : LinksIndexed nodes) (key : Key) (iidx offs : Nat) :
    LinksIndexed (insertFrom nodes key iidx offs).1 := by
  induction key generalizing nodes iidx offs with
  | nil => exact indexed
  | cons c key ih =>
      cases index : charset.getCharIndex c with
      | none =>
          rw [Trie.insertFrom, index]
          exact indexed
      | some cidx =>
          rw [insertFrom_cons index]
          exact ih (indexed.addNext index iidx) nodes.length (offs + 1)

theorem LinksIndexed.setObject (indexed : LinksIndexed nodes) (iidx : Nat) (object : Option Value) :
    LinksIndexed (setObject nodes iidx object) := by
  intro other otherIdx linked
  rw [nextOf_setObject] at linked
  exact indexed other otherIdx linked

variable {trie : Trie charset bits Value}

theorem LinksIndexed.insert (indexed : LinksIndexed trie.nodes)
    (key : Key) (value : Value) : LinksIndexed (trie.insert key value).2.nodes := by
  have added := indexed.insertFrom (key.drop (trie.findInsertPos key).offs)
    (trie.findInsertPos key).iidx (trie.findInsertPos key).offs
  rw [Trie.insert]
  split
  · dsimp only
    split
    · exact added.setObject _ _
    · exact added
  · exact indexed

theorem LinksIndexed.remove (indexed : LinksIndexed trie.nodes)
    (key : Key) : LinksIndexed (trie.remove key).2.nodes := by
  rw [Trie.remove]
  split
  · split
    · exact indexed.setObject _ _
    · exact indexed
  · exact indexed

theorem linksIndexed_trieAfter (updates : List (Update Value)) :
    LinksIndexed (trieAfter charset bits updates).nodes := by
  induction updates using List.reverseRecOn with
  | nil =>
      intro iidx cidx linked
      have unlinked : nextOf ([emptyNode] : Nodes charset bits Value) iidx cidx = 0 :=
        (nextOf_append_emptyNode [] iidx cidx).trans (nextOf_of_length_le (Nat.zero_le _) cidx)
      exact absurd unlinked linked
  | append_singleton updates update ih =>
      rw [trieAfter_concat]
      cases update with
      | insert key value => exact ih.insert key value
      | add key value => exact ih.insert key value
      | remove key => exact ih.remove key

end Trie

end Eagine.Container
