import Mathlib.Data.Finmap
import Mathlib.Data.List.GetD

/-!
# Tries

String dictionaries in a growing list of nodes.  A node has an index of another
node for every character, and index 0, that of the root, stands for no node.
-/

/-!
## Characters of trie keys

The characters that keys can use are a sorted literal.  The index of a character
is found by bisection, and a map of the indices of all 7-bit characters is made
from it.
-/

namespace Eagine.Container

abbrev Key :=
  List UInt8

/-- The characters that the keys of a trie can use, without the terminating zero
of the literal.  There is an entry for each in the map of the indices. -/
structure Charset where
  chars : List UInt8
  sorted : chars.Pairwise (· ≤ ·)
  ascii : ∀ c ∈ chars, c < 128
  length_le : chars.length ≤ 255

/-- `char_index_t`. -/
abbrev CharIndex :=
  UInt8

def invalidCharIndex : CharIndex :=
  255

def pivot (n : Nat) : Nat :=
  if n = 0 then 0
  else if n = 1 then 0
  else n / 2

/-- Bisects the part of the given length at the offset.  The lengths get smaller
with every instantiation, and there are no more of them than the fuel. -/
def doFindCharIndex (chars : List UInt8) (c : UInt8) : Nat → Nat → Nat → Nat → CharIndex
  | 0, _, _, _ => invalidCharIndex
  | fuel + 1, ofs, piv, len =>
      if piv = len then invalidCharIndex
      else if piv = 0 ∧ len = 1 then
        if c = chars.getD ofs 0 then UInt8.ofNat ofs else invalidCharIndex
      else if c < chars.getD (ofs + piv) 0 then
        if 0 < piv then doFindCharIndex chars c fuel ofs (pivot piv) piv else invalidCharIndex
      else if chars.getD (ofs + piv) 0 < c then
        if piv + 1 < len then
          doFindCharIndex chars c fuel (ofs + piv + 1) (pivot (len - piv - 1)) (len - piv - 1)
        else invalidCharIndex
      else UInt8.ofNat (ofs + piv)

namespace Charset

def findCharIndex (charset : Charset) (c : UInt8) : CharIndex :=
  doFindCharIndex charset.chars c charset.chars.length 0 (pivot charset.chars.length)
    charset.chars.length

def isValidChar (charset : Charset) (c : UInt8) : Bool :=
  charset.findCharIndex c != invalidCharIndex

def isValidKey (charset : Charset) (key : Key) : Bool :=
  key.all charset.isValidChar

def charMap (charset : Charset) : List CharIndex :=
  (List.range 128).map fun i => charset.findCharIndex (UInt8.ofNat i)

def getCharIndex (charset : Charset) (c : UInt8) : Option Nat :=
  let idx := charset.charMap.getD c.toNat invalidCharIndex
  if idx != invalidCharIndex then some idx.toNat else none

end Charset

theorem pivot_lt {n : Nat} (positive : 0 < n) : pivot n < n := by
  unfold pivot
  split_ifs <;> omega

theorem pivot_le (n : Nat) : pivot n ≤ n := by
  unfold pivot
  split_ifs <;> omega

variable {chars : List UInt8} {c : UInt8}

theorem toNat_charIndex (lengthLe : chars.length ≤ 255) {i : Nat} (inside : i < chars.length) :
    (UInt8.ofNat i).toNat = i :=
  UInt8.toNat_ofNat_of_lt (Nat.lt_of_lt_of_le inside (lengthLe.trans (by decide)))

/-- What is found is the index of the character. -/
theorem getElem?_doFindCharIndex (lengthLe : chars.length ≤ 255) {fuel ofs piv len : Nat}
    (inside : ofs + len ≤ chars.length) (pivLe : piv ≤ len)
    (found : doFindCharIndex chars c fuel ofs piv len ≠ invalidCharIndex) :
    chars[(doFindCharIndex chars c fuel ofs piv len).toNat]? = some c := by
  induction fuel generalizing ofs piv len with
  | zero => exact absurd rfl found
  | succ fuel ih =>
      have here {i : Nat} (before : i < chars.length) (same : c = chars.getD i 0) :
          chars[(UInt8.ofNat i).toNat]? = some c := by
        rw [toNat_charIndex lengthLe before, same, List.getD_eq_getElem _ _ before]
        exact List.getElem?_eq_getElem before
      rw [doFindCharIndex] at found ⊢
      split_ifs at found ⊢ with whole single same less first more rest
      · exact absurd rfl found
      · exact here (by omega) same
      · exact absurd rfl found
      · exact ih (by omega) (pivot_le piv) found
      · exact absurd rfl found
      · exact ih (by omega) (pivot_le _) found
      · exact absurd rfl found
      · exact here (by omega) (UInt8.le_antisymm (UInt8.not_lt.mp more) (UInt8.not_lt.mp less))

theorem charIndex_ne_invalid (lengthLe : chars.length ≤ 255) {i : Nat} (inside : i < chars.length) :
    UInt8.ofNat i ≠ invalidCharIndex := by
  intro invalid
  have index := toNat_charIndex lengthLe inside
  rw [invalid] at index
  have last : i = 255 := index.symm
  omega

theorem getD_le_getD (sorted : chars.Pairwise (· ≤ ·)) {i j : Nat} (upTo : i ≤ j)
    (inside : j < chars.length) : chars.getD i 0 ≤ chars.getD j 0 := by
  rw [List.getD_eq_getElem _ _ (upTo.trans_lt inside), List.getD_eq_getElem _ _ inside]
  rcases upTo.eq_or_lt with rfl | before
  · exact UInt8.le_refl _
  · exact List.pairwise_iff_getElem.mp sorted i j _ inside before

/-- Every character in the part is found. -/
theorem doFindCharIndex_ne_invalid (sorted : chars.Pairwise (· ≤ ·)) (lengthLe : chars.length ≤ 255)
    {i : Nat} (atIndex : chars.getD i 0 = c) {fuel ofs len : Nat} (first : ofs ≤ i)
    (last : i < ofs + len) (inside : ofs + len ≤ chars.length) (enough : len ≤ fuel) :
    doFindCharIndex chars c fuel ofs (pivot len) len ≠ invalidCharIndex := by
  induction fuel generalizing ofs len with
  | zero => omega
  | succ fuel ih =>
      have middle : pivot len < len := pivot_lt (by omega)
      rw [doFindCharIndex]
      split_ifs with whole single same less begins more rest
      · exact absurd whole middle.ne
      · exact charIndex_ne_invalid lengthLe (by omega)
      · obtain rfl : i = ofs := by omega
        exact absurd atIndex.symm same
      · have before : i < ofs + pivot len := by
          by_contra after
          have upTo := getD_le_getD sorted (Nat.le_of_not_lt after) (by omega)
          exact absurd (atIndex ▸ upTo) (UInt8.not_le.mpr less)
        exact ih first before (by omega) (by omega)
      · have upTo := getD_le_getD sorted (show ofs + pivot len ≤ i by omega) (by omega)
        exact absurd (atIndex ▸ upTo) (UInt8.not_le.mpr less)
      · have after : ofs + pivot len < i := by
          by_contra before
          have upTo := getD_le_getD sorted (Nat.le_of_not_lt before) (by omega)
          exact absurd (atIndex ▸ upTo) (UInt8.not_le.mpr more)
        exact ih (by omega) (by omega) (by omega) (by omega)
      · have upTo := getD_le_getD sorted (show i ≤ ofs + pivot len by omega) (by omega)
        exact absurd (atIndex ▸ upTo) (UInt8.not_le.mpr more)
      · exact charIndex_ne_invalid lengthLe (by omega)

namespace Charset

/-- The valid characters are those of the literal. -/
theorem isValidChar_iff (charset : Charset) (c : UInt8) :
    charset.isValidChar c = true ↔ c ∈ charset.chars := by
  rw [isValidChar, bne_iff_ne]
  constructor
  · intro found
    exact List.mem_of_getElem? (getElem?_doFindCharIndex charset.length_le (Nat.zero_add _).le
      (pivot_le _) found)
  · intro member
    obtain ⟨i, inside, atIndex⟩ := List.mem_iff_getElem.mp member
    exact doFindCharIndex_ne_invalid charset.sorted charset.length_le
      ((List.getD_eq_getElem _ _ inside).trans atIndex) (Nat.zero_le i) (by omega)
      (Nat.zero_add _).le le_rfl

theorem getCharIndex_eq (charset : Charset) (ascii : c < 128) :
    charset.getCharIndex c =
      if charset.isValidChar c then some (charset.findCharIndex c).toNat else none := by
  have entry : charset.charMap.getD c.toNat invalidCharIndex = charset.findCharIndex c := by
    have inside : c.toNat < 128 := ascii
    rw [charMap, List.getD_eq_getElem _ _ (by simpa using inside)]
    simp
  rw [getCharIndex, entry]
  rfl

variable {charset : Charset}

/-- The map gives the position of the character in the literal. -/
theorem getElem?_of_getCharIndex {index : Nat} (found : charset.getCharIndex c = some index) :
    charset.chars[index]? = some c := by
  by_cases ascii : c < 128
  · rw [charset.getCharIndex_eq ascii, Option.ite_none_right_eq_some, Option.some_inj] at found
    obtain ⟨valid, rfl⟩ := found
    exact getElem?_doFindCharIndex charset.length_le (Nat.zero_add _).le (pivot_le _)
      (bne_iff_ne.mp valid)
  · have outside : charset.charMap.length ≤ c.toNat := by
      rw [charMap, List.length_map, List.length_range]
      exact Nat.le_of_not_lt ascii
    rw [getCharIndex, List.getD_eq_default _ _ outside] at found
    exact absurd found (Option.some_ne_none _).symm

theorem getCharIndex_inj {c' : UInt8} {index : Nat} (found : charset.getCharIndex c = some index)
    (found' : charset.getCharIndex c' = some index) : c = c' :=
  Option.some.inj
    ((getElem?_of_getCharIndex found).symm.trans (getElem?_of_getCharIndex found'))

theorem isValidKey_append_iff (charset : Charset) (front back : Key) :
    charset.isValidKey (front ++ back) = true ↔
      charset.isValidKey front = true ∧ charset.isValidKey back = true := by
  rw [isValidKey, List.all_append, Bool.and_eq_true]
  rfl

/-- Valid characters have an index. -/
theorem exists_getCharIndex (valid : charset.isValidChar c = true) :
    ∃ index, charset.getCharIndex c = some index := by
  have ascii : c < 128 := charset.ascii c ((charset.isValidChar_iff c).mp valid)
  exact ⟨_, (charset.getCharIndex_eq ascii).trans (if_pos valid)⟩

theorem isValidChar_of_getCharIndex {cidx : Nat} (index : charset.getCharIndex c = some cidx) :
    charset.isValidChar c = true :=
  (charset.isValidChar_iff c).mpr (List.mem_of_getElem? (getElem?_of_getCharIndex index))

theorem exists_index_of_isValidKey_cons {key : Key} (valid : charset.isValidKey (c :: key) = true) :
    (∃ cidx, charset.getCharIndex c = some cidx) ∧ charset.isValidKey key = true := by
  rw [isValidKey, List.all_cons, Bool.and_eq_true] at valid
  exact ⟨exists_getCharIndex valid.1, valid.2⟩

end Charset

/-- `basic_trie_node_type`, with the width of the index type. -/
structure Node (Value : Type) (bits n : Nat) where
  next : Vector (BitVec bits) n := Vector.replicate n 0
  object : Option Value := none

/-- A node without any links and without a value. -/
def emptyNode {Value : Type} {bits n : Nat} : Node Value bits n := {}

/-- `basic_trie_impl`.  The number of the indices in a node is the size of the
literal with its terminating zero. -/
structure Trie (charset : Charset) (bits : Nat) (Value : Type) where
  nodes : List (Node Value bits (charset.chars.length + 1)) := [emptyNode]

/-- A position in a trie: the node that is reached, the number of the characters
of the key that lead to it, and if the others could be inserted below it. -/
structure InsertPos where
  iidx : Nat
  offs : Nat
  canInsert : Bool
deriving DecidableEq

def wholeKeyDone (key : Key) (offs : Nat) : Bool :=
  offs == key.length

def isNoIndex (idx : Nat) : Bool :=
  idx == 0

namespace Trie

variable {charset : Charset} {bits : Nat} {Value : Type}

abbrev Nodes (charset : Charset) (bits : Nat) (Value : Type) :=
  List (Node Value bits (charset.chars.length + 1))

def nodeAt (nodes : Nodes charset bits Value) (iidx : Nat) :
    Node Value bits (charset.chars.length + 1) :=
  nodes.getD iidx emptyNode

/-- The index at a character index in a node, as a size. -/
def nextOf (nodes : Nodes charset bits Value) (iidx cidx : Nat) : Nat :=
  ((nodeAt nodes iidx).next[cidx]?.getD 0).toNat

/-- The loop of `_find_insert_pos` over the remaining characters of the key. -/
def findInsertPosFrom (nodes : Nodes charset bits Value) : Key → Nat → Nat → InsertPos
  | [], iidx, offs => { iidx, offs, canInsert := true }
  | c :: key, iidx, offs =>
      match charset.getCharIndex c with
      | some cidx =>
          let next := nextOf nodes iidx cidx
          if isNoIndex next then { iidx, offs, canInsert := true }
          else findInsertPosFrom nodes key next (offs + 1)
      | none => { iidx, offs, canInsert := false }

def findInsertPos (trie : Trie charset bits Value) (key : Key) : InsertPos :=
  findInsertPosFrom trie.nodes key 0 0

/-- The index of an appended node, and the nodes with it. -/
def getNextIdx (nodes : Nodes charset bits Value) : Nat × Nodes charset bits Value :=
  (nodes.length, nodes ++ [emptyNode])

/-- Links a node; the cast to the index type keeps the lower bits. -/
def setNext (nodes : Nodes charset bits Value) (iidx cidx next : Nat) :
    Nodes charset bits Value :=
  nodes.modify iidx fun node =>
    { node with next := node.next.setIfInBounds cidx (BitVec.ofNat bits next) }

/-- The loop of `insert` over the remaining characters of the key. -/
def insertFrom (nodes : Nodes charset bits Value) :
    Key → Nat → Nat → Nodes charset bits Value × InsertPos
  | [], iidx, offs => (nodes, { iidx, offs, canInsert := true })
  | c :: key, iidx, offs =>
      match charset.getCharIndex c with
      | some cidx =>
          let added := getNextIdx nodes
          insertFrom (setNext added.2 iidx cidx added.1) key added.1 (offs + 1)
      | none => (nodes, { iidx, offs, canInsert := false })

def setObject (nodes : Nodes charset bits Value) (iidx : Nat) (object : Option Value) :
    Nodes charset bits Value :=
  nodes.modify iidx fun node => { node with object }

def insert (trie : Trie charset bits Value) (key : Key) (value : Value) :
    Bool × Trie charset bits Value :=
  let pos := trie.findInsertPos key
  if pos.canInsert then
    let inserted := insertFrom trie.nodes (key.drop pos.offs) pos.iidx pos.offs
    let nodes :=
      if wholeKeyDone key inserted.2.offs then
        setObject inserted.1 inserted.2.iidx (some value)
      else inserted.1
    (inserted.2.canInsert, { nodes })
  else (false, trie)

def add (trie : Trie charset bits Value) (key : Key) (value : Value) :
    Trie charset bits Value :=
  (trie.insert key value).2

def contains (trie : Trie charset bits Value) (key : Key) : Bool :=
  let pos := trie.findInsertPos key
  if pos.canInsert && wholeKeyDone key pos.offs then
    (nodeAt trie.nodes pos.iidx).object.isSome
  else false

def find (trie : Trie charset bits Value) (key : Key) : Option Value :=
  let pos := trie.findInsertPos key
  if pos.canInsert && wholeKeyDone key pos.offs then
    (nodeAt trie.nodes pos.iidx).object
  else none

def remove (trie : Trie charset bits Value) (key : Key) :
    Bool × Trie charset bits Value :=
  let pos := trie.findInsertPos key
  if pos.canInsert && wholeKeyDone key pos.offs then
    if (nodeAt trie.nodes pos.iidx).object.isSome then
      (true, { nodes := setObject trie.nodes pos.iidx none })
    else (false, trie)
  else (false, trie)

def nodeCount (trie : Trie charset bits Value) : Nat :=
  trie.nodes.length

end Trie

/-- A call that changes a trie. -/
inductive Update (Value : Type) where
  | insert (key : Key) (value : Value)
  | add (key : Key) (value : Value)
  | remove (key : Key)
deriving DecidableEq

namespace Update

variable {charset : Charset} {bits : Nat} {Value : Type}

def key : Update Value → Key
  | insert key _ => key
  | add key _ => key
  | remove key => key

def performOn (trie : Trie charset bits Value) : Update Value → Trie charset bits Value
  | insert key value => (trie.insert key value).2
  | add key value => trie.add key value
  | remove key => (trie.remove key).2

/-- The same update of a finite map. -/
def performOnMap (map : Finmap fun _ : Key => Value) : Update Value → Finmap fun _ : Key => Value
  | insert key value => map.insert key value
  | add key value => map.insert key value
  | remove key => map.erase key

end Update

variable {Value : Type}

/-- The trie after the updates of an empty one. -/
def trieAfter (charset : Charset) (bits : Nat) (updates : List (Update Value)) :
    Trie charset bits Value :=
  updates.foldl Update.performOn {}

def mapAfter (updates : List (Update Value)) : Finmap fun _ : Key => Value :=
  updates.foldl Update.performOnMap ∅

end Eagine.Container
