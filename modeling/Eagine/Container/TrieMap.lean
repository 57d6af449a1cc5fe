import Eagine.Container.TrieShape

/-!
# Tries as finite maps

A trie that is changed by insertions and removals of valid keys answers like the
finite map with the same changes, as long as its index type has an index for
every node.
-/

namespace Eagine.Container

open Theory

namespace Trie

variable {charset : Charset} {bits : Nat} {Value : Type}

/-- Only valid characters are followed. -/
theorem exists_followed (nodes : Nodes charset bits Value) (key : Key) (iidx : Nat) :
    ∃ followed, key = followed ++ (follow (childOf nodes) iidx key).2 ∧
      charset.isValidKey followed = true := by
  induction key generalizing iidx with
  | nil => exact ⟨[], rfl, rfl⟩
  | cons c key ih =>
      rw [follow]
      cases link : childOf nodes iidx c with
      | none => exact ⟨[], rfl, rfl⟩
      | some next =>
          rcases Option.bind_eq_some_iff.mp link with ⟨cidx, index, -⟩
          rcases ih next with ⟨followed, keyEq, valid⟩
          refine ⟨c :: followed, congrArg (c :: ·) keyEq, ?_⟩
          rw [Charset.isValidKey, List.all_cons, Charset.isValidChar_of_getCharIndex index]
          exact valid

/-- The node where the search for a key ends, and what is left of the key there. -/
theorem findInsertPos_eq (trie : Trie charset bits Value) (key : Key) :
    ∃ followed rest node, follow (childOf trie.nodes) 0 key = (node, rest) ∧
      key = followed ++ rest ∧ charset.isValidKey followed = true ∧
      trie.findInsertPos key =
        { iidx := node
          offs := followed.length
          canInsert := rest.head?.all fun c => (charset.getCharIndex c).isSome } := by
  rcases findInsertPosFrom_eq trie.nodes key 0 0 with ⟨followed, keyEq, posEq⟩
  rcases exists_followed trie.nodes key 0 with ⟨followed', keyEq', valid⟩
  obtain rfl : followed = followed' := List.append_cancel_right (keyEq.symm.trans keyEq')
  rw [Nat.zero_add] at posEq
  exact ⟨followed, _, _, rfl, keyEq, valid, posEq⟩

/-- The node of a whole key. -/
def nodeOf (trie : Trie charset bits Value) (key : Key) : Option Nat :=
  if (follow (childOf trie.nodes) 0 key).2 = [] then
    some (follow (childOf trie.nodes) 0 key).1
  else none

/-- A search ends at the node of the whole key, if there is one. -/
theorem found_eq (trie : Trie charset bits Value) (key : Key) :
    ((trie.findInsertPos key).canInsert && wholeKeyDone key (trie.findInsertPos key).offs) =
        (trie.nodeOf key).isSome ∧
      ∀ iidx ∈ trie.nodeOf key, (trie.findInsertPos key).iidx = iidx := by
  rcases trie.findInsertPos_eq key with ⟨followed, rest, node, stop, rfl, -, posEq⟩
  rw [posEq, nodeOf, stop]
  cases rest with
  | nil => simp [wholeKeyDone]
  | cons c key' => simp [wholeKeyDone]

theorem find_eq (trie : Trie charset bits Value) (key : Key) :
    trie.find key = (trie.nodeOf key).bind fun iidx => (nodeAt trie.nodes iidx).object := by
  obtain ⟨foundEq, iidxEq⟩ := trie.found_eq key
  rw [find]
  simp only [foundEq]
  cases node : trie.nodeOf key with
  | none => rfl
  | some iidx => simp [iidxEq iidx node]

theorem contains_eq (trie : Trie charset bits Value) (key : Key) :
    trie.contains key = (trie.find key).isSome := by
  rw [contains, find]
  split
  · rfl
  · rfl

theorem remove_eq (trie : Trie charset bits Value) (key : Key) :
    trie.remove key =
      match trie.nodeOf key with
      | some iidx =>
          if (nodeAt trie.nodes iidx).object.isSome then
            (true, { nodes := setObject trie.nodes iidx none })
          else (false, trie)
      | none => (false, trie) := by
  obtain ⟨foundEq, iidxEq⟩ := trie.found_eq key
  rw [remove]
  simp only [foundEq]
  cases node : trie.nodeOf key with
  | none => rfl
  | some iidx => simp [iidxEq iidx node]

variable {key : Key}

/-- The insertion of a valid key adds nodes for the characters without any and
sets the value of the last one. -/
theorem insert_eq (trie : Trie charset bits Value) (valid : charset.isValidKey key = true)
    (value : Value) :
    ∃ followed rest node offs, key = followed ++ rest ∧ charset.isValidKey rest = true ∧
      follow (childOf trie.nodes) 0 key = (node, rest) ∧
      trie.insert key value =
        (true, ⟨setObject (insertFrom trie.nodes rest node offs).1
          (insertFrom trie.nodes rest node offs).2.iidx (some value)⟩) := by
  rcases trie.findInsertPos_eq key with ⟨followed, rest, node, stop, keyEq, -, posEq⟩
  have restValid : charset.isValidKey rest = true :=
    ((charset.isValidKey_append_iff followed rest).mp (keyEq ▸ valid)).2
  have canInsert : (rest.head?.all fun c => (charset.getCharIndex c).isSome) = true := by
    cases rest with
    | nil => rfl
    | cons c key' =>
        obtain ⟨⟨cidx, index⟩, -⟩ := Charset.exists_index_of_isValidKey_cons restValid
        simp [index]
  have dropped : key.drop followed.length = rest := by
    rw [keyEq]
    exact List.drop_left' rfl
  obtain ⟨-, offsEq, inserted⟩ := insertFrom_valid restValid trie.nodes node followed.length
  have done : wholeKeyDone key (insertFrom trie.nodes rest node followed.length).2.offs = true := by
    rw [wholeKeyDone, offsEq, keyEq, List.length_append]
    exact beq_self_eq_true _
  refine ⟨followed, rest, node, followed.length, keyEq, restValid, stop, ?_⟩
  rw [insert, posEq]
  simp only [canInsert, if_true, dropped, done, inserted]

/-- The nodes have the given paths, and their values are those of the map. -/
structure Represents (trie : Trie charset bits Value) (paths : List Key)
    (map : Finmap fun _ : Key => Value) : Prop where
  linked : Linked (childOf trie.nodes) paths
  lengthEq : paths.length = trie.nodes.length
  object {iidx : Nat} {path : Key} : paths[iidx]? = some path →
    (nodeAt trie.nodes iidx).object = map.lookup path
  absent {path : Key} : path ∉ paths → map.lookup path = none

/-- What the trie answers about a key is what the map holds. -/
structure Agrees (trie : Trie charset bits Value) (map : Finmap fun _ : Key => Value)
    (key : Key) : Prop where
  contains : trie.contains key = true ↔ key ∈ map
  find : trie.find key = map.lookup key
  remove : (trie.remove key).1 = true ↔ key ∈ map

namespace Represents

variable {trie : Trie charset bits Value} {paths : List Key} {map : Finmap fun _ : Key => Value}

theorem nodeOf_eq_some_iff (represents : Represents trie paths map) {iidx : Nat} :
    trie.nodeOf key = some iidx ↔ paths[iidx]? = some key := by
  rw [← represents.linked.follow_eq_iff, nodeOf, Option.ite_none_right_eq_some, Option.some_inj,
    Prod.ext_iff, and_comm]

theorem find_eq (represents : Represents trie paths map) (key : Key) :
    trie.find key = map.lookup key := by
  rw [Trie.find_eq]
  cases node : trie.nodeOf key with
  | some iidx => exact represents.object (represents.nodeOf_eq_some_iff.mp node)
  | none =>
      have notPath : key ∉ paths := by
        intro member
        obtain ⟨iidx, atNode⟩ := List.mem_iff_getElem?.mp member
        rw [represents.nodeOf_eq_some_iff.mpr atNode] at node
        exact absurd node (Option.some_ne_none _)
      exact (represents.absent notPath).symm

theorem contains_eq (represents : Represents trie paths map) (key : Key) :
    trie.contains key = (map.lookup key).isSome := by
  rw [Trie.contains_eq, represents.find_eq]

theorem remove_fst_eq (represents : Represents trie paths map) (key : Key) :
    (trie.remove key).1 = (map.lookup key).isSome := by
  rw [remove_eq, ← represents.find_eq, Trie.find_eq]
  cases trie.nodeOf key with
  | none => rfl
  | some iidx =>
      rw [Option.bind_some]
      cases present : (nodeAt trie.nodes iidx).object.isSome with
      | true => simp [present]
      | false => simp [present]

theorem agrees (represents : Represents trie paths map) (key : Key) : Agrees trie map key := by
  constructor
  case contains => rw [represents.contains_eq, Finmap.lookup_isSome]
  case find => exact represents.find_eq key
  case remove => rw [represents.remove_fst_eq, Finmap.lookup_isSome]

theorem node_eq_iff {iidx : Nat} (represents : Represents trie paths map)
    (atNode : paths[iidx]? = some key) {other : Nat} {path : Key}
    (atOther : paths[other]? = some path) : iidx = other ↔ key = path := by
  constructor
  · rintro rfl
    exact Option.some.inj (atNode.symm.trans atOther)
  · rintro rfl
    have inside : iidx < paths.length := (List.getElem?_eq_some_iff.mp atNode).1
    exact (List.getElem?_inj inside represents.linked.nodup).mp (atNode.trans atOther.symm)

/-- A new value of a node is that of its path. -/
theorem setObject (represents : Represents trie paths map) {iidx : Nat}
    (atNode : paths[iidx]? = some key) (object : Option Value) {map' : Finmap fun _ : Key => Value}
    (here : map'.lookup key = object)
    (elsewhere : ∀ path, key ≠ path → map'.lookup path = map.lookup path) :
    Represents ⟨Trie.setObject trie.nodes iidx object⟩ paths map' := by
  have inside : iidx < trie.nodes.length :=
    represents.lengthEq ▸ (List.getElem?_eq_some_iff.mp atNode).1
  constructor
  case linked =>
      have sameLinks : childOf (Trie.setObject trie.nodes iidx object) = childOf trie.nodes := by
        funext other c
        exact childOf_congr (nextOf_setObject trie.nodes iidx object other) c
      rw [sameLinks]
      exact represents.linked
  case lengthEq =>
      rw [length_setObject]
      exact represents.lengthEq
  case object =>
      intro other path atOther
      have samePath := represents.node_eq_iff atNode atOther
      rw [object_setObject inside]
      split
      case isTrue same => rw [← samePath.mp same, here]
      case isFalse different =>
          rw [elsewhere path (mt samePath.mpr different)]
          exact represents.object atOther
  case absent =>
      intro path notPath
      have different : key ≠ path := by
        rintro rfl
        exact notPath (List.mem_of_getElem? atNode)
      rw [elsewhere path different]
      exact represents.absent notPath

theorem erase_eq_self (absent : map.lookup key = none) : map.erase key = map := by
  apply Finmap.ext_lookup
  intro other
  by_cases same : other = key
  · rw [same, Finmap.lookup_erase, absent]
  · exact Finmap.lookup_erase_ne same

/-- A removal keeps the paths and removes the key. -/
theorem remove (represents : Represents trie paths map) (key : Key) :
    Represents (trie.remove key).2 paths (map.erase key) := by
  have lookupEq := represents.find_eq key
  rw [Trie.find_eq] at lookupEq
  rw [remove_eq]
  cases node : trie.nodeOf key with
  | none =>
      rw [node] at lookupEq
      rw [erase_eq_self lookupEq.symm]
      exact represents
  | some iidx =>
      rw [node, Option.bind_some] at lookupEq
      have atNode := represents.nodeOf_eq_some_iff.mp node
      cases present : (nodeAt trie.nodes iidx).object.isSome with
      | false =>
          rw [lookupEq, Option.isSome_eq_false_iff, Option.isNone_iff_eq_none] at present
          rw [erase_eq_self present]
          simpa [lookupEq, present] using represents
      | true =>
          simp only [if_true, present]
          exact represents.setObject atNode none (Finmap.lookup_erase key map)
            fun path different => Finmap.lookup_erase_ne (Ne.symm different)

/-- A search stops at the node of the characters before, and there is no link for
the next one. -/
theorem stopped (represents : Represents trie paths map) {followed rest : Key} {node : Nat}
    (keyEq : key = followed ++ rest) (stop : follow (childOf trie.nodes) 0 key = (node, rest)) :
    paths[node]? = some followed ∧ ∀ c ∈ rest.head?, childOf trie.nodes node c = none := by
  constructor
  · obtain ⟨path, keyEq', last⟩ := represents.linked.follow_path represents.linked.root key
    rw [stop] at keyEq' last
    rw [keyEq] at keyEq'
    rw [List.append_cancel_right keyEq']
    exact last
  · intro c first
    obtain ⟨rest', restEq⟩ := List.head?_eq_some_iff.mp first
    have noChild := child_follow (show (follow (childOf trie.nodes) 0 key).2 = c :: rest' by
      rw [stop, restEq])
    rw [stop] at noChild
    exact noChild

/-- New nodes have no values. -/
theorem insertFrom (represents : Represents trie paths map) {node offs : Nat} {more : List Key}
    (linked : Linked (childOf (Trie.insertFrom trie.nodes key node offs).1)
      (paths ++ more))
    (lengthEq : (paths ++ more).length = (Trie.insertFrom trie.nodes key node offs).1.length) :
    Represents ⟨(Trie.insertFrom trie.nodes key node offs).1⟩ (paths ++ more) map := by
  constructor
  case linked => exact linked
  case lengthEq => exact lengthEq
  case object =>
      intro iidx path atNode
      rw [object_insertFrom]
      rcases Nat.lt_or_ge iidx paths.length with old | new
      · rw [List.getElem?_append_left old] at atNode
        exact represents.object atNode
      · have added : path ∈ more := by
          rw [List.getElem?_append_right new] at atNode
          exact List.mem_of_getElem? atNode
        have notPath : path ∉ paths := fun member =>
          List.disjoint_of_nodup_append linked.nodup member added
        rw [nodeAt_of_length_le (represents.lengthEq ▸ new), represents.absent notPath]
        rfl
  case absent =>
      intro path notPath
      exact represents.absent fun member => notPath (List.mem_append_left more member)

/-- The insertion of a valid key adds its beginnings as paths, and its value. -/
theorem insert (represents : Represents trie paths map) (valid : charset.isValidKey key = true)
    (value : Value) (capacity : (trie.insert key value).2.nodeCount ≤ 2 ^ bits) :
    ∃ more, Represents (trie.insert key value).2 (paths ++ more) (map.insert key value) ∧
      ∀ path, path ∈ paths ++ more ↔ path ∈ paths ∨ path <+: key := by
  obtain ⟨followed, rest, node, offs, keyEq, restValid, stop, insertEq⟩ :=
    trie.insert_eq valid value
  obtain ⟨atNode, free⟩ := represents.stopped keyEq stop
  obtain ⟨lengthEq, -, -⟩ := insertFrom_valid restValid trie.nodes node offs
  rw [insertEq, nodeCount, length_setObject, lengthEq] at capacity
  obtain ⟨more, linked, moreLength, last, prefixes⟩ := linked_insertFrom offs represents.linked
    represents.lengthEq atNode restValid free capacity
  rw [← keyEq] at last prefixes
  have after := (represents.insertFrom linked moreLength).setObject last (some value)
    (Finmap.lookup_insert map)
    fun path different => Finmap.lookup_insert_of_ne map (Ne.symm different)
  rw [insertEq]
  refine ⟨more, after, fun path => ⟨?_, ?_⟩⟩
  · intro member
    exact (List.mem_append.mp member).imp_right (prefixes path)
  · rintro (old | ⟨others, rfl⟩)
    · exact List.mem_append_left more old
    · exact linked.mem_of_append (List.mem_of_getElem? last)

end Represents

end Trie

end Eagine.Container
