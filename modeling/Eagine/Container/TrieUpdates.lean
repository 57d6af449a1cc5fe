import Eagine.Container.TrieMap

/-!
# Updates of tries

After any sequence of updates with valid keys a trie has one node for every
beginning of an inserted key, and it answers like the finite map after the same
updates, provided that there are indices for all its nodes.
-/

/-!
## Tries without an index for every node

The index of a node is cut to the width of the index type.  The first node
without an index of its own gets index 0, and so its key is not found.
-/

open List

namespace Eagine.Container

open Theory

namespace Trie

variable {charset : Charset} {bits : Nat} {Value : Type}

variable {nodes : Nodes charset bits Value}

/-- An insertion above a limit makes no difference for the nodes below it. -/
theorem nextOf_insertFrom_of_le {limit : Nat} {key : Key} {iidx : Nat} (offs : Nat)
    (upTo : limit ≤ iidx) (inside : iidx < nodes.length) {other : Nat} (below : other < limit)
    (cidx : Nat) :
    nextOf (insertFrom nodes key iidx offs).1 other cidx = nextOf nodes other cidx := by
  induction key generalizing nodes iidx offs with
  | nil => rfl
  | cons c key ih =>
      cases index : charset.getCharIndex c with
      | none => rw [insertFrom, index]
      | some newIdx =>
          have notHere : ¬(iidx = other ∧ newIdx = cidx) := fun both => by
            have same := both.1
            omega
          rw [insertFrom_cons index, ih (offs + 1) (by omega) (by
            rw [length_addNext]
            exact Nat.lt_succ_self _), nextOf_addNext inside index, if_neg notHere]

/-- The first node without an index is not linked. -/
theorem nextOf_insertFrom_of_full {c : UInt8} {key : Key} {iidx cidx : Nat} (offs : Nat)
    (full : nodes.length = 2 ^ bits) (inside : iidx < nodes.length)
    (index : charset.getCharIndex c = some cidx) (free : childOf nodes iidx c = none) {other : Nat}
    (below : other < nodes.length) (otherIdx : Nat) :
    nextOf (insertFrom nodes (c :: key) iidx offs).1 other otherIdx =
      nextOf nodes other otherIdx := by
  rw [insertFrom_cons index, nextOf_insertFrom_of_le (offs + 1) (Nat.le_refl _) (by
      rw [length_addNext]
      exact Nat.lt_succ_self _) below, nextOf_addNext inside index]
  split
  case isTrue same =>
      obtain ⟨rfl, rfl⟩ := same
      rw [(childOf_eq_none_iff index).mp free, full, Nat.mod_self]
  case isFalse => rfl

theorem insertFrom_append {front : Key} (valid : charset.isValidKey front = true)
    (nodes : Nodes charset bits Value) (back : Key) (iidx offs : Nat) :
    insertFrom nodes (front ++ back) iidx offs =
      insertFrom (insertFrom nodes front iidx offs).1 back
        (insertFrom nodes front iidx offs).2.iidx (offs + front.length) := by
  induction front generalizing nodes iidx offs with
  | nil => rfl
  | cons c front ih =>
      obtain ⟨⟨cidx, index⟩, rest⟩ := Charset.exists_index_of_isValidKey_cons valid
      rw [cons_append, insertFrom_cons index, insertFrom_cons index, ih rest,
        length_cons, Nat.add_assoc, Nat.add_comm 1 front.length]

theorem exists_split_of_lt_length {α : Type} {list : List α} {count : Nat}
    (inside : count < list.length) :
    ∃ front a back, list = front ++ a :: back ∧ front.length = count := by
  refine ⟨list.take count, list[count], list.drop (count + 1), ?_, ?_⟩
  · rw [← drop_eq_getElem_cons inside, take_append_drop]
  · exact length_take_of_le (Nat.le_of_lt inside)

/-- A key is not found after its insertion, if the limit is reached on the way. -/
theorem contains_of_full {paths : List Key} {iidx cidx : Nat} {path : Key} {c : UInt8}
    (linked : Linked (childOf nodes) paths) (lengthEq : paths.length = nodes.length)
    (atNode : paths[iidx]? = some path) (full : nodes.length = 2 ^ bits)
    (index : charset.getCharIndex c = some cidx) (free : childOf nodes iidx c = none) (back : Key)
    (offs last : Nat) (object : Option Value) :
    contains ⟨setObject (insertFrom nodes (c :: back) iidx offs).1 last object⟩
      (path ++ c :: back) = false := by
  have inside : iidx < nodes.length := lengthEq ▸ (List.getElem?_eq_some_iff.mp atNode).1
  have notPath : path ++ c :: back ∉ paths := by
    intro member
    rw [append_cons] at member
    exact (linked.child_eq_none_iff atNode).mp free (linked.mem_of_append member)
  have sameLinks (other : Nat) (otherChar : UInt8) (below : other < paths.length) :
      childOf (setObject (insertFrom nodes (c :: back) iidx offs).1 last object) other otherChar =
        childOf nodes other otherChar := by
    apply childOf_congr
    intro otherIdx
    rw [nextOf_setObject]
    exact nextOf_insertFrom_of_full offs full inside index free (lengthEq ▸ below) otherIdx
  have stopped := linked.follow_ne_nil notPath
  rw [← linked.follow_congr sameLinks linked.root] at stopped
  rw [contains_eq, find_eq, nodeOf, if_neg stopped]
  rfl

variable {trie : Trie charset bits Value} {paths : List Key} {map : Finmap fun _ : Key => Value}

/-- A key that gets a node without an index is not found after its insertion. -/
theorem contains_insert_of_overflow (represents : Represents trie paths map) {key : Key}
    (valid : charset.isValidKey key = true) (value : Value) (fits : trie.nodeCount ≤ 2 ^ bits)
    (overflow : 2 ^ bits < (trie.insert key value).2.nodeCount) :
    (trie.insert key value).2.contains key = false := by
  obtain ⟨followed, rest, node, offs, keyEq, restValid, stop, insertEq⟩ :=
    trie.insert_eq valid value
  obtain ⟨atNode, free⟩ := represents.stopped keyEq stop
  obtain ⟨lengthEq, -, -⟩ := insertFrom_valid restValid trie.nodes node offs
  rw [insertEq, nodeCount, length_setObject, lengthEq] at overflow
  rw [nodeCount] at fits
  obtain ⟨front, c, back, restEq, frontLength⟩ :=
    exists_split_of_lt_length (show 2 ^ bits - trie.nodes.length < rest.length by omega)
  obtain ⟨frontValid, backValid⟩ :=
    (charset.isValidKey_append_iff front (c :: back)).mp (restEq ▸ restValid)
  obtain ⟨⟨cidx, index⟩, -⟩ := Charset.exists_index_of_isValidKey_cons backValid
  -- the characters in front of the limit keep the shape
  have frontFree : ∀ first ∈ front.head?, childOf trie.nodes node first = none := by
    intro first isFirst
    apply free
    rw [restEq, head?_append, isFirst]
    rfl
  obtain ⟨more, linked, moreLength, last, prefixes⟩ := linked_insertFrom offs represents.linked
    represents.lengthEq atNode frontValid frontFree (by omega)
  obtain ⟨frontNodes, -, -⟩ := insertFrom_valid frontValid trie.nodes node offs
  have notPath : followed ++ front ++ [c] ∉ paths ++ more := by
    intro member
    rcases mem_append.mp member with old | added
    · cases front with
      | nil =>
          rw [append_nil] at old
          have noChild := free c (by rw [restEq]; rfl)
          exact (represents.linked.child_eq_none_iff atNode).mp noChild old
      | cons first front =>
          have noChild := frontFree first rfl
          rw [append_assoc, cons_append, append_cons] at old
          exact (represents.linked.child_eq_none_iff atNode).mp noChild
            (represents.linked.mem_of_append old)
    · have shorter := (prefixes _ added).length_le
      rw [length_append, length_singleton] at shorter
      omega
  have whole := contains_of_full linked moreLength last (by omega) index
    ((linked.child_eq_none_iff last).mpr notPath) back (offs + front.length)
    (insertFrom trie.nodes rest node offs).2.iidx (some value)
  rw [insertEq]
  rw [restEq, insertFrom_append frontValid] at whole ⊢
  rw [append_assoc, ← restEq, ← keyEq] at whole
  exact whole

end Trie

end Eagine.Container

namespace Eagine.Container

open Theory
open Update (add insert remove)

variable {charset : Charset} {bits : Nat} {Value : Type}

/-- The key that an update inserts. -/
def Update.insertedKey : Update Value → Option Key
  | insert key _ => some key
  | add key _ => some key
  | remove _ => none

variable {update : Update Value}

namespace Trie

theorem nodeCount_remove (trie : Trie charset bits Value) (key : Key) :
    (trie.remove key).2.nodeCount = trie.nodeCount := by
  rw [remove_eq]
  cases trie.nodeOf key with
  | none => rfl
  | some iidx =>
      simp only [nodeCount]
      split
      · exact length_setObject trie.nodes iidx none
      · rfl

theorem nodeCount_le_insert (trie : Trie charset bits Value) {key : Key}
    (valid : charset.isValidKey key = true) (value : Value) :
    trie.nodeCount ≤ (trie.insert key value).2.nodeCount := by
  obtain ⟨followed, rest, node, offs, -, restValid, -, insertEq⟩ := trie.insert_eq valid value
  obtain ⟨lengthEq, -, -⟩ := insertFrom_valid restValid trie.nodes node offs
  rw [insertEq, nodeCount, nodeCount, length_setObject, lengthEq]
  exact Nat.le_add_right _ _

/-- No update takes nodes away. -/
theorem nodeCount_le_performOn (trie : Trie charset bits Value)
    (valid : charset.isValidKey update.key = true) :
    trie.nodeCount ≤ (update.performOn trie).nodeCount := by
  cases update with
  | insert key value => exact trie.nodeCount_le_insert valid value
  | add key value => exact trie.nodeCount_le_insert valid value
  | remove key => exact (trie.nodeCount_remove key).ge

/-- An update of the trie is the update of the map, and its new paths are the
beginnings of the inserted key. -/
theorem Represents.performOn {trie : Trie charset bits Value} {paths : List Key}
    {map : Finmap fun _ : Key => Value} (represents : Represents trie paths map)
    (valid : charset.isValidKey update.key = true)
    (capacity : (update.performOn trie).nodeCount ≤ 2 ^ bits) :
    ∃ more, Represents (update.performOn trie) (paths ++ more) (update.performOnMap map) ∧
      ∀ path, path ∈ paths ++ more ↔
        path ∈ paths ∨ ∃ key ∈ update.insertedKey, path <+: key := by
  cases update with
  | insert key value =>
      obtain ⟨more, after, members⟩ := represents.insert valid value capacity
      exact ⟨more, after, by simpa [Update.insertedKey, Update.key] using members⟩
  | add key value =>
      obtain ⟨more, after, members⟩ := represents.insert valid value capacity
      exact ⟨more, after, by simpa [Update.insertedKey, Update.key] using members⟩
  | remove key =>
      refine ⟨[], ?_, by simp [Update.insertedKey]⟩
      rw [append_nil]
      exact represents.remove key

theorem represents_empty :
    Represents ({} : Trie charset bits Value) [[]] ∅ := by
  have noChild (node : Nat) (c : UInt8) :
      childOf ([emptyNode] : Nodes charset bits Value) node c = none := by
    have unlinked (cidx : Nat) :
        nextOf ([emptyNode] : Nodes charset bits Value) node cidx =
          nextOf ([] : Nodes charset bits Value) node cidx :=
      nextOf_append_emptyNode [] node cidx
    rw [childOf_congr unlinked]
    exact childOf_of_length_le (Nat.zero_le node) c
  constructor
  case linked =>
      constructor
      case root => rfl
      case nodup => exact nodup_singleton []
      case parent => simp
      case child_eq_some_iff =>
          intro node path atNode c next
          rw [noChild]
          cases next with
          | zero => simp
          | succ next => simp
  case lengthEq => rfl
  case object =>
      intro node path atNode
      rw [Finmap.lookup_empty]
      exact congrArg Node.object (nodeAt_append_emptyNode [] node)
  case absent =>
      intro path _
      exact Finmap.lookup_empty path

end Trie

def insertedKeys (updates : List (Update Value)) : List Key :=
  updates.filterMap Update.insertedKey

variable {updates : List (Update Value)}

theorem mem_insertedKeys_concat {key : Key} :
    key ∈ insertedKeys (updates ++ [update]) ↔
      key ∈ insertedKeys updates ∨ key ∈ update.insertedKey := by
  rw [insertedKeys, filterMap_append, mem_append]
  simp [insertedKeys, mem_filterMap]

theorem trieAfter_concat (updates : List (Update Value)) (update : Update Value) :
    trieAfter charset bits (updates ++ [update]) =
      update.performOn (trieAfter charset bits updates) := by
  rw [trieAfter, foldl_append]
  rfl

theorem mapAfter_concat (updates : List (Update Value)) (update : Update Value) :
    mapAfter (updates ++ [update]) = update.performOnMap (mapAfter updates) := by
  rw [mapAfter, foldl_append]
  rfl

/-- The trie has the beginnings of the inserted keys as its paths and represents
the map after the same updates. -/
theorem represents_trieAfter (valid : ∀ update ∈ updates, charset.isValidKey update.key = true)
    (capacity : (trieAfter charset bits updates).nodeCount ≤ 2 ^ bits) :
    ∃ paths, (trieAfter charset bits updates).Represents paths (mapAfter updates) ∧
      ∀ path, path ∈ paths ↔ path = [] ∨ ∃ key ∈ insertedKeys updates, path <+: key := by
  induction updates using List.reverseRecOn with
  | nil => exact ⟨[[]], Trie.represents_empty, by simp [insertedKeys]⟩
  | append_singleton updates update ih =>
      rw [forall_mem_append, forall_mem_singleton] at valid
      rw [trieAfter_concat] at capacity
      have before := (trieAfter charset bits updates).nodeCount_le_performOn valid.2
      obtain ⟨paths, represents, members⟩ := ih valid.1 (before.trans capacity)
      obtain ⟨more, after, newMembers⟩ := represents.performOn valid.2 capacity
      rw [trieAfter_concat, mapAfter_concat]
      refine ⟨paths ++ more, after, fun path => ?_⟩
      rw [newMembers, members]
      simp only [mem_insertedKeys_concat, or_and_right, exists_or, or_assoc]

/-- As long as the index type has an index for every node, the trie answers about
keys of 7-bit characters like the finite map after the same updates. -/
theorem trieAfter_agrees {updates : List (Update Value)}
    (valid : ∀ update ∈ updates, charset.isValidKey update.key = true)
    (capacity : (trieAfter charset bits updates).nodeCount ≤ 2 ^ bits) (key : Key)
    (_ascii : ∀ c ∈ key, c < 128) :
    (trieAfter charset bits updates).Agrees (mapAfter updates) key := by
  obtain ⟨paths, represents, -⟩ := represents_trieAfter valid capacity
  exact represents.agrees key

/-- The characters of `basic_dec_identifier_trie`. -/
def decimalCharset : Charset where
  chars := [48, 49, 50, 51, 52, 53, 54, 55, 56, 57]
  sorted := by simp
  ascii := by simp
  length_le := by decide

/-- A key and a beginning of it are inserted, and the key is removed. -/
theorem trieAfter_agrees_pair :
    (trieAfter decimalCharset 32
        [insert [49, 50] 7, add [49] 8, remove [49, 50]]).Agrees
      (mapAfter [insert [49, 50] 7, add [49] 8, remove [49, 50]])
      [49, 50] :=
  trieAfter_agrees (by decide) (by decide) [49, 50] (by simp)

/-- Every beginning of an inserted key, the empty one included. -/
def keyPrefixes (updates : List (Update Value)) : Finset Key :=
  ([] :: (insertedKeys updates).flatMap List.inits).toFinset

/-- There is one node for every beginning of an inserted key. -/
theorem nodeCount_trieAfter {updates : List (Update Value)}
    (valid : ∀ update ∈ updates, charset.isValidKey update.key = true)
    (capacity : (trieAfter charset bits updates).nodeCount ≤ 2 ^ bits) :
    (trieAfter charset bits updates).nodeCount = (keyPrefixes updates).card := by
  obtain ⟨paths, represents, members⟩ := represents_trieAfter valid capacity
  rw [Trie.nodeCount, ← represents.lengthEq,
    ← toFinset_card_of_nodup represents.linked.nodup]
  congr 1
  ext path
  simp [members, keyPrefixes]

/-- The keys have the empty one and one of one character in common. -/
theorem nodeCount_trieAfter_pair :
    (trieAfter decimalCharset 32 [insert [49, 50] 7, insert [49, 51] 8]).nodeCount =
      (keyPrefixes [insert [49, 50] 7, insert [49, 51] 8]).card :=
  nodeCount_trieAfter (by decide) (by decide)

/-- A key that has more characters than there are indices is not found after its
insertion. -/
theorem not_agrees_of_long {key : Key} (valid : charset.isValidKey key = true) (value : Value)
    (long : 2 ^ bits ≤ key.length) :
    ¬(trieAfter charset bits [insert key value]).Agrees
      (mapAfter [insert key value]) key := by
  have fits : ({} : Trie charset bits Value).nodeCount ≤ 2 ^ bits := Nat.one_le_two_pow
  have overflow : 2 ^ bits < (({} : Trie charset bits Value).insert key value).2.nodeCount := by
    obtain ⟨followed, rest, node, offs, keyEq, restValid, stop, insertEq⟩ :=
      ({} : Trie charset bits Value).insert_eq valid value
    obtain ⟨atNode, -⟩ := Trie.represents_empty.stopped keyEq stop
    have atRoot : followed = [] := mem_singleton.mp (mem_of_getElem? atNode)
    rw [atRoot, nil_append] at keyEq
    obtain ⟨lengthEq, -, -⟩ :=
      Trie.insertFrom_valid restValid ({} : Trie charset bits Value).nodes node offs
    rw [insertEq, Trie.nodeCount, Trie.length_setObject, lengthEq, ← keyEq]
    exact Nat.lt_of_le_of_lt long (Nat.lt_add_of_pos_left Nat.one_pos)
  have notFound := Trie.contains_insert_of_overflow Trie.represents_empty valid value fits overflow
  intro agrees
  have member : key ∈ mapAfter [insert key value] := Finmap.mem_insert.mpr (Or.inl rfl)
  exact Bool.false_ne_true (notFound.symm.trans (agrees.contains.mpr member))

/-- With 32-bit indices the key of 2^32 zeros is such a key. -/
theorem not_agrees_zeros :
    ¬(trieAfter decimalCharset 32 [insert (List.replicate (2 ^ 32) 48) ()]).Agrees
      (mapAfter [insert (List.replicate (2 ^ 32) 48) ()]) (List.replicate (2 ^ 32) 48) := by
  have valid : decimalCharset.isValidKey (List.replicate (2 ^ 32) 48) = true := by
    rw [Charset.isValidKey, all_eq_true]
    intro c member
    rw [eq_of_mem_replicate member]
    decide
  exact not_agrees_of_long valid () (length_replicate.ge)

end Eagine.Container
