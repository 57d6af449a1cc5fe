import Eagine.Container.TrieTraversal

/-!
# Failed insertions

An insertion adds the nodes for a key one after another, and it stops at the first
character that the trie cannot use.  The nodes that have been added up to there are kept.
-/

namespace Eagine.Container

open Theory Charset

variable {key : Key}

namespace Charset

variable {charset : Charset}

/-- The part of a key in front of its first invalid character. -/
def validPart (charset : Charset) (key : Key) : Key :=
  key.takeWhile charset.isValidChar

/-- The part of a key from its first invalid character on. -/
def invalidPart (charset : Charset) (key : Key) : Key :=
  key.dropWhile charset.isValidChar

/-- Only characters below 128 have an entry in the array of the indices. -/
def hasEntry (c : UInt8) : Prop :=
  c < 128

theorem getCharIndex_of_invalid {c : UInt8} (invalid : charset.isValidChar c = false) :
    charset.getCharIndex c = none := by
  rw [Option.eq_none_iff_forall_ne_some]
  intro cidx index
  exact Bool.false_ne_true (invalid.symm.trans (isValidChar_of_getCharIndex index))

theorem hasEntry_of_valid {c : UInt8} (valid : charset.isValidChar c = true) : hasEntry c :=
  charset.ascii c ((charset.isValidChar_iff c).mp valid)

theorem isValidKey_validPart (charset : Charset) (key : Key) :
    charset.isValidKey (charset.validPart key) = true :=
  List.all_takeWhile

theorem validPart_append_invalidPart (charset : Charset) (key : Key) :
    charset.validPart key ++ charset.invalidPart key = key :=
  List.takeWhile_append_dropWhile

theorem invalidPart_append {front : Key} (valid : charset.isValidKey front = true) (back : Key) :
    charset.invalidPart (front ++ back) = charset.invalidPart back :=
  List.dropWhile_append_of_pos (List.all_eq_true.mp valid)

/-- A key that is not valid has a first invalid character. -/
theorem exists_invalidPart_eq (invalid : charset.isValidKey key = false) :
    ∃ c rest, charset.invalidPart key = c :: rest ∧ charset.isValidChar c = false := by
  cases part : charset.invalidPart key with
  | nil =>
      have whole := charset.validPart_append_invalidPart key
      rw [part, List.append_nil] at whole
      rw [← whole, charset.isValidKey_validPart key] at invalid
      exact absurd invalid.symm Bool.false_ne_true
  | cons c rest =>
      have first := List.head?_dropWhile_not charset.isValidChar key
      rw [invalidPart] at part
      rw [part] at first
      exact ⟨c, rest, rfl, first⟩

end Charset

namespace Trie

variable {charset : Charset} {bits : Nat} {Value : Type}

/-- The characters that `_find_insert_pos` looks up have entries. -/
def FindDefined (nodes : Nodes charset bits Value) : Key → Nat → Prop
  | [], _ => True
  | c :: key, iidx =>
      Charset.hasEntry c ∧
        match charset.getCharIndex c with
        | some cidx =>
            let next := nextOf nodes iidx cidx
            if isNoIndex next then True else FindDefined nodes key next
        | none => True

/-- The characters that the loop of `insert` looks up have entries. -/
def InsertFromDefined (charset : Charset) : Key → Prop
  | [] => True
  | c :: key =>
      Charset.hasEntry c ∧ ((charset.getCharIndex c).isSome → InsertFromDefined charset key)

/-- An insertion reads the array of the indices only inside. -/
def InsertDefined (trie : Trie charset bits Value) (key : Key) : Prop :=
  let pos := trie.findInsertPos key
  FindDefined trie.nodes key 0 ∧
    (pos.canInsert = true → InsertFromDefined charset (key.drop pos.offs))

/-- Two tries with the same answers, the same number of nodes and the same traversals. -/
structure Unchanged (trie trie' : Trie charset bits Value) : Prop where
  find (key : Key) : trie'.find key = trie.find key
  contains (key : Key) : trie'.contains key = trie.contains key
  nodeCount : trie'.nodeCount = trie.nodeCount
  traverse (spare rounds : Nat) : trie'.traverse spare rounds = trie.traverse spare rounds

/-- An insertion that fails leaves the trie unchanged. -/
def InsertIsAtomic (trie : Trie charset bits Value) (key : Key) (value : Value) : Prop :=
  trie.InsertDefined key ∧
    ((trie.insert key value).1 = false → Unchanged trie (trie.insert key value).2)

theorem Unchanged.refl (trie : Trie charset bits Value) : Unchanged trie trie where
  find _ := rfl
  contains _ := rfl
  nodeCount := rfl
  traverse _ _ := rfl

theorem findDefined_iff (nodes : Nodes charset bits Value) (key : Key) (iidx : Nat) :
    FindDefined nodes key iidx ↔
      ∀ c ∈ (follow (childOf nodes) iidx key).2.head?, Charset.hasEntry c := by
  induction key generalizing iidx with
  | nil => simp [FindDefined, follow]
  | cons c key ih =>
      rw [FindDefined, follow, childOf]
      cases index : charset.getCharIndex c with
      | none => simp
      | some cidx =>
          have entry : Charset.hasEntry c :=
            hasEntry_of_valid (isValidChar_of_getCharIndex index)
          cases noNext : isNoIndex (nextOf nodes iidx cidx) with
          | true => simp [noNext]
          | false => simpa [noNext, entry] using ih (nextOf nodes iidx cidx)

theorem insertFromDefined_iff (key : Key) :
    InsertFromDefined charset key ↔
      ∀ c ∈ (charset.invalidPart key).head?, Charset.hasEntry c := by
  induction key with
  | nil => simp [InsertFromDefined, Charset.invalidPart]
  | cons c key ih =>
      rw [InsertFromDefined, Charset.invalidPart, List.dropWhile_cons]
      cases valid : charset.isValidChar c with
      | true =>
          rcases exists_getCharIndex valid with ⟨cidx, index⟩
          simpa [index, hasEntry_of_valid valid, Charset.invalidPart] using
            ih
      | false => simp [getCharIndex_of_invalid valid]

/-- The characters up to the first invalid one are looked up. -/
theorem insertDefined_iff (trie : Trie charset bits Value) (key : Key) :
    trie.InsertDefined key ↔
      ∀ c ∈ (charset.invalidPart key).head?, Charset.hasEntry c := by
  rcases trie.findInsertPos_eq key with ⟨followed, rest, node, stop, rfl, valid, posEq⟩
  have dropped : (followed ++ rest).drop followed.length = rest := List.drop_left' rfl
  rw [InsertDefined, posEq, findDefined_iff, stop, invalidPart_append valid]
  simp only [dropped, insertFromDefined_iff]
  cases rest with
  | nil => simp [Charset.invalidPart]
  | cons c more =>
      cases isValid : charset.isValidChar c with
      | true =>
          rcases exists_getCharIndex isValid with ⟨cidx, index⟩
          simp [index, hasEntry_of_valid isValid]
      | false => simp [getCharIndex_of_invalid isValid, Charset.invalidPart, isValid]

variable {trie : Trie charset bits Value}

/-- Below the node of the part in front of the first invalid character nothing is added. -/
theorem insert_of_nodeOf (invalid : charset.isValidKey key = false)
    (node : (trie.nodeOf (charset.validPart key)).isSome = true) (value : Value) :
    trie.insert key value = (false, trie) := by
  rcases exists_invalidPart_eq invalid with ⟨c, rest, part, invalidChar⟩
  have index := getCharIndex_of_invalid invalidChar
  have whole : (follow (childOf trie.nodes) 0 (charset.validPart key)).2 = [] := by
    by_contra stopped
    rw [nodeOf, if_neg stopped] at node
    exact absurd node Bool.false_ne_true
  have stop : follow (childOf trie.nodes) 0 key =
      ((follow (childOf trie.nodes) 0 (charset.validPart key)).1, c :: rest) := by
    conv_lhs => rw [← charset.validPart_append_invalidPart key, part]
    rw [follow_append_of_nil whole, follow, childOf, index]
    rfl
  rcases trie.findInsertPos_eq key with ⟨followed, left, last, stop', -, -, posEq⟩
  obtain rfl := congrArg Prod.snd (stop'.symm.trans stop)
  rw [insert, posEq]
  simp [index]

/-- The loop of an insertion that is begun decides about its result and the number of the
nodes. -/
theorem insert_of_canInsert {pos : InsertPos} (found : trie.findInsertPos key = pos)
    (canInsert : pos.canInsert = true) (value : Value) :
    (trie.insert key value).1 =
        (insertFrom trie.nodes (key.drop pos.offs) pos.iidx pos.offs).2.canInsert ∧
      (trie.insert key value).2.nodeCount =
        (insertFrom trie.nodes (key.drop pos.offs) pos.iidx pos.offs).1.length := by
  rw [insert, found, if_pos canInsert]
  constructor
  · rfl
  · dsimp only [nodeCount]
    split
    · exact length_setObject _ _ _
    · rfl

/-- The loop of an insertion stops at an invalid character and keeps the nodes for those in
front of it. -/
theorem insertFrom_invalid {front : Key} (valid : charset.isValidKey front = true) {c : UInt8}
    (invalid : charset.isValidChar c = false) (others : Key) (nodes : Nodes charset bits Value)
    (iidx offs : Nat) :
    (insertFrom nodes (front ++ c :: others) iidx offs).1.length = nodes.length + front.length ∧
      (insertFrom nodes (front ++ c :: others) iidx offs).2.canInsert = false := by
  rw [insertFrom_append valid, insertFrom, getCharIndex_of_invalid invalid]
  exact ⟨(insertFrom_valid valid nodes iidx offs).1, rfl⟩

/-- Otherwise there are nodes for the other characters of that part. -/
theorem insert_of_not_nodeOf (invalid : charset.isValidKey key = false)
    (noNode : (trie.nodeOf (charset.validPart key)).isSome = false) (value : Value) :
    (trie.insert key value).1 = false ∧
      trie.nodeCount < (trie.insert key value).2.nodeCount := by
  rcases exists_invalidPart_eq invalid with ⟨bad, others, part, invalidChar⟩
  cases stopped : (follow (childOf trie.nodes) 0 (charset.validPart key)).2 with
  | nil =>
      rw [nodeOf, if_pos stopped] at noNode
      exact absurd noNode.symm Bool.false_ne_true
  | cons c more =>
      have stop := follow_append_of_cons stopped (bad :: others)
      rw [← part, charset.validPart_append_invalidPart key, part] at stop
      rcases trie.findInsertPos_eq key with ⟨followed, rest, node, stop', keyEq, -, posEq⟩
      obtain ⟨rfl, rfl⟩ := Prod.mk.inj (stop'.symm.trans stop)
      -- the characters in front of the invalid one get nodes, and the loop ends there
      have valid : charset.isValidKey (c :: more) = true := by
        rcases exists_followed trie.nodes (charset.validPart key) 0 with ⟨front, frontEq, -⟩
        have allValid := charset.isValidKey_validPart key
        rw [frontEq, stopped] at allValid
        exact ((charset.isValidKey_append_iff _ _).mp allValid).2
      rcases exists_index_of_isValidKey_cons valid with ⟨⟨cidx, index⟩, -⟩
      have dropped : key.drop followed.length = c :: more ++ bad :: others := by
        rw [keyEq]
        exact List.drop_left' rfl
      rcases insert_of_canInsert posEq (by simp [index]) value with ⟨result, count⟩
      rcases insertFrom_invalid valid invalidChar others trie.nodes
        (follow (childOf trie.nodes) 0 (charset.validPart key)).1 followed.length with
        ⟨lengthEq, failed⟩
      rw [result, count, dropped, lengthEq, failed]
      exact ⟨rfl, Nat.lt_add_of_pos_right (Nat.succ_pos more.length)⟩

/-- What an insertion that fails leaves unchanged. -/
theorem unchanged_iff (trie : Trie charset bits Value) (key : Key) (value : Value) :
    ((trie.insert key value).1 = false → Unchanged trie (trie.insert key value).2) ↔
      charset.isValidKey key = true ∨ (trie.nodeOf (charset.validPart key)).isSome = true := by
  cases valid : charset.isValidKey key with
  | true =>
      rcases trie.insert_eq valid value with ⟨_, _, _, _, _, _, _, inserted⟩
      simp [inserted]
  | false =>
      cases node : (trie.nodeOf (charset.validPart key)).isSome with
      | true =>
          rw [insert_of_nodeOf valid node value]
          simp [Unchanged.refl]
      | false =>
          rcases insert_of_not_nodeOf valid node value with ⟨failed, more⟩
          have changed : ¬Unchanged trie (trie.insert key value).2 :=
            fun unchanged => Nat.ne_of_gt more unchanged.nodeCount
          simp [failed, changed]

/-- An insertion is atomic if and only if the first invalid character of the key, if there
is one, has an entry, and the key is valid or the trie has a node for the part in front of
that character. -/
theorem insertIsAtomic_iff (trie : Trie charset bits Value) (key : Key) (value : Value) :
    trie.InsertIsAtomic key value ↔
      (∀ c ∈ (charset.invalidPart key).head?, Charset.hasEntry c) ∧
        (charset.isValidKey key = true ∨
          (trie.nodeOf (charset.validPart key)).isSome = true) := by
  rw [InsertIsAtomic, insertDefined_iff, unchanged_iff]

/-- The insertion of `1#` into an empty trie fails and leaves a node for `1`. -/
theorem not_forall_insertIsAtomic :
    ¬∀ (updates : List (Update Nat)) (key : Key) (value : Nat),
      (trieAfter decimalCharset 32 updates).InsertIsAtomic key value := by
  intro atomic
  have unchanged := (atomic [] [49, 35] 7).2 (by decide)
  exact absurd unchanged.nodeCount (by decide)

end Trie

end Eagine.Container
