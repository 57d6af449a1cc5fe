import Eagine.Container.TrieTraversal

/-!
# Order of traversals

A traversal makes the visits of a walk through the tree of the beginnings of keys.  So the
entries are passed in the order of their keys, each of them once, exactly where the node of
no entry is linked to another one.
-/

namespace Eagine.Container

open Theory List

namespace Trie

variable {charset : Charset} {bits : Nat} {Value : Type}

/-- From a node on the top of the stack on the loop makes the visits and leaves the node.
The stack is as high as the word of the node is long. -/
def Visits (nodes : Nodes charset bits Value) (spare : Nat) (values : Key → Option Value)
    (nidx cidx : Nat) (path : Key) (visited : List Key) : Prop :=
  ∀ below calls storageMoved, below.length = path.length →
    (reservedCapacity spare ≤ path.length → storageMoved = true) →
    ∃ rounds, (traverseNext nodes spare)^[rounds + 1]
        { str := path, idx := (cidx, nidx) :: below, calls, storageMoved } =
      { str := path.dropLast
        idx := nextChar below
        calls := calls ++ met values visited
        storageMoved := storageMoved ||
          visited.any fun word => decide (reservedCapacity spare ≤ word.length) }

section Rounds

variable {nodes : Nodes charset bits Value} {spare nidx cidx : Nat}
  {values : Key → Option Value} {path : Key}

theorem callFunction_eq (object : (nodeAt nodes nidx).object = values path)
    (calls : List (Key × Value)) :
    callFunction nodes nidx path calls = calls ++ met values [path] := by
  rw [callFunction, object, met]
  cases value : values path with
  | none => simp [value]
  | some found => simp [value]

/-- Words that have been reached before move no storage. -/
theorem moved_or_deep {storageMoved : Bool} {size : Nat}
    (deep : reservedCapacity spare ≤ size → storageMoved = true) :
    (storageMoved || decide (reservedCapacity spare ≤ size)) = storageMoved := by
  by_cases reached : reservedCapacity spare ≤ size
  · simp [deep reached]
  · simp [reached]

/-- Behind the last character the node is left. -/
theorem visits_last (object : (nodeAt nodes nidx).object = values path) :
    Visits nodes spare values nidx (charset.chars.length + 1) path [path] := by
  intro below calls storageMoved height deep
  refine ⟨0, ?_⟩
  rw [any_cons, any_nil, Bool.or_false, moved_or_deep deep, ← callFunction_eq object]
  simp [traverseNext, skipNoIndex]

/-- A character without a link makes no difference. -/
theorem Visits.skip {visited : List Key} (inside : cidx < charset.chars.length + 1)
    (noIndex : nextOf nodes nidx cidx = 0)
    (later : Visits nodes spare values nidx (cidx + 1) path visited) :
    Visits nodes spare values nidx cidx path visited := by
  intro below calls storageMoved height deep
  rcases later below calls storageMoved height deep with ⟨rounds, reached⟩
  refine ⟨rounds, ?_⟩
  rw [← reached, Function.iterate_succ_apply, Function.iterate_succ_apply]
  congr 1
  have left : charset.chars.length + 1 - cidx = charset.chars.length + 1 - (cidx + 1) + 1 := by
    omega
  have skipped : skipNoIndex nodes nidx (charset.chars.length + 1 - cidx) cidx =
      skipNoIndex nodes nidx (charset.chars.length + 1 - (cidx + 1)) (cidx + 1) := by
    rw [left, skipNoIndex, noIndex]
    rfl
  simp only [traverseNext, skipped, length_cons]

/-- The round that goes to a linked node. -/
theorem traverseNext_link (object : (nodeAt nodes nidx).object = values path)
    (inside : cidx < charset.chars.length + 1) (linked : nextOf nodes nidx cidx ≠ 0)
    (below : List (Nat × Nat)) (calls : List (Key × Value)) (storageMoved : Bool) :
    traverseNext nodes spare
        { str := path, idx := (cidx, nidx) :: below, calls, storageMoved } =
      { str := path ++ [charset.charAt cidx]
        idx := (0, nextOf nodes nidx cidx) :: (cidx, nidx) :: below
        calls := calls ++ met values [path]
        storageMoved := storageMoved ||
          decide (reservedCapacity spare ≤ below.length + 1) } := by
  have left : charset.chars.length + 1 - cidx = charset.chars.length - cidx + 1 := by
    omega
  have here : skipNoIndex nodes nidx (charset.chars.length + 1 - cidx) cidx = cidx := by
    rw [left, skipNoIndex, isNoIndex, beq_eq_false_iff_ne.mpr linked]
    rfl
  rw [← callFunction_eq object]
  simp only [traverseNext, here, if_neg (Nat.ne_of_lt inside), length_cons]

/-- The visits below a linked node come before those for the characters behind. -/
theorem Visits.next {inner outer : List Key}
    (object : (nodeAt nodes nidx).object = values path)
    (inside : cidx < charset.chars.length + 1) (linked : nextOf nodes nidx cidx ≠ 0)
    (entered : path ++ [charset.charAt cidx] ∈ inner)
    (first : Visits nodes spare values (nextOf nodes nidx cidx) 0
      (path ++ [charset.charAt cidx]) inner)
    (later : Visits nodes spare values nidx (cidx + 1) path outer) :
    Visits nodes spare values nidx cidx path (path :: (inner ++ outer)) := by
  intro below calls storageMoved height deep
  have longer : (path ++ [charset.charAt cidx]).length = below.length + 1 := by
    rw [length_append, length_singleton, height]
  rcases first ((cidx, nidx) :: below) (calls ++ met values [path])
      (storageMoved || decide (reservedCapacity spare ≤ below.length + 1)) longer.symm (by
        intro reached
        rw [longer] at reached
        simp [reached]) with ⟨innerRounds, afterInner⟩
  rcases later below (calls ++ met values [path] ++ met values inner)
      (storageMoved || decide (reservedCapacity spare ≤ below.length + 1) ||
        inner.any fun word => decide (reservedCapacity spare ≤ word.length)) height (by
        intro reached
        simp [deep reached]) with ⟨outerRounds, afterOuter⟩
  refine ⟨outerRounds + 1 + (innerRounds + 1), ?_⟩
  rw [Function.iterate_succ_apply, traverseNext_link object inside linked,
    Function.iterate_add_apply, afterInner, dropLast_concat, nextChar, afterOuter]
  have anyInner : (inner.any fun word => decide (reservedCapacity spare ≤ word.length)) =
      (decide (reservedCapacity spare ≤ below.length + 1) ||
        inner.any fun word => decide (reservedCapacity spare ≤ word.length)) := by
    by_cases reached : reservedCapacity spare ≤ below.length + 1
    · rw [decide_eq_true reached, Bool.true_or, any_eq_true]
      exact ⟨_, entered, decide_eq_true (longer ▸ reached)⟩
    · rw [decide_eq_false reached, Bool.false_or]
  have metAll : met values (path :: (inner ++ outer)) =
      met values [path] ++ (met values inner ++ met values outer) := by
    rw [← singleton_append, met_append, met_append]
  rw [metAll, any_cons, any_append, ← Bool.or_assoc storageMoved, moved_or_deep deep,
    Bool.or_assoc storageMoved, ← anyInner, Bool.or_assoc, append_assoc, append_assoc]

end Rounds

section Walk

variable {trie : Trie charset bits Value} {paths : List Key} {map : Finmap fun _ : Key => Value}

/-- The paths of the nodes, with the characters that links can have. -/
def Represents.wordTree (represents : Represents trie paths map) : WordTree UInt8 where
  words := paths
  labels := charset.indexedChars 0 (charset.chars.length + 1)
  parent := represents.linked.parent
  labelled := by
    intro path c member
    rcases mem_iff_getElem?.mp (represents.linked.parent member) with ⟨node, atNode⟩
    rcases mem_iff_getElem?.mp member with ⟨next, atNext⟩
    have link := (represents.linked.child_eq_some_iff atNode).mpr atNext
    rcases Option.bind_eq_some_iff.mp link with ⟨cidx, index, -⟩
    exact Charset.mem_indexedChars index
  increasing := charset.pairwise_indexedChars 0 (charset.chars.length + 1)

/-- The visits at a node, from a character on, given those at the nodes it is linked to. -/
theorem visits_revisits (represents : Represents trie paths map)
    (indexed : LinksIndexed trie.nodes) {spare nidx : Nat} {path : Key}
    (atNode : paths[nidx]? = some path) {visit : Key → List Key}
    (entered : ∀ word, word ∈ visit word)
    (below : ∀ c next, paths[next]? = some (path ++ [c]) →
      Visits trie.nodes spare map.lookup next 0 (path ++ [c]) (visit (path ++ [c])))
    {cidx left : Nat} (rest : cidx + left = charset.chars.length + 1) :
    Visits trie.nodes spare map.lookup nidx cidx path
      (path :: revisits paths visit path (charset.indexedChars cidx left)) := by
  have object := represents.object atNode
  induction left generalizing cidx with
  | zero =>
      rw [Nat.add_zero] at rest
      rw [rest]
      exact visits_last object
  | succ left ih =>
      have later : Visits trie.nodes spare map.lookup nidx (cidx + 1) path
          (path :: revisits paths visit path (charset.indexedChars (cidx + 1) left)) :=
        ih (by omega)
      rw [Charset.indexedChars_succ, revisits_append]
      by_cases noIndex : nextOf trie.nodes nidx cidx = 0
      · have nothing : revisits paths visit path (charset.indexedChar cidx).toList = [] := by
          refine revisits_eq_nil fun c isChar => ?_
          have index := Charset.indexedChar_eq_some_iff.mp (Option.mem_toList.mp isChar)
          exact (represents.linked.child_eq_none_iff atNode).mp
            ((childOf_eq_none_iff index).mpr noIndex)
        rw [nothing, nil_append]
        exact later.skip (by omega) noIndex
      · rcases indexed nidx cidx noIndex with ⟨c, index⟩
        obtain rfl := Charset.charAt_of_getCharIndex index
        have link : childOf trie.nodes nidx (charset.charAt cidx) =
            some (nextOf trie.nodes nidx cidx) := by
          simp [childOf, index, isNoIndex, noIndex]
        have atNext := (represents.linked.child_eq_some_iff atNode).mp link
        rw [Charset.indexedChar_eq_some_iff.mpr index, Option.toList_some,
          revisits_cons_of_mem (mem_of_getElem? atNext), append_assoc]
        exact Visits.next object (by omega) noIndex (entered _) (below _ _ atNext) later

/-- The visits at a node and below it are those of the walk through the words. -/
theorem visits_walk (represents : Represents trie paths map) (indexed : LinksIndexed trie.nodes)
    (spare : Nat) {height nidx : Nat} {path : Key}
    (within : represents.wordTree.Within height path) (atNode : paths[nidx]? = some path) :
    Visits trie.nodes spare map.lookup nidx 0 path (represents.wordTree.visits height path) := by
  induction height generalizing nidx path with
  | zero =>
      have leaf (c : UInt8) : path ++ [c] ∉ paths := within.leaf c
      have alone : Visits trie.nodes spare map.lookup nidx 0 path
          (path :: revisits paths (fun word => [word]) path
            (charset.indexedChars 0 (charset.chars.length + 1))) :=
        visits_revisits represents indexed atNode (fun word => mem_singleton_self word)
          (fun c next atNext => absurd (mem_of_getElem? atNext) (leaf c)) (Nat.zero_add _)
      rwa [revisits_eq_nil fun c _ => leaf c] at alone
  | succ height ih =>
      exact visits_revisits represents indexed atNode
        (fun word => represents.wordTree.mem_visits_self height word)
        (fun c next atNext => ih (within.below c) atNext) (Nat.zero_add _)

theorem traverseNext_of_idx_eq_nil {nodes : Nodes charset bits Value} {spare : Nat}
    {t : Traversal Value} (ended : t.idx = []) : traverseNext nodes spare t = t := by
  rw [traverseNext, ended]

/-- After its end a traversal stays as it is. -/
theorem traverse_eq_of_ended {spare rounds rounds' : Nat}
    (ended : (trie.traverse spare rounds).idx = [])
    (ended' : (trie.traverse spare rounds').idx = []) :
    trie.traverse spare rounds = trie.traverse spare rounds' := by
  have later (more : Nat) {first : Nat} (finished : (trie.traverse spare first).idx = []) :
      trie.traverse spare (more + first) = trie.traverse spare first := by
    rw [traverse, Function.iterate_add_apply]
    exact Function.iterate_fixed (traverseNext_of_idx_eq_nil finished) more
  rw [← later rounds' ended, ← later rounds ended', Nat.add_comm]

/-- The calls of a traversal are those for the values that the walk meets, if no word is as
long as the reserved capacity. -/
theorem traversesWith_iff (represents : Represents trie paths map)
    (indexed : LinksIndexed trie.nodes) (spare : Nat) {height : Nat}
    (within : represents.wordTree.Within height []) (calls : List (Key × Value)) :
    trie.TraversesWith spare calls ↔
      calls = met map.lookup (represents.wordTree.visits height []) ∧
        ∀ path ∈ paths, path.length < reservedCapacity spare := by
  have root : ([] : Key) ∈ paths := mem_of_getElem? represents.linked.root
  have reserved : ¬reservedCapacity spare ≤ ([] : Key).length := by
    rw [reservedCapacity, length_nil]
    omega
  rcases visits_walk represents indexed spare within represents.linked.root [] [] false rfl
    (fun reached => absurd reached reserved) with ⟨rounds, walked⟩
  have whole : trie.traverse spare (rounds + 1) =
      { str := [], idx := [],
        calls := met map.lookup (represents.wordTree.visits height [])
        storageMoved := (represents.wordTree.visits height []).any fun word =>
          decide (reservedCapacity spare ≤ word.length) } := walked
  have shallow : ((represents.wordTree.visits height []).any fun word =>
      decide (reservedCapacity spare ≤ word.length)) = false ↔
      ∀ path ∈ paths, path.length < reservedCapacity spare := by
    rw [any_eq_false]
    refine forall_congr' fun word => ?_
    rw [WordTree.mem_visits_iff within root, decide_eq_true_eq, Nat.not_le]
    exact ⟨fun short member => short ⟨member, nil_prefix⟩, fun short both => short both.1⟩
  constructor
  · rintro ⟨otherRounds, ended⟩
    have same := traverse_eq_of_ended (congrArg Traversal.idx whole) (congrArg Traversal.idx ended)
    rw [whole, ended] at same
    rcases Traversal.mk.inj same with ⟨-, -, callsEq, moved⟩
    exact ⟨callsEq.symm, shallow.mp moved⟩
  · rintro ⟨rfl, short⟩
    exact ⟨rounds + 1, by rw [whole, shallow.mpr short]⟩

/-- The traversal is in order exactly where only leaves have values, and no word is as long
as the reserved capacity. -/
theorem traversesInOrder_iff_leaves (represents : Represents trie paths map)
    (indexed : LinksIndexed trie.nodes) (spare : Nat) :
    trie.TraversesInOrder spare map ↔
      (∀ path ∈ paths, path.length < reservedCapacity spare) ∧
        ∀ key ∈ map, ∀ c, key ++ [c] ∉ paths := by
  rcases represents.wordTree.exists_within with ⟨height, within⟩
  have root : ([] : Key) ∈ paths := mem_of_getElem? represents.linked.root
  have entries (key : Key) (value : Value) :
      (key, value) ∈ met map.lookup (represents.wordTree.visits height []) ↔
        map.lookup key = some value := by
    rw [mem_met_iff, WordTree.mem_visits_iff within root]
    refine and_iff_right_of_imp fun found => ⟨?_, nil_prefix⟩
    by_contra notPath
    rw [represents.absent notPath] at found
    exact absurd found.symm (Option.some_ne_none value)
  have leaves : ((met map.lookup (represents.wordTree.visits height [])).map Prod.fst).Pairwise
      (· < ·) ↔ ∀ key ∈ map, ∀ c, key ++ [c] ∉ paths := by
    simp only [WordTree.pairwise_met_visits_iff within, Finmap.lookup_isSome]
    rfl
  constructor
  · rintro ⟨calls, traverses, inOrder⟩
    rcases (traversesWith_iff represents indexed spare within calls).mp traverses with ⟨rfl, short⟩
    exact ⟨short, leaves.mp inOrder.increasing⟩
  · rintro ⟨short, onlyLeaves⟩
    exact ⟨_, (traversesWith_iff represents indexed spare within _).mpr ⟨rfl, short⟩,
      entries, leaves.mpr onlyLeaves⟩

end Walk

end Trie

variable {charset : Charset} {bits : Nat} {Value : Type}

section Updates

variable {updates : List (Update Value)} {paths : List Key}
  (members : ∀ path, path ∈ paths ↔ path = [] ∨ ∃ key ∈ insertedKeys updates, path <+: key)

include members

/-- The inserted keys are the longest paths. -/
theorem forall_length_lt_iff {limit : Nat} (positive : 0 < limit) :
    (∀ path ∈ paths, path.length < limit) ↔ ∀ key ∈ insertedKeys updates, key.length < limit := by
  constructor
  · intro short key member
    exact short key ((members key).mpr (Or.inr ⟨key, member, prefix_rfl⟩))
  · intro short path isPath
    rcases (members path).mp isPath with rfl | ⟨key, member, beginning⟩
    · exact positive
    · exact beginning.length_le.trans_lt (short key member)

/-- The node of a key has no links exactly if no longer key with that beginning was
inserted. -/
theorem forall_append_notMem_iff {key : Key} :
    (∀ c, key ++ [c] ∉ paths) ↔
      ∀ inserted ∈ insertedKeys updates, key <+: inserted → key = inserted := by
  constructor
  · rintro leaf inserted member ⟨more, rfl⟩
    cases more with
    | nil => exact (append_nil key).symm
    | cons c more =>
        have beginning : key ++ [c] <+: key ++ c :: more :=
          ⟨more, (append_cons key c more).symm⟩
        exact absurd ((members _).mpr (Or.inr ⟨_, member, beginning⟩)) (leaf c)
  · intro longest c isPath
    rcases (members _).mp isPath with empty | ⟨inserted, member, beginning⟩
    · exact absurd empty (append_ne_nil_of_right_ne_nil _ (cons_ne_nil c []))
    · have same := longest inserted member ((prefix_append _ _).trans beginning)
      have longer := beginning.length_le
      rw [← same, length_append, length_singleton] at longer
      omega

end Updates

/-- As long as there is an index for every node, a trie is traversed in order if and only if
no key that was ever inserted is as long as the reserved capacity, and no stored key is the
beginning of a longer one that was ever inserted. -/
theorem traversesInOrder_trieAfter_iff {updates : List (Update Value)}
    (valid : ∀ update ∈ updates, charset.isValidKey update.key = true)
    (capacity : (trieAfter charset bits updates).nodeCount ≤ 2 ^ bits) (spare : Nat) :
    (trieAfter charset bits updates).TraversesInOrder spare (mapAfter updates) ↔
      (∀ key ∈ insertedKeys updates, key.length < reservedCapacity spare) ∧
        ∀ key ∈ mapAfter updates, ∀ inserted ∈ insertedKeys updates,
          key <+: inserted → key = inserted := by
  rcases represents_trieAfter valid capacity with ⟨paths, represents, members⟩
  have positive : 0 < reservedCapacity spare := Nat.add_pos_left (by decide) spare
  rw [Trie.traversesInOrder_iff_leaves represents (Trie.linksIndexed_trieAfter updates),
    forall_length_lt_iff members positive]
  simp only [forall_append_notMem_iff members]

/-- After a removal the only key is traversed in order. -/
theorem traversesInOrder_trieAfter_iff_removed :
    (trieAfter decimalCharset 32 [Update.insert [50] 7, Update.insert [49, 50] 8,
        Update.remove [50]]).TraversesInOrder 0
      (mapAfter [Update.insert [50] 7, Update.insert [49, 50] 8, Update.remove [50]]) := by
  refine (traversesInOrder_trieAfter_iff (by decide) (by decide) 0).mpr ⟨by decide, ?_⟩
  intro key member
  have only : key = [49, 50] := by
    rcases Finmap.mem_erase.mp member with ⟨different, inserted⟩
    rcases Finmap.mem_insert.mp inserted with last | first
    · exact last
    · rcases Finmap.mem_insert.mp first with same | none
      · exact absurd same different
      · exact absurd none Finmap.notMem_empty
  rw [only]
  decide

/-- A key and a longer one with that beginning: the value of the first one is passed before
and behind that of the other. -/
theorem not_forall_traversesInOrder :
    ¬∀ updates : List (Update Nat),
      (∀ update ∈ updates, decimalCharset.isValidKey update.key = true) →
        (trieAfter decimalCharset 32 updates).TraversesInOrder 0 (mapAfter updates) := by
  intro inOrder
  rcases inOrder [Update.insert [49] 7, Update.insert [49, 50] 8] (by decide) with
    ⟨calls, ⟨rounds, ended⟩, entries⟩
  have trace : (trieAfter decimalCharset 32
      [Update.insert [49] 7, Update.insert [49, 50] 8]).traverse 0 5 =
        { idx := [], calls := [([49], 7), ([49, 50], 8), ([49], 7)] } := by
    decide
  have same := Trie.traverse_eq_of_ended (congrArg Traversal.idx ended)
    (congrArg Traversal.idx trace)
  rw [ended, trace] at same
  obtain rfl := congrArg Traversal.calls same
  exact absurd entries.increasing (by decide)

end Eagine.Container
