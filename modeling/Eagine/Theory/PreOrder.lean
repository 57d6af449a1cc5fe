import Mathlib.Data.List.Lex

/-!
# Walks in pre-order

A node of a tree is found at its position: the indices of the children on the way from the root.
A walk in pre-order asks at each node whether to go on to the nodes below it, and its answers may
depend on what was asked before. What it visits is sorted by the positions, and a position is
visited exactly if the walk went on at all nodes above it.
-/

namespace Theory

open List

universe u

inductive RoseTree (α : Type u) where
  | node (value : α) (children : List (RoseTree α))

variable {place : List Nat} {index : Nat}

namespace RoseTree

variable {α : Type u}

def value : RoseTree α → α
  | .node value _ => value

def children : RoseTree α → List (RoseTree α)
  | .node _ children => children

/-- The node at a position. -/
def nodeAt (tree : RoseTree α) : List Nat → Option (RoseTree α)
  | [] => some tree
  | index :: rest => tree.children[index]?.bind fun child => child.nodeAt rest

theorem nodeAt_cons {tree child : RoseTree α}
    (found : tree.children[index]? = some child) (rest : List Nat) :
    tree.nodeAt (index :: rest) = child.nodeAt rest := by
  rw [nodeAt, found, Option.bind_some]

theorem nodeAt_append (tree : RoseTree α) (front back : List Nat) :
    tree.nodeAt (front ++ back) = (tree.nodeAt front).bind fun node => node.nodeAt back := by
  induction front generalizing tree with
  | nil => rfl
  | cons index rest ih =>
      rw [cons_append, nodeAt, nodeAt, Option.bind_assoc]
      congr 1
      funext child
      exact ih child

theorem nodeAt_concat {tree node : RoseTree α}
    (found : tree.nodeAt place = some node) (index : Nat) :
    tree.nodeAt (place ++ [index]) = node.children[index]? := by
  rw [nodeAt_append, found, Option.bind_some, nodeAt]
  exact Option.bind_fun_some _

end RoseTree

/-- The positions that were visited, with the answers that were given at them. -/
abbrev Visits :=
  List (List Nat × Bool)

section Walks

variable {α : Type u} (answer : Visits → List Nat → Bool) (isOpen : α → Bool)

mutual

/-- The visits of a node at a place and of what is below it, after other ones. -/
def walk (place : List Nat) : RoseTree α → Visits → Visits
  | .node value children, visits =>
      let goesOn := answer visits place
      let visits := visits ++ [(place, goesOn)]
      if goesOn && isOpen value then walkAll place children 0 visits else visits

/-- The visits of nodes below a place, from an index on. -/
def walkAll (place : List Nat) : List (RoseTree α) → Nat → Visits → Visits
  | [], _, visits => visits
  | child :: rest, index, visits =>
      walkAll place rest (index + 1) (walk (place ++ [index]) child visits)

end

/-- The visits that follow other ones are answered one after the other. -/
def Answered (before : Visits) (visits : Visits) : Prop :=
  ∀ done place goesOn rest, visits = done ++ (place, goesOn) :: rest →
    answer (before ++ done) place = goesOn

variable {answer isOpen}

variable {before : Visits}

theorem Answered.nil : Answered answer before [] :=
  fun _ _ _ _ whole => absurd whole.symm (append_ne_nil_of_right_ne_nil _ (by simp))

theorem Answered.singleton {goesOn : Bool}
    (isAnswer : answer before place = goesOn) : Answered answer before [(place, goesOn)] := by
  intro done other otherGoesOn rest whole
  rcases cons_eq_append_iff.mp whole with ⟨rfl, visit⟩ | ⟨more, rfl, nothing⟩
  · rcases List.cons.inj visit with ⟨isVisit, -⟩
    rcases Prod.mk.inj isVisit with ⟨rfl, rfl⟩
    rwa [append_nil]
  · exact absurd nothing.symm (append_ne_nil_of_right_ne_nil _ (cons_ne_nil _ _))

theorem Answered.append {first second : Visits} (one : Answered answer before first)
    (two : Answered answer (before ++ first) second) :
    Answered answer before (first ++ second) := by
  intro done place goesOn rest whole
  rcases append_eq_append_iff.mp whole with ⟨more, rfl, secondEq⟩ | ⟨more, firstEq, restEq⟩
  · rw [← append_assoc]
    exact two more place goesOn rest secondEq
  · cases more with
    | nil =>
        rw [append_nil] at firstEq
        subst firstEq
        have start := two [] place goesOn rest restEq.symm
        rwa [append_nil] at start
    | cons visit more =>
        rcases List.cons.inj restEq with ⟨rfl, -⟩
        exact one done place goesOn more firstEq

variable (isOpen) in
/-- The walk went on at every node from a place down to a position below it. -/
def Reaches (visits : Visits) : List Nat → RoseTree α → List Nat → Prop
  | _, _, [] => True
  | place, tree, index :: rest =>
      (place, true) ∈ visits ∧ isOpen tree.value = true ∧
        ∃ child, tree.children[index]? = some child ∧
          Reaches visits (place ++ [index]) child rest

variable {tree : RoseTree α}

theorem reaches_congr {visits other : Visits} {rest : List Nat}
    (same : ∀ more, (place ++ more, true) ∈ visits ↔ (place ++ more, true) ∈ other) :
    Reaches isOpen visits place tree rest ↔ Reaches isOpen other place tree rest := by
  induction rest generalizing place tree with
  | nil => exact Iff.rfl
  | cons index rest ih =>
      have here := same []
      rw [append_nil] at here
      rw [Reaches, Reaches, here]
      refine and_congr_right fun _ => and_congr_right fun _ => exists_congr fun child =>
        and_congr_right fun _ => ih fun more => ?_
      rw [append_assoc]
      exact same _

/-- What the visits of a node and of what is below it have to be. -/
structure IsWalk (answer : Visits → List Nat → Bool) (isOpen : α → Bool) (before : Visits)
    (place : List Nat) (tree : RoseTree α) (visits : Visits) : Prop where
  answered : Answered answer before visits
  ordered : visits.Pairwise fun earlier later => earlier.1 < later.1
  below : ∀ visit ∈ visits, ∃ rest, visit.1 = place ++ rest
  mem_iff : ∀ rest, (∃ goesOn, (place ++ rest, goesOn) ∈ visits) ↔
    Reaches isOpen visits place tree rest

/-- What the visits of the nodes below a place have to be, from an index on. -/
structure IsWalkAll (answer : Visits → List Nat → Bool) (isOpen : α → Bool) (before : Visits)
    (place : List Nat) (trees : List (RoseTree α)) (index : Nat) (visits : Visits) : Prop where
  answered : Answered answer before visits
  ordered : visits.Pairwise fun earlier later => earlier.1 < later.1
  below : ∀ visit ∈ visits, ∃ offset rest, visit.1 = place ++ (index + offset) :: rest
  mem_iff : ∀ offset rest, (∃ goesOn, (place ++ (index + offset) :: rest, goesOn) ∈ visits) ↔
    ∃ tree, trees[offset]? = some tree ∧ Reaches isOpen visits (place ++ [index + offset]) tree rest

/-- There is no node. -/
theorem IsWalkAll.nil :
    IsWalkAll answer isOpen before place [] index [] where
  answered := .nil
  ordered := List.Pairwise.nil
  below _ member := absurd member not_mem_nil
  mem_iff offset rest := by simp

/-- The walk does not go on at the node. -/
theorem IsWalk.stop {goesOn : Bool}
    (isAnswer : answer before place = goesOn) (stops : (goesOn && isOpen tree.value) = false) :
    IsWalk answer isOpen before place tree [(place, goesOn)] where
  answered := .singleton isAnswer
  ordered := pairwise_singleton _ _
  below visit member := ⟨[], by rw [mem_singleton.mp member, append_nil]⟩
  mem_iff rest := by
    cases rest with
    | nil => exact iff_of_true ⟨goesOn, by simp⟩ trivial
    | cons index rest =>
        refine iff_of_false ?_ ?_
        · rintro ⟨other, member⟩
          have same := congrArg (fun visit => visit.1) (mem_singleton.mp member)
          simp at same
        · rintro ⟨member, isOpenNode, -⟩
          rcases Prod.mk.inj (mem_singleton.mp member) with ⟨-, rfl⟩
          rw [isOpenNode] at stops
          exact absurd stops (by decide)

/-- The walk goes on below the node. -/
theorem IsWalkAll.enter {value : α} {children : List (RoseTree α)} {visits : Visits}
    (isWalkAll : IsWalkAll answer isOpen (before ++ [(place, true)]) place children 0 visits)
    (goesOn : answer before place = true) (isOpenNode : isOpen value = true) :
    IsWalk answer isOpen before place (.node value children) ((place, true) :: visits) where
  answered := Answered.append (.singleton goesOn) isWalkAll.answered
  ordered := by
    refine pairwise_cons.mpr ⟨fun visit member => ?_, isWalkAll.ordered⟩
    rcases isWalkAll.below visit member with ⟨offset, rest, isBelow⟩
    have longer : place ++ [] < place ++ (0 + offset) :: rest :=
      append_left_lt (nil_lt_cons _ _)
    rw [append_nil] at longer
    rwa [isBelow]
  below visit member := by
    rcases mem_cons.mp member with rfl | inside
    · exact ⟨[], (append_nil place).symm⟩
    · rcases isWalkAll.below visit inside with ⟨offset, rest, isBelow⟩
      exact ⟨_, isBelow⟩
  mem_iff rest := by
    have others (more : List Nat) (index : Nat) (goesOn : Bool) :
        (place ++ index :: more, goesOn) ∈ (place, true) :: visits ↔
          (place ++ index :: more, goesOn) ∈ visits := by
      simp
    cases rest with
    | nil => exact iff_of_true ⟨true, by simp⟩ trivial
    | cons index rest =>
        have inside := isWalkAll.mem_iff index rest
        rw [Nat.zero_add] at inside
        simp only [others, Reaches, mem_cons_self, true_and, RoseTree.value, isOpenNode,
          RoseTree.children, inside]
        refine exists_congr fun child => and_congr_right fun _ => reaches_congr fun more => ?_
        rw [append_assoc, singleton_append, others]

/-- The walk comes to the next node. -/
theorem IsWalk.cons {child : RoseTree α} {rest : List (RoseTree α)}
    {one more : Visits} (isWalk : IsWalk answer isOpen before (place ++ [index]) child one)
    (isWalkAll : IsWalkAll answer isOpen (before ++ one) place rest (index + 1) more) :
    IsWalkAll answer isOpen before place (child :: rest) index (one ++ more) where
  answered := isWalk.answered.append isWalkAll.answered
  ordered := by
    refine pairwise_append.mpr ⟨isWalk.ordered, isWalkAll.ordered, ?_⟩
    intro earlier earlierMember later laterMember
    rcases isWalk.below earlier earlierMember with ⟨front, earlierEq⟩
    rcases isWalkAll.below later laterMember with ⟨offset, back, laterEq⟩
    rw [earlierEq, laterEq, append_assoc]
    exact append_left_lt (List.Lex.rel (by omega))
  below visit member := by
    rcases mem_append.mp member with inOne | inMore
    · rcases isWalk.below visit inOne with ⟨tail, isBelow⟩
      exact ⟨0, tail, by rw [isBelow, append_assoc]; rfl⟩
    · rcases isWalkAll.below visit inMore with ⟨offset, tail, isBelow⟩
      exact ⟨offset + 1, tail, by rw [isBelow, Nat.add_assoc, Nat.add_comm 1]⟩
  mem_iff offset tail := by
    -- What is below the first node is only in the first part, and the rest only in the other.
    have first (tail : List Nat) (goesOn : Bool) :
        (place ++ index :: tail, goesOn) ∈ one ++ more ↔
          (place ++ index :: tail, goesOn) ∈ one := by
      rw [mem_append, or_iff_left_iff_imp]
      intro inMore
      rcases isWalkAll.below _ inMore with ⟨offset, back, isBelow⟩
      have same := (List.cons.inj (append_cancel_left isBelow)).1
      omega
    have others (offset : Nat) (tail : List Nat) (goesOn : Bool) :
        (place ++ (index + 1 + offset) :: tail, goesOn) ∈ one ++ more ↔
          (place ++ (index + 1 + offset) :: tail, goesOn) ∈ more := by
      rw [mem_append, or_iff_right_iff_imp]
      intro inOne
      rcases isWalk.below _ inOne with ⟨back, isBelow⟩
      rw [append_assoc] at isBelow
      have same := (List.cons.inj (append_cancel_left isBelow)).1
      omega
    cases offset with
    | zero =>
        have inside := isWalk.mem_iff tail
        simp only [append_assoc, singleton_append] at inside
        simp only [Nat.add_zero, first, inside, getElem?_cons_zero, Option.some.injEq,
          exists_eq_left']
        refine reaches_congr fun back => ?_
        rw [append_assoc, singleton_append, first]
    | succ offset =>
        have inside := isWalkAll.mem_iff offset tail
        rw [Nat.add_comm offset 1, ← Nat.add_assoc]
        simp only [others, inside, Nat.add_comm 1 offset, getElem?_cons_succ]
        refine exists_congr fun child => and_congr_right fun _ => reaches_congr fun back => ?_
        rw [append_assoc, singleton_append, others]

mutual

/-- The walk is what it has to be. -/
theorem walk_isWalk (answer : Visits → List Nat → Bool) (isOpen : α → Bool) (place : List Nat) :
    (tree : RoseTree α) → (before : Visits) →
      ∃ visits, walk answer isOpen place tree before = before ++ visits ∧
        IsWalk answer isOpen before place tree visits
  | .node value children, before => by
      cases enters : answer before place && isOpen value with
      | false =>
          refine ⟨[(place, answer before place)], ?_, .stop rfl enters⟩
          rw [walk, enters]
          rfl
      | true =>
          rcases (Bool.and_eq_true _ _).mp enters with ⟨goesOn, isOpenNode⟩
          rcases walkAll_isWalkAll answer isOpen place children 0 (before ++ [(place, true)]) with
            ⟨visits, visitsEq, isWalkAll⟩
          refine ⟨(place, true) :: visits, ?_, isWalkAll.enter goesOn isOpenNode⟩
          rw [walk, goesOn, isOpenNode, Bool.and_self, if_pos rfl, visitsEq, append_assoc]
          rfl

theorem walkAll_isWalkAll (answer : Visits → List Nat → Bool) (isOpen : α → Bool)
    (place : List Nat) :
    (trees : List (RoseTree α)) → (index : Nat) → (before : Visits) →
      ∃ visits, walkAll answer isOpen place trees index before = before ++ visits ∧
        IsWalkAll answer isOpen before place trees index visits
  | [], _, before => ⟨[], (append_nil before).symm, .nil⟩
  | child :: rest, index, before => by
      rcases walk_isWalk answer isOpen (place ++ [index]) child before with
        ⟨one, oneEq, isWalk⟩
      rcases walkAll_isWalkAll answer isOpen place rest (index + 1) (before ++ one) with
        ⟨more, moreEq, isWalkAll⟩
      exact ⟨one ++ more, by rw [walkAll, oneEq, moreEq, append_assoc],
        isWalk.cons isWalkAll⟩

end

/-- What the visits of the nodes below the root have to be: they are in pre-order, which a
position is visited in once, and each position is visited below which the walk went on. -/
structure IsPreOrder (answer : Visits → List Nat → Bool) (isOpen : α → Bool) (tree : RoseTree α)
    (visits : Visits) : Prop where
  answered : ∀ done place goesOn rest, visits = done ++ (place, goesOn) :: rest →
    answer done place = goesOn
  ordered : visits.Pairwise fun earlier later => earlier.1 < later.1
  visited_iff : ∀ place, (∃ goesOn, (place, goesOn) ∈ visits) ↔
    place ≠ [] ∧ (tree.nodeAt place).isSome = true ∧
      ∀ above below, place = above ++ below → above ≠ [] → below ≠ [] →
        (above, true) ∈ visits ∧
          ∃ node, tree.nodeAt above = some node ∧ isOpen node.value = true

/-- The nodes on the way to a position. -/
theorem reaches_iff {visits : Visits} {rest : List Nat} :
    Reaches isOpen visits place tree rest ↔
      (tree.nodeAt rest).isSome = true ∧
        ∀ above below, rest = above ++ below → below ≠ [] →
          (place ++ above, true) ∈ visits ∧
            ∃ node, tree.nodeAt above = some node ∧ isOpen node.value = true := by
  induction rest generalizing place tree with
  | nil =>
      refine iff_of_true trivial ⟨rfl, fun above below whole nonempty => ?_⟩
      exact absurd (append_eq_nil_iff.mp whole.symm).2 nonempty
  | cons index rest ih =>
      rw [Reaches]
      constructor
      · rintro ⟨visited, isOpenNode, child, found, reaches⟩
        rcases ih.mp reaches with ⟨isNode, onTheWay⟩
        refine ⟨by rw [RoseTree.nodeAt_cons found]; exact isNode, fun above below whole nonempty => ?_⟩
        cases above with
        | nil =>
            rw [append_nil]
            exact ⟨visited, tree, rfl, isOpenNode⟩
        | cons head above =>
            rcases List.cons.inj whole with ⟨rfl, restEq⟩
            rw [RoseTree.nodeAt_cons found]
            have onward := onTheWay above below restEq nonempty
            rwa [append_assoc] at onward
      · rintro ⟨isNode, onTheWay⟩
        rcases onTheWay [] (index :: rest) rfl (cons_ne_nil _ _) with
          ⟨visited, node, isTree, isOpenNode⟩
        rw [append_nil] at visited
        cases Option.some.inj isTree
        rw [RoseTree.nodeAt] at isNode
        cases found : tree.children[index]? with
        | none =>
            rw [found] at isNode
            exact absurd isNode Bool.false_ne_true
        | some child =>
            rw [found, Option.bind_some] at isNode
            refine ⟨visited, isOpenNode, child, rfl, ih.mpr ⟨isNode, ?_⟩⟩
            intro above below whole nonempty
            have onward := onTheWay (index :: above) below (congrArg (index :: ·) whole) nonempty
            rw [RoseTree.nodeAt_cons found] at onward
            rwa [append_assoc]

/-- The walk of all that is below the root is in pre-order. -/
theorem walkAll_isPreOrder (answer : Visits → List Nat → Bool) (isOpen : α → Bool)
    (tree : RoseTree α) :
    IsPreOrder answer isOpen tree (walkAll answer isOpen [] tree.children 0 []) := by
  rcases walkAll_isWalkAll answer isOpen [] tree.children 0 [] with ⟨visits, visitsEq, isWalkAll⟩
  rw [visitsEq, nil_append]
  refine ⟨isWalkAll.answered, isWalkAll.ordered, fun place => ?_⟩
  cases place with
  | nil =>
      refine iff_of_false ?_ (fun root => root.1 rfl)
      rintro ⟨goesOn, member⟩
      rcases isWalkAll.below _ member with ⟨offset, rest, isBelow⟩
      exact absurd isBelow (cons_ne_nil _ _).symm
  | cons index rest =>
      have inside := isWalkAll.mem_iff index rest
      rw [Nat.zero_add, nil_append] at inside
      simp only [inside, reaches_iff]
      constructor
      · rintro ⟨child, found, isNode, onTheWay⟩
        refine ⟨cons_ne_nil _ _, by rw [RoseTree.nodeAt_cons found]; exact isNode, ?_⟩
        intro above below whole notRoot nonempty
        rcases exists_cons_of_ne_nil notRoot with ⟨head, above, rfl⟩
        rcases List.cons.inj whole with ⟨rfl, restEq⟩
        rw [RoseTree.nodeAt_cons found]
        exact onTheWay above below restEq nonempty
      · rintro ⟨-, isNode, onTheWay⟩
        rcases Option.isSome_iff_exists.mp isNode with ⟨node, nodeEq⟩
        rcases Option.bind_eq_some_iff.mp nodeEq with ⟨child, found, inChild⟩
        refine ⟨child, found, Option.isSome_iff_exists.mpr ⟨node, inChild⟩, ?_⟩
        intro above below whole nonempty
        have onward := onTheWay (index :: above) below (congrArg (index :: ·) whole)
          (cons_ne_nil _ _) nonempty
        rwa [RoseTree.nodeAt_cons found] at onward

end Walks

end Theory
