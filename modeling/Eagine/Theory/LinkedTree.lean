import Mathlib.Data.List.Induction
import Mathlib.Data.List.Nodup

/-!
# Trees in a store of linked nodes

A store of numbered nodes whose labelled links form a tree with node 0 as its
root.  Every node has the path of the labels that lead to it.
-/

namespace Theory

open List

universe u

variable {ι : Type u}

/-- Follows the links by the labels as long as there are any.  The result is the
last node and the labels that were not followed. -/
def follow (child : Nat → ι → Option Nat) : Nat → List ι → Nat × List ι
  | node, [] => (node, [])
  | node, label :: labels =>
      match child node label with
      | some next => follow child next labels
      | none => (node, label :: labels)

/-- The links form a tree: there is one node for every path. -/
structure Linked (child : Nat → ι → Option Nat) (paths : List (List ι)) : Prop where
  root : paths[0]? = some []
  nodup : paths.Nodup
  parent {path : List ι} {label : ι} : path ++ [label] ∈ paths → path ∈ paths
  child_eq_some_iff {node : Nat} {path : List ι} : paths[node]? = some path →
    ∀ {label : ι} {next : Nat},
      child node label = some next ↔ paths[next]? = some (path ++ [label])

variable {path : List ι} {node : Nat}

/-- What comes with the words that are one label shorter comes with all beginnings. -/
theorem mem_of_append_mem {words : List (List ι)}
    (parent : ∀ {path : List ι} {label : ι}, path ++ [label] ∈ words → path ∈ words) {more : List ι}
    (member : path ++ more ∈ words) : path ∈ words := by
  induction more using List.reverseRecOn with
  | nil => simpa using member
  | append_singleton more label ih =>
      rw [← append_assoc] at member
      exact ih (parent member)

variable {child : Nat → ι → Option Nat} {paths : List (List ι)} {label : ι}

/-- Following the labels stops at a node without a link for the next one. -/
theorem child_follow {labels rest : List ι}
    (stopped : (follow child node labels).2 = label :: rest) :
    child (follow child node labels).1 label = none := by
  induction labels generalizing node with
  | nil => simp [follow] at stopped
  | cons first labels ih =>
      rw [follow] at stopped ⊢
      cases link : child node first with
      | some next =>
          rw [link] at stopped
          exact ih stopped
      | none =>
          rw [link] at stopped
          obtain ⟨rfl, -⟩ := List.cons.inj stopped
          exact link

/-- Labels that are followed to their end lead to the node that others are followed from. -/
theorem follow_append_of_nil {front : List ι} (whole : (follow child node front).2 = [])
    (back : List ι) :
    follow child node (front ++ back) = follow child (follow child node front).1 back := by
  induction front generalizing node with
  | nil => rfl
  | cons label front ih =>
      rw [follow] at whole
      rw [cons_append, follow, follow]
      cases link : child node label with
      | some next =>
          rw [link] at whole
          exact ih whole
      | none =>
          rw [link] at whole
          exact absurd whole (cons_ne_nil label front)

/-- Where labels are not followed to their end, others behind them are not followed. -/
theorem follow_append_of_cons {front rest : List ι}
    (stopped : (follow child node front).2 = label :: rest) (back : List ι) :
    follow child node (front ++ back) =
      ((follow child node front).1, label :: (rest ++ back)) := by
  induction front generalizing node with
  | nil => exact absurd stopped.symm (cons_ne_nil label rest)
  | cons first front ih =>
      rw [follow] at stopped
      rw [cons_append, follow, follow]
      cases link : child node first with
      | some next =>
          rw [link] at stopped
          exact ih stopped
      | none =>
          rw [link] at stopped
          rcases List.cons.inj stopped with ⟨rfl, rfl⟩
          rfl

namespace Linked

/-- The labels that were followed are the path of the last node. -/
theorem follow_path (linked : Linked child paths) (atNode : paths[node]? = some path)
    (labels : List ι) :
    ∃ followed, labels = followed ++ (follow child node labels).2 ∧
      paths[(follow child node labels).1]? = some (path ++ followed) := by
  induction labels generalizing node path with
  | nil => exact ⟨[], rfl, by simpa [follow] using atNode⟩
  | cons label labels ih =>
      rw [follow]
      cases link : child node label with
      | none => exact ⟨[], rfl, by simpa using atNode⟩
      | some next =>
          obtain ⟨followed, labelsEq, last⟩ := ih ((linked.child_eq_some_iff atNode).mp link)
          refine ⟨label :: followed, congrArg (label :: ·) labelsEq, ?_⟩
          rw [last, append_assoc]
          rfl

/-- With a path come its beginnings. -/
theorem mem_of_append (linked : Linked child paths) {more : List ι}
    (member : path ++ more ∈ paths) : path ∈ paths :=
  mem_of_append_mem linked.parent member

theorem child_eq_none_iff (linked : Linked child paths) (atNode : paths[node]? = some path)
    : child node label = none ↔ path ++ [label] ∉ paths := by
  rw [Option.eq_none_iff_forall_ne_some, mem_iff_getElem?]
  simp only [ne_eq, linked.child_eq_some_iff atNode, not_exists]

/-- A node is reached by its path and by no other labels. -/
theorem follow_eq_iff (linked : Linked child paths) {labels : List ι} :
    follow child 0 labels = (node, []) ↔ paths[node]? = some labels := by
  obtain ⟨followed, labelsEq, last⟩ := linked.follow_path linked.root labels
  rw [nil_append] at last
  constructor
  · intro reached
    rw [reached, append_nil] at labelsEq
    rw [reached, ← labelsEq] at last
    exact last
  · intro atNode
    have whole : (follow child 0 labels).2 = [] := by
      cases stopped : (follow child 0 labels).2 with
      | nil => rfl
      | cons label rest =>
          have absent := (linked.child_eq_none_iff last).mp (child_follow stopped)
          have member : labels ∈ paths := mem_of_getElem? atNode
          rw [labelsEq, stopped, append_cons] at member
          exact absurd (linked.mem_of_append member) absent
    rw [whole, append_nil] at labelsEq
    have same : (follow child 0 labels).1 = node := by
      have inside : (follow child 0 labels).1 < paths.length :=
        (List.getElem?_eq_some_iff.mp last).1
      exact (getElem?_inj inside linked.nodup).mp (by rw [last, atNode, ← labelsEq])
    rw [← same, ← whole]

/-- Labels that are not a path are not followed to their end. -/
theorem follow_ne_nil (linked : Linked child paths) {labels : List ι}
    (absent : labels ∉ paths) : (follow child 0 labels).2 ≠ [] := by
  intro whole
  have reached : follow child 0 labels = ((follow child 0 labels).1, []) :=
    Prod.ext rfl whole
  exact absent (mem_of_getElem? (linked.follow_eq_iff.mp reached))

variable {child' : Nat → ι → Option Nat}

/-- Links of other nodes make no difference. -/
theorem follow_congr (linked : Linked child paths)
    (same : ∀ node label, node < paths.length → child' node label = child node label)
    (atNode : paths[node]? = some path) (labels : List ι) :
    follow child' node labels = follow child node labels := by
  induction labels generalizing node path with
  | nil => rfl
  | cons label labels ih =>
      have inside : node < paths.length := (List.getElem?_eq_some_iff.mp atNode).1
      rw [follow, follow, same node label inside]
      cases link : child node label with
      | none => rfl
      | some next => exact ih ((linked.child_eq_some_iff atNode).mp link)

theorem getElem?_append_singleton_eq_some_iff {α : Type u} {list : List α} {last a : α}
    {index : Nat} :
    (list ++ [last])[index]? = some a ↔
      list[index]? = some a ∨ index = list.length ∧ last = a := by
  rcases Nat.lt_trichotomy index list.length with inside | rfl | outside
  · rw [getElem?_append_left inside]
    simp [Nat.ne_of_lt inside]
  · simp
  · have noElement : list[index]? = none := getElem?_eq_none (Nat.le_of_lt outside)
    have noElement' : (list ++ [last])[index]? = none :=
      getElem?_eq_none (length_append ▸ outside)
    simp [noElement, noElement', Nat.ne_of_gt outside]

/-- A new node is linked to a node that has no link for the label. -/
theorem add (linked : Linked child paths)
    (atNode : paths[node]? = some path) (free : child node label = none)
    (new : child' node label = some paths.length) (same : ∀ other otherLabel, other < paths.length →
      ¬(other = node ∧ otherLabel = label) → child' other otherLabel = child other otherLabel)
    (leaf : ∀ otherLabel, child' paths.length otherLabel = none) :
    Linked child' (paths ++ [path ++ [label]]) := by
  have absent : path ++ [label] ∉ paths := (linked.child_eq_none_iff atNode).mp free
  constructor
  case root =>
      exact getElem?_append_singleton_eq_some_iff.mpr (Or.inl linked.root)
  case nodup =>
      exact nodup_append_comm.mp (nodup_cons.mpr ⟨absent, linked.nodup⟩)
  case parent =>
      intro other otherLabel member
      rw [mem_append, mem_singleton] at member ⊢
      rcases member with old | added
      · exact Or.inl (linked.parent old)
      · obtain ⟨rfl, -⟩ := append_inj' added rfl
        exact Or.inl (mem_of_getElem? atNode)
  case child_eq_some_iff =>
      intro other otherPath atOther otherLabel next
      rw [getElem?_append_singleton_eq_some_iff] at atOther ⊢
      rcases atOther with old | ⟨rfl, rfl⟩
      · have inside : other < paths.length := (List.getElem?_eq_some_iff.mp old).1
        by_cases linkHere : other = node ∧ otherLabel = label
        · obtain ⟨rfl, rfl⟩ := linkHere
          have pathEq : path = otherPath := Option.some.inj (atNode.symm.trans old)
          subst pathEq
          have notOld : paths[next]? ≠ some (path ++ [otherLabel]) :=
            fun found => absent (mem_of_getElem? found)
          simp [new, notOld, eq_comm]
        · have notNew : ¬path ++ [label] = otherPath ++ [otherLabel] := by
            intro added
            obtain ⟨rfl, labelEq⟩ := append_inj' added rfl
            have nodeEq := (getElem?_inj inside linked.nodup).mp (old.trans atNode.symm)
            exact linkHere ⟨nodeEq, (singleton_inj.mp labelEq).symm⟩
          rw [same other otherLabel inside linkHere, linked.child_eq_some_iff old]
          simp [notNew]
      · have notOld : paths[next]? ≠ some (path ++ [label] ++ [otherLabel]) :=
          fun found => absent (linked.parent (mem_of_getElem? found))
        rw [leaf]
        simpa using notOld

end Linked

end Theory
