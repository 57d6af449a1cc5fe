import Eagine.Theory.LinkedTree
import Mathlib.Algebra.Order.BigOperators.Group.List
import Mathlib.Algebra.Order.Ring.Nat

/-!
# Walks through trees of words

Words that come with all their beginnings form a tree.  A walk through it visits a word
first, and once more behind every word that is one label longer.
-/

namespace Theory

open List

universe u v

variable {ι : Type u} {V : Type v}

/-- A set of words with all their beginnings, and the labels in their order. -/
structure WordTree (ι : Type u) [LT ι] where
  words : List (List ι)
  labels : List ι
  parent {path : List ι} {label : ι} : path ++ [label] ∈ words → path ∈ words
  labelled {path : List ι} {label : ι} : path ++ [label] ∈ words → label ∈ labels
  increasing : labels.Pairwise (· < ·)

/-- What a walk visits after its first visit of a word: for every longer word the visits
there, and then the word again. -/
def revisits [DecidableEq ι] (words : List (List ι)) (below : List ι → List (List ι))
    (path labels : List ι) : List (List ι) :=
  labels.flatMap fun label =>
    if path ++ [label] ∈ words then below (path ++ [label]) ++ [path] else []

/-- The values that are met by visits, each with its word. -/
def met (values : List ι → Option V) (visited : List (List ι)) : List (List ι × V) :=
  visited.filterMap fun word => (values word).map (Prod.mk word)

section Revisits

variable [DecidableEq ι] {words : List (List ι)} {below : List ι → List (List ι)}
  {path : List ι}

theorem revisits_append (front back : List ι) :
    revisits words below path (front ++ back) =
      revisits words below path front ++ revisits words below path back :=
  flatMap_append

theorem revisits_eq_nil {labels : List ι}
    (leaf : ∀ label ∈ labels, path ++ [label] ∉ words) :
    revisits words below path labels = [] := by
  rw [revisits, flatMap_eq_nil_iff]
  intro label member
  exact if_neg (leaf label member)

theorem revisits_cons_of_mem {label : ι} (member : path ++ [label] ∈ words) (labels : List ι) :
    revisits words below path (label :: labels) =
      below (path ++ [label]) ++ path :: revisits words below path labels := by
  rw [revisits, flatMap_cons, if_pos member, append_assoc]
  rfl

theorem mem_revisits_iff {labels word : List ι} :
    word ∈ revisits words below path labels ↔
      ∃ label ∈ labels, path ++ [label] ∈ words ∧
        (word ∈ below (path ++ [label]) ∨ word = path) := by
  rw [revisits, mem_flatMap]
  refine exists_congr fun label => and_congr_right fun _ => ?_
  by_cases member : path ++ [label] ∈ words
  · simp [member]
  · simp [member]

/-- What is visited at a longer word is a part of what is visited. -/
theorem sublist_revisits (below : List ι → List (List ι)) {labels : List ι} {label : ι}
    (isLabel : label ∈ labels) (member : path ++ [label] ∈ words) :
    (below (path ++ [label]) ++ [path]).Sublist (revisits words below path labels) := by
  rcases append_of_mem isLabel with ⟨front, back, rfl⟩
  have whole : revisits words below path (front ++ label :: back) =
      revisits words below path front ++ (below (path ++ [label]) ++ [path] ++
        revisits words below path back) := by
    rw [revisits_append, revisits_cons_of_mem member, ← append_cons]
  rw [whole]
  exact (sublist_append_left _ _).trans (sublist_append_right _ _)

end Revisits

variable {values : List ι → Option V}

theorem mem_met_iff {visited : List (List ι)} {word : List ι}
    {value : V} : (word, value) ∈ met values visited ↔ word ∈ visited ∧ values word = some value := by
  rw [met, mem_filterMap]
  constructor
  · rintro ⟨other, member, entry⟩
    rcases Option.map_eq_some_iff.mp entry with ⟨found, isValue, same⟩
    rcases Prod.mk.inj same with ⟨rfl, rfl⟩
    exact ⟨member, isValue⟩
  · rintro ⟨member, isValue⟩
    exact ⟨word, member, Option.map_eq_some_iff.mpr ⟨value, isValue, rfl⟩⟩

/-- The words of the met values are the visited ones with a value. -/
theorem map_fst_met (values : List ι → Option V) (visited : List (List ι)) :
    (met values visited).map Prod.fst = visited.filter fun word => (values word).isSome := by
  induction visited with
  | nil => rfl
  | cons word visited ih =>
      rw [met] at ih
      rw [met, filterMap_cons, filter_cons]
      cases value : values word with
      | none => simpa using ih
      | some found => simpa using ih

theorem met_append (values : List ι → Option V) (front back : List (List ι)) :
    met values (front ++ back) = met values front ++ met values back :=
  filterMap_append

namespace WordTree

variable [LT ι]

/-- The words below a word are not higher. -/
def Within (tree : WordTree ι) (height : Nat) (path : List ι) : Prop :=
  ∀ word ∈ tree.words, path <+: word → word.length ≤ path.length + height

variable {tree : WordTree ι} {height : Nat} {path word : List ι} {label : ι}

theorem mem_of_prefix (beginning : path <+: word) (member : word ∈ tree.words) :
    path ∈ tree.words := by
  rcases beginning with ⟨more, rfl⟩
  exact mem_of_append_mem tree.parent member

theorem Within.leaf (within : tree.Within 0 path) (label : ι) :
    path ++ [label] ∉ tree.words := by
  intro member
  have high := within _ member (prefix_append _ _)
  rw [length_append, length_singleton] at high
  omega

theorem Within.below (within : tree.Within (height + 1) path) (label : ι) :
    tree.Within height (path ++ [label]) := by
  intro word member beginning
  have high := within word member ((prefix_append _ _).trans beginning)
  rw [length_append, length_singleton]
  omega

theorem exists_within (tree : WordTree ι) : ∃ height, tree.Within height [] := by
  refine ⟨(tree.words.map List.length).sum, fun word member _ => ?_⟩
  have high : word.length ≤ (tree.words.map List.length).sum :=
    le_sum_of_mem (mem_map_of_mem member)
  exact high.trans (Nat.le_add_left _ _)

/-- A longer word goes through one of the words that are one label longer. -/
theorem exists_label (member : word ∈ tree.words) (beginning : path <+: word) :
    word = path ∨
      ∃ label ∈ tree.labels, path ++ [label] ∈ tree.words ∧ path ++ [label] <+: word := by
  rcases beginning with ⟨more, rfl⟩
  cases more with
  | nil => exact Or.inl (append_nil path)
  | cons label more =>
      have through : path ++ [label] <+: path ++ label :: more :=
        ⟨more, (append_cons path label more).symm⟩
      have inner : path ++ [label] ∈ tree.words := mem_of_prefix through member
      exact Or.inr ⟨label, tree.labelled inner, inner, through⟩

theorem lt_of_labels_lt {label' : ι} {word' : List ι} (less : label < label')
    (through : path ++ [label] <+: word) (through' : path ++ [label'] <+: word') :
    word < word' := by
  rcases through with ⟨more, rfl⟩
  rcases through' with ⟨more', rfl⟩
  rw [append_assoc, append_assoc]
  exact append_left_lt (cons_lt_cons_iff.mpr (Or.inl less))

variable [DecidableEq ι]

/-- The visits at a word and below it, up to a height. -/
def visits (tree : WordTree ι) : Nat → List ι → List (List ι)
  | 0, path => [path]
  | height + 1, path => path :: revisits tree.words (tree.visits height) path tree.labels

theorem mem_visits_self (tree : WordTree ι) (height : Nat) (path : List ι) :
    path ∈ tree.visits height path := by
  cases height with
  | zero => exact List.mem_singleton_self path
  | succ height => exact mem_cons_self

theorem prefix_of_mem_visits (visited : word ∈ tree.visits height path) : path <+: word := by
  induction height generalizing path with
  | zero =>
      obtain rfl := mem_singleton.mp visited
      exact prefix_rfl
  | succ height ih =>
      rcases mem_cons.mp visited with rfl | again
      · exact prefix_rfl
      · rcases mem_revisits_iff.mp again with ⟨label, -, -, inside | rfl⟩
        · exact (prefix_append _ _).trans (ih inside)
        · exact prefix_rfl

/-- All words below are visited, and no others. -/
theorem mem_visits_iff (within : tree.Within height path) (member : path ∈ tree.words) :
    word ∈ tree.visits height path ↔ word ∈ tree.words ∧ path <+: word := by
  induction height generalizing path with
  | zero =>
      constructor
      · intro visited
        obtain rfl := mem_singleton.mp visited
        exact ⟨member, prefix_rfl⟩
      · rintro ⟨isWord, beginning⟩
        rcases exists_label isWord beginning with rfl | ⟨label, -, inner, -⟩
        · exact List.mem_singleton_self _
        · exact absurd inner (within.leaf label)
  | succ height ih =>
      rw [visits, mem_cons, mem_revisits_iff]
      constructor
      · rintro (rfl | ⟨label, -, inner, visited | rfl⟩)
        · exact ⟨member, prefix_rfl⟩
        · rcases (ih (within.below label) inner).mp visited with ⟨isWord, through⟩
          exact ⟨isWord, (prefix_append _ _).trans through⟩
        · exact ⟨member, prefix_rfl⟩
      · rintro ⟨isWord, beginning⟩
        rcases exists_label isWord beginning with rfl | ⟨label, isLabel, inner, through⟩
        · exact Or.inl rfl
        · have visited := (ih (within.below label) inner).mpr ⟨isWord, through⟩
          exact Or.inr ⟨label, isLabel, inner, Or.inl visited⟩

/-- An inner word is visited more than once. -/
theorem twice_of_inner (within : tree.Within height path) (beginning : path <+: word)
    (inner : word ++ [label] ∈ tree.words) :
    [word, word].Sublist (tree.visits height path) := by
  induction height generalizing path with
  | zero =>
      rcases exists_label (tree.parent inner) beginning with rfl | ⟨other, -, longer, -⟩
      · exact absurd inner (within.leaf label)
      · exact absurd longer (within.leaf other)
  | succ height ih =>
      rw [visits]
      rcases exists_label (tree.parent inner) beginning with rfl | ⟨other, isLabel, longer, through⟩
      · have again := sublist_revisits (tree.visits height) (tree.labelled inner) inner
        exact ((sublist_append_right _ _).trans again).cons_cons word
      · have below := ih (within.below other) through
        have part := sublist_revisits (tree.visits height) isLabel longer
        exact ((below.trans (sublist_append_left _ _)).trans part).cons path

/-- What is chosen of the visits for a label goes through it, if the word itself is not
chosen. -/
theorem prefix_of_mem_chosen {chosen : List ι → Bool} (here : chosen path = false)
    (visited : word ∈ (if path ++ [label] ∈ tree.words then
      tree.visits height (path ++ [label]) ++ [path] else []).filter chosen) :
    path ++ [label] <+: word := by
  rcases mem_filter.mp visited with ⟨member, isChosen⟩
  split at member
  case isTrue =>
      rcases mem_append.mp member with inside | again
      · exact prefix_of_mem_visits inside
      · rw [mem_singleton.mp again, here] at isChosen
        exact absurd isChosen Bool.false_ne_true
  case isFalse => exact absurd member not_mem_nil

/-- The visited leaves are in the order of the words. -/
theorem pairwise_filter_visits {chosen : List ι → Bool}
    (leaves : ∀ word, chosen word = true → ∀ label, word ++ [label] ∉ tree.words) :
    ((tree.visits height path).filter chosen).Pairwise (· < ·) := by
  induction height generalizing path with
  | zero => exact (pairwise_singleton _ path).filter _
  | succ height ih =>
      rw [visits]
      cases here : chosen path with
      | true =>
          rw [revisits_eq_nil fun label _ => leaves path here label]
          exact (pairwise_singleton _ path).filter _
      | false =>
          rw [filter_cons_of_neg (ne_true_of_eq_false here), revisits, filter_flatMap,
            pairwise_flatMap]
          constructor
          · intro label _
            split
            · rw [filter_append, filter_cons_of_neg (ne_true_of_eq_false here),
                filter_nil, append_nil]
              exact ih
            · exact List.Pairwise.nil
          · refine tree.increasing.imp fun {label label'} less => ?_
            intro word visited word' visited'
            exact lt_of_labels_lt less (prefix_of_mem_chosen here visited)
              (prefix_of_mem_chosen here visited')

/-- The values of a walk are met once and in the order of the words exactly where only
leaves have values. -/
theorem pairwise_met_visits_iff [Std.Irrefl fun first second : ι => first < second]
    (within : tree.Within height []) :
    ((met values (tree.visits height [])).map Prod.fst).Pairwise (· < ·) ↔
      ∀ word, (values word).isSome → ∀ label, word ++ [label] ∉ tree.words := by
  rw [map_fst_met]
  constructor
  · intro increasing word hasValue label inner
    have twice := twice_of_inner within nil_prefix inner
    have bothMet : [word, word].Sublist
        ((tree.visits height []).filter fun word => (values word).isSome) := by
      have all : [word, word].filter (fun word => (values word).isSome) = [word, word] := by
        simp [hasValue]
      rw [← all]
      exact twice.filter _
    have less := increasing.sublist bothMet
    exact List.lt_irrefl word (List.rel_of_pairwise_cons less (List.mem_singleton_self word))
  · intro leaves
    exact pairwise_filter_visits leaves

end WordTree

end Theory
