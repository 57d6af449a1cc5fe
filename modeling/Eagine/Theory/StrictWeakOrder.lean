import Mathlib.Data.List.Sort

/-!
# Strict weak orders

The comparisons that sorting and searching ask for. Different elements can be equivalent,
that is none of them is before the other one.
-/

namespace Theory

universe u v

/-- A comparison that is a strict weak order. -/
structure StrictWeakOrder (α : Type u) where
  before : α → α → Bool
  isStrictWeakOrder : IsStrictWeakOrder α fun a b => before a b = true

namespace StrictWeakOrder

variable {α : Type u} {β : Type v}

def ofLinearOrder (α : Type u) [LinearOrder α] : StrictWeakOrder α where
  before a b := decide (a < b)
  isStrictWeakOrder := by
    simp only [decide_eq_true_eq]
    exact isStrictWeakOrder_of_isOrderConnected

/-- The comparison by a key. -/
def on (order : StrictWeakOrder β) (key : α → β) : StrictWeakOrder α where
  before a b := order.before (key a) (key b)
  isStrictWeakOrder :=
    letI := order.isStrictWeakOrder
    inferInstanceAs (IsStrictWeakOrder α (Function.onFun (fun a b => order.before a b = true) key))

variable (order : StrictWeakOrder α)

/-- None of the two is before the other one. -/
def Equivalent (a b : α) : Prop :=
  order.before a b = false ∧ order.before b a = false

instance (a b : α) : Decidable (order.Equivalent a b) :=
  inferInstanceAs (Decidable (_ ∧ _))

variable {order} {a b c : α}

theorem irrefl (a : α) : order.before a a = false :=
  Bool.eq_false_iff.mpr (order.isStrictWeakOrder.irrefl a)

theorem trans (first : order.before a b = true) (second : order.before b c = true) :
    order.before a c = true :=
  order.isStrictWeakOrder.trans a b c first second

theorem asymm (less : order.before a b = true) : order.before b a = false := by
  by_contra greater
  have loop := trans less (Bool.not_eq_false _ ▸ greater)
  rw [irrefl] at loop
  exact Bool.false_ne_true loop

namespace Equivalent

theorem refl (a : α) : order.Equivalent a a :=
  ⟨irrefl a, irrefl a⟩

theorem symm (same : order.Equivalent a b) : order.Equivalent b a :=
  ⟨same.2, same.1⟩

theorem trans (first : order.Equivalent a b) (second : order.Equivalent b c) :
    order.Equivalent a c := by
  have composed := order.isStrictWeakOrder.incomp_trans a b c
  simp only [Bool.not_eq_true] at composed
  exact composed first second

end Equivalent

/-- Everything is after the lesser one or before the greater one of two elements. -/
theorem before_or_before (less : order.before a c = true) (b : α) :
    order.before a b = true ∨ order.before b c = true := by
  by_contra neither
  simp only [not_or, Bool.not_eq_true] at neither
  rcases neither with ⟨notAfter, notBefore⟩
  have back : order.before b a = false := by
    by_contra before
    have composed := trans (Bool.not_eq_false _ ▸ before) less
    rw [notBefore] at composed
    exact Bool.false_ne_true composed
  have forth : order.before c b = false := by
    by_contra before
    have composed := trans less (Bool.not_eq_false _ ▸ before)
    rw [notAfter] at composed
    exact Bool.false_ne_true composed
  have same : order.Equivalent a c := Equivalent.trans ⟨notAfter, back⟩ ⟨notBefore, forth⟩
  rw [same.1] at less
  exact Bool.false_ne_true less

/-- An order whose equivalent elements are equal is a linear one. -/
theorem isStrictTotalOrder (equal : ∀ a b, order.Equivalent a b → a = b) :
    IsStrictTotalOrder α fun a b => order.before a b = true :=
  letI := order.isStrictWeakOrder
  { trichotomous := fun a b notBefore notAfter =>
      equal a b ⟨Bool.eq_false_iff.mpr notBefore, Bool.eq_false_iff.mpr notAfter⟩ }

/-- No element is before one that comes earlier. -/
def Sorted (order : StrictWeakOrder α) (list : List α) : Prop :=
  list.Pairwise fun a b => order.before b a = false

def StrictlySorted (order : StrictWeakOrder α) (list : List α) : Prop :=
  list.Pairwise fun a b => order.before a b = true

theorem StrictlySorted.sorted {list : List α} (strict : order.StrictlySorted list) :
    order.Sorted list :=
  strict.imp asymm

/-- A sorted list is strictly sorted if no two of its elements are equivalent. -/
theorem Sorted.strictlySorted_iff {list : List α} (sorted : order.Sorted list) :
    order.StrictlySorted list ↔ list.Pairwise fun a b => ¬order.Equivalent a b := by
  constructor
  · intro strict
    refine strict.imp fun {a b} less (same : order.Equivalent a b) => ?_
    exact Bool.false_ne_true (same.1.symm.trans less)
  · intro different
    refine (sorted.and different).imp fun {a b} ⟨notAfter, notSame⟩ => ?_
    by_contra notBefore
    exact notSame ⟨Bool.not_eq_true _ ▸ notBefore, notAfter⟩

/-! ## Searching

The elements of a sorted list that are before a key come first, and so do those that are not
after it. -/

section Search

variable {order : StrictWeakOrder β} {key : α → β} {list : List α}

theorem Sorted.pairwise_before (sorted : (order.on key).Sorted list) (k : β) :
    list.Pairwise fun a b => order.before (key b) k = true → order.before (key a) k = true := by
  refine sorted.imp fun {a b} notBefore before => ?_
  rcases before_or_before before (key a) with less | less
  · exact absurd (notBefore.symm.trans less) Bool.false_ne_true
  · exact less

theorem Sorted.pairwise_not_after (sorted : (order.on key).Sorted list) (k : β) :
    list.Pairwise fun a b =>
      (!order.before k (key b)) = true → (!order.before k (key a)) = true := by
  refine sorted.imp fun {a b} notBefore notAfter => ?_
  rw [Bool.not_eq_true'] at notAfter ⊢
  by_contra after
  rcases before_or_before (Bool.not_eq_false _ ▸ after) (key b) with less | less
  · exact Bool.false_ne_true (notAfter.symm.trans less)
  · exact Bool.false_ne_true (notBefore.symm.trans less)

/-- An element can be inserted between those that are not after it and those that are not
before it. -/
theorem Sorted.insert {order : StrictWeakOrder α} {front back : List α} {value : α}
    (sorted : order.Sorted (front ++ back)) (notAfter : ∀ e ∈ front, order.before value e = false)
    (notBefore : ∀ e ∈ back, order.before e value = false) :
    order.Sorted (front ++ value :: back) := by
  rcases List.pairwise_append.mp sorted with ⟨sortedFront, sortedBack, across⟩
  refine List.pairwise_append.mpr ⟨sortedFront, List.pairwise_cons.mpr ⟨notBefore, sortedBack⟩, ?_⟩
  exact fun e inFront => List.forall_mem_cons.mpr ⟨notAfter e inFront, across e inFront⟩

theorem StrictlySorted.insert {order : StrictWeakOrder α} {front back : List α} {value : α}
    (strict : order.StrictlySorted (front ++ back))
    (before : ∀ e ∈ front, order.before e value = true)
    (after : ∀ e ∈ back, order.before value e = true) :
    order.StrictlySorted (front ++ value :: back) := by
  rcases List.pairwise_append.mp strict with ⟨strictFront, strictBack, across⟩
  refine List.pairwise_append.mpr ⟨strictFront, List.pairwise_cons.mpr ⟨after, strictBack⟩, ?_⟩
  exact fun e inFront => List.forall_mem_cons.mpr ⟨before e inFront, across e inFront⟩

end Search

end StrictWeakOrder

/-- A sorting function, as that of the standard library: the order of equivalent elements is
not specified. -/
structure SortFunction {α : Type u} (order : StrictWeakOrder α) where
  sort : List α → List α
  perm : ∀ list, (sort list).Perm list
  sorted : ∀ list, order.Sorted (sort list)

/-- Sorting by insertion is one of them. -/
def SortFunction.insertion {α : Type u} (order : StrictWeakOrder α) : SortFunction order where
  sort := List.insertionSort fun a b => order.before b a = false
  perm := List.perm_insertionSort _
  sorted := by
    have total : Std.Total fun a b : α => order.before b a = false := by
      refine ⟨fun a b => ?_⟩
      cases greater : order.before b a with
      | true => exact Or.inr (StrictWeakOrder.asymm greater)
      | false => exact Or.inl rfl
    have trans : IsTrans α fun a b => order.before b a = false := by
      refine ⟨fun a b c first second => ?_⟩
      by_contra greater
      rcases StrictWeakOrder.before_or_before (Bool.not_eq_false _ ▸ greater) b with less | less
      · exact Bool.false_ne_true (second.symm.trans less)
      · exact Bool.false_ne_true (first.symm.trans less)
    exact List.pairwise_insertionSort _

end Theory
