import Mathlib.Algebra.BigOperators.Group.List.Basic
import Mathlib.Algebra.Order.Ring.Int

/-!
# Sparse exponents

Products of powers of different bases as lists of the bases with their exponents, sorted by a
rank of the bases. The exponents determine the list, and lists are added by merging them.
-/

open List

namespace Theory.Exponents

universe u v

variable {κ : Type u}

/-- The bases are strictly sorted, and no exponent is zero. -/
structure Normal (rank : κ → ℕ) (terms : List (κ × ℤ)) : Prop where
  sorted : terms.Pairwise fun first second => rank first.1 < rank second.1
  nonzero : ∀ term ∈ terms, term.2 ≠ 0

variable [DecidableEq κ]

/-- The exponent of a base. -/
def coeff (key : κ) : List (κ × ℤ) → ℤ
  | [] => 0
  | term :: terms => if key = term.1 then term.2 else coeff key terms

def neg (terms : List (κ × ℤ)) : List (κ × ℤ) :=
  terms.map fun term => (term.1, -term.2)

/-- Terms of one base are added, and left out where they cancel. -/
def add (rank : κ → ℕ) : List (κ × ℤ) → List (κ × ℤ) → List (κ × ℤ)
  | [], second => second
  | first, [] => first
  | (k, p) :: first, (l, q) :: second =>
      if k = l then
        if p + q = 0 then add rank first second else (k, p + q) :: add rank first second
      else if rank k < rank l then (k, p) :: add rank first ((l, q) :: second)
      else (l, q) :: add rank ((k, p) :: first) second
termination_by first second => first.length + second.length

variable {rank : κ → ℕ}

@[simp]
theorem coeff_nil (key : κ) : coeff key [] = 0 :=
  rfl

theorem coeff_cons (key : κ) (term : κ × ℤ) (terms : List (κ × ℤ)) :
    coeff key (term :: terms) = if key = term.1 then term.2 else coeff key terms :=
  rfl

@[simp]
theorem coeff_neg (key : κ) (terms : List (κ × ℤ)) : coeff key (neg terms) = -coeff key terms := by
  induction terms with
  | nil => rfl
  | cons term terms ih =>
      rw [neg, map_cons, coeff_cons, coeff_cons]
      split
      · rfl
      · exact ih

@[simp]
theorem add_nil (terms : List (κ × ℤ)) : add rank terms [] = terms := by
  cases terms <;> simp [add]

variable {terms first second : List (κ × ℤ)} {term : κ × ℤ}

theorem coeff_eq_zero {key : κ} (missing : ∀ term ∈ terms, term.1 ≠ key) : coeff key terms = 0 := by
  induction terms with
  | nil => rfl
  | cons term terms ih =>
      rcases forall_mem_cons.mp missing with ⟨other, others⟩
      rw [coeff_cons, if_neg other.symm, ih others]

omit [DecidableEq κ] in
theorem Normal.cons :
    Normal rank (term :: terms) ↔
      term.2 ≠ 0 ∧ (∀ other ∈ terms, rank term.1 < rank other.1) ∧ Normal rank terms := by
  constructor
  · rintro ⟨sorted, nonzero⟩
    rcases pairwise_cons.mp sorted with ⟨less, sortedTail⟩
    rcases forall_mem_cons.mp nonzero with ⟨headNonzero, tailNonzero⟩
    exact ⟨headNonzero, less, sortedTail, tailNonzero⟩
  · rintro ⟨headNonzero, less, normal⟩
    exact ⟨pairwise_cons.mpr ⟨less, normal.sorted⟩,
      forall_mem_cons.mpr ⟨headNonzero, normal.nonzero⟩⟩

omit [DecidableEq κ] in
theorem normal_nil : Normal rank ([] : List (κ × ℤ)) :=
  ⟨List.Pairwise.nil, fun _ within => absurd within not_mem_nil⟩

omit [DecidableEq κ] in
theorem Normal.neg (normal : Normal rank terms) : Normal rank (neg terms) := by
  constructor
  · exact pairwise_map.mpr normal.sorted
  · intro term within
    rcases mem_map.mp within with ⟨original, inTerms, rfl⟩
    exact neg_ne_zero.mpr (normal.nonzero original inTerms)

/-- The base of the first term is not among the others. -/
theorem Normal.coeff_tail (less : ∀ other ∈ terms, rank term.1 < rank other.1) :
    coeff term.1 terms = 0 := by
  apply coeff_eq_zero
  intro other within same
  exact (less other within).ne (congrArg rank same.symm)

theorem Normal.coeff_head (normal : Normal rank (term :: terms)) :
    coeff term.1 (term :: terms) ≠ 0 := by
  rw [coeff_cons, if_pos rfl]
  exact (Normal.cons.mp normal).1

/-- Another base with an exponent has a term behind the first one. -/
theorem Normal.lt_of_coeff_ne_zero (normal : Normal rank (term :: terms)) {key : κ}
    (other : key ≠ term.1) (nonzero : coeff key (term :: terms) ≠ 0) : rank term.1 < rank key := by
  rw [coeff_cons, if_neg other] at nonzero
  have within : ∃ e ∈ terms, e.1 = key := by
    by_contra missing
    exact nonzero (coeff_eq_zero fun e within same => missing ⟨e, within, same⟩)
  rcases within with ⟨e, inTerms, rfl⟩
  exact (Normal.cons.mp normal).2.1 e inTerms

/-- A base before the first one has no term. -/
theorem Normal.coeff_of_lt (normal : Normal rank (term :: terms)) {key : κ}
    (less : rank key < rank term.1) : coeff key (term :: terms) = 0 := by
  by_contra nonzero
  have other : key ≠ term.1 := fun same => less.ne (congrArg rank same)
  exact less.asymm (normal.lt_of_coeff_ne_zero other nonzero)

/-- The same exponents have the same first base. -/
theorem Normal.head_eq {other : κ × ℤ} (normal : Normal rank (term :: first))
    (normal' : Normal rank (other :: second))
    (same : ∀ key, coeff key (term :: first) = coeff key (other :: second)) : term.1 = other.1 := by
  by_contra different
  have up := normal.lt_of_coeff_ne_zero (Ne.symm different) (same other.1 ▸ normal'.coeff_head)
  have down := normal'.lt_of_coeff_ne_zero different (same term.1 ▸ normal.coeff_head)
  exact up.asymm down

/-- The exponents determine the terms. -/
theorem Normal.ext (normal : Normal rank first) (normal' : Normal rank second)
    (same : ∀ key, coeff key first = coeff key second) : first = second := by
  induction first generalizing second with
  | nil =>
      cases second with
      | nil => rfl
      | cons other second => exact absurd (same other.1).symm normal'.coeff_head
  | cons term first ih =>
      cases second with
      | nil => exact absurd (same term.1) normal.coeff_head
      | cons other second =>
          have keys := normal.head_eq normal' same
          rcases Normal.cons.mp normal with ⟨-, less, tail⟩
          rcases Normal.cons.mp normal' with ⟨-, otherLess, otherTail⟩
          have values : term.2 = other.2 := by
            have here := same term.1
            rw [coeff_cons, if_pos rfl, coeff_cons, if_pos keys] at here
            exact here
          have tails : first = second := by
            apply ih tail otherTail
            intro key
            by_cases isKey : key = term.1
            · rw [isKey, Normal.coeff_tail less, keys, Normal.coeff_tail otherLess]
            · have rest := same key
              rw [coeff_cons, if_neg isKey, coeff_cons, if_neg (keys ▸ isKey)] at rest
              exact rest
          rw [tails, Prod.ext keys values]

/-- A sum only has the bases of the two lists. -/
theorem forall_add {P : κ → Prop} (inFirst : ∀ term ∈ first, P term.1)
    (inSecond : ∀ term ∈ second, P term.1) : ∀ term ∈ add rank first second, P term.1 := by
  induction first, second using add.induct rank with
  | case1 second => rwa [add]
  | case2 first => rwa [add_nil]
  | case3 p first l q second zero ih =>
      rw [add, if_pos rfl, if_pos zero]
      exact ih (forall_mem_cons.mp inFirst).2 (forall_mem_cons.mp inSecond).2
  | case4 p first l q second nonzero ih =>
      rw [add, if_pos rfl, if_neg nonzero]
      rcases forall_mem_cons.mp inFirst with ⟨head, tail⟩
      exact forall_mem_cons.mpr ⟨head, ih tail (forall_mem_cons.mp inSecond).2⟩
  | case5 k p first l q second different less ih =>
      rw [add, if_neg different, if_pos less]
      rcases forall_mem_cons.mp inFirst with ⟨head, tail⟩
      exact forall_mem_cons.mpr ⟨head, ih tail inSecond⟩
  | case6 k p first l q second different notLess ih =>
      rw [add, if_neg different, if_neg notLess]
      rcases forall_mem_cons.mp inSecond with ⟨head, tail⟩
      exact forall_mem_cons.mpr ⟨head, ih inFirst tail⟩

section Ranks

variable (injective : Function.Injective rank)

include injective

omit [DecidableEq κ] in
theorem rank_lt {k l : κ} (different : k ≠ l) (notLess : ¬rank k < rank l) : rank l < rank k :=
  Nat.lt_of_le_of_ne (Nat.le_of_not_lt notLess) fun same => different (injective same.symm)

theorem Normal.add (normal : Normal rank first) (normal' : Normal rank second) :
    Normal rank (add rank first second) := by
  induction first, second using Exponents.add.induct rank with
  | case1 second => rwa [Exponents.add]
  | case2 first => rwa [add_nil]
  | case3 p first l q second zero ih =>
      rw [Exponents.add, if_pos rfl, if_pos zero]
      exact ih (Normal.cons.mp normal).2.2 (Normal.cons.mp normal').2.2
  | case4 p first l q second nonzero ih =>
      rcases Normal.cons.mp normal with ⟨_, less, tail⟩
      rcases Normal.cons.mp normal' with ⟨_, less', tail'⟩
      rw [Exponents.add, if_pos rfl, if_neg nonzero]
      exact Normal.cons.mpr ⟨nonzero, forall_add (P := fun k => rank l < rank k) less less',
        ih tail tail'⟩
  | case5 k p first l q second different less ih =>
      rcases Normal.cons.mp normal with ⟨headNonzero, firstLess, tail⟩
      rcases Normal.cons.mp normal' with ⟨_, secondLess, _⟩
      rw [Exponents.add, if_neg different, if_pos less]
      refine Normal.cons.mpr ⟨headNonzero, ?_, ih tail normal'⟩
      apply forall_add (P := fun other => rank k < rank other) firstLess
      exact forall_mem_cons.mpr ⟨less, fun e within => less.trans (secondLess e within)⟩
  | case6 k p first l q second different notLess ih =>
      have greater := rank_lt injective different notLess
      rcases Normal.cons.mp normal with ⟨_, firstLess, _⟩
      rcases Normal.cons.mp normal' with ⟨headNonzero, secondLess, tail⟩
      rw [Exponents.add, if_neg different, if_neg notLess]
      refine Normal.cons.mpr ⟨headNonzero, ?_, ih normal tail⟩
      apply forall_add (P := fun other => rank l < rank other) ?_ secondLess
      exact forall_mem_cons.mpr ⟨greater, fun e within => greater.trans (firstLess e within)⟩

/-- The exponents are added. -/
theorem coeff_add (normal : Normal rank first) (normal' : Normal rank second) (key : κ) :
    coeff key (add rank first second) = coeff key first + coeff key second := by
  induction first, second using add.induct rank with
  | case1 second => rw [add, coeff_nil, zero_add]
  | case2 first => rw [add_nil, coeff_nil, add_zero]
  | case3 p first l q second zero ih =>
      rcases Normal.cons.mp normal with ⟨_, less, tail⟩
      rcases Normal.cons.mp normal' with ⟨_, less', tail'⟩
      rw [add, if_pos rfl, if_pos zero, ih tail tail', coeff_cons, coeff_cons]
      split
      · next isKey =>
          have first := Normal.coeff_tail less
          have second := Normal.coeff_tail less'
          rw [isKey, first, second, zero, add_zero]
      · rfl
  | case4 p first l q second nonzero ih =>
      rcases Normal.cons.mp normal with ⟨_, _, tail⟩
      rcases Normal.cons.mp normal' with ⟨_, _, tail'⟩
      rw [add, if_pos rfl, if_neg nonzero, coeff_cons, coeff_cons, coeff_cons, ih tail tail']
      split <;> rfl
  | case5 k p first l q second different less ih =>
      rcases Normal.cons.mp normal with ⟨_, _, tail⟩
      rw [add, if_neg different, if_pos less, coeff_cons, coeff_cons, ih tail normal']
      split
      · next isKey =>
          have missing : coeff key ((l, q) :: second) = 0 := normal'.coeff_of_lt (isKey ▸ less)
          rw [missing, add_zero]
      · rfl
  | case6 k p first l q second different notLess ih =>
      have less := rank_lt injective different notLess
      rcases Normal.cons.mp normal' with ⟨_, _, tail⟩
      rw [add, if_neg different, if_neg notLess, coeff_cons, ih normal tail, coeff_cons key (l, q)]
      split
      · next isKey =>
          have missing : coeff key ((k, p) :: first) = 0 := normal.coeff_of_lt (isKey ▸ less)
          rw [missing, zero_add]
      · rfl

end Ranks

section Powers

variable {G : Type v} [CommGroupWithZero G]

/-- The product of the powers of the bases. -/
def evaluate (value : κ → G) (terms : List (κ × ℤ)) : G :=
  (terms.map fun term => value term.1 ^ term.2).prod

omit [DecidableEq κ] in
@[simp]
theorem evaluate_nil (value : κ → G) : evaluate value [] = 1 :=
  rfl

omit [DecidableEq κ] in
@[simp]
theorem evaluate_cons (value : κ → G) (term : κ × ℤ) (terms : List (κ × ℤ)) :
    evaluate value (term :: terms) = value term.1 ^ term.2 * evaluate value terms :=
  prod_cons

omit [DecidableEq κ] in
theorem evaluate_neg (value : κ → G) (terms : List (κ × ℤ)) :
    evaluate value (neg terms) = (evaluate value terms)⁻¹ := by
  induction terms with
  | nil => exact inv_one.symm
  | cons term terms ih =>
      have negated : neg (term :: terms) = (term.1, -term.2) :: neg terms := rfl
      rw [negated, evaluate_cons, evaluate_cons, ih, mul_inv, zpow_neg]

/-- The value of a sum is the product of the values. -/
theorem evaluate_add {value : κ → G} (nonzero : ∀ key, value key ≠ 0)
    (first second : List (κ × ℤ)) :
    evaluate value (add rank first second) = evaluate value first * evaluate value second := by
  induction first, second using add.induct rank with
  | case1 second => rw [add, evaluate_nil, one_mul]
  | case2 first => rw [add_nil, evaluate_nil, mul_one]
  | case3 p first l q second zero ih =>
      have cancel : value l ^ p * value l ^ q = 1 := by
        rw [← zpow_add₀ (nonzero l), zero, zpow_zero]
      rw [add, if_pos rfl, if_pos zero, ih, evaluate_cons, evaluate_cons, mul_mul_mul_comm, cancel,
        one_mul]
  | case4 p first l q second sum ih =>
      rw [add, if_pos rfl, if_neg sum, evaluate_cons, evaluate_cons, evaluate_cons, ih,
        zpow_add₀ (nonzero l), mul_mul_mul_comm]
  | case5 k p first l q second different less ih =>
      rw [add, if_neg different, if_pos less, evaluate_cons, ih, evaluate_cons value (k, p), mul_assoc]
  | case6 k p first l q second different notLess ih =>
      rw [add, if_neg different, if_neg notLess, evaluate_cons, ih, evaluate_cons value (l, q),
        mul_left_comm]

end Powers

end Theory.Exponents
