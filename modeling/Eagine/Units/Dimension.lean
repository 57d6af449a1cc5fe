import Eagine.Theory.Exponents

/-!
# Dimensions

The dimensions are types: chains of base dimensions with their powers, and several types for the
empty chain. Templates that are specialized for pairs of them are functions on these types here,
without a value where no specialization can be instantiated.
-/

namespace Eagine.Units

open Theory

/-- The base dimensions. -/
inductive BaseDimension
  | angle
  | solidAngle
  | length
  | mass
  | time
  | temperature
  | electricCurrent
  | numberOfCycles
  | numberOfDecays
  | luminousIntensity
  | amountOfSubstance
  | amountOfInformation
  deriving DecidableEq

/-- `dim_num`. -/
def dimNum : BaseDimension → ℕ
  | .angle => 1
  | .solidAngle => 2
  | .mass => 3
  | .length => 4
  | .time => 5
  | .temperature => 6
  | .electricCurrent => 7
  | .numberOfCycles => 8
  | .numberOfDecays => 9
  | .luminousIntensity => 10
  | .amountOfSubstance => 11
  | .amountOfInformation => 12

theorem dimNum_injective : Function.Injective dimNum := by
  intro first second same
  cases first <;> cases second <;> first | rfl | cases same

/-- A `dim_pow`. -/
abbrev DimPow := BaseDimension × ℤ

/-- The types `nothing_t` and `dims`, where the head of `dims` may be `nothing_t` as well. -/
inductive Dims
  | nothing
  | dims (head : Option DimPow) (tail : Dims)
  deriving DecidableEq

namespace Dims

/-- `dimless`. -/
def dimless : Dims :=
  dims none nothing

def collapseTail : Dims → Dims
  | dims none nothing => nothing
  | other => other

/-- `pow_of_dim`. -/
def powOfDim (dim : BaseDimension) : Dims → Option ℤ
  | nothing => some 0
  | dims none nothing => some 0
  | dims (some (other, pow)) tail => if dim = other then some pow else powOfDim dim tail
  | dims none (dims _ _) => none

/-- The number of heads. -/
def size : Dims → ℕ
  | nothing => 0
  | dims _ tail => tail.size + 1

/-- `dim_add`. Both arguments of a `conditional_t` are instantiated. -/
def dimAdd : Dims → Dims → Option Dims
  | nothing, nothing => some nothing
  | nothing, dims head tail => some (dims head tail)
  | dims head tail, nothing => some (dims head tail)
  | dims head tail, dims none nothing => some (dims head tail)
  | dims none nothing, dims head tail => some (dims head tail)
  | dims (some (dim1, pow1)) tail1, dims (some (dim2, pow2)) tail2 =>
      if dim1 = dim2 then do
        let tails ← dimAdd tail1 tail2
        if pow1 + pow2 = 0 then some tails
        else some (dims (some (dim1, pow1 + pow2)) (collapseTail tails))
      else do
        let less ← dimAdd tail1 (dims (some (dim2, pow2)) tail2)
        let greater ← dimAdd (dims (some (dim1, pow1)) tail1) tail2
        if dimNum dim1 < dimNum dim2 then some (dims (some (dim1, pow1)) (collapseTail less))
        else some (dims (some (dim2, pow2)) (collapseTail greater))
  | dims none (dims _ _), dims (some _) _ => none
  | dims _ _, dims none (dims _ _) => none
termination_by first second => first.size + second.size
decreasing_by
  all_goals simp only [size]
  all_goals omega

/-- `dim_sub`. -/
def dimSub : Dims → Dims → Option Dims
  | nothing, nothing => some dimless
  | nothing, dims none nothing => some dimless
  | dims head tail, nothing => some (dims head tail)
  | nothing, dims (some (dim, pow)) tail => do
      let rest ← dimSub nothing tail
      some (dims (some (dim, -pow)) (collapseTail rest))
  | dims head tail, dims none nothing => some (dims head tail)
  | dims none nothing, dims (some (dim, pow)) tail => do
      let rest ← dimSub nothing tail
      some (dims (some (dim, -pow)) (collapseTail rest))
  | dims (some (dim1, pow1)) tail1, dims (some (dim2, pow2)) tail2 =>
      if dim1 = dim2 then do
        let tails ← dimSub tail1 tail2
        if pow1 - pow2 = 0 then some tails
        else some (dims (some (dim1, pow1 - pow2)) (collapseTail tails))
      else do
        let less ← dimSub tail1 (dims (some (dim2, pow2)) tail2)
        let greater ← dimSub (dims (some (dim1, pow1)) tail1) tail2
        if dimNum dim1 < dimNum dim2 then some (dims (some (dim1, pow1)) (collapseTail less))
        else some (dims (some (dim2, -pow2)) (collapseTail greater))
  | nothing, dims none (dims _ _) => none
  | dims none (dims _ _), dims (some _) _ => none
  | dims _ _, dims none (dims _ _) => none
termination_by first second => first.size + second.size
decreasing_by
  all_goals simp only [size]
  all_goals omega

/-- `is_dimension_v`. -/
def isDimension : Dims → Bool
  | nothing => false
  | dims _ _ => true

/-- `operator*`. -/
def mul (first second : Dims) : Option Dims :=
  if first.isDimension && second.isDimension then dimAdd first second else none

/-- `operator/`. -/
def div (first second : Dims) : Option Dims :=
  if first.isDimension && second.isDimension then dimSub first second else none

end Dims

/-- The tail of a chain with the given terms. -/
def tailOf : List DimPow → Dims
  | [] => .nothing
  | term :: terms => .dims (some term) (tailOf terms)

/-- The chain of the given terms, where the empty one is `dimless`. -/
def chainOf (terms : List DimPow) : Dims :=
  if terms = [] then .dimless else tailOf terms

/-- A dimension in normal form. -/
structure Dimension where
  terms : List DimPow
  normal : Exponents.Normal dimNum terms

namespace Dimension

def toDims (dimension : Dimension) : Dims :=
  chainOf dimension.terms

/-- The exponent of a base dimension. -/
def pow (dimension : Dimension) (dim : BaseDimension) : ℤ :=
  Exponents.coeff dim dimension.terms

def dimensionless : Dimension :=
  ⟨[], Exponents.normal_nil⟩

/-- The exponents of two dimensions cancel, and there are some. -/
def Cancels (first second : Dimension) : Prop :=
  first ≠ dimensionless ∧ ∀ dim, first.pow dim + second.pow dim = 0

end Dimension

end Eagine.Units

/-!
## The algebra of dimensions

Sums and differences of chains in normal form are in normal form, except for a sum in which all the
terms cancel: that is the type for the end of a chain, which is no dimension.
-/

namespace Eagine.Units

open Theory
open Exponents (add add_nil coeff coeff_add neg normal_nil)
open Dims (dimAdd dimSub dimless div mul)

@[simp]
theorem collapseTail_tailOf (terms : List DimPow) :
    (tailOf terms).collapseTail = tailOf terms := by
  cases terms <;> rfl

theorem chainOf_cons (term : DimPow) (terms : List DimPow) :
    chainOf (term :: terms) = .dims (some term) (tailOf terms) :=
  rfl

theorem chainOf_of_ne_nil {terms : List DimPow} (some : terms ≠ []) :
    chainOf terms = tailOf terms :=
  if_neg some

@[simp]
theorem collapseTail_chainOf (terms : List DimPow) :
    (chainOf terms).collapseTail = tailOf terms := by
  cases terms <;> rfl

@[simp]
theorem isDimension_chainOf (terms : List DimPow) : (chainOf terms).isDimension = true := by
  cases terms <;> rfl

theorem powOfDim_tailOf (dim : BaseDimension) (terms : List DimPow) :
    (tailOf terms).powOfDim dim = some (coeff dim terms) := by
  induction terms with
  | nil => rfl
  | cons term terms ih =>
      rw [tailOf, Dims.powOfDim, Exponents.coeff_cons, ih]
      split <;> rfl

theorem powOfDim_chainOf (dim : BaseDimension) (terms : List DimPow) :
    (chainOf terms).powOfDim dim = some (coeff dim terms) := by
  cases terms with
  | nil => rfl
  | cons term terms => exact powOfDim_tailOf dim (term :: terms)

/-- Tails are merged as their terms are. -/
theorem dimAdd_tailOf (first second : List DimPow) :
    dimAdd (tailOf first) (tailOf second) = some (tailOf (add dimNum first second)) := by
  match first, second with
  | [], [] => rw [tailOf, dimAdd, add, tailOf]
  | [], term :: second => rw [tailOf, tailOf, dimAdd, add, tailOf]
  | term :: first, [] => rw [add_nil, tailOf, tailOf, dimAdd]
  | (dim1, pow1) :: first, (dim2, pow2) :: second =>
      have tails := dimAdd_tailOf first second
      have less := dimAdd_tailOf first ((dim2, pow2) :: second)
      have greater := dimAdd_tailOf ((dim1, pow1) :: first) second
      rw [tailOf, tailOf, dimAdd, add]
      rw [tailOf] at less greater
      rw [tails, less, greater]
      simp only [Option.bind_eq_bind, Option.bind_some, collapseTail_tailOf]
      split
      · split <;> rfl
      · split <;> rfl
termination_by first.length + second.length

theorem dimSub_nothing (terms : List DimPow) :
    dimSub .nothing (tailOf terms) = some (chainOf (neg terms)) := by
  induction terms with
  | nil => rw [tailOf, dimSub]; rfl
  | cons term terms ih =>
      rw [tailOf, dimSub, ih]
      simp only [Option.bind_eq_bind, Option.bind_some, collapseTail_chainOf]
      rfl

theorem dimSub_tailOf (first second : List DimPow) :
    dimSub (tailOf first) (tailOf second) =
      some (chainOf (add dimNum first (neg second))) := by
  match first, second with
  | [], second => rw [tailOf, dimSub_nothing, add]
  | term :: first, [] =>
      have nothing : neg ([] : List DimPow) = [] := rfl
      rw [nothing, add_nil, tailOf, tailOf, dimSub, chainOf_cons]
  | (dim1, pow1) :: first, (dim2, pow2) :: second =>
      have tails := dimSub_tailOf first second
      have less := dimSub_tailOf first ((dim2, pow2) :: second)
      have greater := dimSub_tailOf ((dim1, pow1) :: first) second
      have negated : neg ((dim2, pow2) :: second) =
          (dim2, -pow2) :: neg second := rfl
      rw [tailOf, tailOf, dimSub, negated, add]
      rw [tailOf] at less greater
      rw [tails, less, greater, negated]
      simp only [Option.bind_eq_bind, Option.bind_some, collapseTail_chainOf, sub_eq_add_neg]
      split
      · split <;> rfl
      · split <;> rfl
termination_by first.length + second.length

/-- The terms of a sum are merged, but if all of them cancel there is no chain left. -/
theorem dimAdd_chainOf (first second : List DimPow) :
    dimAdd (chainOf first) (chainOf second) =
      some (if first ≠ [] ∧ add dimNum first second = [] then .nothing
        else chainOf (add dimNum first second)) := by
  cases first with
  | nil =>
      rw [if_neg fun cancel => cancel.1 rfl, add]
      cases second with
      | nil => simp [chainOf, dimless, dimAdd]
      | cons term second => simp [chainOf, dimless, tailOf, dimAdd]
  | cons term first =>
      cases second with
      | nil =>
          rw [add_nil, if_neg fun cancel => List.cons_ne_nil _ _ cancel.2, chainOf_cons]
          simp [chainOf, dimless, dimAdd]
      | cons other second =>
          have sum := dimAdd_tailOf (term :: first) (other :: second)
          rw [chainOf_of_ne_nil (List.cons_ne_nil _ _), chainOf_of_ne_nil (List.cons_ne_nil _ _), sum]
          split
          · next cancel => rw [cancel.2, tailOf]
          · next rest =>
              rw [chainOf_of_ne_nil fun nothing => rest ⟨List.cons_ne_nil _ _, nothing⟩]

theorem dimSub_chainOf (first second : List DimPow) :
    dimSub (chainOf first) (chainOf second) =
      some (chainOf (add dimNum first (neg second))) := by
  cases first with
  | nil =>
      cases second with
      | nil => simp [chainOf, dimless, dimSub, neg]
      | cons term second =>
          have difference := dimSub_nothing (term :: second)
          rw [tailOf, dimSub] at difference
          rw [add, ← difference, chainOf_cons, chainOf, if_pos rfl, dimless,
            dimSub]
  | cons term first =>
      cases second with
      | nil =>
          have nothing : neg ([] : List DimPow) = [] := rfl
          rw [nothing, add_nil, chainOf_cons]
          simp [chainOf, dimless, dimSub]
      | cons other second =>
          rw [chainOf_of_ne_nil (List.cons_ne_nil _ _), chainOf_of_ne_nil (List.cons_ne_nil _ _),
            dimSub_tailOf]

namespace Dimension

/-- The exponents determine the type. -/
theorem ext_pow {first second : Dimension} (same : ∀ dim, first.pow dim = second.pow dim) :
    first = second := by
  rcases first with ⟨terms, normal⟩
  rcases second with ⟨terms', normal'⟩
  cases normal.ext normal' same
  rfl

theorem eq_dimensionless_iff (dimension : Dimension) :
    dimension = dimensionless ↔ ∀ dim, dimension.pow dim = 0 :=
  ⟨fun same _ => same ▸ rfl, fun zero => ext_pow zero⟩

/-- The dimension with the sums of the exponents. -/
def product (first second : Dimension) : Dimension :=
  ⟨add dimNum first.terms second.terms,
    Exponents.Normal.add dimNum_injective first.normal second.normal⟩

/-- The dimension with the differences of the exponents. -/
def quotient (first second : Dimension) : Dimension :=
  ⟨add dimNum first.terms (neg second.terms),
    Exponents.Normal.add dimNum_injective first.normal second.normal.neg⟩

@[simp]
theorem pow_product (first second : Dimension) (dim : BaseDimension) :
    (first.product second).pow dim = first.pow dim + second.pow dim :=
  coeff_add dimNum_injective first.normal second.normal dim

@[simp]
theorem pow_quotient (first second : Dimension) (dim : BaseDimension) :
    (first.quotient second).pow dim = first.pow dim - second.pow dim := by
  rw [sub_eq_add_neg, pow, pow, pow, ← Exponents.coeff_neg]
  exact coeff_add dimNum_injective first.normal second.normal.neg dim

@[simp]
theorem pow_dimensionless (dim : BaseDimension) : dimensionless.pow dim = 0 :=
  rfl

theorem terms_eq_nil_iff (dimension : Dimension) :
    dimension.terms = [] ↔ dimension = dimensionless := by
  rcases dimension with ⟨terms, normal⟩
  exact (Dimension.mk.injEq terms normal [] normal_nil).symm ▸ Iff.rfl

theorem product_eq_dimensionless_iff (first second : Dimension) :
    first.product second = dimensionless ↔ ∀ dim, first.pow dim + second.pow dim = 0 := by
  simp only [eq_dimensionless_iff, pow_product]

/-- A product is the dimension with the sums of the exponents, unless the factors cancel. -/
theorem mul_toDims (first second : Dimension) [Decidable (Cancels first second)] :
    mul first.toDims second.toDims =
      some (if Cancels first second then .nothing else (first.product second).toDims) := by
  rw [mul, toDims, toDims, isDimension_chainOf, isDimension_chainOf, Bool.and_self, if_pos rfl,
    dimAdd_chainOf]
  have same : (first.terms ≠ [] ∧ add dimNum first.terms second.terms = []) ↔
      Cancels first second := by
    rw [Cancels, Ne, terms_eq_nil_iff, ← product_eq_dimensionless_iff,
      ← terms_eq_nil_iff (first.product second)]
    rfl
  simp only [same]
  rfl

theorem div_toDims (first second : Dimension) :
    div first.toDims second.toDims = some (first.quotient second).toDims := by
  rw [div, toDims, toDims, isDimension_chainOf, isDimension_chainOf, Bool.and_self, if_pos rfl,
    dimSub_chainOf]
  rfl

theorem toDims_ne_nothing (dimension : Dimension) : dimension.toDims ≠ .nothing := by
  intro same
  have isDimension := isDimension_chainOf dimension.terms
  rw [← toDims, same] at isDimension
  cases isDimension

/-- A type is the dimension in normal form with the given exponents. -/
def IsWith (result : Option Dims) (pows : BaseDimension → ℤ) : Prop :=
  ∃ dimension : Dimension, result = some dimension.toDims ∧
    ∀ dim, dimension.toDims.powOfDim dim = some (pows dim)

theorem isWith_toDims (dimension : Dimension) :
    IsWith (some dimension.toDims) dimension.pow :=
  ⟨dimension, rfl, fun dim => powOfDim_chainOf dim dimension.terms⟩

theorem isWith_mul_iff (first second : Dimension) :
    IsWith (mul first.toDims second.toDims) (fun dim => first.pow dim + second.pow dim) ↔
      ¬Cancels first second := by
  classical
  rw [mul_toDims]
  constructor
  · rintro ⟨dimension, same, _⟩ cancels
    rw [if_pos cancels, Option.some_inj] at same
    exact dimension.toDims_ne_nothing same.symm
  · intro notCancels
    rw [if_neg notCancels]
    have pows : (fun dim => first.pow dim + second.pow dim) = (first.product second).pow :=
      funext fun dim => (pow_product first second dim).symm
    rw [pows]
    exact isWith_toDims _

theorem isWith_div (first second : Dimension) :
    IsWith (div first.toDims second.toDims) (fun dim => first.pow dim - second.pow dim) := by
  have pows : (fun dim => first.pow dim - second.pow dim) = (first.quotient second).pow :=
    funext fun dim => (pow_quotient first second dim).symm
  rw [div_toDims, pows]
  exact isWith_toDims _

theorem mul_comm (first second : Dimension) :
    mul first.toDims second.toDims = mul second.toDims first.toDims := by
  classical
  have products : first.product second = second.product first :=
    ext_pow fun dim => by rw [pow_product, pow_product, add_comm]
  have cancels : Cancels first second ↔ Cancels second first := by
    rw [Cancels, Cancels, ← product_eq_dimensionless_iff, ← product_eq_dimensionless_iff, products]
    refine and_congr_left fun cancel => not_congr ?_
    have sums := (product_eq_dimensionless_iff _ _).mp cancel
    rw [eq_dimensionless_iff, eq_dimensionless_iff]
    constructor
    · intro zero dim
      have sum := sums dim
      rw [zero dim, add_zero] at sum
      exact sum
    · intro zero dim
      have sum := sums dim
      rw [zero dim, zero_add] at sum
      exact sum
  rw [mul_toDims, mul_toDims, products]
  simp only [cancels]

/-- Both ways to multiply three dimensions lead to one dimension, unless factors cancel. -/
theorem mul_assoc_iff (first second third : Dimension) :
    (∃ dimension : Dimension,
      (mul first.toDims second.toDims).bind (mul · third.toDims) =
          some dimension.toDims ∧
        (mul second.toDims third.toDims).bind (mul first.toDims ·) =
          some dimension.toDims) ↔
      ¬Cancels first second ∧ ¬Cancels second third ∧
        ¬(first ≠ dimensionless ∧
          ∀ dim, first.pow dim + second.pow dim + third.pow dim = 0) := by
  classical
  have stuck : ∀ other : Dims, mul .nothing other = none ∧ mul other .nothing = none := by
    intro other
    cases other <;> exact ⟨rfl, rfl⟩
  by_cases cancelsLeft : Cancels first second
  · rw [mul_toDims, if_pos cancelsLeft, Option.bind_some, (stuck _).1]
    apply iff_of_false
    · rintro ⟨_, impossible, _⟩
      cases impossible
    · exact fun conditions => conditions.1 cancelsLeft
  by_cases cancelsRight : Cancels second third
  · rw [mul_toDims second, if_pos cancelsRight, Option.bind_some, (stuck _).2]
    apply iff_of_false
    · rintro ⟨_, _, impossible⟩
      cases impossible
    · exact fun conditions => conditions.2.1 cancelsRight
  rw [mul_toDims, mul_toDims, if_neg cancelsLeft, if_neg cancelsRight, Option.bind_some,
    Option.bind_some, mul_toDims, mul_toDims]
  have total : Cancels first (second.product third) ↔ first ≠ dimensionless ∧
      ∀ dim, first.pow dim + second.pow dim + third.pow dim = 0 := by
    simp only [Cancels, pow_product, add_assoc]
  have leftCancels : Cancels (first.product second) third → Cancels first (second.product third) := by
    rintro ⟨some, zero⟩
    simp only [pow_product] at zero
    refine total.mpr ⟨fun one => cancelsRight ⟨?_, fun dim => ?_⟩, zero⟩
    · intro other
      exact some (ext_pow fun dim => by rw [pow_product, one, other, pow_dimensionless, add_zero])
    · have sum := zero dim
      rw [one, pow_dimensionless, zero_add] at sum
      exact sum
  rw [← total, and_iff_right cancelsLeft, and_iff_right cancelsRight]
  by_cases cancels : Cancels first (second.product third)
  · rw [if_pos cancels]
    apply iff_of_false
    · rintro ⟨dimension, _, same⟩
      exact dimension.toDims_ne_nothing (Option.some_inj.mp same).symm
    · exact not_not.mpr cancels
  · rw [if_neg cancels, if_neg fun left => cancels (leftCancels left)]
    refine iff_of_true ⟨_, rfl, ?_⟩ cancels
    congr 2
    exact ext_pow fun dim => by simp only [pow_product, add_assoc]

theorem mul_div_self_iff (dimension : Dimension) :
    (div .dimless dimension.toDims).bind (mul dimension.toDims ·) = some .dimless ↔
      dimension = dimensionless := by
  classical
  have start : dimless = dimensionless.toDims := rfl
  have inverse : ∀ dim, dimension.pow dim + (dimensionless.quotient dimension).pow dim = 0 := by
    intro dim
    rw [pow_quotient, pow_dimensionless, zero_sub, add_neg_cancel]
  have product : dimension.product (dimensionless.quotient dimension) = dimensionless :=
    (product_eq_dimensionless_iff _ _).mpr inverse
  rw [start, div_toDims, Option.bind_some, mul_toDims, product]
  split
  · next cancels =>
      apply iff_of_false
      · exact fun same => dimensionless.toDims_ne_nothing (Option.some_inj.mp same).symm
      · exact cancels.1
  · next notCancels =>
      apply iff_of_true rfl
      by_contra some
      exact notCancels ⟨some, inverse⟩

theorem div_self (dimension : Dimension) :
    div dimension.toDims dimension.toDims = some .dimless := by
  have same : dimension.quotient dimension = dimensionless :=
    (eq_dimensionless_iff _).mpr fun dim => by rw [pow_quotient, sub_self]
  rw [div_toDims, same]
  rfl

/-- The laws of dimensions hold, but for products in which all exponents cancel. -/
theorem algebra_iff (first second third : Dimension) :
    (IsWith (mul first.toDims second.toDims) (fun dim => first.pow dim + second.pow dim) ↔
        ¬Cancels first second) ∧
      IsWith (div first.toDims second.toDims)
        (fun dim => first.pow dim - second.pow dim) ∧
      ((∀ dim, first.toDims.powOfDim dim = second.toDims.powOfDim dim) →
        first.toDims = second.toDims) ∧
      mul first.toDims second.toDims = mul second.toDims first.toDims ∧
      ((∃ dimension : Dimension,
          (mul first.toDims second.toDims).bind (mul · third.toDims) =
              some dimension.toDims ∧
            (mul second.toDims third.toDims).bind (mul first.toDims ·) =
              some dimension.toDims) ↔
        ¬Cancels first second ∧ ¬Cancels second third ∧
          ¬(first ≠ dimensionless ∧
            ∀ dim, first.pow dim + second.pow dim + third.pow dim = 0)) ∧
      ((div .dimless first.toDims).bind (mul first.toDims ·) = some .dimless ↔
        first = dimensionless) ∧
      div first.toDims first.toDims = some .dimless := by
  refine ⟨isWith_mul_iff _ _, isWith_div _ _, ?_, mul_comm _ _, mul_assoc_iff _ _ _,
    mul_div_self_iff _, div_self _⟩
  intro same
  congr 1
  refine ext_pow fun dim => Option.some_inj.mp ?_
  rw [pow, pow, ← powOfDim_chainOf, ← powOfDim_chainOf]
  exact same dim

/-- The product of a length and an inverse length is no dimension. -/
theorem not_algebra_length : ¬∀ first second : Dimension,
    IsWith (mul first.toDims second.toDims)
      (fun dim => first.pow dim + second.pow dim) := by
  intro algebra
  have normal : ∀ pow : ℤ, pow ≠ 0 → Exponents.Normal dimNum [(BaseDimension.length, pow)] :=
    fun pow nonzero => Exponents.Normal.cons.mpr
      ⟨nonzero, fun _ within => absurd within List.not_mem_nil, normal_nil⟩
  rcases algebra ⟨_, normal 1 (by decide)⟩ ⟨_, normal (-1) (by decide)⟩ with ⟨dimension, same, _⟩
  have product : mul (chainOf [(.length, 1)]) (chainOf [(.length, -1)]) = some .nothing := by
    rw [mul, isDimension_chainOf, isDimension_chainOf, Bool.and_self, if_pos rfl,
      dimAdd_chainOf]
    simp [add]
  rw [toDims, toDims, product] at same
  exact dimension.toDims_ne_nothing (Option.some_inj.mp same).symm

end Dimension

end Eagine.Units
