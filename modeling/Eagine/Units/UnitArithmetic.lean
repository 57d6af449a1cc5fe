import Eagine.Units.Unit

/-!
# Arithmetic of quantities

Every conversion multiplies by a factor. With that of the products and quotients it is decided which
pairs of units respect the conversion to plain units.
-/

namespace Eagine.Units

open Theory Option
open Exponents (add evaluate evaluate_add neg)

/-- The scale of the unit as a whole. -/
def overall : UnitScales → Option Scale
  | (none, scale) :: _ => some scale
  | _ => none

variable {scale : Scale}

theorem overall_eq_some {scales : UnitScales} (found : overall scales = some scale) :
    ∃ tail, scales = (none, scale) :: tail := by
  rcases scales with _ | ⟨⟨_ | _, other⟩, tail⟩
  · cases found
  · cases found
    exact ⟨tail, rfl⟩
  · cases found

theorem eq_of_overall {first second : UnitScales}
    (found : overall first = some scale) (found' : overall second = some scale)
    (tails : first.tail = second.tail) : first = second := by
  rcases overall_eq_some found with ⟨tail, rfl⟩
  rcases overall_eq_some found' with ⟨tail', rfl⟩
  exact congrArg _ tails

theorem unitNum_none_lt (unit : BaseUnit) : unitNum none < unitNum (some unit) := by
  rw [unitNum, unitNum]
  cases unit.dimensionOf <;> decide

theorem merge_nil (scales : UnitScales) : merge scales [] = scales := by
  cases scales <;> simp [merge]

/-- The overall scale of a merged list is that of the first list, if it has one. -/
theorem overall_merge (first second : UnitScales) :
    overall (merge first second) = (overall first).orElse fun _ => overall second := by
  rcases first with _ | ⟨⟨u1, s1⟩, t1⟩
  · rw [merge]
    rfl
  rcases second with _ | ⟨⟨u2, s2⟩, t2⟩
  · rw [merge_nil]
    cases overall ((u1, s1) :: t1) <;> rfl
  rw [merge]
  cases u1 with
  | none =>
      split
      · rfl
      · next different =>
          cases u2 with
          | none => exact absurd rfl different
          | some unit => rw [if_pos (unitNum_none_lt unit)]; rfl
  | some unit1 =>
      cases u2 with
      | none =>
          rw [if_neg (some_ne_none _), if_neg (unitNum_none_lt unit1).asymm]
          rfl
      | some unit2 =>
          split
          · rfl
          · split <;> rfl

theorem pow_eq (scale : Scale) (v : ℚ) (e : ℤ) : pow scale v e = v * scale.factor ^ e := by
  have nonzero := scale.factor_ne_zero
  rw [pow]
  split
  · next zero => rw [zero, zpow_zero, mul_one]
  · next more =>
      rw [pow_eq scale _ (e + if 0 < e then -1 else 1)]
      split
      · rw [Scale.toBase_eq, mul_assoc, ← zpow_one_add₀ nonzero]
        congr 2
        ring
      · rw [Scale.fromBase_eq, div_eq_mul_inv, mul_assoc, ← zpow_neg_one, ← zpow_add₀ nonzero]
        congr 2
        ring
termination_by e.natAbs
decreasing_by
  split <;> omega

variable (system : System)

/-- The factor of the scales of the base units. -/
def perUnit (scales : UnitScales) : Dims → ℚ
  | .nothing => 1
  | .dims none _ => 1
  | .dims (some (dim, e)) tail =>
      (system.scaleFor scales dim).factor ^ e * perUnit scales tail

theorem perUnit_tailOf (scales : UnitScales) (terms : List DimPow) :
    perUnit system scales (tailOf terms) =
      evaluate (fun dim => (system.scaleFor scales dim).factor) terms := by
  induction terms with
  | nil => rfl
  | cons term terms ih => rw [tailOf, perUnit, ih, Exponents.evaluate_cons]

theorem perUnit_chainOf (scales : UnitScales) (terms : List DimPow) :
    perUnit system scales (chainOf terms) =
      evaluate (fun dim => (system.scaleFor scales dim).factor) terms := by
  cases terms with
  | nil => rfl
  | cons term terms => exact perUnit_tailOf system scales (term :: terms)

theorem perUnit_ne_zero (scales : UnitScales) (dims : Dims) : perUnit system scales dims ≠ 0 := by
  induction dims with
  | nothing => exact one_ne_zero
  | dims head tail ih =>
      cases head with
      | none => exact one_ne_zero
      | some term => exact mul_ne_zero (zpow_ne_zero _ (Scale.factor_ne_zero _)) ih

theorem hlp_eq (scales : UnitScales) (dims : Dims) (v : ℚ) :
    hlp system scales true v dims = v * perUnit system scales dims ∧
      hlp system scales false v dims = v / perUnit system scales dims := by
  induction dims generalizing v with
  | nothing => exact ⟨(mul_one v).symm, (div_one v).symm⟩
  | dims head tail ih =>
      cases head with
      | none => exact ⟨(mul_one v).symm, (div_one v).symm⟩
      | some term =>
          rw [hlp, hlp, (ih _).1, (ih _).2, pow_eq, pow_eq, perUnit]
          constructor
          · exact mul_assoc _ _ _
          · rw [if_neg Bool.false_ne_true, zpow_neg, ← div_eq_mul_inv, div_div]

/-- A type that products and quotients of dimensions lead to. -/
def IsChain (dims : Dims) : Prop :=
  dims = .nothing ∨ ∃ terms, dims = chainOf terms

theorem isChain_tailOf (terms : List DimPow) : IsChain (tailOf terms) := by
  cases terms with
  | nil => exact Or.inl rfl
  | cons term terms => exact Or.inr ⟨term :: terms, rfl⟩

/-- The dimensions of a product and of a quotient, with their factors for any scales. -/
theorem exists_dimAdd {d1 d2 : Dims} (chain1 : IsChain d1) (chain2 : IsChain d2) :
    ∃ dims, Dims.dimAdd d1 d2 = some dims ∧ IsChain dims ∧
      ∀ scales, perUnit system scales dims = perUnit system scales d1 * perUnit system scales d2 := by
  rcases chain1 with rfl | ⟨first, rfl⟩
  · rcases chain2 with rfl | ⟨second, rfl⟩
    · exact ⟨.nothing, by rw [Dims.dimAdd], Or.inl rfl, fun _ => (one_mul _).symm⟩
    · refine ⟨chainOf second, ?_, Or.inr ⟨second, rfl⟩, fun _ => (one_mul _).symm⟩
      cases second <;> simp [chainOf, Dims.dimless, tailOf, Dims.dimAdd]
  · rcases chain2 with rfl | ⟨second, rfl⟩
    · refine ⟨chainOf first, ?_, Or.inr ⟨first, rfl⟩, fun _ => (mul_one _).symm⟩
      cases first <;> simp [chainOf, Dims.dimless, tailOf, Dims.dimAdd]
    · have product : ∀ scales, evaluate (fun dim => (system.scaleFor scales dim).factor)
          (add dimNum first second) =
            perUnit system scales (chainOf first) * perUnit system scales (chainOf second) := by
        intro scales
        rw [perUnit_chainOf, perUnit_chainOf]
        exact evaluate_add (fun _ => Scale.factor_ne_zero _) first second
      rw [dimAdd_chainOf]
      split
      · next cancel =>
          refine ⟨.nothing, rfl, Or.inl rfl, fun scales => ?_⟩
          rw [← product, cancel.2]
          rfl
      · exact ⟨_, rfl, Or.inr ⟨_, rfl⟩, fun scales => by rw [perUnit_chainOf, product]⟩

theorem exists_dimSub {d1 d2 : Dims} (chain1 : IsChain d1) (chain2 : IsChain d2) :
    ∃ dims, Dims.dimSub d1 d2 = some dims ∧ IsChain dims ∧
      ∀ scales, perUnit system scales dims = perUnit system scales d1 / perUnit system scales d2 := by
  have quotient : ∀ (first second : List DimPow) scales,
      perUnit system scales (chainOf (add dimNum first (neg second))) =
        perUnit system scales (chainOf first) / perUnit system scales (chainOf second) := by
    intro first second scales
    rw [perUnit_chainOf, perUnit_chainOf, perUnit_chainOf,
      evaluate_add fun _ => Scale.factor_ne_zero _, Exponents.evaluate_neg, div_eq_mul_inv]
  rcases chain1 with rfl | ⟨first, rfl⟩
  · rcases chain2 with rfl | ⟨second, rfl⟩
    · exact ⟨.dimless, by rw [Dims.dimSub], Or.inr ⟨[], rfl⟩, fun _ => (div_one _).symm⟩
    · refine ⟨chainOf (neg second), ?_, Or.inr ⟨_, rfl⟩, fun scales => ?_⟩
      · cases second with
        | nil => simp [chainOf, Dims.dimless, Dims.dimSub, neg]
        | cons term second => exact dimSub_nothing (term :: second)
      · have inverse := quotient [] second scales
        rw [add] at inverse
        exact inverse
  · rcases chain2 with rfl | ⟨second, rfl⟩
    · refine ⟨chainOf first, ?_, Or.inr ⟨first, rfl⟩, fun _ => (div_one _).symm⟩
      cases first <;> simp [chainOf, Dims.dimless, tailOf, Dims.dimSub]
    · exact ⟨_, dimSub_chainOf first second, Or.inr ⟨_, rfl⟩, quotient first second⟩

namespace Unit

theorem Built.isChain {u : Unit} (built : Built u) : IsChain u.dims := by
  let system : System := ⟨fun dim => .unit dim 0⟩
  induction built with
  | unit dimension => exact Or.inr ⟨dimension.terms, rfl⟩
  | makeScaledBaseDimUnit scale baseUnit => exact isChain_tailOf [(baseUnit.dimensionOf, 1)]
  | @makeScaledUnit scale u result _ made ih =>
      cases u with
      | unit dims => cases made; exact ih
      | scaledDimUnit dims scales => cases made
  | @mul u1 u2 result _ _ product ih1 ih2 =>
      rcases exists_dimAdd system ih1 ih2 with ⟨dims, sum, chain, _⟩
      cases u1 <;> cases u2 <;> simp only [mulResult, Unit.dims] at product sum <;>
        rw [sum] at product <;> cases product <;> exact chain
  | @div u1 u2 result _ _ quotient ih1 ih2 =>
      rcases exists_dimSub system ih1 ih2 with ⟨dims, difference, chain, _⟩
      cases u1 <;> cases u2 <;> simp only [divResult, Unit.dims] at quotient difference <;>
        rw [difference] at quotient <;> cases quotient <;> exact chain

/-- The factor of the conversion to the plain unit. -/
def plainFactor : Unit → ℚ
  | unit _ => 1
  | scaledDimUnit dims scales =>
      match overall scales with
      | some scale => scale.factor
      | none => perUnit system scales dims

theorem valueConv_plain (u : Unit) :
    ∃ conv, valueConv system u (.unit u.dims) = some conv ∧
      ∀ v, conv v = v * plainFactor system u := by
  cases u with
  | unit dims => exact ⟨id, if_pos rfl, fun v => (mul_one v).symm⟩
  | scaledDimUnit dims scales =>
      rcases scales with _ | ⟨⟨_ | unit, scale⟩, tail⟩
      · exact ⟨_, if_pos rfl, fun v => (hlp_eq system _ dims v).1⟩
      · exact ⟨_, if_pos rfl, fun v => scale.toBase_eq v⟩
      · exact ⟨_, if_pos rfl, fun v => (hlp_eq system _ dims v).1⟩

/-- The factor of the conversion to merged scales. Overall scales are only converted where the
scales of the base units are the same. -/
def mergedFactor (dims : Dims) (scales merged : UnitScales) : ℚ :=
  match overall scales, overall merged with
  | some scale, some mergedScale =>
      if scales.tail = merged.tail then scale.factor / mergedScale.factor
      else perUnit system scales dims / perUnit system merged dims
  | _, _ => perUnit system scales dims / perUnit system merged dims

theorem valueConv_merged (dims : Dims) (scales merged : UnitScales) :
    ∃ conv, valueConv system (scaledDimUnit dims scales) (scaledDimUnit dims merged) = some conv ∧
      ∀ v, conv v = v * mergedFactor system dims scales merged := by
  have general : ∀ v, hlp system merged false (hlp system scales true v dims) dims =
      v * (perUnit system scales dims / perUnit system merged dims) := by
    intro v
    rw [(hlp_eq system merged dims _).2, (hlp_eq system scales dims v).1, mul_div_assoc]
  rw [valueConv, if_pos rfl]
  by_cases same : scales = merged
  · rw [if_pos same, same]
    refine ⟨id, rfl, fun v => ?_⟩
    have one : mergedFactor system dims merged merged = 1 := by
      rw [mergedFactor]
      split
      · next scale _ found found' =>
          cases found.symm.trans found'
          rw [if_pos rfl, div_self scale.factor_ne_zero]
      · exact div_self (perUnit_ne_zero system merged dims)
    rw [one, mul_one]
    rfl
  · rw [if_neg same, mergedFactor]
    rcases scales with _ | ⟨⟨_ | unit, scale⟩, tail⟩
    · exact ⟨_, rfl, general⟩
    · rcases merged with _ | ⟨⟨_ | unit, mergedScale⟩, mergedTail⟩
      · exact ⟨_, rfl, general⟩
      · by_cases tails : tail = mergedTail
        · refine ⟨fun v => mergedScale.fromBase (scale.toBase v), if_pos tails, fun v => ?_⟩
          have factor : (if ((none, scale) :: tail : UnitScales).tail =
              ((none, mergedScale) :: mergedTail : UnitScales).tail then
                scale.factor / mergedScale.factor
              else perUnit system ((none, scale) :: tail) dims /
                perUnit system ((none, mergedScale) :: mergedTail) dims) =
              scale.factor / mergedScale.factor := if_pos tails
          simp only [overall, factor]
          rw [Scale.fromBase_eq, Scale.toBase_eq, mul_div_assoc]
        · refine ⟨_, if_neg tails, fun v => (general v).trans ?_⟩
          simp only [overall, List.tail_cons, tails, if_false]
      · exact ⟨_, rfl, general⟩
    · exact ⟨_, rfl, general⟩

section Merged

variable (dims : Dims) (first second : UnitScales)

theorem mergedFactor_of_same {scales merged : UnitScales}
    (found : overall scales = some scale) (found' : overall merged = some scale) :
    mergedFactor system dims scales merged =
      perUnit system scales dims / perUnit system merged dims := by
  rw [mergedFactor, found, found']
  dsimp only
  split
  · next tails =>
      rw [eq_of_overall found found' tails, div_self scale.factor_ne_zero,
        div_self (perUnit_ne_zero system merged dims)]
  · rfl

/-- The conversion of a left operand does not depend on overall scales. -/
theorem mergedFactor_left :
    mergedFactor system dims first (merge first second) =
      perUnit system first dims / perUnit system (merge first second) dims := by
  cases found : overall first with
  | none => rw [mergedFactor, found]
  | some scale =>
      have merged := overall_merge first second
      rw [found] at merged
      exact mergedFactor_of_same system dims found merged

/-- Nor does that of a right operand, unless both operands have an overall scale. -/
theorem mergedFactor_right :
    mergedFactor system dims second (merge first second) =
      match overall first, overall second with
      | some scale1, some scale2 =>
          if second.tail = (merge first second).tail then scale2.factor / scale1.factor
          else perUnit system second dims / perUnit system (merge first second) dims
      | _, _ => perUnit system second dims / perUnit system (merge first second) dims := by
  have merged := overall_merge first second
  cases found1 : overall first with
  | none =>
      cases found2 : overall second with
      | none => rw [mergedFactor, found2]
      | some scale2 =>
          rw [found1, found2] at merged
          exact mergedFactor_of_same system dims found2 merged
  | some scale1 =>
      rw [found1] at merged
      cases found2 : overall second with
      | none => rw [mergedFactor, found2]
      | some scale2 =>
          rw [mergedFactor, found2, merged]
          rfl

end Merged

/-- The product of the conversion factors for a product is that of the factors to plain units. -/
def MulRespected : Unit → Unit → Prop
  | scaledDimUnit d1 us1, scaledDimUnit d2 us2 =>
      let merged := merge us1 us2
      let p := perUnit system
      match overall us1, overall us2 with
      | none, none => True
      | some _, none => p us1 d1 = p merged d1 * p merged d2
      | none, some _ => p us2 d2 = p merged d1 * p merged d2
      | some s1, some s2 =>
          if us2.tail = merged.tail then p us1 d1 = s1.factor * p merged d1
          else p us1 d1 * p us2 d2 = s2.factor * (p merged d1 * p merged d2)
  | _, _ => True

/-- The same for a quotient. -/
def DivRespected : Unit → Unit → Prop
  | scaledDimUnit d1 us1, scaledDimUnit d2 us2 =>
      let merged := merge us1 us2
      let p := perUnit system
      match overall us1, overall us2 with
      | none, none => True
      | some _, none => p us1 d1 * p merged d2 = p merged d1
      | none, some s2 => s2.factor * s2.factor * p merged d2 = p merged d1 * p us2 d2
      | some s1, some s2 =>
          if us2.tail = merged.tail then s1.factor * p us1 d1 = p merged d1
          else s2.factor * (p us1 d1 * p merged d2) = p merged d1 * p us2 d2
  | _, _ => True

section Scaled

variable (d1 d2 : Dims) (us1 us2 : UnitScales)

theorem mul_factors_iff :
    mergedFactor system d1 us1 (merge us1 us2) * mergedFactor system d2 us2 (merge us1 us2) *
        (match overall (merge us1 us2) with
          | some scale => scale.factor
          | none => perUnit system (merge us1 us2) d1 * perUnit system (merge us1 us2) d2) =
        plainFactor system (scaledDimUnit d1 us1) * plainFactor system (scaledDimUnit d2 us2) ↔
      MulRespected system (scaledDimUnit d1 us1) (scaledDimUnit d2 us2) := by
  have p1 := perUnit_ne_zero system us1 d1
  have p2 := perUnit_ne_zero system us2 d2
  have m1 := perUnit_ne_zero system (merge us1 us2) d1
  have m2 := perUnit_ne_zero system (merge us1 us2) d2
  rw [mergedFactor_left, mergedFactor_right, overall_merge, plainFactor, plainFactor, MulRespected]
  cases overall us1 with
  | none =>
      cases overall us2 with
      | none =>
          simp only [Option.orElse, iff_true]
          field_simp
      | some s2 =>
          have nonzero := s2.factor_ne_zero
          simp only [Option.orElse]
          field_simp
  | some s1 =>
      have nonzero1 := s1.factor_ne_zero
      cases overall us2 with
      | none =>
          simp only [Option.orElse]
          field_simp
      | some s2 =>
          have nonzero2 := s2.factor_ne_zero
          simp only [Option.orElse]
          split
          · field_simp
          · field_simp

theorem div_factors_iff :
    mergedFactor system d1 us1 (merge us1 us2) / mergedFactor system d2 us2 (merge us1 us2) *
        (match overall (merge us1 us2) with
          | some scale => scale.factor
          | none => perUnit system (merge us1 us2) d1 / perUnit system (merge us1 us2) d2) =
        plainFactor system (scaledDimUnit d1 us1) / plainFactor system (scaledDimUnit d2 us2) ↔
      DivRespected system (scaledDimUnit d1 us1) (scaledDimUnit d2 us2) := by
  have p1 := perUnit_ne_zero system us1 d1
  have p2 := perUnit_ne_zero system us2 d2
  have m1 := perUnit_ne_zero system (merge us1 us2) d1
  have m2 := perUnit_ne_zero system (merge us1 us2) d2
  rw [mergedFactor_left, mergedFactor_right, overall_merge, plainFactor, plainFactor, DivRespected]
  cases overall us1 with
  | none =>
      cases overall us2 with
      | none =>
          simp only [Option.orElse, iff_true]
          field_simp
      | some s2 =>
          have nonzero := s2.factor_ne_zero
          simp only [Option.orElse]
          field_simp
  | some s1 =>
      have nonzero1 := s1.factor_ne_zero
      cases overall us2 with
      | none =>
          simp only [Option.orElse]
          field_simp
      | some s2 =>
          have nonzero2 := s2.factor_ne_zero
          simp only [Option.orElse]
          split
          · field_simp
          · field_simp

end Scaled

end Unit

namespace Quantity

/-- The value of the product in its plain unit is the product of the values in theirs. -/
def MulLaw (a b : Quantity) : Prop :=
  ∃ x y, a.toPlain system = some x ∧ b.toPlain system = some y ∧
    (a.mul system b).bind (Quantity.toPlain system) = some (x * y)

/-- The value of the quotient in its plain unit is the quotient of the values in theirs. -/
def DivLaw (a b : Quantity) : Prop :=
  ∃ x y, a.toPlain system = some x ∧ b.toPlain system = some y ∧
    (a.div system b).bind (Quantity.toPlain system) = some (x / y)

theorem toPlain_eq (quantity : Quantity) :
    quantity.toPlain system = some (quantity.value * quantity.unit.plainFactor system) := by
  rcases quantity.unit.valueConv_plain system with ⟨conv, converts, factor⟩
  rw [toPlain, convertTo, converts, map_some, factor]

theorem mulLaw_iff (a b : Quantity) :
    a.MulLaw system b ↔ (a.mul system b).bind (Quantity.toPlain system) =
      some (a.value * a.unit.plainFactor system * (b.value * b.unit.plainFactor system)) := by
  rw [MulLaw, toPlain_eq, toPlain_eq]
  simp only [some_inj, exists_and_left, exists_eq_left']

theorem divLaw_iff (a b : Quantity) :
    a.DivLaw system b ↔ (a.div system b).bind (Quantity.toPlain system) =
      some (a.value * a.unit.plainFactor system / (b.value * b.unit.plainFactor system)) := by
  rw [DivLaw, toPlain_eq, toPlain_eq]
  simp only [some_inj, exists_and_left, exists_eq_left']

/-- With a plain unit both operands are converted to plain units. -/
theorem laws_of_plain {a b : Quantity} (chain1 : IsChain a.unit.dims) (chain2 : IsChain b.unit.dims)
    (left : a.unit.mulLOperand b.unit = .unit a.unit.dims)
    (right : a.unit.mulROperand b.unit = .unit b.unit.dims)
    (product : a.unit.mulResult b.unit = (Dims.dimAdd a.unit.dims b.unit.dims).map .unit)
    (quotient : a.unit.divResult b.unit = (Dims.dimSub a.unit.dims b.unit.dims).map .unit) :
    a.MulLaw system b ∧ a.DivLaw system b := by
  rcases exists_dimAdd system chain1 chain2 with ⟨sum, added, _⟩
  rcases exists_dimSub system chain1 chain2 with ⟨difference, subtracted, _⟩
  have first := toPlain_eq system a
  have second := toPlain_eq system b
  rw [toPlain] at first second
  rw [mulLaw_iff, divLaw_iff, mul, div, left, right, product, quotient, added, subtracted, first,
    second]
  simp only [bind_eq_bind, bind_some, map_some, toPlain_eq, Unit.plainFactor,
    mul_one, and_self]

theorem mul_values_iff (a b k1 k2 f f1 f2 : ℚ) :
    a * k1 * (b * k2) * f = a * f1 * (b * f2) ↔ a = 0 ∨ b = 0 ∨ k1 * k2 * f = f1 * f2 := by
  have left : a * k1 * (b * k2) * f = a * (b * (k1 * k2 * f)) := by ring
  have right : a * f1 * (b * f2) = a * (b * (f1 * f2)) := by ring
  rw [left, right, mul_eq_mul_left_iff, mul_eq_mul_left_iff, or_comm, or_comm (b := b = 0)]

theorem div_values_iff {b : ℚ} (nonzero : b ≠ 0) (a k1 k2 f f1 f2 : ℚ) :
    a * k1 / (b * k2) * f = a * f1 / (b * f2) ↔ a = 0 ∨ k1 / k2 * f = f1 / f2 := by
  rw [mul_div_mul_comm, mul_div_mul_comm, mul_assoc, mul_eq_mul_left_iff, div_eq_zero_iff, or_comm,
    or_iff_left nonzero]

theorem quantity_laws_of_scaled {d1 d2 : Dims} (us1 us2 : UnitScales) (chain1 : IsChain d1)
    (chain2 : IsChain d2) (a b : ℚ) :
    (MulLaw system ⟨.scaledDimUnit d1 us1, a⟩ ⟨.scaledDimUnit d2 us2, b⟩ ↔
      a = 0 ∨ b = 0 ∨ Unit.MulRespected system (.scaledDimUnit d1 us1) (.scaledDimUnit d2 us2)) ∧
    (b ≠ 0 → (DivLaw system ⟨.scaledDimUnit d1 us1, a⟩ ⟨.scaledDimUnit d2 us2, b⟩ ↔
      a = 0 ∨ Unit.DivRespected system (.scaledDimUnit d1 us1) (.scaledDimUnit d2 us2))) := by
  rcases exists_dimAdd system chain1 chain2 with ⟨sum, added, _, sumFactor⟩
  rcases exists_dimSub system chain1 chain2 with ⟨difference, subtracted, _, differenceFactor⟩
  rcases Unit.valueConv_merged system d1 us1 (merge us1 us2) with ⟨conv1, converts1, factor1⟩
  rcases Unit.valueConv_merged system d2 us2 (merge us1 us2) with ⟨conv2, converts2, factor2⟩
  rw [← Unit.mul_factors_iff, ← Unit.div_factors_iff, ← sumFactor, ← differenceFactor]
  constructor
  · rw [mulLaw_iff, mul]
    simp only [convertTo, Unit.mulLOperand, Unit.mulROperand, Unit.mulResult, converts1, converts2,
      added, map_some, bind_eq_bind, bind_some, toPlain_eq, factor1, factor2,
      Unit.plainFactor, some_inj]
    exact mul_values_iff _ _ _ _ _ _ _
  · intro nonzero
    rw [divLaw_iff, div]
    simp only [convertTo, Unit.mulLOperand, Unit.mulROperand, Unit.divResult, converts1, converts2,
      subtracted, map_some, bind_eq_bind, bind_some, toPlain_eq, factor1,
      factor2, Unit.plainFactor, some_inj]
    exact div_values_iff nonzero _ _ _ _ _ _

/-- Products and quotients of quantities respect the conversions to plain units just for the units
with the respective condition, or where the values are zero. -/
theorem quantity_laws_iff {u1 u2 : Unit} (built1 : u1.Built) (built2 : u2.Built) (a b : ℚ) :
    (MulLaw system ⟨u1, a⟩ ⟨u2, b⟩ ↔ a = 0 ∨ b = 0 ∨ Unit.MulRespected system u1 u2) ∧
      (b ≠ 0 → (DivLaw system ⟨u1, a⟩ ⟨u2, b⟩ ↔ a = 0 ∨ Unit.DivRespected system u1 u2)) := by
  have chain1 := built1.isChain
  have chain2 := built2.isChain
  have always : ∀ {law1 law2 : Prop} {first second : Prop}, law1 ∧ law2 → (first ∧ second) →
      (law1 ↔ a = 0 ∨ b = 0 ∨ first) ∧ (b ≠ 0 → (law2 ↔ a = 0 ∨ second)) := by
    intro law1 law2 first second laws respected
    exact ⟨iff_of_true laws.1 (Or.inr (Or.inr respected.1)),
      fun _ => iff_of_true laws.2 (Or.inr respected.2)⟩
  cases u1 with
  | unit d1 =>
      apply always (laws_of_plain system chain1 chain2 rfl ?_ ?_ ?_)
      · exact ⟨trivial, trivial⟩
      all_goals cases u2 <;> rfl
  | scaledDimUnit d1 us1 =>
      cases u2 with
      | unit d2 =>
          apply always (laws_of_plain system chain1 chain2 rfl rfl rfl rfl)
          exact ⟨trivial, trivial⟩
      | scaledDimUnit d2 us2 => exact quantity_laws_of_scaled system us1 us2 chain1 chain2 a b

/-- Kilometers are multiplied and divided as meters are. -/
theorem quantity_laws_kilometers :
    let kilometer := Unit.makeScaledBaseDimUnit (.power 1000 1 (by decide)) (.unit .length 0)
    MulLaw si ⟨kilometer, 2⟩ ⟨kilometer, 3⟩ ∧ DivLaw si ⟨kilometer, 2⟩ ⟨kilometer, 3⟩ := by
  intro kilometer
  have built : kilometer.Built := Unit.Built.makeScaledBaseDimUnit _ _
  have laws := quantity_laws_iff si built built 2 3
  constructor
  · exact laws.1.mpr (Or.inr (Or.inr trivial))
  · exact (laws.2 (by norm_num)).mpr (Or.inr trivial)

/-- Of minutes and kilometers only the scale of the minutes is applied to the product. -/
theorem not_laws_minute_kilometer : ¬∀ (system : System) (u1 u2 : Unit), u1.Built → u2.Built →
    ∀ a b : ℚ, MulLaw system ⟨u1, a⟩ ⟨u2, b⟩ := by
  intro laws
  let sixty : Scale := .constant 60 (by decide)
  let kilo : Scale := .power 1000 1 (by decide)
  let meter : BaseUnit := .unit .length 0
  let time : Dimension := ⟨[(.time, 1)], Exponents.Normal.cons.mpr
    ⟨by decide, fun _ within => absurd within List.not_mem_nil, Exponents.normal_nil⟩⟩
  have minute : (Unit.scaledDimUnit time.toDims [(none, sixty)]).Built :=
    (Unit.Built.unit time).makeScaledUnit sixty rfl
  have kilometer := Unit.Built.makeScaledBaseDimUnit kilo meter
  have law := (quantity_laws_of_scaled si [(none, sixty)] [(some meter, kilo)] minute.isChain
    kilometer.isChain 1 1).1.mp (laws si _ _ minute kilometer 1 1)
  have merged : merge [(none, sixty)] [(some meter, kilo)] =
      [(none, sixty), (some meter, kilo)] := by
    rw [merge, if_neg (some_ne_none _).symm, if_pos (unitNum_none_lt _), merge]
  have seconds : ∀ scales, scales = [(none, sixty)] ∨ scales = [(none, sixty), (some meter, kilo)] →
      perUnit si scales time.toDims = 1 := by
    rintro scales (rfl | rfl) <;> exact (mul_one _).trans (zpow_one _)
  have meters : perUnit si [(none, sixty), (some meter, kilo)]
      (.dims (some (.length, 1)) .nothing) = 1000 := by
    have factor : kilo.factor = 1000 := zpow_one _
    exact (mul_one _).trans ((zpow_one _).trans factor)
  rcases law with zero | zero | respected
  · exact one_ne_zero zero
  · exact one_ne_zero zero
  · simp only [Unit.MulRespected, overall, merged] at respected
    have factors : (1 : ℚ) = 1 * 1000 :=
      calc
        (1 : ℚ) = perUnit si [(none, sixty)] time.toDims := (seconds _ (Or.inl rfl)).symm
        _ = _ := respected
        _ = 1 * 1000 := congrArg₂ (· * ·) (seconds _ (Or.inr rfl)) meters
    exact absurd factors (by norm_num)

end Quantity

end Eagine.Units
