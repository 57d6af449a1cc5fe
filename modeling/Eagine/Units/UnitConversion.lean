import Eagine.Units.UnitArithmetic
import Mathlib.Algebra.GroupWithZero.Units.Equiv
import Mathlib.Tactic.NormNum

/-!
# Conversions between units

Plain units and units that are scaled as a whole are converted to each other by the scale of the
whole. All other conversions go through the base, where that scale is not applied.
-/

namespace Eagine.Units

section Through

variable {f g h : ℚ ≃ ℚ} {a b c : Option ℚ}

/-- What is multiplied where both units have a factor as a whole. -/
def correction : Option ℚ → Option ℚ → ℚ
  | some a, some b => a / b
  | _, _ => 1

/-- From the first unit to the base and then to the second unit. -/
def through (f g : ℚ ≃ ℚ) (a b : Option ℚ) (v : ℚ) : ℚ :=
  g.symm (f v) * correction a b

/-- A unit with a factor as a whole is converted to the base by a multiplication. -/
def Multiplies (f : ℚ ≃ ℚ) (a : Option ℚ) : Prop :=
  ∀ factor ∈ a, factor ≠ 0 ∧ ∀ v k, f (v * k) = f v * k

/-- If exactly two of three units have a factor as a whole, these are the same. -/
def Agree : Option ℚ → Option ℚ → Option ℚ → Prop
  | some a, some b, none => a = b
  | some a, none, some b => a = b
  | none, some a, some b => a = b
  | _, _, _ => True

theorem Multiplies.symm_mul {factor : ℚ} (multiplies : Multiplies f (some factor)) (v k : ℚ) :
    f.symm (v * k) = f.symm v * k := by
  rw [Equiv.symm_apply_eq, (multiplies factor rfl).2, Equiv.apply_symm_apply]

theorem mul_div_eq_self_iff {factor other : ℚ} (nonzero : other ≠ 0) (v : ℚ) :
    v * (factor / other) = v ↔ factor = other ∨ v = 0 := by
  rw [mul_right_eq_self₀, div_eq_one_iff_eq nonzero]

/-- Conversions can be composed just where the factors agree. -/
theorem through_through_iff (first : Multiplies f a) (second : Multiplies g b)
    (third : Multiplies h c) (v : ℚ) :
    through g h b c (through f g a b v) = through f h a c v ↔ Agree a b c ∨ f v = 0 := by
  rcases a with _ | a <;> rcases b with _ | b <;> rcases c with _ | c <;>
    simp only [through, correction, Agree, mul_one, true_or, Equiv.apply_symm_apply]
  · rw [← third.symm_mul, Equiv.apply_eq_iff_eq, mul_div_eq_self_iff (third c rfl).1]
  · rw [← third.symm_mul, eq_comm, Equiv.apply_eq_iff_eq, mul_div_eq_self_iff (third c rfl).1]
  · rw [(second b rfl).2, Equiv.apply_symm_apply, Equiv.apply_eq_iff_eq,
      mul_div_eq_self_iff (second b rfl).1]
  · rw [(second b rfl).2, Equiv.apply_symm_apply, third.symm_mul, mul_assoc,
      div_mul_div_cancel₀ (second b rfl).1, eq_self_iff_true]

theorem through_back (first : Multiplies f a) (second : Multiplies g b) (v : ℚ) :
    through g f b a (through f g a b v) = v := by
  rcases a with _ | a <;> rcases b with _ | b <;>
    simp only [through, correction, mul_one, Equiv.apply_symm_apply, Equiv.symm_apply_apply]
  rw [(second b rfl).2, Equiv.apply_symm_apply, first.symm_mul, Equiv.symm_apply_apply, mul_assoc,
    div_mul_div_cancel₀ (second b rfl).1, div_self (first a rfl).1, mul_one]

end Through

/-- The type `custom_dim_unit` with a conversion of its own, beside the units of the system. The
directions of a conversion are inverse to each other. -/
inductive DimUnit (Conv : Type)
  | systemUnit (u : Unit)
  | customDimUnit (dims : Dims) (conv : Conv)
  deriving DecidableEq

namespace DimUnit

variable {Conv : Type}

def dims : DimUnit Conv → Dims
  | systemUnit u => u.dims
  | customDimUnit dims _ => dims

/-- `make_custom_unit`. -/
def makeCustomUnit (conv : Conv) : Unit → Option (DimUnit Conv)
  | .unit dims => some (customDimUnit dims conv)
  | .scaledDimUnit _ _ => none

/-- The units that are made from plain units. -/
inductive Made : DimUnit Conv → Prop
  | unit (dims : Dims) : Made (systemUnit (.unit dims))
  | makeScaledBaseDimUnit (scale : Scale) (baseUnit : BaseUnit) :
      Made (systemUnit (Unit.makeScaledBaseDimUnit scale baseUnit))
  | makeScaledUnit (scale : Scale) {u result : Unit} :
      Unit.makeScaledUnit scale u = some result → Made (systemUnit result)
  | makeCustomUnit (conv : Conv) {u : Unit} {result : DimUnit Conv} :
      makeCustomUnit conv u = some result → Made result

variable (system : System) (conversion : Conv → ℚ ≃ ℚ)

/-- `value_conv`. -/
def valueConv [DecidableEq Conv] : DimUnit Conv → DimUnit Conv → Option (ℚ → ℚ)
  | systemUnit u1, systemUnit u2 => Unit.valueConv system u1 u2
  | customDimUnit d1 conv, systemUnit (.unit d2) =>
      if d1 = d2 then some (conversion conv) else none
  | systemUnit (.unit d1), customDimUnit d2 conv =>
      if d1 = d2 then some (conversion conv).symm else none
  | customDimUnit d1 conv, systemUnit (.scaledDimUnit d2 scales) =>
      if d1 = d2 then some fun v => hlp system scales false (conversion conv v) d2 else none
  | systemUnit (.scaledDimUnit d1 scales), customDimUnit d2 conv =>
      if d1 = d2 then some fun v => (conversion conv).symm (hlp system scales true v d1) else none
  | customDimUnit d1 conv1, customDimUnit d2 conv2 =>
      if d1 = d2 then
        if conv1 = conv2 then some id
        else some fun v => (conversion conv2).symm (conversion conv1 v)
      else none

/-- Through another unit a value is converted to the same value as directly, and from there it is
converted back to the original one. -/
def Coherent [DecidableEq Conv] (u v w : DimUnit Conv) (value : ℚ) : Prop :=
  ∃ uv vw uw vu, valueConv system conversion u v = some uv ∧
    valueConv system conversion v w = some vw ∧ valueConv system conversion u w = some uw ∧
    valueConv system conversion v u = some vu ∧ vw (uv value) = uw value ∧ vu (uv value) = value

/-- The factor of the base units of the system. -/
def baseFactor (dims : Dims) : ℚ :=
  perUnit system [] dims

theorem baseFactor_ne_zero (dims : Dims) : baseFactor system dims ≠ 0 :=
  perUnit_ne_zero system [] dims

/-- The factor of a unit as a whole. A plain unit has that of the base units. -/
def overallFactor : DimUnit Conv → Option ℚ
  | systemUnit (.unit dims) => some (baseFactor system dims)
  | systemUnit (.scaledDimUnit _ scales) => (overall scales).map Scale.factor
  | customDimUnit _ _ => none

/-- The conversion to the base, in which no scale of the unit as a whole is applied. -/
def toBase : DimUnit Conv → ℚ ≃ ℚ
  | systemUnit (.unit _) => Equiv.refl ℚ
  | systemUnit (.scaledDimUnit dims scales) =>
      Equiv.mulRight₀ (perUnit system scales dims) (perUnit_ne_zero system scales dims)
  | customDimUnit _ conv => conversion conv

theorem perUnit_overall (scale : Scale) (dims : Dims) :
    perUnit system [(none, scale)] dims = baseFactor system dims := by
  rw [baseFactor]
  induction dims with
  | nothing => rfl
  | dims head tail ih =>
      rcases head with _ | ⟨dim, e⟩
      · rfl
      · rw [perUnit, perUnit, ih, System.scaleFor, System.scaleFor]
        cases system.baseUnit dim <;> rfl

theorem multiplies (u : DimUnit Conv) :
    Multiplies (u.toBase system conversion) (u.overallFactor system) := by
  intro factor has
  rcases u with (dims | ⟨dims, scales⟩) | ⟨dims, conv⟩
  · cases has
    exact ⟨baseFactor_ne_zero system dims, fun _ _ => rfl⟩
  · rcases Option.map_eq_some_iff.mp has with ⟨scale, -, rfl⟩
    exact ⟨scale.factor_ne_zero, fun v k => mul_right_comm v k _⟩
  · cases has

@[simp]
theorem toBase_unit (dims : Dims) :
    (systemUnit (.unit dims) : DimUnit Conv).toBase system conversion = Equiv.refl ℚ :=
  rfl

@[simp]
theorem toBase_custom (dims : Dims) (conv : Conv) :
    (customDimUnit dims conv).toBase system conversion = conversion conv :=
  rfl

@[simp]
theorem toBase_scaled_apply (dims : Dims) (scales : UnitScales) (v : ℚ) :
    (systemUnit (.scaledDimUnit dims scales) : DimUnit Conv).toBase system conversion v =
      v * perUnit system scales dims :=
  rfl

@[simp]
theorem toBase_scaled_symm_apply (dims : Dims) (scales : UnitScales) (v : ℚ) :
    ((systemUnit (.scaledDimUnit dims scales) : DimUnit Conv).toBase system conversion).symm v =
      v / perUnit system scales dims :=
  (div_eq_mul_inv _ _).symm

theorem Made.scales {dims : Dims} {scales : UnitScales}
    (made : Made (systemUnit (.scaledDimUnit dims scales) : DimUnit Conv)) :
    overall scales = none ∨ ∃ scale, scales = [(none, scale)] := by
  cases made with
  | makeScaledBaseDimUnit scale baseUnit => exact Or.inl rfl
  | @makeScaledUnit scale u _ result =>
      cases u with
      | unit dims => cases result; exact Or.inr ⟨scale, rfl⟩
      | scaledDimUnit dims scales => cases result
  | @makeCustomUnit conv u _ result => cases u <;> cases result

section Converts

variable [DecidableEq Conv]

/-- The values are converted through the base. -/
def ConvertsThrough (u v : DimUnit Conv) : Prop :=
  ∃ conv, valueConv system conversion u v = some conv ∧
    ∀ value, conv value = through (u.toBase system conversion) (v.toBase system conversion)
      (u.overallFactor system) (v.overallFactor system) value

variable {dims : Dims} {scales scales' : UnitScales}

theorem convertsThrough_unit_scaled
    (made : Made (systemUnit (.scaledDimUnit dims scales) : DimUnit Conv)) :
    ConvertsThrough system conversion (systemUnit (.unit dims))
      (systemUnit (.scaledDimUnit dims scales)) := by
  have base := baseFactor_ne_zero system dims
  rcases made.scales with listed | ⟨scale, rfl⟩
  · refine ⟨fun value => hlp system scales false value dims, ?_, fun value => ?_⟩
    · rcases scales with _ | ⟨⟨_ | unit, scale⟩, tail⟩
      · exact if_pos rfl
      · cases listed
      · exact if_pos rfl
    · simp [(hlp_eq system scales dims value).2, through, overallFactor, listed, correction]
  · refine ⟨scale.fromBase, if_pos rfl, fun value => ?_⟩
    simp only [scale.fromBase_eq, through, overallFactor, overall, correction, Option.map_some,
      toBase_unit, Equiv.refl_apply, toBase_scaled_symm_apply, perUnit_overall]
    exact (div_mul_div_cancel₀ base).symm

theorem convertsThrough_scaled_unit
    (made : Made (systemUnit (.scaledDimUnit dims scales) : DimUnit Conv)) :
    ConvertsThrough system conversion (systemUnit (.scaledDimUnit dims scales))
      (systemUnit (.unit dims)) := by
  have base := baseFactor_ne_zero system dims
  rcases made.scales with listed | ⟨scale, rfl⟩
  · refine ⟨fun value => hlp system scales true value dims, ?_, fun value => ?_⟩
    · rcases scales with _ | ⟨⟨_ | unit, scale⟩, tail⟩
      · exact if_pos rfl
      · cases listed
      · exact if_pos rfl
    · simp [(hlp_eq system scales dims value).1, through, overallFactor, listed, correction]
  · refine ⟨scale.toBase, if_pos rfl, fun value => ?_⟩
    simp only [scale.toBase_eq, through, overallFactor, overall, correction, Option.map_some,
      toBase_unit, Equiv.refl_symm, Equiv.refl_apply, toBase_scaled_apply, perUnit_overall]
    rw [mul_assoc, mul_div_cancel₀ _ base]

/-- Scales of whole units are applied only if both units have one. -/
theorem convertsThrough_scaled_scaled
    (made : Made (systemUnit (.scaledDimUnit dims scales) : DimUnit Conv))
    (made' : Made (systemUnit (.scaledDimUnit dims scales') : DimUnit Conv)) :
    ConvertsThrough system conversion (systemUnit (.scaledDimUnit dims scales))
      (systemUnit (.scaledDimUnit dims scales')) := by
  have base := baseFactor_ne_zero system dims
  rcases Unit.valueConv_merged system dims scales scales' with ⟨conv, converts, factor⟩
  refine ⟨conv, converts, fun value => ?_⟩
  rw [factor, through, toBase_scaled_symm_apply, toBase_scaled_apply, mul_div_assoc, mul_assoc]
  congr 1
  rcases made.scales with listed | ⟨scale, rfl⟩
  · simp [Unit.mergedFactor, overallFactor, correction, listed]
  · rcases made'.scales with listed | ⟨scale', rfl⟩
    · simp [Unit.mergedFactor, overallFactor, correction, listed]
    · simp [Unit.mergedFactor, overallFactor, correction, overall, perUnit_overall, base]

/-- Conversions of made units go through the base. -/
theorem convertsThrough_of_made {u v : DimUnit Conv} (madeU : u.Made) (madeV : v.Made)
    (same : u.dims = v.dims) : ConvertsThrough system conversion u v := by
  rcases u with (dims | ⟨dims, scales⟩) | ⟨dims, conv⟩
  · rcases v with (dims' | ⟨dims', scales'⟩) | ⟨dims', conv'⟩
    · cases same
      refine ⟨id, if_pos rfl, fun value => ?_⟩
      simp [through, overallFactor, correction, baseFactor_ne_zero]
    · cases same
      exact convertsThrough_unit_scaled system conversion madeV
    · cases same
      exact ⟨_, if_pos rfl, fun value => (mul_one _).symm⟩
  · rcases v with (dims' | ⟨dims', scales'⟩) | ⟨dims', conv'⟩
    · cases same
      exact convertsThrough_scaled_unit system conversion madeU
    · cases same
      exact convertsThrough_scaled_scaled system conversion madeU madeV
    · cases same
      refine ⟨_, if_pos rfl, fun value => ?_⟩
      simp [(hlp_eq system scales dims value).1, through, overallFactor, correction]
  · rcases v with (dims' | ⟨dims', scales'⟩) | ⟨dims', conv'⟩
    · cases same
      exact ⟨_, if_pos rfl, fun value => (mul_one _).symm⟩
    · cases same
      refine ⟨_, if_pos rfl, fun value => ?_⟩
      simp [(hlp_eq system scales' dims _).2, through, overallFactor, correction]
    · cases same
      by_cases equal : conv = conv'
      · subst equal
        refine ⟨id, by simp [valueConv], fun value => ?_⟩
        simp [through, overallFactor, correction]
      · refine ⟨fun value => (conversion conv').symm (conversion conv value), ?_, fun value => ?_⟩
        · simp [valueConv, equal]
        · simp [through, overallFactor, correction]

/-- If exactly one of the three units is not plain and has no scale as a whole, the factors of the
others are the same. -/
def Suits (u v w : DimUnit Conv) : Prop :=
  Agree (u.overallFactor system) (v.overallFactor system) (w.overallFactor system)

theorem coherent_of_convertsThrough {u v w : DimUnit Conv}
    (first : ConvertsThrough system conversion u v) (second : ConvertsThrough system conversion v w)
    (direct : ConvertsThrough system conversion u w)
    (back : ConvertsThrough system conversion v u) (value : ℚ) :
    Coherent system conversion u v w value ↔
      Suits system u v w ∨ u.toBase system conversion value = 0 := by
  rcases first with ⟨uv, convertsUV, eqUV⟩
  rcases second with ⟨vw, convertsVW, eqVW⟩
  rcases direct with ⟨uw, convertsUW, eqUW⟩
  rcases back with ⟨vu, convertsVU, eqVU⟩
  have returned : vu (uv value) = value := by
    rw [eqVU, eqUV]
    exact through_back (u.multiplies system conversion) (v.multiplies system conversion) value
  have onward : vw (uv value) = uw value ↔
      Suits system u v w ∨ u.toBase system conversion value = 0 := by
    rw [eqVW, eqUV, eqUW]
    exact through_through_iff (u.multiplies system conversion) (v.multiplies system conversion)
      (w.multiplies system conversion) value
  simp [Coherent, convertsUV, convertsVW, convertsUW, convertsVU, returned, onward]

/-- Conversions are coherent just for units that suit, or where the value is zero in the base. -/
theorem coherent_iff {u v w : DimUnit Conv} (madeU : u.Made) (madeV : v.Made) (madeW : w.Made)
    (sameV : u.dims = v.dims) (sameW : u.dims = w.dims) (value : ℚ) :
    Coherent system conversion u v w value ↔
      Suits system u v w ∨ u.toBase system conversion value = 0 :=
  coherent_of_convertsThrough system conversion
    (convertsThrough_of_made system conversion madeU madeV sameV)
    (convertsThrough_of_made system conversion madeV madeW (sameV.symm.trans sameW))
    (convertsThrough_of_made system conversion madeU madeW sameW)
    (convertsThrough_of_made system conversion madeV madeU sameV.symm) value

end Converts

end DimUnit

/-- `celsius_conv` and `fahrenheit_conv`. -/
inductive TemperatureConv
  | celsius
  | fahrenheit
  deriving DecidableEq

def TemperatureConv.conversion : TemperatureConv → ℚ ≃ ℚ
  | celsius =>
      { toFun := fun v => v + 273.15
        invFun := fun v => v - 273.15
        left_inv := fun v => add_sub_cancel_right v _
        right_inv := fun v => sub_add_cancel v _ }
  | fahrenheit =>
      { toFun := fun v => (v - 32) / 1.8 + 273.15
        invFun := fun v => v * 1.8 - 459.67
        left_inv := fun v => by field_simp; norm_num; ring
        right_inv := fun v => by field_simp; norm_num; ring }

open TemperatureConv (conversion)

namespace DimUnit

theorem coherent_temperatures :
    let temperature : Dims := .dims (some (.temperature, 1)) .nothing
    Coherent si conversion (systemUnit (.unit temperature))
      (customDimUnit temperature .celsius) (customDimUnit temperature .fahrenheit) 300 := by
  intro temperature
  have made : ∀ conv, Made (customDimUnit temperature conv : DimUnit TemperatureConv) :=
    fun conv => .makeCustomUnit conv (u := .unit temperature) rfl
  exact (coherent_iff si conversion (.unit temperature) (made .celsius)
    (made .fahrenheit) rfl rfl 300).mpr (Or.inl trivial)

/-- A minute is 1000 units of a thousandth of a base second, but through seconds it is 60000. -/
theorem not_forall_coherent : ¬∀ u v w : DimUnit TemperatureConv, u.Made → v.Made → w.Made →
    u.dims = v.dims → u.dims = w.dims →
      ∀ value, Coherent si conversion u v w value := by
  intro coherent
  let time : Dims := .dims (some (.time, 1)) .nothing
  let sixty : Scale := .constant 60 (by decide)
  let milli : Scale := .power 1000 (-1) (by decide)
  have minute : Made (systemUnit (.scaledDimUnit time [(none, sixty)]) : DimUnit TemperatureConv) :=
    .makeScaledUnit sixty (u := .unit time) rfl
  have second : Made (systemUnit (.unit time) : DimUnit TemperatureConv) := .unit time
  have millisecond : Made (systemUnit (.makeScaledBaseDimUnit milli (.unit .time 0)) :
      DimUnit TemperatureConv) := .makeScaledBaseDimUnit milli _
  have converts := @convertsThrough_of_made TemperatureConv si conversion _
  have base : baseFactor si time = 1 := (mul_one _).trans (zpow_one _)
  have suits := (coherent_of_convertsThrough si conversion
    (converts minute second rfl) (converts second millisecond rfl) (converts minute millisecond rfl)
    (converts second minute rfl) 1).mp (coherent _ _ _ minute second millisecond rfl rfl 1)
  rcases suits with same | zero
  · have factors : (60 : ℚ) = baseFactor si time := same
    rw [base] at factors
    exact absurd factors (by norm_num)
  · rw [toBase_scaled_apply, perUnit_overall, base] at zero
    exact absurd zero (by norm_num)

end DimUnit

end Eagine.Units
