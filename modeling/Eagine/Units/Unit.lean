import Eagine.Units.Dimension
import Mathlib.Algebra.Order.Field.Rat
import Mathlib.Tactic.FieldSimp
import Mathlib.Tactic.Ring

/-!
# Units and quantities

Units of one system are types: the plain unit of a dimension, or a unit with a list of scales for
base units, in which the scale of no base unit stands for the whole unit. What partial
specializations select is selected by cases here.
-/

/-!
## Scales

A scale converts values to those of a base unit and back. The values are rational numbers, and
the parameters by which a scale divides are not zero.
-/

namespace Eagine.Units

/-- The types in `scales`. -/
inductive Scale
  | one
  | constant (i : ℤ) (nonzero : i ≠ 0)
  | pi
  | rational (num den : ℤ) (nonzero : num ≠ 0 ∧ den ≠ 0)
  | power (x y : ℤ) (nonzero : x ≠ 0)
  | inverted (scale : Scale)
  | multiplied (scale1 scale2 : Scale)
  | divided (scale1 scale2 : Scale)
  | recombined (scale1 scale2 : Scale)
  deriving DecidableEq

namespace Scale

/-- The value of `M_PI` as a `double`. -/
def piValue : ℚ :=
  884279719003555 / 281474976710656

mutual

def toBase : Scale → ℚ → ℚ
  | one, v => v
  | constant i _, v => v * i
  | pi, v => v * piValue
  | rational num den _, v => v * num / den
  | power x y _, v => v * (x : ℚ) ^ y
  | inverted scale, v => scale.fromBase v
  | multiplied scale1 scale2, v => scale2.toBase (scale1.toBase v)
  | divided scale1 scale2, v => scale2.fromBase (scale1.toBase v)
  | recombined scale1 scale2, v => scale2.toBase (scale1.toBase v)

def fromBase : Scale → ℚ → ℚ
  | one, v => v
  | constant i _, v => v / i
  | pi, v => v / piValue
  | rational num den _, v => v * den / num
  | power x y _, v => v / (x : ℚ) ^ y
  | inverted scale, v => scale.toBase v
  | multiplied scale1 scale2, v => scale2.fromBase (scale1.fromBase v)
  | divided scale1 scale2, v => scale2.toBase (scale1.fromBase v)
  | recombined scale1 scale2, v => scale2.fromBase (scale1.fromBase v)

end

/-- The number by which a scale multiplies. -/
def factor : Scale → ℚ
  | one => 1
  | constant i _ => i
  | pi => piValue
  | rational num den _ => num / den
  | power x y _ => (x : ℚ) ^ y
  | inverted scale => scale.factor⁻¹
  | multiplied scale1 scale2 => scale1.factor * scale2.factor
  | divided scale1 scale2 => scale1.factor / scale2.factor
  | recombined scale1 scale2 => scale1.factor * scale2.factor

theorem factor_ne_zero (scale : Scale) : scale.factor ≠ 0 := by
  induction scale with
  | one => exact one_ne_zero
  | constant i nonzero => exact Int.cast_ne_zero.mpr nonzero
  | pi => norm_num [factor, piValue]
  | rational num den nonzero =>
      exact div_ne_zero (Int.cast_ne_zero.mpr nonzero.1) (Int.cast_ne_zero.mpr nonzero.2)
  | power x y nonzero => exact zpow_ne_zero y (Int.cast_ne_zero.mpr nonzero)
  | inverted scale ih => exact inv_ne_zero ih
  | multiplied scale1 scale2 ih1 ih2 => exact mul_ne_zero ih1 ih2
  | divided scale1 scale2 ih1 ih2 => exact div_ne_zero ih1 ih2
  | recombined scale1 scale2 ih1 ih2 => exact mul_ne_zero ih1 ih2

/-- Both directions of a conversion are products with the factor and its inverse. -/
theorem convert_eq (scale : Scale) (v : ℚ) :
    scale.toBase v = v * scale.factor ∧ scale.fromBase v = v / scale.factor := by
  induction scale generalizing v with
  | one =>
      rw [toBase, fromBase, factor]
      exact ⟨(mul_one v).symm, (div_one v).symm⟩
  | constant i nonzero => exact ⟨rfl, rfl⟩
  | pi => exact ⟨rfl, rfl⟩
  | rational num den nonzero =>
      rw [toBase, fromBase, factor]
      exact ⟨mul_div_assoc _ _ _, by rw [div_div_eq_mul_div]⟩
  | power x y nonzero => exact ⟨rfl, rfl⟩
  | inverted scale ih =>
      rw [toBase, fromBase, factor, (ih v).1, (ih v).2]
      exact ⟨div_eq_mul_inv _ _, by rw [div_inv_eq_mul]⟩
  | multiplied scale1 scale2 ih1 ih2 =>
      rw [toBase, fromBase, factor, (ih2 _).1, (ih2 _).2, (ih1 v).1, (ih1 v).2]
      exact ⟨mul_assoc _ _ _, div_div _ _ _⟩
  | divided scale1 scale2 ih1 ih2 =>
      rw [toBase, fromBase, factor, (ih2 _).1, (ih2 _).2, (ih1 v).1, (ih1 v).2]
      exact ⟨mul_div_assoc _ _ _, by rw [div_div_eq_mul_div, div_mul_eq_mul_div]⟩
  | recombined scale1 scale2 ih1 ih2 =>
      rw [toBase, fromBase, factor, (ih2 _).1, (ih2 _).2, (ih1 v).1, (ih1 v).2]
      exact ⟨mul_assoc _ _ _, div_div _ _ _⟩

theorem toBase_eq (scale : Scale) (v : ℚ) : scale.toBase v = v * scale.factor :=
  (scale.convert_eq v).1

theorem fromBase_eq (scale : Scale) (v : ℚ) : scale.fromBase v = v / scale.factor :=
  (scale.convert_eq v).2

end Scale

end Eagine.Units

namespace Eagine.Units

/-- The types `base::unit` and `base::scaled_unit`. -/
inductive BaseUnit
  | unit (dimension : BaseDimension) (derived : ℕ)
  | scaledUnit (scale : Scale) (inner : BaseUnit)
  deriving DecidableEq

namespace BaseUnit

/-- `dimension_of`. -/
def dimensionOf : BaseUnit → BaseDimension
  | unit dimension _ => dimension
  | scaledUnit _ inner => inner.dimensionOf

/-- `scale_of`. -/
def scaleOf : BaseUnit → Scale
  | unit _ _ => .one
  | scaledUnit scale _ => scale

end BaseUnit

/-- A system with its `base_unit`. -/
structure System where
  baseUnit : BaseDimension → BaseUnit

/-- The base units of `si`. It has none for the amount of information, which is given one here. -/
def si : System where
  baseUnit
    | .mass => .scaledUnit (.power 1000 1 (by decide)) (.unit .mass 0)
    | dim => .unit dim 0

/-- A `uni_sca`, of no unit where that is `nothing_t`. -/
abbrev UniSca := Option BaseUnit × Scale

/-- A `unit_scales` chain. The collapsed empty chain is the empty list. -/
abbrev UnitScales := List UniSca

/-- `get_scale`. -/
def getScale : UnitScales → BaseUnit → Scale → Scale
  | [], _, fallback => fallback
  | (unit, scale) :: tail, wanted, fallback =>
      if unit = some wanted then scale
      else
        match wanted with
        | .scaledUnit scale2 inner =>
            if unit = some inner then .divided scale scale2 else getScale tail wanted fallback
        | .unit _ _ => getScale tail wanted fallback

/-- `dim_num_v` of the dimension of a unit, or of nothing. -/
def unitNum : Option BaseUnit → ℕ
  | some unit => dimNum unit.dimensionOf
  | none => 0

/-- `merge`. -/
def merge : UnitScales → UnitScales → UnitScales
  | [], second => second
  | first, [] => first
  | (u1, s1) :: t1, (u2, s2) :: t2 =>
      if u1 = u2 then (u1, s1) :: merge t1 t2
      else if unitNum u1 < unitNum u2 then (u1, s1) :: merge t1 ((u2, s2) :: t2)
      else (u2, s2) :: merge ((u1, s1) :: t1) t2
termination_by first second => first.length + second.length

/-- `_pow`. -/
def pow (scale : Scale) (v : ℚ) (e : ℤ) : ℚ :=
  if e = 0 then v
  else pow scale (if 0 < e then scale.toBase v else scale.fromBase v) (e + if 0 < e then -1 else 1)
termination_by e.natAbs
decreasing_by
  split <;> omega

variable (system : System)

/-- The scale that is applied for a base dimension. -/
def System.scaleFor (scales : UnitScales) (dim : BaseDimension) : Scale :=
  let unit := system.baseUnit dim
  getScale scales unit unit.scaleOf

/-- `_hlp`, in the direction to the base or from it. A head of `nothing_t` is that of `dimless`. -/
def hlp (scales : UnitScales) (toBase : Bool) (v : ℚ) : Dims → ℚ
  | .nothing => v
  | .dims none _ => v
  | .dims (some (dim, e)) tail =>
      hlp scales toBase (pow (system.scaleFor scales dim) v (if toBase then e else -e)) tail

/-- The types `unit` and `scaled_dim_unit` of the system. -/
inductive Unit
  | unit (dims : Dims)
  | scaledDimUnit (dims : Dims) (scales : UnitScales)
  deriving DecidableEq

namespace Unit

def dims : Unit → Dims
  | unit dims => dims
  | scaledDimUnit dims _ => dims

/-- `make_scaled_base_dim_unit`. -/
def makeScaledBaseDimUnit (scale : Scale) (baseUnit : BaseUnit) : Unit :=
  scaledDimUnit (.dims (some (baseUnit.dimensionOf, 1)) .nothing) [(some baseUnit, scale)]

/-- `make_scaled_unit`. -/
def makeScaledUnit (scale : Scale) : Unit → Option Unit
  | unit dims => some (scaledDimUnit dims [(none, scale)])
  | scaledDimUnit _ _ => none

/-- `value_conv`. -/
def valueConv : Unit → Unit → Option (ℚ → ℚ)
  | unit d1, unit d2 => if d1 = d2 then some id else none
  | scaledDimUnit d1 scales, unit d2 =>
      if d1 = d2 then
        match scales with
        | (none, as) :: _ => some as.toBase
        | _ => some fun v => hlp system scales true v d1
      else none
  | unit d1, scaledDimUnit d2 scales =>
      if d1 = d2 then
        match scales with
        | (none, as) :: _ => some as.fromBase
        | _ => some fun v => hlp system scales false v d1
      else none
  | scaledDimUnit d1 scales1, scaledDimUnit d2 scales2 =>
      if d1 = d2 then
        if scales1 = scales2 then some id
        else
          let general := fun v => hlp system scales2 false (hlp system scales1 true v d1) d1
          match scales1, scales2 with
          | (none, as1) :: us1, (none, as2) :: us2 =>
              if us1 = us2 then some fun v => as2.fromBase (as1.toBase v) else some general
          | _, _ => some general
      else none

/-- `mul_l_operand` and `div_l_operand`. -/
def mulLOperand : Unit → Unit → Unit
  | scaledDimUnit d1 us1, scaledDimUnit _ us2 => scaledDimUnit d1 (merge us1 us2)
  | u1, _ => unit u1.dims

/-- `mul_r_operand` and `div_r_operand`. -/
def mulROperand : Unit → Unit → Unit
  | scaledDimUnit _ us1, scaledDimUnit d2 us2 => scaledDimUnit d2 (merge us1 us2)
  | _, u2 => unit u2.dims

/-- `mul_result`. -/
def mulResult : Unit → Unit → Option Unit
  | scaledDimUnit d1 us1, scaledDimUnit d2 us2 =>
      (Dims.dimAdd d1 d2).map fun d => scaledDimUnit d (merge us1 us2)
  | u1, u2 => (Dims.dimAdd u1.dims u2.dims).map unit

/-- `div_result`. -/
def divResult : Unit → Unit → Option Unit
  | scaledDimUnit d1 us1, scaledDimUnit d2 us2 =>
      (Dims.dimSub d1 d2).map fun d => scaledDimUnit d (merge us1 us2)
  | u1, u2 => (Dims.dimSub u1.dims u2.dims).map unit

/-- The units that are built by `unit`, `make_scaled_base_dim_unit` and `make_scaled_unit`, and
products and quotients of them. -/
inductive Built : Unit → Prop
  | unit (dimension : Dimension) : Built (unit dimension.toDims)
  | makeScaledBaseDimUnit (scale : Scale) (baseUnit : BaseUnit) :
      Built (makeScaledBaseDimUnit scale baseUnit)
  | makeScaledUnit (scale : Scale) {u result : Unit} :
      Built u → makeScaledUnit scale u = some result → Built result
  | mul {u1 u2 result : Unit} : Built u1 → Built u2 → mulResult u1 u2 = some result → Built result
  | div {u1 u2 result : Unit} : Built u1 → Built u2 → divResult u1 u2 = some result → Built result

end Unit

/-- A `tagged_quantity`. -/
structure Quantity where
  unit : Unit
  value : ℚ

namespace Quantity

/-- The value in another unit. -/
def convertTo (quantity : Quantity) (u : Unit) : Option ℚ :=
  (Unit.valueConv system quantity.unit u).map fun conv => conv quantity.value

/-- The value in the plain unit of the dimension. -/
def toPlain (quantity : Quantity) : Option ℚ :=
  quantity.convertTo system (.unit quantity.unit.dims)

/-- `operator*`. -/
def mul (a b : Quantity) : Option Quantity := do
  let left ← a.convertTo system (a.unit.mulLOperand b.unit)
  let right ← b.convertTo system (a.unit.mulROperand b.unit)
  let unit ← a.unit.mulResult b.unit
  some ⟨unit, left * right⟩

/-- `operator/`. -/
def div (a b : Quantity) : Option Quantity := do
  let left ← a.convertTo system (a.unit.mulLOperand b.unit)
  let right ← b.convertTo system (a.unit.mulROperand b.unit)
  let unit ← a.unit.divResult b.unit
  some ⟨unit, left / right⟩

end Quantity

end Eagine.Units
