import Eagine.ValueTree.JsonNode

/-!
# Conversion of JSON values

The conversions of the value tree to scalars and character strings, and the values that are
fetched with them from an attribute: all of the elements of an array, or a single value.
-/

namespace Eagine.Serialization

open ValueTree FromString

/-- The integer types of C++ but for those of single bytes. -/
inductive IntType where
  | short
  | int
  | long
  | longLong
deriving DecidableEq

def IntType.width : IntType → IntWidth
  | .short => .w16
  | .int => .w32
  | .long => .w64
  | .longLong => .w64

inductive TreeScalar where
  | bool
  | signed (type : IntType)
  | unsigned (type : IntType)
deriving DecidableEq

instance : Leaf TreeScalar where
  Rep
    | .bool => Bool
    | .signed type => BitVec type.width.bits
    | .unsigned type => BitVec type.width.bits
  zero
    | .bool => false
    | .signed type => BitVec.zero type.width.bits
    | .unsigned type => BitVec.zero type.width.bits

end Eagine.Serialization

namespace Eagine.ValueTree

open Serialization FromString

namespace JsonValue

section Conversions

variable [ExpressionParser]

/-- `convert_bool`. -/
def convertBool : JsonValue → Option Bool
  | .bool value => some value
  | .integer number =>
      if number.isInt && uintFits .w8 number.value && decide (number.value ≤ 1) then
        some (number.value == 1)
      else none
  | .string text => fromBool text
  | _ => none

/-- `convert_int`. -/
def convertInt (width : IntWidth) : JsonValue → Option Int
  | .integer number =>
      if number.isInt && intFits width number.value then some number.value
      else if number.isInt64 && intFits width number.value then some number.value
      else none
  | .string text => fromInt width text
  | _ => none

/-- `convert_uint`. -/
def convertUint (width : IntWidth) : JsonValue → Option Int
  | .integer number =>
      if number.isUint && uintFits width number.value then some number.value
      else if number.isUint64 && uintFits width number.value then some number.value
      else none
  | .string text => fromUint width text
  | _ => none

def convertString : JsonValue → Option Block
  | .string text => some text
  | _ => none

/-- `convert` to a scalar. A `long` is a `long long`. -/
def convert : (scalar : TreeScalar) → JsonValue → Option (Leaf.Rep scalar)
  | .bool, value => value.convertBool
  | .signed type, value => (value.convertInt type.width).map (BitVec.ofInt type.width.bits)
  | .unsigned type, value => (value.convertUint type.width).map (BitVec.ofInt type.width.bits)

end Conversions

/-- The values that can be converted before the first one that cannot. -/
def convertWhile {α : Type} (conversion : JsonValue → Option α) : List JsonValue → List α
  | [] => []
  | value :: values =>
      match conversion value with
      | some converted => converted :: convertWhile conversion values
      | none => []

/-- `do_fetch_values` without an offset. -/
def fetchValues {α : Type} (conversion : JsonValue → Option α) (value : JsonValue)
    (size : Nat) : List α :=
  match value with
  | .array elements => convertWhile conversion (elements.take size)
  | value => convertWhile conversion ([value].take size)

/-- The values of an attribute. -/
def entries : JsonValue → List JsonValue
  | .array elements => elements
  | value => [value]

/-- The first values of the attribute convert to these. -/
def Converts {α : Type} (conversion : JsonValue → Option α) (value : JsonValue)
    (converted : List α) : Prop :=
  List.Forall₂ (fun entry result => conversion entry = some result)
    (value.entries.take converted.length) converted

variable {α : Type} {conversion : JsonValue → Option α}

theorem fetchValues_eq (value : JsonValue) (size : Nat) :
    value.fetchValues conversion size = convertWhile conversion (value.entries.take size) := by
  cases value with
  | null => rfl
  | bool value => rfl
  | integer number => rfl
  | real bits => rfl
  | string text => rfl
  | array elements => rfl
  | object members => rfl

theorem length_convertWhile_le (entries : List JsonValue) :
    (convertWhile conversion entries).length ≤ entries.length := by
  induction entries with
  | nil => exact Nat.le_refl 0
  | cons entry entries ih =>
      rw [convertWhile]
      cases conversion entry with
      | none => exact Nat.zero_le _
      | some converted => exact Nat.succ_le_succ ih

/-- All of the entries convert. -/
theorem convertWhile_eq_iff (entries : List JsonValue) (converted : List α) :
    (convertWhile conversion entries = converted ∧ converted.length = entries.length) ↔
      List.Forall₂ (fun entry result => conversion entry = some result) entries converted := by
  induction entries generalizing converted with
  | nil =>
      rw [convertWhile, List.forall₂_nil_left_iff]
      constructor
      · rintro ⟨rfl, _⟩
        rfl
      · rintro rfl
        exact ⟨rfl, rfl⟩
  | cons entry entries ih =>
      rw [convertWhile]
      constructor
      · rintro ⟨rfl, sameLength⟩
        cases found : conversion entry with
        | none =>
            rw [found] at sameLength
            cases sameLength
        | some result =>
            rw [found] at sameLength
            exact List.Forall₂.cons found ((ih _).mp ⟨rfl, Nat.succ.inj sameLength⟩)
      · intro all
        cases all with
        | cons found rest =>
            rcases (ih _).mpr rest with ⟨same, sameLength⟩
            rw [found]
            exact ⟨congrArg _ same, congrArg Nat.succ sameLength⟩

theorem fetchValues_iff (value : JsonValue) (size : Nat) (converted : List α) :
    (value.fetchValues conversion size = converted ∧ converted.length = size) ↔
      converted.length = size ∧ value.Converts conversion converted := by
  rw [fetchValues_eq]
  constructor
  · rintro ⟨same, rfl⟩
    have short : (convertWhile conversion (value.entries.take converted.length)).length ≤ _ :=
      length_convertWhile_le _
    rw [same] at short
    have sameLength : converted.length = (value.entries.take converted.length).length :=
      Nat.le_antisymm short (List.length_take_le _ _)
    exact ⟨rfl, (convertWhile_eq_iff _ _).mp ⟨same, sameLength⟩⟩
  · rintro ⟨rfl, all⟩
    exact ⟨((convertWhile_eq_iff _ _).mpr all).1, rfl⟩

/-- Arrays and objects. -/
def IsComposite : JsonValue → Prop
  | .array _ => True
  | .object _ => True
  | _ => False

theorem convert_composite [ExpressionParser] {scalar : TreeScalar} {value : JsonValue}
    (composite : value.IsComposite) : convert scalar value = none := by
  cases value with
  | array elements =>
      cases scalar <;> rfl
  | object members =>
      cases scalar <;> rfl
  | null => exact composite.elim
  | bool value => exact composite.elim
  | integer number => exact composite.elim
  | real bits => exact composite.elim
  | string text => exact composite.elim

theorem convertString_composite {value : JsonValue} (composite : value.IsComposite) :
    value.convertString = none := by
  cases value with
  | array elements => rfl
  | object members => rfl
  | null => rfl
  | bool value => rfl
  | integer number => rfl
  | real bits => rfl
  | string text => exact composite.elim

theorem converts_first {value first : JsonValue} {rest : List JsonValue}
    (entriesEq : value.entries = first :: rest) (result : α) :
    value.Converts conversion [result] ↔ conversion first = some result := by
  rw [Converts, entriesEq]
  constructor
  · rintro (_ | ⟨found, _⟩)
    exact found
  · intro found
    exact List.Forall₂.cons found List.Forall₂.nil

variable {elements : List JsonValue}

theorem converts_all {converted : List α} (sameLength : converted.length = elements.length) :
    (JsonValue.array elements).Converts conversion converted ↔
      List.Forall₂ (fun entry result => conversion entry = some result) elements converted := by
  rw [Converts, entries, sameLength, List.take_length]

/-- What represents some values is converted to them. -/
theorem converts_map {represent : α → JsonValue}
    (convertsBack : ∀ value, conversion (represent value) = some value) (values : List α) :
    (JsonValue.array (values.map represent)).Converts conversion values := by
  rw [converts_all (List.length_map _).symm, List.forall₂_map_left_iff, List.forall₂_same]
  intro value _
  exact convertsBack value

/-- All of the elements of an array are converted only if none of them is composite. -/
theorem not_converts_composite {converted : List α}
    (sameLength : converted.length = elements.length)
    (unconverted : ∀ value, value.IsComposite → conversion value = none) {element : JsonValue}
    (mem : element ∈ elements) (composite : element.IsComposite) :
    ¬(JsonValue.array elements).Converts conversion converted := by
  rw [converts_all sameLength]
  intro all
  rcases List.mem_iff_getElem.mp mem with ⟨position, bound, rfl⟩
  have found := (List.forall₂_iff_get.mp all).2 position bound (by rwa [sameLength])
  rw [List.get_eq_getElem, unconverted _ composite] at found
  cases found

end JsonValue

end Eagine.ValueTree
