import Eagine.ValueTree.JsonConversion

/-!
# Fetching of values from an offset

The values of an attribute are fetched from an offset into a block, and callers go on behind
what they got. The elements of an array are fetched from the offset, while a single value is
fetched whatever the offset is.
-/

namespace Eagine.ValueTree

open Serialization FromString List

/-- The integers and the strings that the values of an attribute are converted to. -/
inductive FetchedType where
  | string
  | signed (type : IntType)
  | unsigned (type : IntType)

namespace FetchedType

def Value : FetchedType → Type
  | string => Block
  | signed _ | unsigned _ => Int

def convert [ExpressionParser] : (type : FetchedType) → JsonValue → Option type.Value
  | string, value => value.convertString
  | signed type, value => value.convertInt type.width
  | unsigned type, value => value.convertUint type.width

theorem convert_array [ExpressionParser] (type : FetchedType) (elements : List JsonValue) :
    type.convert (.array elements) = none := by
  cases type <;> rfl

theorem convert_null [ExpressionParser] (type : FetchedType) : type.convert .null = none := by
  cases type <;> rfl

end FetchedType

namespace JsonValue

variable {α : Type} (conversion : JsonValue → Option α)

/-- The loop of `do_fetch_values` over an array, from a position and with the room that remains
in the block. -/
def fetchElements (elements : List JsonValue) : Nat → Nat → List α
  | _, 0 => []
  | position, room + 1 =>
      match elements[position]? with
      | some value =>
          match conversion value with
          | some converted => converted :: fetchElements elements (position + 1) room
          | none => []
      | none => []

/-- `do_fetch_values` into a block of the size. -/
def doFetchValues (value : JsonValue) (offset size : Nat) : List α :=
  match value with
  | .array elements => fetchElements conversion elements offset size
  | value => if size = 0 then [] else (conversion value).toList

/-- The loop of a caller. The chunks are fetched into blocks of these sizes until nothing is
fetched, each one behind what was fetched before. -/
def readChunks (value : JsonValue) (sizes : Nat → ℕ+) : Nat → Nat → Nat → Option (List α)
  | 0, _, _ => none
  | fuel + 1, chunk, offset =>
      let fetched := doFetchValues conversion value offset (sizes chunk)
      if fetched.isEmpty then some []
      else
        (readChunks value sizes fuel (chunk + 1) (offset + fetched.length)).map (fetched ++ ·)

/-- The values that are counted. -/
def values (value : JsonValue) : List JsonValue :=
  value.entries.take value.getValueCount

/-- What is stored are the values from the offset on, up to the first one that does not convert,
the last one, or the end of the block. -/
def FetchesExactly (value : JsonValue) (offset size : Nat) : Prop :=
  doFetchValues conversion value offset size =
    convertWhile conversion ((value.values.drop offset).take size)

/-- The caller comes to an end with what is fetched at once. -/
def ReadsInChunks (value : JsonValue) (sizes : Nat → ℕ+) : Prop :=
  ∃ fuel, readChunks conversion value sizes fuel 0 0 =
    some (doFetchValues conversion value 0 value.getValueCount)

variable {conversion}

theorem values_array (elements : List JsonValue) : (array elements).values = elements :=
  take_length

theorem fetchElements_eq (elements : List JsonValue) (position room : Nat) :
    fetchElements conversion elements position room =
      convertWhile conversion ((elements.drop position).take room) := by
  induction room generalizing position with
  | zero => rw [fetchElements, take_zero, convertWhile]
  | succ room ih =>
      rw [fetchElements]
      rcases Nat.lt_or_ge position elements.length with inside | outside
      · rw [getElem?_eq_getElem inside, drop_eq_getElem_cons inside,
          take_succ_cons, convertWhile]
        dsimp only
        cases conversion elements[position] with
        | none => rfl
        | some converted => exact congrArg (converted :: ·) (ih (position + 1))
      · rw [getElem?_eq_none outside, drop_of_length_le outside, take_nil,
          convertWhile]

theorem fetchesExactly_array (elements : List JsonValue) (offset size : Nat) :
    FetchesExactly conversion (array elements) offset size := by
  rw [FetchesExactly, values_array]
  exact fetchElements_eq elements offset size

theorem array_or_single (conversion : JsonValue → Option α) (value : JsonValue) :
    (∃ elements, value = array elements) ∨ (value = .null ∨ value.values = [value]) ∧
      ∀ offset size, doFetchValues conversion value offset size =
        if size = 0 then [] else (conversion value).toList := by
  cases value with
  | array elements => exact .inl ⟨elements, rfl⟩
  | null => exact .inr ⟨.inl rfl, fun _ _ => rfl⟩
  | bool value => exact .inr ⟨.inr rfl, fun _ _ => rfl⟩
  | integer number => exact .inr ⟨.inr rfl, fun _ _ => rfl⟩
  | real bits => exact .inr ⟨.inr rfl, fun _ _ => rfl⟩
  | string text => exact .inr ⟨.inr rfl, fun _ _ => rfl⟩
  | object members => exact .inr ⟨.inr rfl, fun _ _ => rfl⟩

variable {value : JsonValue}

/-- A single value is fetched from any offset, and is the only one that is counted. -/
theorem fetchesExactly_single_iff {converted : α} (converts : conversion value = some converted)
    (single : value.values = [value])
    (fetched : ∀ offset size, doFetchValues conversion value offset size =
      if size = 0 then [] else (conversion value).toList) (offset size : Nat) :
    FetchesExactly conversion value offset size ↔ offset = 0 ∨ size = 0 := by
  have whole : convertWhile conversion [value] = [converted] := by
    rw [convertWhile, converts, convertWhile]
  rw [FetchesExactly, fetched, single, converts]
  cases size with
  | zero =>
      rw [if_pos rfl, take_zero, convertWhile]
      exact iff_of_true rfl (.inr rfl)
  | succ size =>
      rw [if_neg (Nat.succ_ne_zero size)]
      cases offset with
      | zero =>
          rw [drop_zero, take_succ_cons, take_nil, whole]
          exact iff_of_true rfl (.inl rfl)
      | succ offset =>
          rw [drop_succ_cons, drop_nil, take_nil, convertWhile]
          exact iff_of_false (cons_ne_nil _ _)
            (not_or_intro (Nat.succ_ne_zero offset) (Nat.succ_ne_zero size))

/-- Nothing is fetched of a single value that does not convert. -/
theorem fetchesExactly_of_convert_none (fails : conversion value = none)
    (single : value = .null ∨ value.values = [value])
    (fetched : ∀ offset size, doFetchValues conversion value offset size =
      if size = 0 then [] else (conversion value).toList) (offset size : Nat) :
    FetchesExactly conversion value offset size := by
  have nothing : ∀ entries : List JsonValue, (∀ entry ∈ entries, entry = value) →
      convertWhile conversion entries = [] := by
    rintro (_ | ⟨entry, entries⟩) same
    · rw [convertWhile]
    · rw [convertWhile, same entry mem_cons_self, fails]
  have counted : ∀ entry ∈ value.values, entry = value := by
    rcases single with rfl | single
    · exact fun _ mem => absurd mem not_mem_nil
    · rw [single]
      exact fun _ => mem_singleton.mp
  rw [FetchesExactly, fetched, fails, Option.toList_none, ite_self]
  symm
  apply nothing
  intro entry mem
  exact counted entry (mem_of_mem_drop (mem_of_mem_take mem))

/-- What is converted goes on behind what was converted of the first ones. -/
theorem convertWhile_eq_append (entries : List JsonValue) (size : Nat) :
    convertWhile conversion entries =
      convertWhile conversion (entries.take size) ++
        convertWhile conversion
          (entries.drop (convertWhile conversion (entries.take size)).length) := by
  induction entries generalizing size with
  | nil => rw [take_nil, drop_nil, convertWhile, append_nil]
  | cons entry entries ih =>
      cases size with
      | zero => rw [take_zero, convertWhile, length_nil, drop_zero, nil_append]
      | succ size =>
          rw [take_succ_cons, convertWhile, convertWhile]
          cases converts : conversion entry with
          | none =>
              dsimp only
              rw [length_nil, drop_zero, convertWhile, converts]
              rfl
          | some converted =>
              dsimp only
              rw [length_cons, drop_succ_cons, cons_append, ← ih size]

theorem convertWhile_eq_nil {entries : List JsonValue} {size : Nat} (positive : 0 < size)
    (nothing : convertWhile conversion (entries.take size) = []) :
    convertWhile conversion entries = [] := by
  rcases Nat.exists_eq_add_of_le' positive with ⟨size, rfl⟩
  cases entries with
  | nil => rfl
  | cons entry entries =>
      rw [take_succ_cons, convertWhile] at nothing
      rw [convertWhile]
      cases converts : conversion entry with
      | none => rfl
      | some converted =>
          rw [converts] at nothing
          cases nothing

/-- The chunks that remain have the values that remain. -/
theorem readChunks_eq (exactly : ∀ offset size, FetchesExactly conversion value offset size)
    (sizes : Nat → ℕ+) (fuel chunk offset : Nat) (enough : value.values.length - offset < fuel) :
    readChunks conversion value sizes fuel chunk offset =
      some (convertWhile conversion (value.values.drop offset)) := by
  induction fuel generalizing chunk offset with
  | zero => exact absurd enough (Nat.not_lt_zero _)
  | succ fuel ih =>
      rw [readChunks, exactly offset (sizes chunk)]
      cases fetched : convertWhile conversion
          ((value.values.drop offset).take (sizes chunk)) with
      | nil =>
          rw [convertWhile_eq_nil (sizes chunk).pos fetched]
          rfl
      | cons first others =>
          have remains : (first :: others).length ≤ (value.values.drop offset).length := by
            rw [← fetched]
            exact (length_convertWhile_le _).trans (length_take_le' _ _)
          rw [length_cons, length_drop] at remains
          have less : value.values.length - (offset + (first :: others).length) < fuel := by
            rw [length_cons]
            omega
          have behind := @convertWhile_eq_append _ conversion (value.values.drop offset)
            (sizes chunk)
          rw [fetched, drop_drop] at behind
          simp only [isEmpty_cons, Bool.false_eq_true, if_false]
          rw [ih (chunk + 1) _ less, behind]
          rfl

theorem readsInChunks_of_exactly
    (exactly : ∀ offset size, FetchesExactly conversion value offset size) (sizes : Nat → ℕ+) :
    ReadsInChunks conversion value sizes := by
  refine ⟨value.values.length + 1, ?_⟩
  have counted : value.values.length ≤ value.getValueCount := length_take_le _ _
  rw [readChunks_eq exactly sizes _ 0 0 (Nat.lt_succ_of_le (Nat.sub_le _ _)),
    exactly 0 value.getValueCount,
    drop_zero, take_of_length_le counted]

/-- A caller that gets a value from any offset gets one again and again. -/
theorem readChunks_single {converted : α} (converts : conversion value = some converted)
    (fetched : ∀ offset size, doFetchValues conversion value offset size =
      if size = 0 then [] else (conversion value).toList) (sizes : Nat → ℕ+)
    (fuel chunk offset : Nat) : readChunks conversion value sizes fuel chunk offset = none := by
  induction fuel generalizing chunk offset with
  | zero => rfl
  | succ fuel ih =>
      rw [readChunks, fetched, if_neg (sizes chunk).ne_zero, converts, ih]
      rfl

end JsonValue

open JsonValue

/-- A value that is not in an array is fetched again from every offset, thus the access to it
is not a random one and reading it in chunks does not end. -/
theorem fetchesExactly_iff [ExpressionParser] (type : FetchedType) (value : JsonValue) :
    (∀ offset size, FetchesExactly type.convert value offset size ↔
      type.convert value = none ∨ offset = 0 ∨ size = 0) ∧
      ∀ sizes, ReadsInChunks type.convert value sizes ↔ type.convert value = none := by
  rcases array_or_single type.convert value with ⟨elements, rfl⟩ | ⟨single, fetched⟩
  · have fails := type.convert_array elements
    have exactly : ∀ offset size, FetchesExactly type.convert (array elements) offset size :=
      fetchesExactly_array elements
    exact ⟨fun offset size => iff_of_true (exactly offset size) (.inl fails),
      fun sizes => iff_of_true (readsInChunks_of_exactly exactly sizes) fails⟩
  · cases converts : type.convert value with
    | none =>
        have exactly := fetchesExactly_of_convert_none converts single fetched
        exact ⟨fun offset size => iff_of_true (exactly offset size) (.inl rfl),
          fun sizes => iff_of_true (readsInChunks_of_exactly exactly sizes) rfl⟩
    | some converted =>
        have notNull : value ≠ .null := by
          rintro rfl
          rw [type.convert_null] at converts
          cases converts
        refine ⟨fun offset size => ?_, fun sizes => iff_of_false ?_ (Option.some_ne_none _)⟩
        · rw [fetchesExactly_single_iff converts (single.resolve_left notNull) fetched offset size]
          exact (or_iff_right (Option.some_ne_none _)).symm
        · rintro ⟨fuel, result⟩
          rw [readChunks_single converts fetched] at result
          cases result

/-- The number 7 is at the position 1, too. -/
theorem not_forall_fetchesExactly :
    ¬∀ (type : FetchedType) (value : JsonValue) (offset size : Nat),
      FetchesExactly (@FetchedType.convert noExpressions type) value offset size := by
  intro exactly
  have same := exactly (.signed .int) (.integer ⟨7, by decide, by decide⟩) 1 1
  exact cons_ne_nil _ _ same

end Eagine.ValueTree
