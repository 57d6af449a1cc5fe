import Eagine.Serialization.ValtreeReading

/-!
# Round trips through value trees

The document that represents a value, and when reading from it recovers the value. Vectors
have no reader but for single values. The elements of a tuple are all read at the tuple itself:
single values are its first element, and tuples have as many elements as that tuple.
-/

open List

namespace Eagine

open Serialization ValueTree FromString

namespace ValueTree

namespace JsonNode

variable [ExpressionParser] [JsonLibrary]

/-- A member whose name no other member has is the one that is found. -/
theorem nested_of_mem {node : JsonNode} {members : List (Block × JsonValue)}
    (isObject : node.value = .object members) (distinct : (members.map Prod.fst).Nodup)
    {name : Block} (isText : cString name = name) {value : JsonValue}
    (mem : (name, value) ∈ members) :
    ∃ child, node.nested name = some (some child) ∧ child.value = value := by
  rcases mem_iff_getElem?.mp mem with ⟨place, placed⟩
  have placedName : (members.map Prod.fst)[place]? = some name := by
    rw [getElem?_map, placed, Option.map_some]
  cases found : JsonLibrary.findMember (members.map Prod.fst) name with
  | none =>
      exact absurd (mem_of_getElem? placedName) (JsonLibrary.findMember_none found)
  | some position =>
      have positionName := JsonLibrary.findMember_some found
      have bound : position < (members.map Prod.fst).length :=
        (List.getElem?_eq_some_iff.mp positionName).1
      have same : position = place :=
        (getElem?_inj bound distinct).mp (positionName.trans placedName.symm)
      have memberFound : node.findMember name = some place := by
        rw [findMember, isObject]
        simp only [isText, found, same]
      have inside : (place : Int) < members.length := by
        rw [same, length_map] at bound
        exact_mod_cast bound
      refine ⟨node.below place value (some name), ?_, rfl⟩
      simp only [nested, memberFound, nestedAt, isObject, if_pos inside]
      change (members[place]?).map _ = _
      rw [placed, Option.map_some]

/-- An array has nothing below a name that is no number. -/
theorem nested_array {node : JsonNode} {elements : List JsonValue}
    (isArray : node.value = .array elements) {name : Block} (noNumber : fromInt .w64 name = none) :
    node.nested name = some none := by
  have noMember : node.findMember name = none := by
    rw [findMember, isArray]
  simp only [nested, noMember, noNumber]

end JsonNode

end ValueTree

namespace Serialization

open JsonValue (convert converts_first converts_map integer)

theorem IntType.bits_le (type : IntType) : type.width.bits ≤ 64 := by
  cases type <;> decide

theorem toInt_bounds {type : IntType} (value : BitVec type.width.bits) :
    -2 ^ (type.width.bits - 1) ≤ value.toInt ∧ value.toInt < 2 ^ (type.width.bits - 1) := by
  have positive : 0 < type.width.bits := by
    cases type <;> decide
  exact ⟨BitVec.le_toInt value, BitVec.toInt_lt⟩

/-- The integer of a document with a signed value. -/
def signedNumber {type : IntType} (value : BitVec type.width.bits) : JsonInteger where
  value := value.toInt
  lower := by
    have bounds := toInt_bounds value
    have smaller : (2 : Int) ^ (type.width.bits - 1) ≤ 2 ^ 63 :=
      pow_le_pow_right₀ (by decide) (Nat.sub_le_sub_right type.bits_le 1)
    omega
  upper := by
    have bounds := toInt_bounds value
    have smaller : (2 : Int) ^ (type.width.bits - 1) ≤ 2 ^ 63 :=
      pow_le_pow_right₀ (by decide) (Nat.sub_le_sub_right type.bits_le 1)
    omega

/-- The integer of a document with an unsigned value. -/
def unsignedNumber {type : IntType} (value : BitVec type.width.bits) : JsonInteger where
  value := value.toNat
  lower := by
    have nonneg := Int.natCast_nonneg value.toNat
    omega
  upper := by
    have bound : value.toNat < 2 ^ 64 :=
      value.isLt.trans_le (Nat.pow_le_pow_right (by decide) type.bits_le)
    exact_mod_cast bound

def TreeScalar.represent : (scalar : TreeScalar) → Leaf.Rep scalar → JsonValue
  | .bool, value => .bool value
  | .signed _, value => .integer (signedNumber value)
  | .unsigned _, value => .integer (unsignedNumber value)

mutual

/-- The JSON document that represents a value. -/
def Ty.represent : (ty : Ty TreeScalar) → ty.Rep → JsonValue
  | .plain scalar, value => scalar.represent value
  | .string, text => .string text
  | .array elem _, values => .array (List.map (fun value => elem.represent value) values)
  | .vector elem, values => .array (List.map (fun value => elem.represent value) values)
  | .tuple elems, values => .array (elems.represent values)
  | .struct members, values => .object (members.represent values)

def Elems.represent : (elems : Elems TreeScalar) → elems.Rep → List JsonValue
  | .nil, _ => []
  | .cons head tail, (value, values) => head.represent value :: tail.represent values

def Members.represent : (members : Members TreeScalar) → members.Rep → List (Block × JsonValue)
  | .nil, _ => []
  | .cons name head tail, (value, values) =>
      (name, head.represent value) :: tail.represent values

end

def TreeScalar.isBool : TreeScalar → Bool
  | .bool => true
  | _ => false

/-- Reading from the document of the value recovers the value. -/
def Recovers [ExpressionParser] [JsonLibrary] (ty : Ty TreeScalar) (value target : ty.Rep) :
    Prop :=
  ∃ after, Deserializer.compiledDeserialize (ValtreeBackend.backend (ty.represent value) none)
    TreeScalar.isBool ty target {} = some ((∅, value), after)

/-- Values of the type are single values of a document. -/
def Ty.IsLeaf : Ty TreeScalar → Prop
  | .plain _ => True
  | .string => True
  | _ => False

def Elems.AllLeaves : Elems TreeScalar → Prop
  | .nil => True
  | .cons head tail => head.IsLeaf ∧ tail.AllLeaves

def Members.names : Members TreeScalar → List Block
  | .nil => []
  | .cons name _ tail => name :: tail.names

theorem represent_composite {ty : Ty TreeScalar} (noLeaf : ¬ty.IsLeaf) (value : ty.Rep) :
    (ty.represent value).IsComposite := by
  cases ty with
  | plain scalar => exact absurd trivial noLeaf
  | string => exact absurd trivial noLeaf
  | array elem size => trivial
  | vector elem => trivial
  | tuple elems => trivial
  | struct members => trivial

theorem intFits_signedNumber {type : IntType} (value : BitVec type.width.bits) :
    intFits type.width (signedNumber value).value = true :=
  decide_eq_true (toInt_bounds value)

theorem Elems.length_represent : (elems : Elems TreeScalar) → (values : elems.Rep) →
    (elems.represent values).length = elems.length
  | .nil, _ => rfl
  | .cons _ tail, (_, values) => congrArg Nat.succ (Elems.length_represent tail values)

theorem Members.names_represent : (members : Members TreeScalar) → (values : members.Rep) →
    (members.represent values).map Prod.fst = members.names
  | .nil, _ => rfl
  | .cons name _ tail, (_, values) => congrArg (name :: ·) (Members.names_represent tail values)

theorem Members.nodup_represent (members : Members TreeScalar) (values : members.Rep)
    (distinct : members.names.Nodup) : ((members.represent values).map Prod.fst).Nodup := by
  rw [Members.names_represent]
  exact distinct

theorem Members.length_represent : (members : Members TreeScalar) → (values : members.Rep) →
    (members.represent values).length = members.length
  | .nil, _ => rfl
  | .cons _ _ tail, (_, values) => congrArg Nat.succ (Members.length_represent tail values)

/-- The elements of a tuple are single values, or there are composite ones among them. -/
theorem Elems.mixed_represent : (elems : Elems TreeScalar) → (values : elems.Rep) →
    elems.AllLeaves ∨ ∃ element ∈ elems.represent values, element.IsComposite
  | .nil, _ => Or.inl trivial
  | .cons head tail, (value, values) => by
      by_cases leaf : head.IsLeaf
      · rcases Elems.mixed_represent tail values with leaves | ⟨element, mem, composite⟩
        · exact Or.inl ⟨leaf, leaves⟩
        · exact Or.inr ⟨element, mem_cons_of_mem _ mem, composite⟩
      · exact Or.inr ⟨head.represent value, mem_cons_self, represent_composite leaf value⟩

section Names

variable [ExpressionParser]

/-- The name is a C-string, and it is not a number. -/
def ProperName (name : Block) : Prop :=
  cString name = name ∧ fromInt .w64 name = none

mutual

/-- Each structure has different names for its members. -/
def Ty.WellNamed : Ty TreeScalar → Prop
  | .plain _ => True
  | .string => True
  | .array elem _ => elem.WellNamed
  | .vector elem => elem.WellNamed
  | .tuple elems => elems.WellNamed
  | .struct members => members.names.Nodup ∧ members.WellNamed

def Elems.WellNamed : Elems TreeScalar → Prop
  | .nil => True
  | .cons head tail => head.WellNamed ∧ tail.WellNamed

def Members.WellNamed : Members TreeScalar → Prop
  | .nil => True
  | .cons name head tail => ProperName name ∧ head.WellNamed ∧ tail.WellNamed

end

mutual

/-- The object is what is read in a list of this size, the first value of which is `first`. -/
def Ty.Repeats (size : Nat) (first : JsonValue) : (ty : Ty TreeScalar) → ty.Rep → Prop
  | .plain scalar, value => convert scalar first = some value
  | .string, text => first.convertString = some text
  | .array _ _, _ => False
  | .vector _, _ => False
  | .tuple elems, values => elems.length = size ∧ elems.Repeats size first values
  | .struct _, _ => False

def Elems.Repeats (size : Nat) (first : JsonValue) : (elems : Elems TreeScalar) → elems.Rep → Prop
  | .nil, _ => True
  | .cons head tail, (value, values) =>
      head.Repeats size first value ∧ tail.Repeats size first values

end

/-- The elements of a tuple are what is read in its place. -/
def Elems.Readable : (elems : Elems TreeScalar) → elems.Rep → Prop
  | .nil, _ => True
  | .cons head tail, (value, values) =>
      (Elems.cons head tail).Repeats (tail.length + 1) (head.represent value) (value, values)

mutual

/-- The elements of tuples are what is read in their place. -/
def Ty.Readable : (ty : Ty TreeScalar) → ty.Rep → Prop
  | .plain _, _ => True
  | .string, _ => True
  | .array _ _, _ => False
  | .vector _, _ => True
  | .tuple elems, values => elems.Readable values
  | .struct members, values => members.Readable values

def Members.Readable : (members : Members TreeScalar) → members.Rep → Prop
  | .nil, _ => True
  | .cons _ head tail, (value, values) => head.Readable value ∧ tail.Readable values

end

/-- A scalar is what its document is converted to. -/
theorem convert_represent (scalar : TreeScalar) (value : Leaf.Rep scalar) :
    convert scalar (scalar.represent value) = some value := by
  cases scalar with
  | bool => rfl
  | signed type =>
      have fits := intFits_signedNumber value
      have long : (signedNumber value).isInt64 = true := by
        have bounds := toInt_bounds value
        have smaller : (2 : Int) ^ (type.width.bits - 1) ≤ 2 ^ 63 :=
          pow_le_pow_right₀ (by decide) (Nat.sub_le_sub_right type.bits_le 1)
        have exponent : IntWidth.w64.bits - 1 = 63 := rfl
        rw [JsonInteger.isInt64, intFits, decide_eq_true_eq, exponent]
        exact ⟨(neg_le_neg smaller).trans bounds.1, bounds.2.trans_le smaller⟩
      have converted : (integer (signedNumber value)).convertInt type.width =
          some value.toInt := by
        simp only [JsonValue.convertInt, fits, long, Bool.and_true, if_true]
        split <;> rfl
      rw [TreeScalar.represent, convert, converted, Option.map_some,
        BitVec.ofInt_toInt]
  | unsigned type =>
      have bound : value.toNat < 2 ^ type.width.bits := value.isLt
      have fits : uintFits type.width (unsignedNumber value).value = true := by
        have upper : (value.toNat : Int) < 2 ^ type.width.bits := by exact_mod_cast bound
        exact decide_eq_true ⟨Int.natCast_nonneg _, upper⟩
      have long : (unsignedNumber value).isUint64 = true := by
        have exponent : IntWidth.w64.bits = 64 := rfl
        rw [JsonInteger.isUint64, uintFits, decide_eq_true_eq, exponent]
        exact ⟨Int.natCast_nonneg _, (unsignedNumber value).upper⟩
      have converted : (integer (unsignedNumber value)).convertUint type.width =
          some (value.toNat : Int) := by
        simp only [JsonValue.convertUint, fits, long, Bool.and_true, if_true]
        split <;> rfl
      rw [TreeScalar.represent, convert, converted, Option.map_some,
        BitVec.ofInt_natCast, BitVec.ofNat_toNat, BitVec.setWidth_eq]

end Names

/-- Single values that are read as a list are all of the elements. -/
theorem not_leafSpan {α : Type} {node : JsonNode} {first : JsonValue} {rest : List JsonValue}
    {conversion : JsonValue → Option α}
    (unconverted : ∀ value, value.IsComposite → conversion value = none)
    (isArray : node.value = .array (first :: rest))
    (composite : ∃ element ∈ first :: rest, element.IsComposite) (values : List α) :
    ¬(HasLength node.value.getNestedCount values ∧ node.value.Converts conversion values) := by
  rintro ⟨sameLength, converts⟩
  rcases composite with ⟨element, mem, isComposite⟩
  rw [isArray] at sameLength converts
  exact JsonValue.not_converts_composite sameLength unconverted mem isComposite converts

variable {elem : Ty TreeScalar}

/-- The reader of vectors is one of single values. -/
theorem leaf_of_hasReader (noArrays : elem.WithoutArrays)
    (compiles : (Ty.vector elem).hasReader TreeScalar.isBool = true) : elem.IsLeaf := by
  cases elem with
  | plain scalar => trivial
  | string => trivial
  | array elem size => exact noArrays
  | vector elem => cases compiles
  | tuple elems => cases compiles
  | struct members => cases compiles

section Recovery

variable [ExpressionParser]

/-- The type is one of single values, or there are composite values in the list. -/
def Mixed (leaf : Prop) (elements : List JsonValue) : Prop :=
  leaf ∨ ∃ element ∈ elements, element.IsComposite

variable {node : JsonNode} {first : JsonValue} {rest : List JsonValue}

/-- Where there are composite values in the list, no vector is read at it. -/
theorem not_vector_foundAt (isArray : node.value = .array (first :: rest))
    (composite : ∃ element ∈ first :: rest, element.IsComposite)
    (leaf : elem.IsLeaf) {found : elem.Rep → Prop} (values : List elem.Rep) :
    ¬(HasLength node.value.getNestedCount values ∧ elem.SpanAt node found values) := by
  cases elem with
  | plain scalar =>
      exact not_leafSpan (fun _ => JsonValue.convert_composite) isArray composite values
  | string =>
      exact not_leafSpan (fun _ => JsonValue.convertString_composite) isArray composite values
  | array elem size => exact leaf.elim
  | vector elem => exact leaf.elim
  | tuple elems => exact leaf.elim
  | struct members => exact leaf.elim

theorem vector_foundAt_leaves {found : elem.Rep → Prop}
    (leaf : elem.IsLeaf) (values : List elem.Rep)
    (isArray : node.value = .array (values.map fun value => elem.represent value)) :
    elem.SpanAt node found values := by
  cases elem with
  | plain scalar =>
      rw [Ty.SpanAt, isArray]
      exact converts_map (convert_represent scalar) values
  | string =>
      rw [Ty.SpanAt, isArray]
      have back : ∀ text, JsonValue.convertString (.string text) = some text := fun _ => rfl
      exact converts_map back values
  | array elem size => exact leaf.elim
  | vector elem => exact leaf.elim
  | tuple elems => exact leaf.elim
  | struct members => exact leaf.elim

variable [JsonLibrary]

mutual

/-- What is found at a list is repeated from its first element. -/
theorem foundAt_iff_repeats (isArray : node.value = .array (first :: rest)) :
    (ty : Ty TreeScalar) → ty.WithoutArrays → ty.hasReader TreeScalar.isBool = true →
      ty.WellNamed → Mixed ty.IsLeaf (first :: rest) → (value : ty.Rep) →
        (ty.FoundAt node value ↔ ty.Repeats (rest.length + 1) first value)
  | .plain scalar, _, _, _, _, value => by
      rw [Ty.FoundAt, Ty.Repeats, isArray]
      exact converts_first rfl value
  | .string, _, _, _, _, text => by
      rw [Ty.FoundAt, Ty.Repeats, isArray]
      exact converts_first rfl text
  | .array _ _, noArrays, _, _, _, _ => noArrays.elim
  | .vector elem, noArrays, compiles, _, mixed, values => by
      rw [Ty.FoundAt, Ty.Repeats, iff_false]
      have leaf := @leaf_of_hasReader elem noArrays compiles
      exact not_vector_foundAt isArray (mixed.resolve_left id) leaf values
  | .tuple elems, noArrays, compiles, wellNamed, mixed, values => by
      have counted : node.value.getNestedCount = rest.length + 1 := by
        rw [isArray]
        rfl
      rw [Ty.FoundAt, Ty.Repeats, counted]
      apply and_congr_right
      intro _
      exact elems_foundAt_iff_repeats isArray elems noArrays compiles wellNamed
        (Or.inr (mixed.resolve_left id)) values
  | .struct members, _, _, wellNamed, _, values => by
      rw [Ty.FoundAt, Ty.Repeats, iff_false]
      rintro ⟨counted, found⟩
      rw [isArray] at counted
      cases members with
      | nil => cases counted
      | cons name head tail =>
          rcases found with ⟨⟨child, nestedEq, _⟩, _⟩
          rw [JsonNode.nested_array isArray wellNamed.2.1.2] at nestedEq
          cases nestedEq

theorem elems_foundAt_iff_repeats (isArray : node.value = .array (first :: rest)) :
    (elems : Elems TreeScalar) → elems.WithoutArrays →
      elems.instantiates TreeScalar.isBool Ty.readsSpans = true → elems.WellNamed →
        Mixed elems.AllLeaves (first :: rest) → (values : elems.Rep) →
          (elems.FoundAt node values ↔ elems.Repeats (rest.length + 1) first values)
  | .nil, _, _, _, _, _ => Iff.rfl
  | .cons head tail, noArrays, compile, wellNamed, mixed, (value, values) => by
      have compiles := Bool.and_eq_true_iff.mp compile
      have headMixed : Mixed head.IsLeaf (first :: rest) := mixed.imp_left And.left
      have tailMixed : Mixed tail.AllLeaves (first :: rest) := mixed.imp_left And.right
      have headIff := foundAt_iff_repeats isArray head noArrays.1 compiles.1 wellNamed.1 headMixed
      have tailIff := elems_foundAt_iff_repeats isArray tail noArrays.2 compiles.2 wellNamed.2
        tailMixed
      exact and_congr (headIff value) (tailIff values)

end

/-- A vector of single values is read as it is. -/
theorem vector_foundAt (leaf : elem.IsLeaf) (values : List elem.Rep)
    (isArray : node.value = .array (values.map fun value => elem.represent value)) :
    (Ty.vector elem).FoundAt node values := by
  refine ⟨?_, vector_foundAt_leaves leaf values isArray⟩
  rw [isArray]
  exact (length_map _).symm

/-- A tuple is read if its elements are what is read in its place. -/
theorem tuple_foundAt_iff (elems : Elems TreeScalar) (noArrays : elems.WithoutArrays)
    (compiles : elems.instantiates TreeScalar.isBool Ty.readsSpans = true)
    (wellNamed : elems.WellNamed) (values : elems.Rep)
    (isArray : node.value = .array (elems.represent values)) :
    (Ty.tuple elems).FoundAt node values ↔ elems.Readable values := by
  have counted : node.value.getNestedCount = elems.length := by
    rw [isArray]
    exact Elems.length_represent elems values
  apply (and_iff_right counted.symm).trans
  cases elems with
  | nil => exact Iff.rfl
  | cons head tail =>
      rcases values with ⟨value, values⟩
      have mixed := Elems.mixed_represent (.cons head tail) (value, values)
      have repeats := elems_foundAt_iff_repeats isArray (.cons head tail) noArrays compiles
        wellNamed mixed (value, values)
      rw [Elems.length_represent] at repeats
      exact repeats

mutual

/-- What is found in the document of a value. -/
theorem foundAt_iff_readable : (ty : Ty TreeScalar) → ty.WithoutArrays →
    ty.hasReader TreeScalar.isBool = true → ty.WellNamed → (value : ty.Rep) →
      (node : JsonNode) → node.value = ty.represent value →
        (ty.FoundAt node value ↔ ty.Readable value)
  | .plain scalar, _, _, _, value, node, represented => by
      have single : (scalar.represent value).entries = [scalar.represent value] := by
        cases scalar <;> rfl
      rw [Ty.FoundAt, represented]
      exact iff_of_true
        ((converts_first single value).mpr (convert_represent scalar value)) trivial
  | .string, _, _, _, text, node, represented => by
      rw [Ty.FoundAt, represented]
      exact iff_of_true ((converts_first rfl text).mpr rfl) trivial
  | .array _ _, noArrays, _, _, _, _, _ => noArrays.elim
  | .vector elem, noArrays, compiles, _, values, _, represented =>
      have leaf := @leaf_of_hasReader elem noArrays compiles
      iff_of_true (vector_foundAt leaf values represented) trivial
  | .tuple elems, noArrays, compiles, wellNamed, values, _, represented =>
      tuple_foundAt_iff elems noArrays compiles wellNamed values represented
  | .struct members, noArrays, compiles, wellNamed, values, node, represented => by
      have counted : members.length = node.value.getNestedCount := by
        rw [represented]
        exact (Members.length_represent members values).symm
      have distinct := members.nodup_represent values wellNamed.1
      rw [Ty.FoundAt, Ty.Readable, and_iff_right counted]
      exact members_foundAt_iff_readable represented distinct members noArrays compiles wellNamed.2
        values (fun _ mem => mem)

theorem members_foundAt_iff_readable {node : JsonNode} {all : List (Block × JsonValue)}
    (isObject : node.value = .object all) (distinct : (all.map Prod.fst).Nodup) :
    (members : Members TreeScalar) → members.WithoutArrays →
      members.instantiates TreeScalar.isBool Ty.readsSpans = true → members.WellNamed →
        (values : members.Rep) → (∀ entry ∈ members.represent values, entry ∈ all) →
          (members.FoundAt node values ↔ members.Readable values)
  | .nil, _, _, _, _, _ => Iff.rfl
  | .cons name head tail, noArrays, compile, wellNamed, (value, values), among => by
      rcases JsonNode.nested_of_mem isObject distinct wellNamed.1.1
        (among _ mem_cons_self) with ⟨child, nestedEq, childValue⟩
      have compiles := Bool.and_eq_true_iff.mp compile
      have headIff := foundAt_iff_readable head noArrays.1 compiles.1 wellNamed.2.1 value child
        childValue
      have tailIff := members_foundAt_iff_readable isObject distinct tail noArrays.2 compiles.2
        wellNamed.2.2 values (fun entry mem => among entry (mem_cons_of_mem _ mem))
      rw [Members.FoundAt, Members.Readable, ← headIff, ← tailIff, nestedEq]
      apply and_congr_left
      intro _
      constructor
      · rintro ⟨_, ⟨⟩, found⟩
        exact found
      · intro found
        exact ⟨child, rfl, found⟩

end

theorem recovers_iff_foundAt {ty : Ty TreeScalar} (noArrays : ty.WithoutArrays)
    (value target : ty.Rep) :
    Recovers ty value target ↔ ty.hasReader TreeScalar.isBool = true ∧
      ty.FoundAt ⟨[], ty.represent value, none⟩ value := by
  have yields := ValtreeBackend.deserialize_yields (ty.represent value) none ty noArrays target ∅
    value
  constructor
  · rintro ⟨after, run⟩
    have ⟨compiles, run⟩ := (Deserializer.compiledDeserialize_eq_some _).mp run
    exact ⟨compiles, ((yields after).mp run).1⟩
  · rintro ⟨compiles, found⟩
    have run := (yields _).mpr ⟨found, rfl⟩
    exact ⟨_, (Deserializer.compiledDeserialize_eq_some _).mpr ⟨compiles, run⟩⟩

/-- The value is recovered just where its type has a reader and it is what is found in its
document; with proper names of members, just where its type has a reader and the elements of its
tuples are what is read in the place of the tuple. -/
theorem recovers_iff (ty : Ty TreeScalar) (noArrays : ty.WithoutArrays) (value target : ty.Rep) :
    (Recovers ty value target ↔ ty.hasReader TreeScalar.isBool = true ∧
        ty.FoundAt ⟨[], ty.represent value, none⟩ value) ∧
      (ty.WellNamed → (Recovers ty value target ↔
        ty.hasReader TreeScalar.isBool = true ∧ ty.Readable value)) := by
  have found := recovers_iff_foundAt noArrays value target
  constructor
  · exact found
  · intro wellNamed
    apply found.trans
    apply and_congr_right
    intro compiles
    exact foundAt_iff_readable ty noArrays compiles wellNamed value _ rfl

end Recovery

/-- A pair of integers. -/
def pairType : Ty TreeScalar :=
  .tuple (.cons (.plain (.signed .int)) (.cons (.plain (.signed .int)) .nil))

/-- A structure with a pair as its only member. -/
def recordType : Ty TreeScalar :=
  .struct (.cons (textOf "pair") pairType .nil)

theorem recovers_iff_record :
    @Recovers noExpressions linearSearch recordType ((5#32, 5#32, ()), ())
      ((0#32, 0#32, ()), ()) := by
  let _ := noExpressions
  let _ := linearSearch
  have noArrays : recordType.WithoutArrays := ⟨⟨trivial, trivial, trivial⟩, trivial⟩
  have proper : ProperName (textOf "pair") := by
    constructor <;> decide
  have wellNamed : recordType.WellNamed :=
    ⟨nodup_singleton _, proper, ⟨trivial, trivial, trivial⟩, trivial⟩
  have readable : recordType.Readable ((5#32, 5#32, ()), ()) :=
    ⟨⟨convert_represent (.signed .int) 5#32, convert_represent (.signed .int) 5#32, trivial⟩,
      trivial⟩
  exact ((recovers_iff recordType noArrays _ _).2 wellNamed).mpr ⟨rfl, readable⟩

/-- Of a pair the second integer is read as the first one. -/
theorem not_recovers_pair :
    ¬∀ [ExpressionParser] [JsonLibrary] (ty : Ty TreeScalar), ty.WithoutArrays →
      ∀ value target : ty.Rep, Recovers ty value target := by
  intro all
  let _ := noExpressions
  let _ := linearSearch
  have noArrays : pairType.WithoutArrays := ⟨trivial, trivial, trivial⟩
  have recovers := all pairType noArrays (1#32, 2#32, ()) (0#32, 0#32, ())
  rcases (recovers_iff_foundAt noArrays _ _).mp recovers with ⟨_, _, _, second, _⟩
  cases second with
  | cons found _ =>
      have converted := convert_represent (.signed .int) 1#32
      have same : 2#32 = 1#32 := Option.some.inj (found.symm.trans converted)
      exact absurd same (by decide)

end Serialization

end Eagine
