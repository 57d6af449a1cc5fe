import Eagine.ValueTree.TraversalDelivery

/-!
# When a traversal delivers a document

A visitor that goes on is handed just the values of a document where the integers fit, the
attributes of single values have names, and no array is handed over a second time.
-/

namespace Eagine.ValueTree

open Serialization FromString List

/-- What can be handed over as an integer. -/
def LeafValue.Fits : LeafValue → Prop
  | .bool _ => True
  | .integer value => value < 2 ^ 63
  | .string _ => True

theorem VisitorEvent.consumed_fits (event : VisitorEvent) :
    ∀ leaf ∈ event.consumed, leaf.Fits := by
  intro leaf mem
  cases event with
  | consumeBools values =>
      rcases mem_map.mp mem with ⟨value, _, rfl⟩
      trivial
  | consumeInts values =>
      rcases mem_map.mp mem with ⟨value, _, rfl⟩
      exact value.toInt_lt
  | consumeStrings texts =>
      rcases mem_map.mp mem with ⟨text, _, rfl⟩
      trivial
  | _ => exact absurd mem not_mem_nil

namespace JsonValue

variable {number : JsonInteger}

theorem isInt64_of_isInt (isInt : number.isInt = true) :
    number.isInt64 = true := by
  have bounds := of_decide_eq_true isInt
  have small : IntWidth.w32.bits - 1 = 31 := rfl
  have large : IntWidth.w64.bits - 1 = 63 := rfl
  rw [small] at bounds
  rw [JsonInteger.isInt64, intFits, decide_eq_true_eq, large]
  omega

theorem value_lt_of_isInt64 :
    number.isInt64 = true ↔ number.value < 2 ^ 63 := by
  have large : IntWidth.w64.bits - 1 = 63 := rfl
  have lower := number.lower
  rw [JsonInteger.isInt64, intFits, decide_eq_true_eq, large]
  omega

variable {first : JsonValue}

/-- The type of an array is the common one of its elements, if there is one. -/
theorem getType_head {rest : List JsonValue} {type : ValueType}
    (typeEq : (array (first :: rest)).getCanonicalType = type) (single : type ≠ .composite) :
    first.getType = type := by
  rw [getCanonicalType] at typeEq
  split at typeEq
  · exact typeEq
  · exact absurd typeEq.symm single

theorem forward_array {α : Type} {conversion : JsonValue → Option α}
    (converts : (conversion first).isSome = true) (rest : List JsonValue) (zero : α)
    (consume : List α → VisitorEvent) (count : Nat) :
    ∃ values, values ≠ [] ∧
      (array (first :: rest)).forward conversion zero consume (count + 1) = [consume values] := by
  rcases Option.isSome_iff_exists.mp converts with ⟨converted, convertedEq⟩
  let others := convertWhile conversion (rest.take count)
  have fetched : (array (first :: rest)).fetchValues conversion (count + 1) =
      converted :: others := by
    rw [fetchValues_eq, entries, take_succ_cons, convertWhile, convertedEq]
  refine ⟨_, ?_, by rw [forward, fetched]⟩
  rw [cons_append]
  exact cons_ne_nil _ _

theorem forward_array_ne_nil {α : Type} {conversion : JsonValue → Option α}
    (converts : (conversion first).isSome = true) {consume : List α → VisitorEvent}
    (carries : ∀ values, (consume values).consumed = [] → values = []) (rest : List JsonValue)
    (zero : α) (count : Nat) :
    ((array (first :: rest)).forward conversion zero consume (count + 1)).flatMap
      VisitorEvent.consumed ≠ [] := by
  rcases forward_array converts rest zero consume count with ⟨values, nonempty, forwarded⟩
  rw [forwarded, flatMap_singleton]
  exact fun nothing => nonempty (carries values nothing)

/-- No truth values, integers or strings are handed over with floating-point numbers. -/
theorem consumed_forwardFloat [RealConversion] (value : JsonValue) (count : Nat) :
    (value.forwardFloat count).flatMap VisitorEvent.consumed = [] := by
  rw [forwardFloat, forward, forward]
  repeat' split
  all_goals rfl

theorem leaves_congr {value : JsonValue} (noLeaf : ¬value.IsLeaf)
    (container other : Option Container) : value.leaves container = value.leaves other := by
  cases value with
  | bool value => exact absurd trivial noLeaf
  | integer number => exact absurd trivial noLeaf
  | string text => exact absurd trivial noLeaf
  | null => rfl
  | real bits => rfl
  | array elements => rfl
  | object members => rfl

theorem forwardString_array_ne_nil (converts : first.convertString.isSome = true)
    (rest : List JsonValue) :
    ((array (first :: rest)).forwardString (rest.length + 1)).flatMap VisitorEvent.consumed ≠
      [] := by
  rw [forwardString]
  split
  · apply forward_array_ne_nil converts (fun values nothing => ?_)
    exact map_eq_nil_iff.mp nothing
  · apply forward_array_ne_nil converts (fun values nothing => ?_)
    exact map_eq_nil_iff.mp (map_eq_nil_iff.mp nothing)

section Conversions

variable [ExpressionParser]

theorem convert_signed (long : number.isInt64 = true) :
    convert (.signed .long) (integer number) = some (BitVec.ofInt 64 number.value) := by
  have fits : intFits .w64 number.value = true := long
  have converted : (integer number).convertInt .w64 = some number.value := by
    simp only [convertInt, fits, long, Bool.and_true, if_true]
    split <;> rfl
  change ((integer number).convertInt .w64).map (BitVec.ofInt 64) = _
  rw [converted, Option.map_some]

/-- Values of a type convert to it. -/
theorem convert_of_getType {value : JsonValue} :
    (value.getType = .boolType → (convert .bool value).isSome = true) ∧
      (value.getType = .int32Type → (convert (.signed .long) value).isSome = true) ∧
        (value.getType = .int64Type → (convert (.signed .long) value).isSome = true) ∧
          (value.getType = .stringType → value.convertString.isSome = true) := by
  cases value with
  | integer number =>
      have signed : number.isInt64 = true →
          (convert (.signed .long) (integer number)).isSome = true := by
        intro long
        rw [convert_signed long]
        rfl
      rw [getType]
      cases short : number.isInt with
      | true => simpa using signed (isInt64_of_isInt short)
      | false =>
          cases long : number.isInt64 with
          | true => simpa using signed long
          | false => simp
  | null => simp [getType]
  | bool value => simp [getType, convert, convertBool]
  | real bits => simp [getType]
  | string text => simp [getType, convertString]
  | array elements => simp [getType]
  | object members => simp [getType]

theorem forwardInt_array_ne_nil (converts : (convert (.signed .long) first).isSome = true)
    (rest : List JsonValue) :
    ((array (first :: rest)).forwardInt (rest.length + 1)).flatMap VisitorEvent.consumed ≠ [] := by
  have carries : ∀ values, (VisitorEvent.consumeInts values).consumed = [] → values = [] :=
    fun values nothing => map_eq_nil_iff.mp nothing
  have handsOver := forward_array_ne_nil converts carries rest (BitVec.zero 64)
  rw [forwardInt]
  split
  · exact handsOver 0
  · exact handsOver rest.length

end Conversions

section Forwarding

variable [ExpressionParser] [RealConversion]

theorem forwarded_integer (number : JsonInteger) :
    (integer number).forwarded =
      if number.isInt64 then [.integer number.value] else [] := by
  have handOver : number.isInt64 = true →
      ((integer number).forwardInt 1).flatMap VisitorEvent.consumed =
        [.integer number.value] := by
    intro long
    have fetched : (integer number).fetchValues (convert (.signed .long)) 1 =
        [BitVec.ofInt 64 number.value] := by
      have single : (integer number).entries = [integer number] := rfl
      rw [fetchValues_eq, single, take_succ_cons, convertWhile, convert_signed long]
      rfl
    have bounds := of_decide_eq_true long
    have large : IntWidth.w64.bits - 1 = 63 := rfl
    rw [large] at bounds
    have unchanged : (BitVec.ofInt 64 number.value).toInt = number.value := by
      rw [BitVec.toInt_ofInt]
      apply Int.bmod_eq_of_le <;> omega
    simp only [forwardInt, forward, fetched, if_true]
    change [LeafValue.integer (BitVec.ofInt 64 number.value).toInt] = _
    rw [unchanged]
  have counted : (integer number).getValueCount = 1 := rfl
  cases short : number.isInt with
  | true =>
      have typeEq : (integer number).getCanonicalType = .int32Type := by
        simp [getCanonicalType, getType, short]
      simp only [forwarded, forwardValues, counted, typeEq, Nat.one_pos, gt_iff_lt, if_true]
      rw [handOver (isInt64_of_isInt short), if_pos (isInt64_of_isInt short)]
  | false =>
      cases long : number.isInt64 with
      | true =>
          have typeEq : (integer number).getCanonicalType = .int64Type := by
            simp [getCanonicalType, getType, short, long]
          simp only [forwarded, forwardValues, counted, typeEq, Nat.one_pos, gt_iff_lt, if_true]
          exact handOver long
      | false =>
          have typeEq : (integer number).getCanonicalType = .unknown := by
            simp [getCanonicalType, getType, short, long]
          simp [forwarded, forwardValues, counted, typeEq]

theorem forwarded_object (members : List (Block × JsonValue)) :
    (object members).forwarded = [] :=
  rfl

theorem forwarded_real (bits : BitVec 64) : (real bits).forwarded = [] :=
  consumed_forwardFloat (real bits) 1

/-- Something is handed over once more for arrays of a common type. -/
theorem forwarded_array (elements : List JsonValue) :
    (array elements).forwarded = [] ↔ ¬Repeated elements := by
  cases elements with
  | nil => exact iff_of_true rfl id
  | cons first rest =>
      have counted : (array (first :: rest)).getValueCount = rest.length + 1 := rfl
      have positive : 0 < rest.length + 1 := Nat.succ_pos _
      have conversions := @convert_of_getType _ first
      cases typeEq : (array (first :: rest)).getCanonicalType with
      | unknown => simp [forwarded, forwardValues, counted, typeEq, Repeated]
      | composite => simp [forwarded, forwardValues, counted, typeEq, Repeated]
      | floatType =>
          simp only [forwarded, forwardValues, counted, typeEq, positive, if_true,
            consumed_forwardFloat, Repeated, not_false_eq_true]
      | boolType =>
          have converts := conversions.1 (getType_head typeEq (by decide))
          have carries : ∀ values, (VisitorEvent.consumeBools values).consumed = [] →
              values = [] := fun values nothing => map_eq_nil_iff.mp nothing
          have handsOver := forward_array_ne_nil converts carries rest false
          simp only [forwarded, forwardValues, counted, typeEq, positive, if_true, Repeated,
            forwardBool, length_cons]
          split
          · next single =>
              exact iff_of_false (handsOver 0) (not_not_intro (by omega))
          · split
            · next few => exact iff_of_false (handsOver rest.length) (not_not_intro few)
            · next many => exact iff_of_true rfl many
      | int32Type =>
          have converts := conversions.2.1 (getType_head typeEq (by decide))
          have handsOver := forwardInt_array_ne_nil converts rest
          simp only [forwarded, forwardValues, counted, typeEq, positive, if_true, Repeated]
          exact iff_of_false handsOver (not_not_intro trivial)
      | int64Type =>
          have converts := conversions.2.2.1 (getType_head typeEq (by decide))
          have handsOver := forwardInt_array_ne_nil converts rest
          simp only [forwarded, forwardValues, counted, typeEq, positive, if_true, Repeated]
          exact iff_of_false handsOver (not_not_intro trivial)
      | stringType =>
          have converts := conversions.2.2.2 (getType_head typeEq (by decide))
          have handsOver := forwardString_array_ne_nil converts rest
          simp only [forwarded, forwardValues, counted, typeEq, positive, if_true, Repeated]
          exact iff_of_false handsOver (not_not_intro trivial)

mutual

theorem handed_eq_leaves : (value : JsonValue) → value.Handable → value.Unrepeated →
    ∀ frames, value.handed frames = value.leaves (innermost frames)
  | .null, _, _, _ => rfl
  | .bool _, _, _, _ => rfl
  | .integer number, fits, _, frames => by
      have long : number.isInt64 = true := fits
      rw [handed, forwarded_integer, if_pos long]
      rfl
  | .real bits, _, _, frames => by
      rw [handed, forwarded_real]
      rfl
  | .string _, _, _, _ => rfl
  | .array elements, handable, unrepeated, frames => by
      rw [handed, (forwarded_array elements).mpr unrepeated.1, map_nil, append_nil]
      exact handedElements_eq_leaves elements handable unrepeated.2 frames
  | .object members, handable, unrepeated, frames => by
      rw [handed, forwarded_object, map_nil, append_nil]
      exact handedMembers_eq_leaves members handable unrepeated _

theorem handedElements_eq_leaves : (elements : List JsonValue) → HandableElements elements →
    UnrepeatedElements elements → ∀ frames,
      handedElements (some .list :: frames) elements = leavesOfElements elements
  | [], _, _, _ => rfl
  | element :: elements, handable, unrepeated, frames => by
      rw [handedElements, leavesOfElements,
        handed_eq_leaves element handable.1 unrepeated.1,
        handedElements_eq_leaves elements handable.2 unrepeated.2]
      rfl

theorem handedMembers_eq_leaves : (members : List (Block × JsonValue)) →
    HandableMembers members → UnrepeatedMembers members → ∀ frames,
      handedMembers frames members = leavesOfMembers members
  | [], _, _, _ => rfl
  | (name, value) :: members, handable, unrepeated, frames => by
      rw [handedMembers, leavesOfMembers, handed_eq_leaves value handable.2.1 unrepeated.1,
        handedMembers_eq_leaves members handable.2.2 unrepeated.2]
      congr 1
      cases name with
      | nil => exact leaves_congr (handable.1 rfl) _ _
      | cons char name => rfl

end

/-- The integer fits, and the attribute that contains the value has a name. -/
def Possible (delivery : Delivery) : Prop :=
  delivery.1 ≠ some (.attribute []) ∧ delivery.2.Fits

theorem forwarded_possible (value : JsonValue) {frames : List (Option Container)}
    (named : some (.attribute []) ∉ frames) :
    ∀ delivery ∈ value.forwarded.map fun leaf => (innermost frames, leaf),
      Possible delivery := by
  intro delivery mem
  rcases mem_map.mp mem with ⟨leaf, leafMem, rfl⟩
  rcases mem_flatMap.mp leafMem with ⟨event, _, consumedMem⟩
  constructor
  · intro unnamed
    rcases exists_of_findSome?_eq_some unnamed with ⟨frame, frameMem, rfl⟩
    exact named frameMem
  · exact event.consumed_fits leaf consumedMem

mutual

/-- Only possible deliveries are made. -/
theorem handed_possible : (value : JsonValue) → (frames : List (Option Container)) →
    some (.attribute []) ∉ frames → ∀ delivery ∈ value.handed frames, Possible delivery
  | .null, _, named => forwarded_possible null named
  | .bool value, _, named => forwarded_possible (bool value) named
  | .integer number, _, named => forwarded_possible (integer number) named
  | .real bits, _, named => forwarded_possible (real bits) named
  | .string text, _, named => forwarded_possible (string text) named
  | .array elements, frames, named => by
      intro delivery mem
      rcases mem_append.mp mem with nested | own
      · have inside : some (.attribute []) ∉ some Container.list :: frames := by
          simpa using named
        exact handedElements_possible elements _ inside delivery nested
      · exact forwarded_possible (array elements) named delivery own
  | .object members, frames, named => by
      intro delivery mem
      rcases mem_append.mp mem with nested | own
      · apply handedMembers_possible members _ ?_ delivery nested
        rw [mem_cons, not_or]
        refine ⟨?_, named⟩
        cases members with
        | nil => rintro ⟨⟩
        | cons entry members =>
            rw [head?_cons, Option.map_some, Option.getD_some, frameOf]
            split <;> simp
      · exact forwarded_possible (object members) named delivery own

theorem handedElements_possible : (elements : List JsonValue) →
    (frames : List (Option Container)) → some (.attribute []) ∉ frames →
      ∀ delivery ∈ handedElements frames elements, Possible delivery
  | [], _, _ => fun _ mem => absurd mem not_mem_nil
  | element :: elements, frames, named => by
      intro delivery mem
      rcases mem_append.mp mem with first | rest
      · exact handed_possible element frames named delivery first
      · exact handedElements_possible elements frames named delivery rest

theorem handedMembers_possible : (members : List (Block × JsonValue)) →
    (frames : List (Option Container)) → some (.attribute []) ∉ frames →
      ∀ delivery ∈ handedMembers frames members, Possible delivery
  | [], _, _ => fun _ mem => absurd mem not_mem_nil
  | (name, value) :: members, frames, named => by
      intro delivery mem
      rcases mem_append.mp mem with first | rest
      · apply handed_possible value _ ?_ delivery first
        cases name with
        | nil => exact named
        | cons char name => simpa [framesIn] using named
      · exact handedMembers_possible members frames named delivery rest

end

end Forwarding

mutual

theorem handable_of_possible : (value : JsonValue) → (container : Option Container) →
    (∀ delivery ∈ value.leaves container, Possible delivery) → value.Handable
  | .null, _, _ => trivial
  | .bool _, _, _ => trivial
  | .integer _, _, possible =>
      value_lt_of_isInt64.mpr (possible _ mem_cons_self).2
  | .real _, _, _ => trivial
  | .string _, _, _ => trivial
  | .array elements, _, possible => handableElements_of_possible elements possible
  | .object members, _, possible => handableMembers_of_possible members possible

theorem handableElements_of_possible : (elements : List JsonValue) →
    (∀ delivery ∈ leavesOfElements elements, Possible delivery) → HandableElements elements
  | [], _ => trivial
  | element :: elements, possible => by
      rcases forall_mem_append.mp possible with ⟨first, rest⟩
      exact ⟨handable_of_possible element _ first, handableElements_of_possible elements rest⟩

theorem handableMembers_of_possible : (members : List (Block × JsonValue)) →
    (∀ delivery ∈ leavesOfMembers members, Possible delivery) → HandableMembers members
  | [], _ => trivial
  | (name, value) :: members, possible => by
      rcases forall_mem_append.mp possible with ⟨first, rest⟩
      refine ⟨?_, handable_of_possible value _ first, handableMembers_of_possible members rest⟩
      rintro rfl isLeaf
      cases value with
      | bool value => exact (first _ mem_cons_self).1 rfl
      | integer number => exact (first _ mem_cons_self).1 rfl
      | string text => exact (first _ mem_cons_self).1 rfl
      | null => exact isLeaf
      | real bits => exact isLeaf
      | array elements => exact isLeaf
      | object members => exact isLeaf

end

theorem append_lengths {first rest : List Delivery} {one others : List Delivery} {P Q : Prop}
    (firstLengths : one.length ≤ first.length ∧ (first.length ≤ one.length → P))
    (restLengths : others.length ≤ rest.length ∧ (rest.length ≤ others.length → Q)) :
    (one ++ others).length ≤ (first ++ rest).length ∧
      ((first ++ rest).length ≤ (one ++ others).length → P ∧ Q) := by
  rw [length_append, length_append]
  constructor
  · exact Nat.add_le_add firstLengths.1 restLengths.1
  · intro few
    have firstLeast := firstLengths.1
    have restLeast := restLengths.1
    exact ⟨firstLengths.2 (by omega), restLengths.2 (by omega)⟩

section Lengths

variable [ExpressionParser] [RealConversion]

/-- As many values are handed over only where no array is. -/
theorem array_lengths {elements : List JsonValue} {nested own leaves : Nat}
    (ownEq : own = (array elements).forwarded.length) (least : leaves ≤ nested)
    (unrepeated : nested ≤ leaves → UnrepeatedElements elements) :
    leaves ≤ nested + own ∧
      (nested + own ≤ leaves → ¬Repeated elements ∧ UnrepeatedElements elements) := by
  constructor
  · exact least.trans (Nat.le_add_right _ _)
  · intro few
    have nothing : (array elements).forwarded.length = 0 := by omega
    exact ⟨(forwarded_array elements).mp (eq_nil_of_length_eq_zero nothing),
      unrepeated (by omega)⟩

mutual

theorem handed_lengths : (value : JsonValue) → value.Handable → ∀ frames container,
    (value.leaves container).length ≤ (value.handed frames).length ∧
      ((value.handed frames).length ≤ (value.leaves container).length → value.Unrepeated)
  | .null, _, _, _ => ⟨Nat.zero_le _, fun _ => trivial⟩
  | .bool _, _, _, _ => ⟨Nat.le_refl _, fun _ => trivial⟩
  | .integer number, fits, frames, _ => by
      have long : number.isInt64 = true := fits
      rw [handed, forwarded_integer, if_pos long]
      exact ⟨Nat.le_refl _, fun _ => trivial⟩
  | .real _, _, _, _ => ⟨Nat.zero_le _, fun _ => trivial⟩
  | .string _, _, _, _ => ⟨Nat.le_refl _, fun _ => trivial⟩
  | .array elements, handable, frames, _ => by
      have lengths := handedElements_lengths elements handable (some .list :: frames)
      rw [handed, length_append, length_map]
      exact array_lengths rfl lengths.1 lengths.2
  | .object members, handable, frames, _ => by
      rw [handed, forwarded_object, map_nil, append_nil]
      exact handedMembers_lengths members handable _

theorem handedElements_lengths : (elements : List JsonValue) → HandableElements elements →
    ∀ frames, (leavesOfElements elements).length ≤ (handedElements frames elements).length ∧
      ((handedElements frames elements).length ≤ (leavesOfElements elements).length →
        UnrepeatedElements elements)
  | [], _, _ => ⟨Nat.le_refl _, fun _ => trivial⟩
  | element :: elements, handable, frames =>
      append_lengths (handed_lengths element handable.1 frames _)
        (handedElements_lengths elements handable.2 frames)

theorem handedMembers_lengths : (members : List (Block × JsonValue)) →
    HandableMembers members →
      ∀ frames, (leavesOfMembers members).length ≤ (handedMembers frames members).length ∧
        ((handedMembers frames members).length ≤ (leavesOfMembers members).length →
          UnrepeatedMembers members)
  | [], _, _ => ⟨Nat.le_refl _, fun _ => trivial⟩
  | (_, value) :: members, handable, frames =>
      append_lengths (handed_lengths value handable.2.1 _ _)
        (handedMembers_lengths members handable.2.2 frames)

end

end Lengths

section Traversals

variable [ExpressionParser] [RealConversion]

/-- The visitor is handed the truth values, integers and strings of the document, each of them
once and in the innermost attribute or list that contains it. -/
def Delivers (visitor : Visitor) (document : JsonValue) : Prop :=
  (deliveries (document.traverse visitor)).Perm (document.leaves none)

theorem deliveries_traverse {visitor : Visitor}
    (eager : ∀ events, visitor.shouldContinue events = true) (document : JsonValue) :
    deliveries (document.traverse visitor) = document.handed [] := by
  have begun : Hands [] [.begin] [] [] := ⟨rfl, rfl⟩
  have traversed := begun.trans (traverseFrom_hands eager document [.begin])
  have finished : Hands [] (document.traverse visitor) _ _ := traversed.bracket rfl
  exact finished.handed

/-- The visitor is handed the values of a document just where its integers are signed ones of 64
bits, its attributes of single values have names, and none of its arrays has single values of a
common type as elements, but for more than 256 truth values. -/
theorem delivers_iff {visitor : Visitor} (eager : ∀ events, visitor.shouldContinue events = true)
    (document : JsonValue) :
    document.Delivers visitor ↔ document.Handable ∧ document.Unrepeated := by
  rw [Delivers, deliveries_traverse eager]
  constructor
  · intro same
    have possible : ∀ delivery ∈ document.leaves none, Possible delivery := by
      intro delivery mem
      exact handed_possible document [] not_mem_nil delivery (same.mem_iff.mpr mem)
    have handable := handable_of_possible document none possible
    exact ⟨handable, (handed_lengths document handable [] none).2 same.length_eq.le⟩
  · rintro ⟨handable, unrepeated⟩
    rw [handed_eq_leaves document handable unrepeated]
    exact List.Perm.refl _

end Traversals

/-- The integer of a small number. -/
def smallNumber (number : Fin 10) : JsonInteger where
  value := number
  lower := by omega
  upper := by omega

/-- Without floating-point numbers nothing is converted to them. -/
@[reducible] def noReals : RealConversion :=
  ⟨fun _ => none⟩

theorem delivers_iff_mixed :
    @Delivers noExpressions noReals ⟨fun _ => true⟩
      (object [(textOf "a", array [integer (smallNumber 1), bool true])]) := by
  let _ := noExpressions
  let _ := noReals
  have eager : ∀ events, (⟨fun _ => true⟩ : Visitor).shouldContinue events = true :=
    fun _ => rfl
  have named : textOf "a" ≠ [] := by decide
  have mixed : ¬Repeated [integer (smallNumber 1), bool true] := id
  exact (delivers_iff eager _).mpr
    ⟨⟨fun unnamed => absurd unnamed named, ⟨rfl, trivial, trivial⟩, trivial⟩,
      ⟨mixed, trivial, trivial, trivial⟩, trivial⟩

/-- The numbers of an array are handed over a second time. -/
theorem not_delivers_numbers :
    ¬∀ [ExpressionParser] [RealConversion] (visitor : Visitor),
      (∀ events, visitor.shouldContinue events = true) →
        ∀ document : JsonValue, document.Delivers visitor := by
  intro all
  let _ := noExpressions
  let _ := noReals
  let numbers := array [integer (smallNumber 1), integer (smallNumber 2)]
  have delivers := all ⟨fun _ => true⟩ (fun _ => rfl) numbers
  rw [Delivers, deliveries_traverse (fun _ => rfl)] at delivers
  have fourTimes : (numbers.handed []).length = 4 := by decide
  rw [delivers.length_eq] at fourTimes
  cases fourTimes

end JsonValue

end Eagine.ValueTree
