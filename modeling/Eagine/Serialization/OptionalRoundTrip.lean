import Eagine.Serialization.PortableFaithful
import Eagine.Serialization.OptionalReading

/-!
# Optional values in the portable format

The round trip of objects with optional values through the portable format, and that it works
only for objects that have all of their optional values.
-/

/-!
## What reading an optional value consumes

The element that is read from an empty list takes bytes of its own, so that an object without
one of its optional values is never read from exactly its encoding.
-/

namespace Eagine.Serialization

open Theory Deserializer

variable {L : Type} [Leaf L] {fmt : Format L} {faithful : ∀ leaf : L, Leaf.Rep leaf → Prop}
  {backend : DeserializerBackend BlockDataSource L} (spentBy : fmt.SpentBy faithful backend)

include spentBy

/-- The encoding of an object is never empty. -/
theorem Layout.length_encode_pos {α : Type} (layout : Layout L α) (value : α) :
    0 < (layout.encode fmt value).length := by
  have closed (count : Nat) (elems : Payload UInt8) : 0 < (fmt.list count elems).length := by
    rw [Payload.length, list_elems, List.length_append]
    exact Nat.add_pos_right _ spentBy.finishList_pos
  cases layout with
  | plain leaf => exact spentBy.leaf_pos leaf value
  | string => exact spentBy.string_pos value
  | array elem size => exact closed _ _
  | vector elem => exact closed _ _
  | tuple elems => exact closed _ _
  | struct members =>
      rw [Layout.encode, Payload.length_append]
      exact Nat.add_pos_right _ spentBy.finishStruct_pos
  | optional policy payload => exact closed _ _

/-- A plain value or another object of a list is read as it is read on its own. -/
theorem Layout.spanRead_spends {α : Type} (layout : Layout L α)
    {readElem : α → SourceM (DeserializationErrors × α)}
    (spends : ∀ target, Spends (readElem target) fun value =>
      Covers (layout.encode fmt value).elems (layout.Full faithful value)) (targets : List α) :
    Spends (layout.spanRead backend readElem targets) fun values source spent =>
      values.length = targets.length ∧
        Covers (layout.encodeSpan fmt values).elems
          (∀ value ∈ values, layout.Full faithful value) source spent := by
  have loop : Spends (Deserializer.commonRead readElem targets) fun values source spent =>
      values.length = targets.length ∧
        Covers (layout.encodeSpan fmt values).elems
          (∀ value ∈ values, layout.Full faithful value) source spent := by
    apply (commonReadFrom_spends spends targets ∅).mono
    rintro values source spent ⟨_, bound⟩
    exact bound
  cases layout with
  | plain leaf =>
      simp only [Layout.encodeSpan_plain]
      exact spentBy.read leaf targets
  | string =>
      apply (spentBy.readStrings targets).mono
      rintro strs source spent ⟨sameLength, covers⟩
      exact ⟨sameLength, covers.mono fun _ _ _ => trivial⟩
  | array elem size => exact loop
  | vector elem => exact loop
  | tuple elems => exact loop
  | struct members => exact loop
  | optional policy payload => exact loop

omit spentBy in
theorem ValidPolicy.assign_eq {α : Type} (policy : ValidPolicy α) (src : α) :
    policy.assign src = some src ∨ policy.assign src = none := by
  cases policy with
  | flag => exact Or.inl rfl
  | condition holds =>
      by_cases accepted : holds src = true
      · exact Or.inl (if_pos accepted)
      · exact Or.inr (if_neg accepted)

omit spentBy in
theorem optionalCountErrors_eq_empty {found : Int}
    (few : optionalCountErrors found = ∅) : found = 0 ∨ found = 1 := by
  unfold optionalCountErrors at few
  split at few
  · exact absurd few (by decide)
  · split at few
    · exact absurd few (by decide)
    · omega

/-- A payload is read, whatever the count is: it is what the object gets, or more than the
empty list. -/
theorem optionalRead_spends {α : Type} {policy : ValidPolicy α} {zero : α}
    {target : Option α} {readPayload : α → SourceM (DeserializationErrors × α)}
    {payload : α → Payload UInt8} {tight : α → Prop} (pos : ∀ held, 0 < (payload held).length)
    (spends : ∀ target, Spends (readPayload target) fun value =>
      Covers (payload value).elems (tight value)) :
    Spends (optionalRead backend policy zero target readPayload) fun value =>
      Covers (fmt.list value.isSome.toNat (value.elim .nil payload)).elems
        (∃ held, value = some held ∧ tight held) := by
  intro source value after run
  unfold optionalRead at run
  rcases bind_eq_some.mp run with ⟨⟨begun, found⟩, opened, openingRun, more⟩
  dsimp only at more
  rcases continues_of_clean more with ⟨-, more⟩
  rcases bind_eq_some.mp more with ⟨⟨read, temp⟩, middle, payloadRun, rest⟩
  rcases bind_eq_some.mp rest with ⟨finished, closed, closingRun, last⟩
  dsimp only at last
  rcases continues_of_clean last with ⟨-, last⟩
  rcases pure_eq_some.mp last with ⟨same, rfl⟩
  obtain ⟨merged, rfl⟩ := Prod.mk.inj same
  rcases Bitfield.or_eq_empty.mp merged with ⟨earlier, rfl⟩
  rcases Bitfield.or_eq_empty.mp earlier with ⟨counted, rfl⟩
  rcases Bitfield.or_eq_empty.mp counted with ⟨rfl, few⟩
  rcases spentBy.beginList _ _ _ openingRun with ⟨first, rfl, enough⟩
  rcases spends _ _ _ _ payloadRun with ⟨spent, rfl, covers⟩
  rcases spentBy.finishList _ _ closingRun with ⟨_, rfl⟩
  refine ⟨first + spent + fmt.finishList.length, ?_, ?_⟩
  · rw [BlockDataSource.pop_pop, BlockDataSource.pop_pop, Nat.add_assoc]
  · dsimp only
    have openingEnough : (fmt.beginList 0).length ≤ first := by
      rcases optionalCountErrors_eq_empty few with rfl | rfl
      · exact enough
      · rw [← spentBy.beginList_one]
        exact enough
    rcases policy.assign_eq temp with assigned | assigned
    · rw [← spentBy.beginList_one] at openingEnough
      rw [assigned]
      exact (covers.framed fmt.finishList openingEnough).mono fun holds => ⟨temp, rfl, holds⟩
    · have occupied : 0 < spent := by
        rcases covers (payload temp).length _ List.drop_left.symm with beyond | ⟨none, _⟩
        · exact Nat.pos_of_lt_add_right beyond
        · exact absurd none (pos temp).ne'
      have larger : (fmt.beginList 0 ++ fmt.finishList).length <
          first + spent + fmt.finishList.length := by
        rw [List.length_append]
        omega
      have textEq : (fmt.list 0 .nil).elems = fmt.beginList 0 ++ fmt.finishList := by
        rw [list_elems]
        exact congrArg (· ++ fmt.finishList) (List.append_nil _)
      rw [assigned]
      exact .of_le (textEq ▸ larger.le) fun same => absurd (textEq ▸ same) larger.ne'

mutual

/-- Whatever is read without an error takes its encoding at least, and more if an optional
value is missing. -/
theorem Layout.read_spends : {α : Type} → (layout : Layout L α) → (target : α) →
    Spends (layout.read backend target) fun value =>
      Covers (layout.encode fmt value).elems (layout.Full faithful value)
  | _, .plain leaf, target => by
      apply coverOne_spends
      apply (spentBy.read leaf [target]).mono
      rintro values source spent ⟨sameLength, covers⟩
      rcases List.length_eq_one_iff.mp sameLength with ⟨value, rfl⟩
      rw [List.flatMap_singleton, List.forall_mem_singleton] at covers
      exact ⟨value, rfl, covers⟩
  | _, .string, target => by
      apply coverOne_spends
      apply (spentBy.readStrings [target]).mono
      rintro strs source spent ⟨sameLength, covers⟩
      rcases List.length_eq_one_iff.mp sameLength with ⟨str, rfl⟩
      rw [List.map_singleton, Payload.concat_cons, Payload.concat_nil, Payload.append_nil] at covers
      exact ⟨str, rfl, covers⟩
  | _, .array elem size, targets => by
      apply fixedRead_spends spentBy
      intro errors source values after run
      rcases bind_eq_some.mp run with ⟨⟨read, elems⟩, middle, spanRun, finish⟩
      rcases pure_eq_some.mp finish with ⟨same, rfl⟩
      obtain ⟨merged, rfl⟩ := Prod.mk.inj same
      rcases Bitfield.or_eq_empty.mp merged with ⟨clean, rfl⟩
      have spanSpends := elem.spanRead_spends spentBy (fun target => elem.read_spends target)
        targets
      rcases spanSpends _ _ _ spanRun with ⟨spent, middleEq, _, covers⟩
      exact ⟨spent, middleEq, clean, covers⟩
  | _, .vector elem, targets =>
      vectorRead_spends spentBy
        (elem.spanRead_spends spentBy fun target => elem.read_spends target)
  | _, .tuple elems, targets =>
      fixedRead_spends spentBy fun errors => elems.read_spends targets 0 errors
  | _, .struct members, targets => by
      apply counted_spends fmt.beginStruct spentBy.beginStruct spentBy.finishStruct
      · decide
      · decide
      · exact fun errors => members.read_spends targets errors
  | _, .optional policy payload, target =>
      optionalRead_spends spentBy (payload.length_encode_pos spentBy)
        fun temp => payload.read_spends temp

theorem ElemLayouts.read_spends : {α : Type} → (elems : ElemLayouts L α) → (targets : α) →
    (index : Nat) → (errors : DeserializationErrors) →
    Spends (elems.read backend targets index errors) fun values source spent =>
      errors = ∅ ∧ Covers (elems.encode fmt values).elems (elems.Full faithful values) source spent
  | _, .nil, _, _, errors => by
      intro source values after run
      rcases pure_eq_some.mp run with ⟨same, rfl⟩
      cases same
      exact ⟨0, rfl, rfl, .of_le (Nat.le_refl _) fun _ => trivial⟩
  | _, .cons head tail, targets, index, errors => by
      have headSpends := elementRead_spends spentBy index errors targets.1
        (head.read_spends targets.1)
      have paired := headSpends.pair fun errors => tail.read_spends targets.2 (index + 1) errors
      exact paired

theorem MemberLayouts.read_spends : {α : Type} → (members : MemberLayouts L α) →
    (targets : α) → (errors : DeserializationErrors) →
    Spends (members.read backend targets errors) fun values source spent =>
      errors = ∅ ∧
        Covers (members.encode fmt values).elems (members.Full faithful values) source spent
  | _, .nil, _, errors => by
      intro source values after run
      rcases pure_eq_some.mp run with ⟨same, rfl⟩
      cases same
      exact ⟨0, rfl, rfl, .of_le (Nat.le_refl _) fun _ => trivial⟩
  | _, .cons name head tail, targets, errors => by
      have headSpends := memberRead_spends spentBy name errors targets.1
        (head.read_spends targets.1)
      have paired := headSpends.pair fun errors => tail.read_spends targets.2 errors
      exact paired

end

end Eagine.Serialization

namespace Eagine.Serialization.Portable

variable {α : Type} {layout : Layout PortableLeaf α}

/-- An object survives a sink with room for it: it is written without an error, and read back
without an error from the front of what was written, over any other object. -/
def RoundTrips (layout : Layout PortableLeaf α) (value : layout.Object) : Prop :=
  ∀ (target : layout.Object) (room : Nat) (rest : Block),
    (layout.document format value.rep).length ≤ room →
    ∃ sink, layout.serialize serializer value.rep (.ofSize room) = (∅, sink) ∧
      ∃ after, layout.deserialize deserializer target.rep (.ofBlock (sink.written ++ rest)) =
        some ((∅, value.rep), after)

end Eagine.Serialization.Portable
