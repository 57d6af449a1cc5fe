import Eagine.Serialization.RoundTrip
import Eagine.Serialization.Optional

/-!
# Reading optional values

An object is read back from its encoding if every optional value in it has a value, and every
plain value in it is one that the backend reads back.
-/

/-!
## The wire format of optional values

The encoding of an object of a layout over any format, and that the serializer emits it.
-/

namespace Eagine.Serialization

open Theory Serializer

variable {L : Type} [Leaf L]

mutual

/-- The serialized form of an object. -/
def Layout.encode (fmt : Format L) : {α : Type} → Layout L α → α → Payload UInt8
  | _, .plain leaf, value => .exact (fmt.leaf leaf value)
  | _, .string, str => fmt.string str
  | _, .array elem size, values =>
      fmt.list size (.concat (values.map fun value => elem.encode fmt value))
  | _, .vector elem, values =>
      fmt.list values.length (.concat (values.map fun value => elem.encode fmt value))
  | _, .tuple elems, values => fmt.list elems.length (elems.encode fmt values)
  | _, .struct members, values =>
      .exact (fmt.beginStruct members.length) ++ members.encode fmt values ++
        .exact fmt.finishStruct
  | _, .optional _ payload, value =>
      fmt.list value.isSome.toNat (value.elim .nil fun held => payload.encode fmt held)

def ElemLayouts.encode (fmt : Format L) : {α : Type} → ElemLayouts L α → α → Payload UInt8
  | _, .nil, _ => .nil
  | _, .cons head tail, values => head.encode fmt values.1 ++ tail.encode fmt values.2

def MemberLayouts.encode (fmt : Format L) : {α : Type} → MemberLayouts L α → α → Payload UInt8
  | _, .nil, _ => .nil
  | _, .cons name head tail, values =>
      .exact (fmt.beginMember name) ++ head.encode fmt values.1 ++ tail.encode fmt values.2

end

/-- The serialized form of a list of objects without its frame. -/
def Layout.encodeSpan {α : Type} (fmt : Format L) (layout : Layout L α) (values : List α) :
    Payload UInt8 :=
  .concat (values.map (layout.encode fmt))

def Layout.document {α : Type} (fmt : Format L) (layout : Layout L α) (value : α) :
    Payload UInt8 :=
  .exact fmt.begin ++ layout.encode fmt value ++ .exact fmt.finish

theorem Layout.encodeSpan_plain (fmt : Format L) (leaf : L) (values : List (Leaf.Rep leaf)) :
    (Layout.plain leaf).encodeSpan fmt values = .exact (values.flatMap (fmt.leaf leaf)) :=
  Payload.concat_map_exact (fmt.leaf leaf) values

section Firm

open Payload (loose_append loose_concat need)

variable {fmt : Format L}

mutual

/-- Without loose ends of strings there are no loose ends at all. -/
theorem Layout.encode_loose (firm : ∀ str, (fmt.string str).loose = 0) :
    {α : Type} → (layout : Layout L α) → (value : α) →
    (layout.encode fmt value).loose = 0
  | _, .plain _, _ => rfl
  | _, .string, str => firm str
  | _, .array elem size, values => by
      apply Format.list_loose
      apply loose_concat
      intro payload mem
      rcases List.mem_map.mp mem with ⟨value, _, rfl⟩
      exact elem.encode_loose firm value
  | _, .vector elem, values => by
      apply Format.list_loose
      apply loose_concat
      intro payload mem
      rcases List.mem_map.mp mem with ⟨value, _, rfl⟩
      exact elem.encode_loose firm value
  | _, .tuple elems, values => Format.list_loose (elems.encode_loose firm values) _
  | _, .struct members, values =>
      loose_append (loose_append rfl (members.encode_loose firm values)) rfl
  | _, .optional _ payload, value => by
      apply Format.list_loose
      cases value with
      | none => rfl
      | some held => exact payload.encode_loose firm held

theorem ElemLayouts.encode_loose (firm : ∀ str, (fmt.string str).loose = 0) :
    {α : Type} → (elems : ElemLayouts L α) → (values : α) →
    (elems.encode fmt values).loose = 0
  | _, .nil, _ => rfl
  | _, .cons head tail, values =>
      loose_append (head.encode_loose firm values.1) (tail.encode_loose firm values.2)

theorem MemberLayouts.encode_loose (firm : ∀ str, (fmt.string str).loose = 0) :
    {α : Type} → (members : MemberLayouts L α) →
    (values : α) → (members.encode fmt values).loose = 0
  | _, .nil, _ => rfl
  | _, .cons _ head tail, values =>
      loose_append (loose_append rfl (head.encode_loose firm values.1))
        (tail.encode_loose firm values.2)

end

end Firm

section Emission

variable {fmt : Format L} {backend : SerializerBackend L} (writtenBy : fmt.WrittenBy backend)

include writtenBy

theorem Layout.spanWrite_emits {α : Type} (layout : Layout L α)
    {writeElem : α → SinkM SerializationErrors}
    (emits : ∀ value, Emits (writeElem value) (layout.encode fmt value)) (values : List α) :
    Emits (layout.spanWrite backend writeElem values) (layout.encodeSpan fmt values) := by
  have loop := commonWrite_emits writtenBy emits values
  cases layout with
  | plain leaf =>
      rw [Layout.encodeSpan_plain]
      exact writtenBy.write leaf values
  | string => exact loop
  | array elem size => exact loop
  | vector elem => exact loop
  | tuple elems => exact loop
  | struct members => exact loop
  | optional policy payload => exact loop

/-- The payload of an optional value is its only element. -/
theorem optionalWrite_emits {α : Type} {writePayload : α → SinkM SerializationErrors}
    {encodePayload : α → Payload UInt8}
    (emits : ∀ held, Emits (writePayload held) (encodePayload held)) (value : Option α) :
    Emits (optionalWrite backend value writePayload)
      (fmt.list value.isSome.toNat (value.elim .nil encodePayload)) := by
  have elemEmits : Emits (value.elim (pure ∅) writePayload) (value.elim .nil encodePayload) := by
    cases value with
    | none => exact Emits.nothing
    | some held => exact emits held
  have framed := listWrite_emits writtenBy value.isSome.toNat elemEmits
  have same : optionalWrite backend value writePayload =
      listWrite backend value.isSome.toNat (value.elim (pure ∅) writePayload) := by
    funext sink
    cases value with
    | none => simp [optionalWrite, listWrite, -bind_pure_comp]
    | some held => simp [optionalWrite, listWrite, -bind_pure_comp]
  rw [same]
  exact framed

omit writtenBy in
/-- Once an element failed, the elements behind it are skipped. -/
theorem ElemLayouts.write_incomplete {α : Type} (elems : ElemLayouts L α) (values : α)
    (index : Nat) : elems.write backend values index incomplete = pure incomplete := by
  cases elems with
  | nil => rfl
  | cons head tail =>
      funext sink
      simp only [ElemLayouts.write, elementWrite_incomplete, pure_bind]
      rw [tail.write_incomplete]

omit writtenBy in
theorem MemberLayouts.write_incomplete {α : Type} (members : MemberLayouts L α) (values : α) :
    members.write backend values incomplete = pure incomplete := by
  cases members with
  | nil => rfl
  | cons name head tail =>
      funext sink
      simp only [MemberLayouts.write, memberWrite_incomplete, pure_bind]
      rw [tail.write_incomplete]

mutual

/-- Every object is written as its format says, or the write is reported to be incomplete. -/
theorem Layout.write_emits : {α : Type} → (layout : Layout L α) → (value : α) →
    Emits (layout.write backend value) (layout.encode fmt value)
  | _, .plain leaf, value => by
      have emits := writtenBy.write leaf [value]
      rw [List.flatMap_singleton] at emits
      exact emits
  | _, .string, str => writtenBy.string str
  | _, .array elem size, values => by
      have spanEmits := elem.spanWrite_emits writtenBy (fun value => elem.write_emits value) values
      exact listWrite_emits writtenBy size spanEmits
  | _, .vector elem, values => by
      have spanEmits := elem.spanWrite_emits writtenBy (fun value => elem.write_emits value) values
      exact listWrite_emits writtenBy values.length spanEmits
  | _, .tuple elems, values =>
      threaded_emits (writtenBy.beginList elems.length) (elems.write_emits values 0)
        writtenBy.finishList
  | _, .struct members, values =>
      threaded_emits (writtenBy.beginStruct members.length)
        (members.write_emits values) writtenBy.finishStruct
  | _, .optional _ payload, value =>
      optionalWrite_emits writtenBy (fun held => payload.write_emits held) value

theorem ElemLayouts.write_emits : {α : Type} → (elems : ElemLayouts L α) → (values : α) →
    (index : Nat) → Emits (elems.write backend values index ∅) (elems.encode fmt values)
  | _, .nil, _, _ => Emits.nothing
  | _, .cons head tail, values, index => by
      have headEmits :=
        elementWrite_emits writtenBy index (head.write_emits values.1)
      apply headEmits.bind
      · exact tail.write_emits values.2 (index + 1)
      · intro sink
        rw [tail.write_incomplete]
        exact fails_pure sink

theorem MemberLayouts.write_emits : {α : Type} → (members : MemberLayouts L α) → (values : α) →
    Emits (members.write backend values ∅) (members.encode fmt values)
  | _, .nil, _ => Emits.nothing
  | _, .cons name head tail, values => by
      have headEmits := memberWrite_emits writtenBy name (head.write_emits values.1)
      apply headEmits.bind
      · exact tail.write_emits values.2
      · intro sink
        rw [tail.write_incomplete]
        exact fails_pure sink

end

/-- A serialized object is the document of its format. -/
theorem Layout.serialize_emits {α : Type} (layout : Layout L α) (value : α) :
    Emits (layout.serialize backend value) (layout.document fmt value) :=
  documented_emits writtenBy (layout.write_emits writtenBy value)

end Emission

end Eagine.Serialization

namespace Eagine.Serialization

open Theory

variable {L : Type} [Leaf L]

mutual

/-- Every optional value in the object has a value, and every plain value is `faithful`. -/
def Layout.Full (faithful : ∀ leaf : L, Leaf.Rep leaf → Prop) : {α : Type} → Layout L α → α →
    Prop
  | _, .plain leaf, value => faithful leaf value
  | _, .string, _ => True
  | _, .array elem _, values => ∀ value ∈ values, elem.Full faithful value
  | _, .vector elem, values => ∀ value ∈ values, elem.Full faithful value
  | _, .tuple elems, values => elems.Full faithful values
  | _, .struct members, values => members.Full faithful values
  | _, .optional _ payload, value => ∃ held, value = some held ∧ payload.Full faithful held

def ElemLayouts.Full (faithful : ∀ leaf : L, Leaf.Rep leaf → Prop) : {α : Type} →
    ElemLayouts L α → α → Prop
  | _, .nil, _ => True
  | _, .cons head tail, values => head.Full faithful values.1 ∧ tail.Full faithful values.2

def MemberLayouts.Full (faithful : ∀ leaf : L, Leaf.Rep leaf → Prop) : {α : Type} →
    MemberLayouts L α → α → Prop
  | _, .nil, _ => True
  | _, .cons _ head tail, values => head.Full faithful values.1 ∧ tail.Full faithful values.2

end

section Reading

variable {fmt : Format L} {trusted : L → Prop} {faithful : ∀ leaf : L, Leaf.Rep leaf → Prop}
  {backend : DeserializerBackend BlockDataSource L}

/-- What the reading of a single object does. -/
def Layout.ReadsBack {α : Type} (fmt : Format L)
    (faithful : ∀ leaf : L, Leaf.Rep leaf → Prop) (layout : Layout L α)
    (readElem : α → SourceM (DeserializationErrors × α)) : Prop :=
  ∀ value, layout.Holds value → layout.Full faithful value → ∀ target, layout.Holds target →
    Reads (readElem target) (layout.encode fmt value) True (∅, value)

variable (readBy : fmt.ReadBy trusted (fun _ => True) backend)
  (plainReads : fmt.PlainReads faithful backend)

include readBy plainReads in
theorem Layout.spanRead_reads {α : Type} (layout : Layout L α)
    {readElem : α → SourceM (DeserializationErrors × α)}
    (readsBack : layout.ReadsBack fmt faithful readElem) {values targets : List α}
    (valuesHold : ∀ value ∈ values, layout.Holds value)
    (full : ∀ value ∈ values, layout.Full faithful value)
    (targetsHold : ∀ target ∈ targets, layout.Holds target)
    (sameLength : targets.length = values.length) :
    Reads (layout.spanRead backend readElem targets) (layout.encodeSpan fmt values) True
      (∅, values) := by
  have loop : Reads (Deserializer.commonRead readElem targets) (layout.encodeSpan fmt values)
      True (∅, values) := by
    have reads := Deserializer.commonReadFrom_reads values targets sameLength targetsHold
      (fun value mem target targetHolds =>
        readsBack value (valuesHold value mem) (full value mem) target targetHolds)
    exact reads.congr (iff_of_true (fun _ _ => trivial) trivial)
  cases layout with
  | plain leaf =>
      rw [Layout.encodeSpan_plain]
      exact plainReads leaf values targets sameLength full
  | string =>
      exact readBy.readStrings values targets sameLength (fun str mem => (valuesHold str mem).1)
  | array elem size => exact loop
  | vector elem => exact loop
  | tuple elems => exact loop
  | struct members => exact loop
  | optional policy payload => exact loop

include readBy in
/-- The only element of the list is the payload. -/
theorem Deserializer.optionalRead_reads {α : Type} {policy : ValidPolicy α} {zero held : α}
    (accepted : policy.assign held = some held) (target : Option α)
    {readPayload : α → SourceM (DeserializationErrors × α)} {payload : Payload UInt8}
    (reads : Reads (readPayload zero) payload True (∅, held)) :
    Reads (optionalRead backend policy zero target readPayload) (fmt.list 1 payload) True
      (∅, some held) := by
  have framed : Reads (backend.beginList >>= fun begun =>
      if (begun.1 ||| optionalCountErrors begun.2).isEmpty then
        readPayload zero >>= fun read => backend.finishList >>= fun finished =>
          pure (begun.1 ||| optionalCountErrors begun.2 ||| read.1 ||| finished, read.2)
      else
        pure (begun.1 ||| optionalCountErrors begun.2, zero)) (fmt.list 1 payload) True
        (∅, held) := by
    apply framed_reads zero _ (readBy.beginList 1 (by decide)) ?_ ?_ reads readBy.finishList
      readBy.finishList_total
    · simp [optionalCountErrors, (Bitfield.isEmpty_iff _).mpr rfl]
    · intro begun flag
      change begun.1.has .notEnoughData = true at flag
      have kept := Bitfield.has_or_left flag (optionalCountErrors begun.2)
      refine ⟨_, kept, ?_⟩
      simp only [isEmpty_eq_false_of_has kept, Bool.false_eq_true, if_false]
  have assigned := framed.map (f := fun result => (result.1,
    if result.1.isEmpty then policy.assign result.2 else target)) (fun _ => rfl) rfl
  rw [(Bitfield.isEmpty_iff _).mpr rfl, if_pos rfl, accepted] at assigned
  have same : optionalRead backend policy zero target readPayload =
      ((backend.beginList >>= fun begun =>
        if (begun.1 ||| optionalCountErrors begun.2).isEmpty then
          readPayload zero >>= fun read => backend.finishList >>= fun finished =>
            pure (begun.1 ||| optionalCountErrors begun.2 ||| read.1 ||| finished, read.2)
        else
          pure (begun.1 ||| optionalCountErrors begun.2, zero)) >>= fun result =>
      pure (result.1, if result.1.isEmpty then policy.assign result.2 else target)) := by
    simp only [optionalRead, bind_assoc]
    congr 1
    funext begun
    split
    · simp only [bind_assoc, pure_bind]
      congr 1
      funext read
      congr 1
      funext finished
      split
      · rfl
      · rfl
    · rename_i failed
      simp only [pure_bind, failed]
      rfl
  rw [same]
  exact assigned

variable {errors : DeserializationErrors}

/-- Once the data ran out, the elements behind are skipped. -/
theorem ElemLayouts.read_starved
    (flag : errors.has .notEnoughData = true) {α : Type} (elems : ElemLayouts L α) (targets : α)
    (index : Nat) : elems.read backend targets index errors = pure (errors, targets) := by
  cases elems with
  | nil => rfl
  | cons head tail =>
      simp only [ElemLayouts.read, Deserializer.elementRead_starved flag, pure_bind]
      rw [tail.read_starved flag, pure_bind]

theorem MemberLayouts.read_starved
    (flag : errors.has .notEnoughData = true) {α : Type} (members : MemberLayouts L α)
    (targets : α) : members.read backend targets errors = pure (errors, targets) := by
  cases members with
  | nil => rfl
  | cons name head tail =>
      simp only [MemberLayouts.read, Deserializer.memberRead_starved flag, pure_bind]
      rw [tail.read_starved flag, pure_bind]

mutual

theorem Layout.read_reads (readBy : fmt.ReadBy trusted (fun _ => True) backend)
    (plainReads : fmt.PlainReads faithful backend) : {α : Type} → (layout : Layout L α) →
    layout.ReadsBack fmt faithful (layout.read backend)
  | _, .plain leaf, value, _, full, target, _ => by
      have reads := plainReads leaf [value] [target] rfl
        (fun other mem => List.mem_singleton.mp mem ▸ full)
      rw [List.flatMap_singleton] at reads
      exact Deserializer.coverOne_reads reads
  | _, .string, _, holds, _, target, _ => Deserializer.stringRead_reads readBy holds.1 target
  | _, .array elem size, values, holds, full, targets, targetHolds => by
      have elemReads := elem.read_reads readBy plainReads
      have spanReads := elem.spanRead_reads readBy plainReads elemReads holds.2.2 full
        targetHolds.2.2 (targetHolds.1.trans holds.1.symm)
      have sizeFits : size < spanSizeLimit := holds.1 ▸ holds.2.1
      apply Deserializer.fixedRead_reads readBy sizeFits
      apply spanReads.map (f := fun result => ((∅ : DeserializationErrors) ||| result.1, result.2))
      · exact fun result => Bitfield.empty_or result.1
      · exact Prod.ext (Bitfield.or_self ∅) rfl
  | _, .vector elem, values, holds, full, targets, targetHolds => by
      have resizedHold := Deserializer.takeD_holds targetHolds.2 fun value mem =>
        elem.zero_holds value (holds.2 value mem)
      have elemReads := elem.read_reads readBy plainReads
      have spanReads := elem.spanRead_reads readBy plainReads elemReads holds.2 full
        resizedHold (List.takeD_length _ _ _)
      exact Deserializer.vectorRead_reads readBy holds.1 spanReads
  | _, .tuple elems, values, holds, full, targets, targetHolds => by
      have elemsReads := elems.read_reads readBy plainReads values holds.2 full targets
        targetHolds.2 0
      exact Deserializer.fixedRead_reads readBy holds.1 elemsReads
  | _, .struct members, values, holds, full, targets, targetHolds => by
      have membersReads := members.read_reads readBy plainReads values holds.2 full targets
        targetHolds.2
      exact Deserializer.structRead_reads readBy holds.1 membersReads
  | _, .optional policy payload, value, holds, full, target, _ => by
      rcases full with ⟨held, rfl, heldFull⟩
      rcases holds.2 held rfl with ⟨accepted, heldHolds⟩
      have payloadReads := payload.read_reads readBy plainReads held heldHolds heldFull
        payload.zero holds.1
      exact Deserializer.optionalRead_reads readBy accepted target payloadReads

theorem ElemLayouts.read_reads (readBy : fmt.ReadBy trusted (fun _ => True) backend)
    (plainReads : fmt.PlainReads faithful backend) :
    {α : Type} → (elems : ElemLayouts L α) → (values : α) →
    elems.Holds values → elems.Full faithful values → (targets : α) → elems.Holds targets →
    (index : Nat) → Reads (elems.read backend targets index ∅) (elems.encode fmt values) True
      (∅, values)
  | _, .nil, _, _, _, _, _, _ => Reads.yield _
  | _, .cons head tail, values, holds, full, targets, targetsHold, index => by
      have headReads := head.read_reads readBy plainReads values.1 holds.1 full.1 targets.1
        targetsHold.1
      have tailReads := tail.read_reads readBy plainReads values.2 holds.2 full.2 targets.2
        targetsHold.2 (index + 1)
      simp only [ElemLayouts.read, Deserializer.elementRead_empty readBy]
      apply headReads.after
      · exact tailReads.map (f := fun result => (result.1, (values.1, result.2))) (fun _ => rfl)
          rfl
      · rintro ⟨errors, read⟩ flag after
        change errors.has .notEnoughData = true at flag
        simp only [tail.read_starved flag, pure_bind]
        exact starves_pure flag after

theorem MemberLayouts.read_reads (readBy : fmt.ReadBy trusted (fun _ => True) backend)
    (plainReads : fmt.PlainReads faithful backend) :
    {α : Type} → (members : MemberLayouts L α) → (values : α) →
    members.Holds values → members.Full faithful values → (targets : α) →
    members.Holds targets → Reads (members.read backend targets ∅) (members.encode fmt values)
      True (∅, values)
  | _, .nil, _, _, _, _, _ => Reads.yield _
  | _, .cons name head tail, values, holds, full, targets, targetsHold => by
      have headReads := head.read_reads readBy plainReads values.1 holds.1 full.1 targets.1
        targetsHold.1
      have memberReads := Deserializer.memberRead_reads readBy name targets.1 headReads
      have tailReads := tail.read_reads readBy plainReads values.2 holds.2 full.2 targets.2
        targetsHold.2
      simp only [MemberLayouts.read]
      apply memberReads.after
      · exact tailReads.map (f := fun result => (result.1, (values.1, result.2))) (fun _ => rfl)
          rfl
      · rintro ⟨errors, read⟩ flag after
        change errors.has .notEnoughData = true at flag
        simp only [tail.read_starved flag, pure_bind]
        exact starves_pure flag after

end

include readBy plainReads in
theorem Layout.deserialize_reads {α : Type} (layout : Layout L α) (value target : layout.Object)
    (full : layout.Full faithful value.rep) :
    Reads (layout.deserialize backend target.rep) (layout.document fmt value.rep) True
      (∅, value.rep) := by
  have reads := layout.read_reads readBy plainReads value.rep value.holds full target.rep
    target.holds
  exact Deserializer.documentedRead_reads readBy reads

end Reading

end Eagine.Serialization
