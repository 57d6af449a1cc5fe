import Eagine.Serialization.Emission

/-!
# Wire formats

A format says which bytes stand for a value: the grammar behind a serializer
backend, stated without a sink or an error report.  `WrittenBy` ties a backend
to its format, call by call; `write_emits` lifts it from the calls to every
value of every type.
-/

namespace Eagine.Serialization

open Theory Payload
open BlockDataSink (beginWork beginWork_snd commit_apply finalize store_store)

/-- The bytes a backend writes for each of its calls.  A string may have a
loose end, everything else is written completely or reported. -/
structure Format (L : Type) [Leaf L] where
  begin : Block
  leaf : (leaf : L) → Leaf.Rep leaf → Block
  string : Block → Payload UInt8
  beginStruct : Nat → Block
  beginMember : Block → Block
  finishStruct : Block
  beginList : Nat → Block
  finishList : Block
  finish : Block

variable {L : Type} [Leaf L]

namespace Format

/-- A list between its framing bytes. -/
def list (fmt : Format L) (count : Nat) (elems : Payload UInt8) : Payload UInt8 :=
  .exact (fmt.beginList count) ++ elems ++ .exact fmt.finishList

mutual

/-- The serialized form of a value. -/
def encode (fmt : Format L) : (ty : Ty L) → ty.Rep → Payload UInt8
  | .plain leaf, value => .exact (fmt.leaf leaf value)
  | .string, str => fmt.string str
  | .array elem size, values =>
      fmt.list size (.concat (List.map (fun value => encode fmt elem value) values))
  | .vector elem, values =>
      fmt.list (List.length values)
        (.concat (List.map (fun value => encode fmt elem value) values))
  | .tuple elems, values => fmt.list elems.length (encodeElems fmt elems values)
  | .struct members, values =>
      .exact (fmt.beginStruct members.length) ++ encodeMembers fmt members values ++
        .exact fmt.finishStruct

def encodeElems (fmt : Format L) : (elems : Elems L) → elems.Rep → Payload UInt8
  | .nil, _ => .nil
  | .cons head tail, (value, values) => encode fmt head value ++ encodeElems fmt tail values

def encodeMembers (fmt : Format L) : (members : Members L) → members.Rep → Payload UInt8
  | .nil, _ => .nil
  | .cons name head tail, (value, values) =>
      .exact (fmt.beginMember name) ++ encode fmt head value ++ encodeMembers fmt tail values

end

/-- The serialized form of a list of values without its frame. -/
def encodeSpan (fmt : Format L) (ty : Ty L) (values : List ty.Rep) : Payload UInt8 :=
  .concat (values.map (fmt.encode ty))

/-- The serialized form of a value with the frame `serialize` puts around it. -/
def document (fmt : Format L) (ty : Ty L) (value : ty.Rep) : Payload UInt8 :=
  .exact fmt.begin ++ fmt.encode ty value ++ .exact fmt.finish

theorem encodeSpan_plain (fmt : Format L) (leaf : L) (values : List (Leaf.Rep leaf)) :
    fmt.encodeSpan (.plain leaf) values = .exact (values.flatMap (fmt.leaf leaf)) :=
  concat_map_exact (fmt.leaf leaf) values

theorem list_loose {fmt : Format L} {elems : Payload UInt8} (firm : elems.loose = 0)
    (count : Nat) : (fmt.list count elems).loose = 0 :=
  loose_append (loose_append rfl firm) rfl

section Firm

variable {fmt : Format L}

mutual

/-- Without loose ends of strings there are no loose ends at all. -/
theorem encode_loose (firm : ∀ str, (fmt.string str).loose = 0) :
    (ty : Ty L) → (value : ty.Rep) → (fmt.encode ty value).loose = 0
  | .plain _, _ => rfl
  | .string, str => firm str
  | .array elem size, values => by
      apply list_loose
      apply loose_concat
      intro payload mem
      rcases List.mem_map.mp mem with ⟨value, _, rfl⟩
      exact encode_loose firm elem value
  | .vector elem, values => by
      apply list_loose
      apply loose_concat
      intro payload mem
      rcases List.mem_map.mp mem with ⟨value, _, rfl⟩
      exact encode_loose firm elem value
  | .tuple elems, values => list_loose (encodeElems_loose firm elems values) _
  | .struct members, values =>
      loose_append (loose_append rfl (encodeMembers_loose firm members values)) rfl

theorem encodeElems_loose (firm : ∀ str, (fmt.string str).loose = 0) :
    (elems : Elems L) → (values : elems.Rep) →
    (fmt.encodeElems elems values).loose = 0
  | .nil, _ => rfl
  | .cons head tail, (value, values) =>
      loose_append (encode_loose firm head value) (encodeElems_loose firm tail values)

theorem encodeMembers_loose (firm : ∀ str, (fmt.string str).loose = 0) :
    (members : Members L) → (values : members.Rep) →
    (fmt.encodeMembers members values).loose = 0
  | .nil, _ => rfl
  | .cons _ head tail, (value, values) =>
      loose_append (loose_append rfl (encode_loose firm head value))
        (encodeMembers_loose firm tail values)

end

theorem document_loose (firm : ∀ str, (fmt.string str).loose = 0) (ty : Ty L)
    (value : ty.Rep) : (fmt.document ty value).loose = 0 :=
  loose_append (loose_append rfl (encode_loose firm ty value)) rfl

end Firm

/-- Every call of the backend emits the bytes of the format. -/
structure WrittenBy (fmt : Format L) (backend : SerializerBackend L) : Prop where
  begin : Emits backend.begin (.exact fmt.begin)
  write : ∀ leaf values,
    Emits (Serializer.plainWrite backend leaf values) (.exact (values.flatMap (fmt.leaf leaf)))
  string : ∀ str, Emits (Serializer.stringWrite backend str) (fmt.string str)
  beginStruct : ∀ count, Emits (backend.beginStruct count) (.exact (fmt.beginStruct count))
  beginMember : ∀ name, Emits (backend.beginMember name) (.exact (fmt.beginMember name))
  finishMember : ∀ name, backend.finishMember name = pure ∅
  finishStruct : Emits backend.finishStruct (.exact fmt.finishStruct)
  beginList : ∀ count, Emits (backend.beginList count) (.exact (fmt.beginList count))
  beginElement : ∀ index, backend.beginElement index = pure ∅
  finishElement : ∀ index, backend.finishElement index = pure ∅
  finishList : Emits backend.finishList (.exact fmt.finishList)
  finish : Emits backend.finish (.exact fmt.finish)

end Format

namespace Serializer

variable {fmt : Format L} {backend : SerializerBackend L}

variable {payload : Payload UInt8} {α : Type} {writeElem : α → SinkM SerializationErrors}

/-- The sink of the next iteration, when the element fits. -/
theorem commonWriteFrom_fit (writtenBy : fmt.WrittenBy backend)
    {elem : α} (emits : Emits (writeElem elem) payload)
    (index : Nat) (rest : List α) {sink : BlockDataSink}
    (room : payload.need ≤ sink.remainingSize) :
    commonWriteFrom backend writeElem index ∅ (elem :: rest) sink =
      commonWriteFrom backend writeElem (index + 1) ∅ rest (sink.store payload.elems) := by
  have fitting := emits.fit (beginWork sink).2 room
  rw [beginWork_snd] at fitting
  simp only [commonWriteFrom, writtenBy.beginElement, writtenBy.finishElement,
    sink_bind_apply, sink_pure_apply, beginWork_snd, Bitfield.or_empty,
    (Bitfield.isEmpty_iff _).mpr rfl, if_true, fitting, commit_apply]
  rfl

/-- An element that does not fit ends the loop with its transaction open: the
report is an incomplete write, which neither rollback branch is guarded by. -/
theorem commonWriteFrom_short (writtenBy : fmt.WrittenBy backend)
    {elem : α} (emits : Emits (writeElem elem) payload)
    (index : Nat) (rest : List α) {sink : BlockDataSink}
    (tooSmall : sink.remainingSize < payload.need) :
    (commonWriteFrom backend writeElem index ∅ (elem :: rest) sink).1 = incomplete ∧
      ∃ opened, opened ≠ [] ∧
        (commonWriteFrom backend writeElem index ∅ (elem :: rest) sink).2.savePoints =
          opened ++ sink.savePoints := by
  rcases emits.short (beginWork sink).2 tooSmall with
    ⟨report, opened, openedEq⟩
  have noRollback : incomplete.hasAtMost .tooMuchData = false := by decide
  have result : commonWriteFrom backend writeElem index ∅ (elem :: rest) sink =
      (incomplete, (writeElem elem (beginWork sink).2).2) := by
    simp [commonWriteFrom, writtenBy.beginElement, writtenBy.finishElement,
      -beginWork_snd, report, noRollback, incomplete_ne_empty]
  rw [result]
  refine ⟨rfl, opened ++ [sink.written.length], by simp, ?_⟩
  rw [openedEq, beginWork_snd]
  simp

variable {encodeElem : α → Payload UInt8}

/-- The loop emits the encodings of its elements. -/
theorem commonWriteFrom_emits (writtenBy : fmt.WrittenBy backend)
    (values : List α) (emits : ∀ value ∈ values, Emits (writeElem value) (encodeElem value))
    (index : Nat) :
    Emits (commonWriteFrom backend writeElem index ∅ values)
      (.concat (values.map encodeElem)) := by
  induction values generalizing index with
  | nil => exact Emits.nothing
  | cons elem rest ih =>
      have elemEmits := emits elem List.mem_cons_self
      have restEmits := ih (fun value mem => emits value (List.mem_cons_of_mem elem mem))
        (index + 1)
      rw [List.map_cons, concat_cons]
      constructor
      · intro sink room
        rcases need_le_of_append room with ⟨elemRoom, restRoom⟩
        rw [commonWriteFrom_fit writtenBy elemEmits index rest elemRoom,
          restEmits.fit _ (by simpa [Payload.length] using restRoom),
          store_store, append_elems]
      · intro sink tooSmall
        rcases lt_need_of_append tooSmall with elemSmall | ⟨elemRoom, restSmall⟩
        · rcases commonWriteFrom_short writtenBy elemEmits index rest elemSmall with
            ⟨report, opened, _, openedEq⟩
          exact ⟨report, opened, openedEq⟩
        · have failed := restEmits.short (sink.store (encodeElem elem).elems)
            (by simpa [Payload.length] using restSmall)
          unfold Fails at failed ⊢
          rw [commonWriteFrom_fit writtenBy elemEmits index rest elemRoom]
          exact failed

theorem commonWrite_emits (writtenBy : fmt.WrittenBy backend)
    (emits : ∀ value, Emits (writeElem value) (encodeElem value)) (values : List α) :
    Emits (commonWrite backend writeElem values) (.concat (values.map encodeElem)) :=
  commonWriteFrom_emits writtenBy values (fun value _ => emits value) 0

theorem spanWrite_emits (writtenBy : fmt.WrittenBy backend) (ty : Ty L)
    {writeElem : ty.Rep → SinkM SerializationErrors}
    (emits : ∀ value, Emits (writeElem value) (fmt.encode ty value)) (values : List ty.Rep) :
    Emits (spanWrite backend ty writeElem values) (fmt.encodeSpan ty values) := by
  cases ty with
  | plain leaf =>
      have spanEq := Format.encodeSpan_plain fmt leaf values
      exact spanEq ▸ writtenBy.write leaf values
  | string => exact commonWrite_emits writtenBy emits values
  | array elem size => exact commonWrite_emits writtenBy emits values
  | vector elem => exact commonWrite_emits writtenBy emits values
  | tuple elems => exact commonWrite_emits writtenBy emits values
  | struct members => exact commonWrite_emits writtenBy emits values

theorem listWrite_emits (writtenBy : fmt.WrittenBy backend) (count : Nat)
    {writeElems : SinkM SerializationErrors} {elems : Payload UInt8}
    (emits : Emits writeElems elems) :
    Emits (listWrite backend count writeElems) (fmt.list count elems) := by
  have merged := emits.merge writtenBy.finishList
  have guarded := (writtenBy.beginList count).guard merged
  rw [← append_assoc] at guarded
  have same : listWrite backend count writeElems =
      (do let errors ← backend.beginList count
          if errors.isEmpty then do
            let written ← writeElems
            let finished ← backend.finishList
            pure (written ||| finished)
          else pure errors) := by
    funext sink
    simp only [listWrite, sink_bind_apply]
    split
    · rename_i success
      rw [(Bitfield.isEmpty_iff _).mp success]
      simp
    · rfl
  rw [same]
  exact guarded

theorem elementWrite_emits (writtenBy : fmt.WrittenBy backend) (index : Nat)
    {writeElem : SinkM SerializationErrors} (emits : Emits writeElem payload) :
    Emits (elementWrite backend index ∅ writeElem) payload := by
  have same : elementWrite backend index ∅ writeElem = writeElem := by
    funext sink
    simp [elementWrite, writtenBy.beginElement, writtenBy.finishElement, -bind_pure_comp]
  rw [same]
  exact emits

theorem elementWrite_incomplete (index : Nat) (writeElem : SinkM SerializationErrors) :
    elementWrite backend index incomplete writeElem = pure incomplete := by
  simp [elementWrite]

theorem memberWrite_emits (writtenBy : fmt.WrittenBy backend) (name : Block)
    {writeElem : SinkM SerializationErrors} (emits : Emits writeElem payload) :
    Emits (memberWrite backend name ∅ writeElem)
      (.exact (fmt.beginMember name) ++ payload) := by
  have same : memberWrite backend name ∅ writeElem =
      (do let begun ← backend.beginMember name
          if begun.isEmpty then writeElem else pure begun) := by
    funext sink
    simp only [memberWrite, writtenBy.finishMember, (Bitfield.isEmpty_iff _).mpr rfl, if_true,
      Bitfield.empty_or, sink_bind_apply]
    split
    · rename_i success
      rw [(Bitfield.isEmpty_iff _).mp success]
      simp
    · rfl
  rw [same]
  exact (writtenBy.beginMember name).guard emits

theorem memberWrite_incomplete (name : Block) (writeElem : SinkM SerializationErrors) :
    memberWrite backend name incomplete writeElem = pure incomplete := by
  simp [memberWrite]

/-- Once an element failed, the elements behind it are skipped. -/
theorem writeElements_incomplete : (elems : Elems L) → (values : elems.Rep) → (index : Nat) →
    writeElements backend elems values index incomplete = pure incomplete
  | .nil, _, _ => rfl
  | .cons head tail, (value, values), index => by
      funext sink
      simp only [writeElements, elementWrite_incomplete, pure_bind]
      rw [writeElements_incomplete tail values (index + 1)]

theorem writeMembers_incomplete : (members : Members L) → (values : members.Rep) →
    writeMembers backend members values incomplete = pure incomplete
  | .nil, _ => rfl
  | .cons name head tail, (value, values) => by
      funext sink
      simp only [writeMembers, memberWrite_incomplete, pure_bind]
      rw [writeMembers_incomplete tail values]

variable {beginBytes finishBytes : Block}

/-- The frame of a document. -/
theorem framed_emits {begin finish elems : SinkM SerializationErrors}
    (beginEmits : Emits begin (.exact beginBytes))
    (elemsEmits : Emits elems payload) (finishEmits : Emits finish (.exact finishBytes)) :
    Emits (do let errors ← begin
              if errors.isEmpty then do
                let written ← elems
                let finished ← finish
                pure (written ||| finished)
              else pure errors)
      (.exact beginBytes ++ payload ++ .exact finishBytes) := by
  rw [append_assoc]
  exact beginEmits.guard (elemsEmits.merge finishEmits)

/-- The frame of a tuple or a structure, whose elements thread the errors. -/
theorem threaded_emits {begin finish : SinkM SerializationErrors}
    {elems : SerializationErrors → SinkM SerializationErrors}
    (beginEmits : Emits begin (.exact beginBytes)) (elemsEmits : Emits (elems ∅) payload)
    (finishEmits : Emits finish (.exact finishBytes)) :
    Emits (do let errors ← begin
              if errors.isEmpty then do
                let errors ← elems errors
                let finished ← finish
                pure (errors ||| finished)
              else pure errors)
      (.exact beginBytes ++ payload ++ .exact finishBytes) := by
  have framed := framed_emits beginEmits elemsEmits finishEmits
  have same : (do
      let errors ← begin
      if errors.isEmpty then do
        let errors ← elems errors
        let finished ← finish
        pure (errors ||| finished)
      else pure errors) = (do
      let errors ← begin
      if errors.isEmpty then do
        let written ← elems ∅
        let finished ← finish
        pure (written ||| finished)
      else pure errors) := by
    funext sink
    simp only [sink_bind_apply]
    split
    · rename_i success
      rw [(Bitfield.isEmpty_iff _).mp success]
    · rfl
  rw [same]
  exact framed

mutual

/-- Every value is written as its format says, or the write is reported to be
incomplete. -/
theorem write_emits (writtenBy : fmt.WrittenBy backend) : (ty : Ty L) → (value : ty.Rep) →
    Emits (write backend ty value) (fmt.encode ty value)
  | .plain leaf, value => by
      have single : List.flatMap (fmt.leaf leaf) [value] = fmt.leaf leaf value :=
        List.flatMap_singleton _ _
      have emits := writtenBy.write leaf [value]
      rw [single] at emits
      exact emits
  | .string, str => writtenBy.string str
  | .array elem size, values => by
      have spanEmits := spanWrite_emits writtenBy elem (write_emits writtenBy elem) values
      exact listWrite_emits writtenBy size spanEmits
  | .vector elem, values => by
      have spanEmits := spanWrite_emits writtenBy elem (write_emits writtenBy elem) values
      exact listWrite_emits writtenBy (List.length values) spanEmits
  | .tuple elems, values =>
      threaded_emits (writtenBy.beginList elems.length)
        (writeElements_emits writtenBy elems values 0) writtenBy.finishList
  | .struct members, values =>
      threaded_emits (writtenBy.beginStruct members.length)
        (writeMembers_emits writtenBy members values) writtenBy.finishStruct

theorem writeElements_emits (writtenBy : fmt.WrittenBy backend) : (elems : Elems L) →
    (values : elems.Rep) → (index : Nat) →
    Emits (writeElements backend elems values index ∅) (fmt.encodeElems elems values)
  | .nil, _, _ => Emits.nothing
  | .cons head tail, (value, values), index => by
      have headEmits := elementWrite_emits writtenBy index (write_emits writtenBy head value)
      apply headEmits.bind
      · exact writeElements_emits writtenBy tail values (index + 1)
      · intro sink
        rw [writeElements_incomplete]
        exact fails_pure sink

theorem writeMembers_emits (writtenBy : fmt.WrittenBy backend) : (members : Members L) →
    (values : members.Rep) →
    Emits (writeMembers backend members values ∅) (fmt.encodeMembers members values)
  | .nil, _ => Emits.nothing
  | .cons name head tail, (value, values) => by
      have headEmits := memberWrite_emits writtenBy name (write_emits writtenBy head value)
      apply headEmits.bind
      · exact writeMembers_emits writtenBy tail values
      · intro sink
        rw [writeMembers_incomplete]
        exact fails_pure sink

end

/-- What `serialize` puts around a value. -/
theorem documented_emits (writtenBy : fmt.WrittenBy backend)
    {writeValue : SinkM SerializationErrors} (emits : Emits writeValue payload) :
    Emits (do let errors ← backend.begin
              let errors ←
                if errors.isEmpty then do
                  let written ← writeValue
                  let finished ← backend.finish
                  pure (errors ||| written ||| finished)
                else
                  pure errors
              let finalized ← finalize
              pure (errors ||| finalized))
      (.exact fmt.begin ++ payload ++ .exact fmt.finish) := by
  have framed := framed_emits writtenBy.begin emits writtenBy.finish
  have same : (do
      let errors ← backend.begin
      let errors ←
        if errors.isEmpty then do
          let written ← writeValue
          let finished ← backend.finish
          pure (errors ||| written ||| finished)
        else
          pure errors
      let finalized ← finalize
      pure (errors ||| finalized)) = (do
      let errors ← backend.begin
      if errors.isEmpty then do
        let written ← writeValue
        let finished ← backend.finish
        pure (written ||| finished)
      else pure errors) := by
    funext sink
    simp only [finalize, sink_bind_apply]
    split
    · rename_i success
      rw [(Bitfield.isEmpty_iff _).mp success]
      simp
    · simp
  rw [same]
  exact framed

/-- A serialized value is the document of its format. -/
theorem serialize_emits (writtenBy : fmt.WrittenBy backend) (ty : Ty L) (value : ty.Rep) :
    Emits (serialize backend ty value) (fmt.document ty value) :=
  documented_emits writtenBy (write_emits writtenBy ty value)

end Serializer

end Eagine.Serialization
