import Eagine.Serialization.Fast

/-!
# The fast deserializer backend

The reader of copied memory, and when a value comes back through it.  It counts
a request for no values at all as a lack of data, because the source then
offers less than the size of one value.
-/

namespace Eagine.Serialization

open Theory List

namespace Fast

/-- The values in copied memory. -/
def valuesOf (type : Scalar) : Nat → Block → List (Leaf.Rep type)
  | 0, _ => []
  | count + 1, bytes =>
      scalarOf type (bytes.take type.size) :: valuesOf type count (bytes.drop type.size)

/-- `do_read` of a span. -/
def doRead (type : Scalar) (targets : List (Leaf.Rep type)) :
    SourceM (DeserializationErrors × List (Leaf.Rep type) × Nat) := do
  let dstSize := targets.length * type.size
  let src ← topString dstSize
  if src.length < type.size then
    pure (.ofBit .notEnoughData, targets, 0)
  else if src.length < dstSize then
    let done := src.length / type.size
    popTop (done * type.size)
    pure (.ofBit .incompleteRead, valuesOf type done src ++ targets.drop done, done)
  else
    popTop src.length
    pure (∅, valuesOf type targets.length src, targets.length)

/-- `do_read` of a size that is zero from the start. -/
def doReadSize : SourceM (DeserializationErrors × Int) := do
  let (errors, sizes, _) ← doRead sizeType [sizeValue 0]
  pure (errors, BitVec.toInt (sizes.headD (sizeValue 0)))

/-- One iteration of `do_read` of strings. -/
def stringReadOne (target : Block) : SourceM (DeserializationErrors × Block) := do
  let (errors, size) ← doReadSize
  if errors.isEmpty then
    let src ← topString size.toNat
    if (src.length : Int) < size then
      pure (.ofBit .notEnoughData, target)
    else
      popTop src.length
      pure (∅, src)
  else
    pure (errors, target)

/-- `fast_deserializer_backend`. -/
def deserializer : DeserializerBackend BlockDataSource Scalar where
  begin := pure ∅
  read := doRead
  readStrings := doReadFrom stringReadOne 0
  beginStruct := doReadSize
  beginMember _ := pure ∅
  finishMember _ := pure ∅
  finishStruct := pure ∅
  beginList := doReadSize
  beginElement _ := pure ∅
  finishElement _ := pure ∅
  finishList := pure ∅
  finish := pure ∅

theorem valuesOf_asBytes (type : Scalar) (values : List (Leaf.Rep type)) :
    valuesOf type values.length (asBytes type values) = values := by
  induction values with
  | nil => rfl
  | cons value values ih =>
      have bytesEq : asBytes type (value :: values) =
          scalarBytes type value ++ asBytes type values := flatMap_cons
      have sizeEq := length_scalarBytes type value
      rw [length_cons, valuesOf, bytesEq, take_left' sizeEq, drop_left' sizeEq,
        scalarOf_scalarBytes, ih]

theorem doRead_reads (type : Scalar) (values targets : List (Leaf.Rep type))
    (sameLength : targets.length = values.length) :
    Reads (doRead type targets) (.exact (asBytes type values)) (0 < values.length)
      (∅, values, values.length) where
  accept nonempty source rest starts := by
    have topEq : source.top (values.length * type.size) = asBytes type values := by
      rw [← length_asBytes]
      exact top_of_append starts
    have wide : ¬(asBytes type values).length < type.size := by
      rw [length_asBytes, Nat.not_lt]
      exact Nat.le_mul_of_pos_left _ nonempty
    have complete : ¬(asBytes type values).length < values.length * type.size := by
      rw [length_asBytes]
      exact Nat.lt_irrefl _
    simp only [doRead, topString, popTop, read_bind_apply, Option.bind_some, sameLength, topEq,
      if_neg wide, if_neg complete, read_pure_apply, valuesOf_asBytes, Payload.length_exact]
  reject empty source rest starts := by
    have noTargets : targets.length = 0 := by
      rw [sameLength]
      exact Nat.eq_zero_of_not_pos empty
    have topEq : source.top (targets.length * type.size) = [] := by
      rw [noTargets, Nat.zero_mul]
      rfl
    refine ⟨(.ofBit .notEnoughData, targets, 0), source, ?_, has_notEnoughData⟩
    simp only [doRead, topString, read_bind_apply, Option.bind_some, topEq, length_nil,
      if_pos type.size_pos, read_pure_apply]
  cut _ _ enough tooShort := absurd tooShort (Nat.not_lt.mpr enough)

theorem toInt_sizeValue {size : Nat} (fits : size < spanSizeLimit) :
    BitVec.toInt (sizeValue size) = size :=
  toInt_ofNat fits

theorem doReadSize_reads {size : Nat} (fits : size < spanSizeLimit) :
    Reads doReadSize (.exact (sizeBytes size)) True (∅, (size : Int)) := by
  have reads := doRead_reads sizeType [sizeValue size] [sizeValue 0] rfl
  rw [asBytes_sizeValue] at reads
  apply (reads.map (f := fun result =>
    (result.1, BitVec.toInt (result.2.1.headD (sizeValue 0)))) (fun _ => rfl) ?_).congr
  · simp
  · exact Prod.ext rfl (toInt_sizeValue fits)

/-- What follows the length is taken as far as the length says. -/
theorem stringReadOne_apply {str tail : Block} (fits : str.length < spanSizeLimit)
    (target : Block) {source : BlockDataSource}
    (starts : source.remaining = sizeBytes str.length ++ tail) :
    stringReadOne target source =
      if tail.length < str.length then some ((.ofBit .notEnoughData, target), source.pop 8)
      else some ((∅, tail.take str.length), source.pop (8 + str.length)) := by
  have sized := (doReadSize_reads fits).accept trivial source tail starts
  rw [Payload.length_exact, length_sizeBytes] at sized
  have topEq : (source.pop 8).top str.length = tail.take str.length := by
    have sizeEq := length_sizeBytes str.length
    rw [BlockDataSource.top, BlockDataSource.remaining_pop, starts, drop_left' sizeEq]
  by_cases tooShort : tail.length < str.length
  · have takeEq : tail.take str.length = tail := take_of_length_le tooShort.le
    simp [stringReadOne, sized, topString, topEq, takeEq, tooShort]
  · have lengthEq : (tail.take str.length).length = str.length := by
      rw [length_take, Nat.min_eq_left (Nat.not_lt.mp tooShort)]
    simp [stringReadOne, sized, topString, popTop, topEq, lengthEq, tooShort, -length_take]

/-- A string is read back by its length; where a part of its characters was
lost, there is not enough data. -/
theorem stringReadOne_reads {str : Block} (fits : str.length < spanSizeLimit) (target : Block) :
    Reads (stringReadOne target) (stringPayload str) True (∅, str) where
  accept _ source rest starts := by
    have split : source.remaining = sizeBytes str.length ++ (str ++ rest) := by
      rw [← append_assoc]
      exact starts
    have enough : ¬(str ++ rest).length < str.length := by
      rw [length_append]
      omega
    rw [stringReadOne_apply fits target split, if_neg enough, take_left]
    simp [Payload.length, stringPayload]
  reject unacceptable := absurd trivial unacceptable
  cut source size enough tooShort starts := by
    rw [need_stringPayload] at enough
    have short : size - 8 < str.length := by
      simp only [Payload.length, stringPayload, length_append, length_sizeBytes] at tooShort
      omega
    have split : source.remaining = sizeBytes str.length ++ str.take (size - 8) := by
      rw [starts]
      have wide : (sizeBytes str.length).length ≤ size := by
        rw [length_sizeBytes]
        exact enough
      have takeEq : (sizeBytes str.length ++ str).take size = (sizeBytes str.length).take size ++
          str.take (size - (sizeBytes str.length).length) := take_append
      rw [take_of_length_le wide, length_sizeBytes] at takeEq
      exact takeEq
    have lost : (str.take (size - 8)).length < str.length :=
      lt_of_le_of_lt (length_take_le _ _) short
    refine ⟨(.ofBit .notEnoughData, target), source.pop 8, ?_, has_notEnoughData⟩
    rw [stringReadOne_apply fits target split, if_pos lost]

theorem plainRead_reads (type : Scalar) (values targets : List (Leaf.Rep type))
    (sameLength : targets.length = values.length) :
    Reads (Deserializer.plainRead deserializer type targets)
      (.exact (values.flatMap (format.leaf type))) (0 < values.length) (∅, values) := by
  have reads := doRead_reads type values targets sameLength
  exact reads.map (f := fun result => (result.1, result.2.1)) (fun _ => rfl) rfl

theorem nothing_reads : Reads (pure ∅ : SourceM DeserializationErrors) (.exact []) True ∅ :=
  Reads.yield ∅

/-- The deserializer backend reads the fast format, but no empty list of plain
values. -/
theorem readBy : format.ReadBy (fun _ => True) (0 < ·) deserializer where
  single := Nat.zero_lt_one
  begin := nothing_reads
  read type _ := plainRead_reads type
  readStrings strs targets sameLength fits :=
    readValues_reads strs targets sameLength fun str mem target =>
      stringReadOne_reads (fits str mem) target
  beginStruct _ fits := doReadSize_reads fits
  beginMember _ := nothing_reads
  finishMember _ := rfl
  finishStruct := nothing_reads
  beginList _ fits := doReadSize_reads fits
  beginElement _ := rfl
  finishElement _ := rfl
  finishList := nothing_reads
  finish := nothing_reads
  finishStruct_total _ := rfl
  finishList_total _ := rfl
  finish_total _ := rfl

mutual

/-- The number of characters of the string a value ends with. -/
def lastStringLength : (ty : Ty Scalar) → ty.Rep → Nat
  | .plain _, _ => 0
  | .string, str => List.length str
  | .array elem _, values =>
      match List.getLast? values with
      | some value => lastStringLength elem value
      | none => 0
  | .vector elem, values =>
      match List.getLast? values with
      | some value => lastStringLength elem value
      | none => 0
  | .tuple elems, values => lastStringLengthElems elems values
  | .struct members, values => lastStringLengthMembers members values

def lastStringLengthElems : (elems : Elems Scalar) → elems.Rep → Nat
  | .nil, _ => 0
  | .cons head .nil, (value, _) => lastStringLength head value
  | .cons _ tail, (_, values) => lastStringLengthElems tail values

def lastStringLengthMembers : (members : Members Scalar) → members.Rep → Nat
  | .nil, _ => 0
  | .cons _ head .nil, (value, _) => lastStringLength head value
  | .cons _ _ tail, (_, values) => lastStringLengthMembers tail values

end

theorem sizeBytes_ne_nil (size : Nat) : sizeBytes size ≠ [] := by
  intro empty
  have lengthEq := length_sizeBytes size
  rw [empty] at lengthEq
  cases lengthEq

/-- Every value takes up some bytes. -/
theorem encode_elems_ne_nil (ty : Ty Scalar) (value : ty.Rep) :
    (format.encode ty value).elems ≠ [] := by
  cases ty with
  | plain type =>
      intro empty
      have lengthEq := length_scalarBytes type value
      change scalarBytes type value = [] at empty
      rw [empty] at lengthEq
      exact absurd lengthEq type.size_pos.ne
  | string => exact append_ne_nil_of_left_ne_nil (sizeBytes_ne_nil _) _
  | array elem size =>
      apply append_ne_nil_of_left_ne_nil
      exact append_ne_nil_of_left_ne_nil (sizeBytes_ne_nil _) _
  | vector elem =>
      apply append_ne_nil_of_left_ne_nil
      exact append_ne_nil_of_left_ne_nil (sizeBytes_ne_nil _) _
  | tuple elems =>
      apply append_ne_nil_of_left_ne_nil
      exact append_ne_nil_of_left_ne_nil (sizeBytes_ne_nil _) _
  | struct members =>
      apply append_ne_nil_of_left_ne_nil
      exact append_ne_nil_of_left_ne_nil (sizeBytes_ne_nil _) _

/-- A frame with nothing behind the elements keeps their loose end. -/
theorem framed_loose (begin : Block) (elems : Payload UInt8) :
    (Payload.exact begin ++ elems ++ Payload.exact []).loose = elems.loose := by
  rw [Payload.loose_append_of_nil rfl]
  by_cases empty : elems.elems = []
  · have firm := elems.firm
    rw [empty] at firm
    rw [Payload.loose_append_of_nil empty]
    exact (Nat.le_zero.mp firm).symm
  · exact Payload.loose_append_of_ne_nil empty

theorem concat_loose (elem : Ty Scalar) (values : List elem.Rep) :
    (Payload.concat (values.map (format.encode elem))).loose =
      match values.getLast? with
      | some value => (format.encode elem value).loose
      | none => 0 := by
  rcases eq_nil_or_concat values with rfl | ⟨front, last, rfl⟩
  · rfl
  · rw [concat_eq_append]
    have solid : ∀ payload ∈ (front ++ [last]).map (format.encode elem), payload.elems ≠ [] := by
      intro payload mem
      rcases mem_map.mp mem with ⟨value, _, rfl⟩
      exact encode_elems_ne_nil elem value
    rw [Payload.loose_concat_of_ne_nil (by simp) solid]
    simp

mutual

/-- The loose end of a value is the string it ends with. -/
theorem encode_loose : (ty : Ty Scalar) → (value : ty.Rep) →
    (format.encode ty value).loose = lastStringLength ty value
  | .plain _, _ => rfl
  | .string, _ => rfl
  | .array elem _, values => by
      refine (framed_loose _ _).trans ((concat_loose elem values).trans ?_)
      simp only [lastStringLength, encode_loose elem]
  | .vector elem, values => by
      refine (framed_loose _ _).trans ((concat_loose elem values).trans ?_)
      simp only [lastStringLength, encode_loose elem]
  | .tuple elems, values => (framed_loose _ _).trans (encodeElems_loose elems values)
  | .struct members, values => (framed_loose _ _).trans (encodeMembers_loose members values)

theorem encodeElems_loose : (elems : Elems Scalar) → (values : elems.Rep) →
    (format.encodeElems elems values).loose = lastStringLengthElems elems values
  | .nil, _ => rfl
  | .cons head .nil, (value, _) =>
      (Payload.loose_append_of_nil rfl).trans (encode_loose head value)
  | .cons _ (.cons next tail), (_, (value, values)) =>
      (Payload.loose_append_of_ne_nil
        (append_ne_nil_of_left_ne_nil (encode_elems_ne_nil next value) _)).trans
        (encodeElems_loose (.cons next tail) (value, values))

theorem encodeMembers_loose : (members : Members Scalar) → (values : members.Rep) →
    (format.encodeMembers members values).loose = lastStringLengthMembers members values
  | .nil, _ => rfl
  | .cons _ head .nil, (value, _) =>
      (Payload.loose_append_of_nil rfl).trans
        ((Payload.loose_append_of_ne_nil (encode_elems_ne_nil head value)).trans
          (encode_loose head value))
  | .cons _ _ (.cons name next tail), (_, (value, values)) =>
      (Payload.loose_append_of_ne_nil
        (append_ne_nil_of_left_ne_nil
          (append_ne_nil_of_right_ne_nil _ (encode_elems_ne_nil next value)) _)).trans
        (encodeMembers_loose (.cons name next tail) (value, values))

end

/-- The size of a value in the fast format. -/
def encodedSize (ty : Ty Scalar) (value : ty.Rep) : Nat :=
  (format.encode ty value).length

/-- What is serialized without an error is read back without an error as the
same value. -/
def ReadsBack {ty : Ty Scalar} (value target : Value ty) (room : Nat) : Prop :=
  let written := Serializer.serialize serializer ty value.rep (.ofSize room)
  written.1 = ∅ → ∃ after,
    Deserializer.deserialize deserializer ty target.rep (.ofBlock written.2.written) =
      some ((∅, value.rep), after)

theorem document_eq (ty : Ty Scalar) (value : ty.Rep) :
    format.document ty value = format.encode ty value := by
  change Payload.nil ++ format.encode ty value ++ Payload.nil = format.encode ty value
  rw [Payload.append_nil, Payload.nil_append]

/-- A value comes back exactly where nothing can be written, or all of it is
written and there is no empty list of plain values in it. -/
theorem deserialize_serialize_iff {ty : Ty Scalar} (value target : Value ty) (room : Nat) :
    ReadsBack value target room ↔
      room < encodedSize ty value.rep - lastStringLength ty value.rep ∨
        encodedSize ty value.rep ≤ room ∧ ty.EverySpan (0 < ·) value.rep := by
  have emits := Serializer.serialize_emits writtenBy ty value.rep
  have reads := Deserializer.deserialize_reads readBy (ty.builtFrom_of_forall fun _ => trivial)
    value target
  have success := emits.errors_eq_empty_iff (.ofSize room)
  rw [document_eq] at emits reads success
  rw [BlockDataSink.remainingSize_ofSize] at success
  have needEq : (format.encode ty value.rep).need =
      encodedSize ty value.rep - lastStringLength ty value.rep := by
    rw [← encode_loose]
    rfl
  have writtenEq : (format.encode ty value.rep).need ≤ room →
      (Serializer.serialize serializer ty value.rep (.ofSize room)).2.written =
        (format.encode ty value.rep).elems.take room := by
    intro enough
    rw [emits.fit (.ofSize room) enough, BlockDataSink.store_written,
      BlockDataSink.remainingSize_ofSize]
    rfl
  rw [← needEq]
  constructor
  · intro readsBack
    rcases Nat.lt_or_ge room (format.encode ty value.rep).need with tooSmall | enough
    · exact Or.inl tooSmall
    · right
      have accepted := readsBack (success.mpr enough)
      rw [writtenEq enough] at accepted
      have complete : encodedSize ty value.rep ≤ room := by
        by_contra cutOff
        have starves := reads.cut (.ofBlock ((format.encode ty value.rep).elems.take room)) room
          enough (Nat.lt_of_not_le cutOff) rfl
        exact starves.not_accepted accepted
      refine ⟨complete, ?_⟩
      by_contra emptySpan
      rw [take_of_length_le complete] at accepted
      have starves := reads.reject emptySpan (.ofBlock (format.encode ty value.rep).elems) []
        (append_nil _).symm
      exact starves.not_accepted accepted
  · rintro (tooSmall | ⟨complete, noEmptySpan⟩) written
    · exact absurd (success.mp written) (Nat.not_le.mpr tooSmall)
    · rw [writtenEq (success.mp written), take_of_length_le complete]
      exact ⟨_, reads.accept noEmptySpan _ [] (append_nil _).symm⟩

/-- A vector of bytes without elements. -/
def emptyVector : Value (.vector (.plain (.uint .w8)) : Ty Scalar) where
  rep := ([] : List (BitVec 8))
  holds := ⟨by decide, fun _ _ => trivial⟩

theorem empty_vector_lost : ¬ReadsBack emptyVector emptyVector 8 := by
  intro readsBack
  rcases readsBack (by decide) with ⟨after, accepted⟩
  have failed : (Deserializer.deserialize deserializer (.vector (.plain (.uint .w8)))
      emptyVector.rep (.ofBlock (Serializer.serialize serializer _ emptyVector.rep
        (.ofSize 8)).2.written)).map (fun result => result.1.1) =
      some (.ofBit .notEnoughData) := by
    decide
  rw [accepted] at failed
  exact ne_empty_of_has_notEnoughData has_notEnoughData (Option.some.inj failed).symm

end Fast

end Eagine.Serialization
