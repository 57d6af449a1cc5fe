import Eagine.Serialization.Format
import Eagine.Serialization.Reading

/-!
# Round trips over a wire format

`ReadBy` ties a deserializer backend to a wire format, call by call, like
`WrittenBy` ties a serializer backend.  `read_reads` lifts it to every value of
every type.  A backend may refuse lists of plain values of some lengths; it
has to take single values.
-/

namespace Eagine.Serialization

open Theory Bitfield

variable {L : Type} [Leaf L]

/-- Every call of the backend reads the bytes of the format.  The values of the
`trusted` plain types are read back as they were written. -/
structure Format.ReadBy (fmt : Format L) (trusted : L → Prop) (allowed : Nat → Prop)
    (backend : DeserializerBackend BlockDataSource L) : Prop where
  single : allowed 1
  begin : Reads backend.begin (.exact fmt.begin) True ∅
  read : ∀ leaf, trusted leaf → ∀ values targets : List (Leaf.Rep leaf),
    targets.length = values.length →
      Reads (Deserializer.plainRead backend leaf targets)
        (.exact (values.flatMap (fmt.leaf leaf))) (allowed values.length) (∅, values)
  readStrings : ∀ strs targets : List Block, targets.length = strs.length →
    (∀ str ∈ strs, str.length < spanSizeLimit) →
      Reads (Deserializer.stringRead backend targets) (.concat (strs.map fmt.string)) True
        (∅, strs)
  beginStruct : ∀ count < spanSizeLimit,
    Reads backend.beginStruct (.exact (fmt.beginStruct count)) True (∅, (count : Int))
  beginMember : ∀ name, Reads (backend.beginMember name) (.exact (fmt.beginMember name)) True ∅
  finishMember : ∀ name, backend.finishMember name = pure ∅
  finishStruct : Reads backend.finishStruct (.exact fmt.finishStruct) True ∅
  beginList : ∀ count < spanSizeLimit,
    Reads backend.beginList (.exact (fmt.beginList count)) True (∅, (count : Int))
  beginElement : ∀ index, backend.beginElement index = pure ∅
  finishElement : ∀ index, backend.finishElement index = pure ∅
  finishList : Reads backend.finishList (.exact fmt.finishList) True ∅
  finish : Reads backend.finish (.exact fmt.finish) True ∅
  finishStruct_total : ∀ source, (backend.finishStruct source).isSome = true
  finishList_total : ∀ source, (backend.finishList source).isSome = true
  finish_total : ∀ source, (backend.finish source).isSome = true

/-- Lists of faithful plain values are read back. -/
def Format.PlainReads (fmt : Format L) (faithful : ∀ leaf : L, Leaf.Rep leaf → Prop)
    (backend : DeserializerBackend BlockDataSource L) : Prop :=
  ∀ leaf, ∀ values targets : List (Leaf.Rep leaf), targets.length = values.length →
    (∀ value ∈ values, faithful leaf value) →
      Reads (Deserializer.plainRead backend leaf targets)
        (.exact (values.flatMap (fmt.leaf leaf))) True (∅, values)

variable {errors : DeserializationErrors}

/-- Enough data is missing for a report that is more than a wrong count. -/
theorem hasAtMost_count_eq_false (flag : errors.has .notEnoughData = true)
    (more : DeserializationErrors) {excess : DeserializationErrorCode}
    (apart : (Bitfield.ofBit excess).has DeserializationErrorCode.notEnoughData = false) :
    (errors ||| more).hasAtMost excess = false :=
  hasAtMost_eq_false (has_or_left flag more) (by decide) apart

namespace Deserializer

variable {payload : Payload UInt8} {acceptable : Prop}

section Steps

variable {α β : Type}

variable {closing : SourceM DeserializationErrors}

/-- A closing call keeps the report of what it closes. -/
theorem starves_closing (flag : errors.has .notEnoughData = true)
    (total : ∀ source, (closing source).isSome = true) (value : α) (source : BlockDataSource) :
    Starves (do let finished ← closing; pure (errors ||| finished, value)) source := by
  rcases Option.isSome_iff_exists.mp (total source) with ⟨⟨finished, after⟩, run⟩
  refine ⟨(errors ||| finished, value), after, ?_, has_or_left flag finished⟩
  rw [read_bind_apply, run]
  rfl

theorem closing_reads {bytes : Block} (reads : Reads closing (.exact bytes) True ∅) (value : α) :
    Reads (do let finished ← closing; pure ((∅ : DeserializationErrors) ||| finished, value))
      (.exact bytes) True (∅, value) := by
  exact reads.map (f := fun finished => ((∅ : DeserializationErrors) ||| finished, value))
    (fun finished => empty_or finished) rfl

/-- A read between an opening call and a closing call. -/
theorem framed_reads {opening : SourceM α} [Reported α] {opened : α} {beginBytes : Block}
    {elems : SourceM (DeserializationErrors × β)}
    {value : β} {finishBytes : Block} (target : β) (next : α → SourceM (DeserializationErrors × β))
    (openingReads : Reads opening (.exact beginBytes) True opened) (proceeds : next opened = (do
      let (errors, values) ← elems
      let finished ← closing
      pure (errors ||| finished, values)))
    (stops : ∀ result, (Reported.report result).has .notEnoughData = true →
      ∃ errors : DeserializationErrors, errors.has .notEnoughData = true ∧
        next result = pure (errors, target))
    (elemsReads : Reads elems payload acceptable (∅, value))
    (closingReads : Reads closing (.exact finishBytes) True ∅)
    (total : ∀ source, (closing source).isSome = true) :
    Reads (opening >>= next) (.exact beginBytes ++ payload ++ .exact finishBytes) acceptable
      (∅, value) := by
  have body : Reads (next opened) (payload ++ .exact finishBytes) (acceptable ∧ True)
      (∅, value) := by
    rw [proceeds]
    apply elemsReads.bind
    · exact closing_reads closingReads value
    · intro result flag after
      exact starves_closing flag total result.2 after
  rw [Payload.append_assoc]
  apply openingReads.after (body.congr (iff_of_eq (and_true acceptable)))
  · intro result flag after
    rcases stops result flag with ⟨errors, errorsFlag, stopped⟩
    rw [stopped]
    exact starves_pure errorsFlag after

end Steps

variable {α : Type}

/-- A single object is read as a span of one. -/
theorem coverOne_reads {readSpan : List α → SourceM (DeserializationErrors × List α)}
    {value target : α} (reads : Reads (readSpan [target]) payload acceptable (∅, [value])) :
    Reads (coverOne readSpan target) payload acceptable (∅, value) := by
  exact reads.map (f := fun result => (result.1, result.2.headD target)) (fun _ => rfl) rfl

theorem commonReadFrom_reads {readElem : α → SourceM (DeserializationErrors × α)}
    {encodeElem : α → Payload UInt8} {acceptable holds : α → Prop} (values targets : List α)
    (sameLength : targets.length = values.length) (targetsHold : ∀ target ∈ targets, holds target)
    (reads : ∀ value ∈ values, ∀ target, holds target →
      Reads (readElem target) (encodeElem value) (acceptable value) (∅, value)) :
    Reads (commonReadFrom readElem ∅ targets) (.concat (values.map encodeElem))
      (∀ value ∈ values, acceptable value) (∅, values) := by
  induction values generalizing targets with
  | nil =>
      rw [List.eq_nil_of_length_eq_zero sameLength]
      exact (Reads.yield _).congr (by simp)
  | cons value values ih =>
      rcases targets with _ | ⟨target, targets⟩
      · cases sameLength
      have headReads := reads value List.mem_cons_self target
        (targetsHold target List.mem_cons_self)
      have tailReads := ih targets (Nat.succ.inj sameLength)
        (fun other mem => targetsHold other (List.mem_cons_of_mem target mem))
        (fun other mem => reads other (List.mem_cons_of_mem value mem))
      rw [List.map_cons, Payload.concat_cons]
      have sequence : Reads (commonReadFrom readElem ∅ (target :: targets))
          (encodeElem value ++ .concat (values.map encodeElem))
          (acceptable value ∧ ∀ other ∈ values, acceptable other) (∅, value :: values) := by
        unfold commonReadFrom
        apply headReads.bind
        · exact tailReads.map (f := fun result => (result.1, value :: result.2)) (fun _ => rfl) rfl
        · rintro ⟨errors, read⟩ flag after
          change errors.has .notEnoughData = true at flag
          refine ⟨(errors, read :: targets), after, ?_, flag⟩
          simp [flag]
      exact sequence.congr (by simp)

section Backend

variable {fmt : Format L} {trusted : L → Prop} {allowed : Nat → Prop}
  {backend : DeserializerBackend BlockDataSource L}

/-- What the reading of a single object of the type does. -/
def ReadsType (fmt : Format L) (allowed : Nat → Prop) (ty : Ty L)
    (readElem : ty.Rep → SourceM (DeserializationErrors × ty.Rep)) : Prop :=
  ∀ value, ty.Holds value → ∀ target, ty.Holds target →
    Reads (readElem target) (fmt.encode ty value) (ty.EverySpan allowed value) (∅, value)

theorem spanRead_reads (readBy : fmt.ReadBy trusted allowed backend) (ty : Ty L)
    (builtFrom : ty.BuiltFrom trusted)
    {readElem : ty.Rep → SourceM (DeserializationErrors × ty.Rep)}
    (readsType : ReadsType fmt allowed ty readElem) {values targets : List ty.Rep}
    (valuesHold : ∀ value ∈ values, ty.Holds value)
    (targetsHold : ∀ target ∈ targets, ty.Holds target)
    (sameLength : targets.length = values.length) :
    Reads (spanRead backend ty readElem targets) (fmt.encodeSpan ty values)
      (ty.SpanAllowed allowed (ty.EverySpan allowed) values) (∅, values) := by
  have loop := commonReadFrom_reads values targets sameLength targetsHold
    (fun value mem target targetHolds => readsType value (valuesHold value mem) target targetHolds)
  cases ty with
  | plain leaf =>
      have spanEq := Format.encodeSpan_plain fmt leaf values
      rw [spanEq]
      exact readBy.read leaf builtFrom values targets sameLength
  | string =>
      have stringReads := readBy.readStrings values targets sameLength
        (fun str mem => (valuesHold str mem).1)
      exact stringReads.congr (by simp [Ty.SpanAllowed, Ty.EverySpan])
  | array elem size => exact loop
  | vector elem => exact loop
  | tuple elems => exact loop
  | struct members => exact loop

theorem stringRead_reads (readBy : fmt.ReadBy trusted allowed backend) {str : Block}
    (fits : str.length < spanSizeLimit) (target : Block) :
    Reads (coverOne (stringRead backend) target) (fmt.string str) True (∅, str) := by
  have reads := readBy.readStrings [str] [target] rfl (by simpa using fits)
  rw [List.map_singleton, Payload.concat_cons, Payload.concat_nil, Payload.append_nil] at reads
  exact coverOne_reads reads

@[simp]
theorem countErrors_self (missing excess : DeserializationErrorCode) (count : Nat) :
    countErrors missing excess count (count : Int) = ∅ := by
  simp [countErrors]

variable {target value : α}

theorem fixedRead_reads (readBy : fmt.ReadBy trusted allowed backend) {count : Nat}
    (countFits : count < spanSizeLimit)
    {readElems : DeserializationErrors → SourceM (DeserializationErrors × α)}
    (reads : Reads (readElems ∅) payload acceptable (∅, value)) :
    Reads (fixedRead backend count target readElems) (fmt.list count payload) acceptable
      (∅, value) := by
  apply framed_reads target _ (readBy.beginList count countFits) ?_ ?_ reads
    readBy.finishList readBy.finishList_total
  · simp [Bitfield.hasAtMost, (isEmpty_iff _).mpr rfl]
  · rintro ⟨errors, found⟩ flag
    have excessive :
        (errors ||| countErrors .missingElement .excessElement count found).hasAtMost
          .excessElement = false :=
      hasAtMost_count_eq_false flag _ (by decide)
    refine ⟨_, has_or_left flag (countErrors .missingElement .excessElement count found),
      ?_⟩
    simp only [Reported.report, excessive, Bool.false_eq_true, if_false]

theorem vectorRead_reads (readBy : fmt.ReadBy trusted allowed backend) {fill : α}
    {targets values : List α} (countFits : values.length < spanSizeLimit)
    {readElems : List α → SourceM (DeserializationErrors × List α)}
    (reads : Reads (readElems (targets.takeD values.length fill)) payload acceptable
      (∅, values)) :
    Reads (vectorRead backend fill targets readElems) (fmt.list values.length payload) acceptable
      (∅, values) := by
  apply framed_reads targets _ (readBy.beginList values.length countFits) ?_ ?_ reads
    readBy.finishList readBy.finishList_total
  · simp [(isEmpty_iff _).mpr rfl, resize]
    rfl
  · rintro ⟨errors, found⟩ flag
    change errors.has .notEnoughData = true at flag
    refine ⟨errors, flag, ?_⟩
    simp only [isEmpty_eq_false_of_has flag, Bool.false_eq_true, if_false]

theorem elementRead_empty (readBy : fmt.ReadBy trusted allowed backend) (index : Nat) (target : α)
    (readElem : SourceM (DeserializationErrors × α)) :
    elementRead backend index ∅ target readElem = readElem := by
  funext source
  simp [elementRead, readBy.beginElement, readBy.finishElement, -bind_pure_comp]

theorem elementRead_starved (flag : errors.has .notEnoughData = true) (index : Nat) (target : α)
    (readElem : SourceM (DeserializationErrors × α)) :
    elementRead backend index errors target readElem = pure (errors, target) := by
  simp only [elementRead, isEmpty_eq_false_of_has flag, Bool.false_eq_true, if_false]

theorem memberRead_reads (readBy : fmt.ReadBy trusted allowed backend) (name : Block) (target : α)
    {value : α} {readElem : SourceM (DeserializationErrors × α)}
    (reads : Reads readElem payload acceptable (∅, value)) :
    Reads (memberRead backend name ∅ target readElem) (.exact (fmt.beginMember name) ++ payload)
      acceptable (∅, value) := by
  have same : memberRead backend name ∅ target readElem =
      (do let begun ← backend.beginMember name
          if begun.isEmpty then readElem else pure (begun, target)) := by
    funext source
    simp only [memberRead, readBy.finishMember, (isEmpty_iff _).mpr rfl, if_true,
      empty_or, read_bind_apply]
    congr 1
    funext begun
    split
    · rename_i success
      rw [(isEmpty_iff _).mp success]
      simp
    · rfl
  rw [same]
  apply (readBy.beginMember name).after
  · simpa [(isEmpty_iff _).mpr rfl] using reads
  · intro errors flag after
    change errors.has .notEnoughData = true at flag
    refine starves_stopped flag ?_ after
    rfl

theorem memberRead_starved (flag : errors.has .notEnoughData = true) (name : Block) (target : α)
    (readElem : SourceM (DeserializationErrors × α)) :
    memberRead backend name errors target readElem = pure (errors, target) := by
  simp only [memberRead, isEmpty_eq_false_of_has flag, Bool.false_eq_true, if_false]

/-- Once the data ran out, the elements behind are skipped. -/
theorem readElements_starved (flag : errors.has .notEnoughData = true) (elems : Elems L)
    (targets : elems.Rep) (index : Nat) :
    readElements backend elems targets index errors = pure (errors, targets) := by
  cases elems with
  | nil => rfl
  | cons head tail =>
      obtain ⟨target, others⟩ := targets
      simp only [readElements, elementRead_starved flag, pure_bind]
      rw [readElements_starved flag tail others (index + 1), pure_bind]

theorem readMembers_starved (flag : errors.has .notEnoughData = true) (members : Members L)
    (targets : members.Rep) :
    readMembers backend members targets errors = pure (errors, targets) := by
  cases members with
  | nil => rfl
  | cons name head tail =>
      obtain ⟨target, others⟩ := targets
      simp only [readMembers, memberRead_starved flag, pure_bind]
      rw [readMembers_starved flag tail others, pure_bind]

/-- A resized vector holds proper objects: those it had and new ones. -/
theorem takeD_holds {holds : α → Prop} {fill : α} {targets values : List α}
    (targetsHold : ∀ target ∈ targets, holds target) (fillHolds : ∀ value ∈ values, holds fill) :
    ∀ target ∈ targets.takeD values.length fill, holds target := by
  induction values generalizing targets with
  | nil => simp
  | cons value values ih =>
      have tailHolds : ∀ other ∈ values, holds fill := fun other mem =>
        fillHolds other (List.mem_cons_of_mem value mem)
      intro target mem
      rw [List.length_cons, List.takeD_succ] at mem
      rcases targets with _ | ⟨head, tail⟩
      · rcases List.mem_cons.mp mem with rfl | later
        · exact fillHolds value List.mem_cons_self
        · exact ih (fun other inNil => absurd inNil List.not_mem_nil) tailHolds target later
      · rcases List.mem_cons.mp mem with rfl | later
        · exact targetsHold _ List.mem_cons_self
        · exact ih (fun other inTail => targetsHold other (List.mem_cons_of_mem head inTail))
            tailHolds target later

/-- A structure between its opening and its closing call. -/
theorem structRead_reads (readBy : fmt.ReadBy trusted allowed backend) {count : Nat}
    (countFits : count < spanSizeLimit)
    {readMembers : DeserializationErrors → SourceM (DeserializationErrors × α)}
    (reads : Reads (readMembers ∅) payload acceptable (∅, value)) :
    Reads (do
        let (begun, found) ← backend.beginStruct
        let errors := begun ||| countErrors .missingMember .excessMember count found
        if errors.hasAtMost .excessMember then
          let (errors, values) ← readMembers errors
          let finished ← backend.finishStruct
          pure (errors ||| finished, values)
        else
          pure (errors, target))
      (.exact (fmt.beginStruct count) ++ payload ++ .exact fmt.finishStruct) acceptable
      (∅, value) := by
  apply framed_reads target _ (readBy.beginStruct count countFits) ?_ ?_ reads
    readBy.finishStruct readBy.finishStruct_total
  · simp [Bitfield.hasAtMost, (isEmpty_iff _).mpr rfl]
  · rintro ⟨errors, found⟩ flag
    have excessive :
        (errors ||| countErrors .missingMember .excessMember count found).hasAtMost
          .excessMember = false :=
      hasAtMost_count_eq_false flag _ (by decide)
    refine ⟨_, has_or_left flag (countErrors .missingMember .excessMember count found),
      ?_⟩
    simp only [Reported.report, excessive, Bool.false_eq_true, if_false]

/-- What `deserialize` puts around the read of a value. -/
theorem documentedRead_reads (readBy : fmt.ReadBy trusted allowed backend)
    {readValue : SourceM (DeserializationErrors × α)}
    (reads : Reads readValue payload acceptable (∅, value)) :
    Reads (do
        let errors ← backend.begin
        if errors.isEmpty then
          let (read, value) ← readValue
          let finished ← backend.finish
          pure (errors ||| read ||| finished, value)
        else
          pure (errors, target))
      (.exact fmt.begin ++ payload ++ .exact fmt.finish) acceptable (∅, value) := by
  apply framed_reads target _ readBy.begin ?_ ?_ reads readBy.finish readBy.finish_total
  · simp [(isEmpty_iff _).mpr rfl]
  · intro errors flag
    change errors.has .notEnoughData = true at flag
    refine ⟨errors, flag, ?_⟩
    simp only [isEmpty_eq_false_of_has flag, Bool.false_eq_true, if_false]

mutual

/-- Every value is read back from its encoding, if all lists of plain values in
it are of lengths the backend takes; the read runs out of data otherwise. -/
theorem read_reads (readBy : fmt.ReadBy trusted allowed backend) : (ty : Ty L) →
    ty.BuiltFrom trusted → ReadsType fmt allowed ty (read backend ty)
  | .plain leaf, builtFrom, value, _, target, _ => by
      have single : List.flatMap (fmt.leaf leaf) [value] = fmt.leaf leaf value :=
        List.flatMap_singleton _ _
      have reads := readBy.read leaf builtFrom [value] [target] rfl
      rw [single] at reads
      apply (coverOne_reads reads).congr
      exact iff_of_true readBy.single trivial
  | .string, _, _, holds, target, _ =>
      stringRead_reads readBy holds.1 target
  | .array elem size, builtFrom, values, holds, targets, targetHolds => by
      have elemReads := read_reads readBy elem builtFrom
      have spanReads := spanRead_reads readBy elem builtFrom elemReads holds.2.2
        targetHolds.2.2 (targetHolds.1.trans holds.1.symm)
      have sizeFits : size < spanSizeLimit := holds.1 ▸ holds.2.1
      apply fixedRead_reads readBy sizeFits
      apply spanReads.map (f := fun result => ((∅ : DeserializationErrors) ||| result.1, result.2))
      · exact fun result => empty_or result.1
      · exact Prod.ext (or_self ∅) rfl
  | .vector elem, builtFrom, values, holds, targets, targetHolds => by
      have elemReads := read_reads readBy elem builtFrom
      have spanReads := spanRead_reads readBy elem builtFrom elemReads holds.2
        (takeD_holds targetHolds.2 fun value mem => elem.zero_holds value (holds.2 value mem))
        (List.takeD_length _ _ _)
      exact vectorRead_reads readBy holds.1 spanReads
  | .tuple elems, builtFrom, values, holds, targets, targetHolds => by
      have elemsReads := readElements_reads readBy elems builtFrom values holds.2 targets
        targetHolds.2 0
      exact fixedRead_reads readBy holds.1 elemsReads
  | .struct members, builtFrom, values, holds, targets, targetHolds => by
      have membersReads := readMembers_reads readBy members builtFrom values holds.2 targets
        targetHolds.2
      exact structRead_reads readBy holds.1 membersReads

theorem readElements_reads (readBy : fmt.ReadBy trusted allowed backend) : (elems : Elems L) →
    elems.BuiltFrom trusted → (values : elems.Rep) → elems.Holds values →
    (targets : elems.Rep) → elems.Holds targets → (index : Nat) →
    Reads (readElements backend elems targets index ∅) (fmt.encodeElems elems values)
      (elems.EverySpan allowed values) (∅, values)
  | .nil, _, (), _, (), _, _ => Reads.yield _
  | .cons head tail, builtFrom, (value, values), holds, (target, targets), targetsHold, index => by
      have headReads := read_reads readBy head builtFrom.1 value holds.1 target targetsHold.1
      have tailReads := readElements_reads readBy tail builtFrom.2 values holds.2 targets
        targetsHold.2 (index + 1)
      simp only [readElements, elementRead_empty readBy]
      apply headReads.bind
      · exact tailReads.map (f := fun result => (result.1, (value, result.2))) (fun _ => rfl) rfl
      · rintro ⟨errors, read⟩ flag after
        change errors.has .notEnoughData = true at flag
        simp only [readElements_starved flag tail targets (index + 1), pure_bind]
        exact starves_pure flag after

theorem readMembers_reads (readBy : fmt.ReadBy trusted allowed backend) :
    (members : Members L) → members.BuiltFrom trusted → (values : members.Rep) →
    members.Holds values → (targets : members.Rep) → members.Holds targets →
    Reads (readMembers backend members targets ∅) (fmt.encodeMembers members values)
      (members.EverySpan allowed values) (∅, values)
  | .nil, _, (), _, (), _ => Reads.yield _
  | .cons name head tail, builtFrom, (value, values), holds, (target, targets), targetsHold => by
      have headReads := read_reads readBy head builtFrom.1 value holds.1 target targetsHold.1
      have memberReads := memberRead_reads readBy name target headReads
      have tailReads := readMembers_reads readBy tail builtFrom.2 values holds.2 targets
        targetsHold.2
      simp only [readMembers]
      apply memberReads.bind
      · exact tailReads.map (f := fun result => (result.1, (value, result.2))) (fun _ => rfl) rfl
      · rintro ⟨errors, read⟩ flag after
        change errors.has .notEnoughData = true at flag
        simp only [readMembers_starved flag tail targets, pure_bind]
        exact starves_pure flag after

end

theorem deserialize_reads (readBy : fmt.ReadBy trusted allowed backend) {ty : Ty L}
    (builtFrom : ty.BuiltFrom trusted) (value target : Value ty) :
    Reads (deserialize backend ty target.rep) (fmt.document ty value.rep)
      (ty.EverySpan allowed value.rep) (∅, value.rep) := by
  have reads := read_reads readBy ty builtFrom value.rep value.holds target.rep target.holds
  exact documentedRead_reads readBy reads

end Backend

/-- Round trip over a format without loose bytes: with enough room a value is
serialized without an error, and whatever was serialized without an error is read
back, in front of any other bytes, which stay unread. -/
theorem reads_serialized {fmt : Format L} {trusted : L → Prop} {serializer : SerializerBackend L}
    {deserializer : DeserializerBackend BlockDataSource L}
    (writtenBy : fmt.WrittenBy serializer)
    (readBy : fmt.ReadBy trusted (fun _ => True) deserializer)
    (firm : ∀ str, (fmt.string str).loose = 0) {ty : Ty L} (builtFrom : ty.BuiltFrom trusted)
    (value target : Value ty) (room : Nat) (rest : Block) :
    let written := Serializer.serialize serializer ty value.rep (.ofSize room)
    ((fmt.document ty value.rep).length ≤ room → written.1 = ∅) ∧
      (written.1 = ∅ → ∃ after,
        deserialize deserializer ty target.rep (.ofBlock (written.2.written ++ rest)) =
          some ((∅, value.rep), after) ∧
        after.remaining = rest) := by
  have emits := Serializer.serialize_emits writtenBy ty value.rep
  have reads := deserialize_reads readBy builtFrom value target
  have needEq : (fmt.document ty value.rep).need = (fmt.document ty value.rep).length := by
    rw [Payload.need, Format.document_loose firm, Nat.sub_zero]
  have success := emits.errors_eq_empty_iff (.ofSize room)
  rw [BlockDataSink.remainingSize_ofSize, needEq] at success
  constructor
  · exact success.mpr
  · intro written
    have enough := success.mp written
    have run := emits.fit (.ofSize room) (by
      rwa [BlockDataSink.remainingSize_ofSize, needEq])
    have writtenEq : (Serializer.serialize serializer ty value.rep (.ofSize room)).2.written =
        (fmt.document ty value.rep).elems := by
      rw [run, BlockDataSink.written_store_ofSize enough]
    rw [writtenEq]
    refine ⟨_, reads.accept (ty.everySpan_of_forall (fun _ => trivial) value.rep) _ rest rfl, ?_⟩
    rw [BlockDataSource.remaining_pop, BlockDataSource.remaining_ofBlock, Payload.length,
      List.drop_left]

end Deserializer

end Eagine.Serialization
