import Eagine.Serialization.RoundTrip

/-!
# What a read operation consumes

`Spends operation bound` relates the result of every read without an error to the number of
bytes that it took. A backend whose calls keep up with the text of what they return never ends
in front of the encoding of what it reads, wherever in that text it began.
-/

namespace Eagine.Serialization

open Theory BlockDataSource

/-- A read without an error takes a number of bytes that its value and the source allow. -/
def Spends {α : Type} (operation : SourceM (DeserializationErrors × α))
    (bound : α → BlockDataSource → Nat → Prop) : Prop :=
  ∀ source value after, operation source = some ((∅, value), after) →
    ∃ spent, after = source.pop spent ∧ bound value source spent

/-- An operation without a value takes so many bytes from a source that has them. -/
def Takes (operation : SourceM DeserializationErrors) (size : Nat) : Prop :=
  ∀ source after, operation source = some (∅, after) →
    size ≤ source.remaining.length ∧ after = source.pop size

/-- A read that begins in a text ends behind it, or takes the whole of it and `tight` holds. -/
def Covers (text : Block) (tight : Prop) (source : BlockDataSource) (spent : Nat) : Prop :=
  ∀ late rest, source.remaining = (text ++ rest).drop late →
    text.length < late + spent ∨ late = 0 ∧ spent = text.length ∧ tight

namespace Covers

variable {text other opening : Block} {tight otherTight : Prop} {source : BlockDataSource}
  {spent more opened : Nat}

theorem of_le (enough : text.length ≤ spent) (exactly : spent = text.length → tight) :
    Covers text tight source spent := by
  intro late rest _
  by_cases beyond : text.length < late + spent
  · exact Or.inl beyond
  · have same : spent = text.length := by omega
    exact Or.inr ⟨by omega, same, exactly same⟩

theorem mono (covers : Covers text tight source spent) (implies : tight → otherTight) :
    Covers text otherTight source spent := by
  intro late rest starts
  rcases covers late rest starts with beyond | ⟨punctual, whole, holds⟩
  · exact Or.inl beyond
  · exact Or.inr ⟨punctual, whole, implies holds⟩

/-- Whoever is late for the first text is late for the second one. -/
theorem add (covers : Covers text tight source spent)
    (otherCovers : Covers other otherTight (source.pop spent) more) :
    Covers (text ++ other) (tight ∧ otherTight) source (spent + more) := by
  intro late rest starts
  rw [List.append_assoc] at starts
  rw [List.length_append]
  have first := covers late (other ++ rest) starts
  have behind : (source.pop spent).remaining =
      (other ++ rest).drop (late + spent - text.length) := by
    have past : text.length ≤ late + spent := by omega
    rw [remaining_pop, starts, List.drop_drop, List.drop_append, List.drop_eq_nil_of_le past,
      List.nil_append]
  have second := otherCovers _ rest behind
  rcases first with beyond | ⟨rfl, rfl, holds⟩
  · omega
  · rcases second with beyond | ⟨_, rfl, otherHolds⟩
    · omega
    · exact Or.inr ⟨rfl, rfl, holds, otherHolds⟩

/-- A frame around what is covered. -/
theorem framed (closing : Block) (enough : opening.length ≤ opened)
    (covers : Covers text tight (source.pop opened) spent) :
    Covers (opening ++ text ++ closing) tight source (opened + spent + closing.length) := by
  have opens : Covers opening True source opened := of_le enough fun _ => trivial
  have closes : Covers closing True (source.pop (opened + spent)) closing.length :=
    of_le (Nat.le_refl _) fun _ => trivial
  exact ((opens.add covers).add closes).mono fun holds => holds.1.2

end Covers

variable {source after : BlockDataSource} {errors : DeserializationErrors}

theorem bind_eq_some {ρ τ : Type} {first : SourceM ρ} {next : ρ → SourceM τ}
    {result : τ × BlockDataSource} :
    (first >>= next) source = some result ↔
      ∃ value middle, first source = some (value, middle) ∧ next value middle = some result := by
  rw [read_bind_apply, Option.bind_eq_some_iff]
  exact Prod.exists

theorem pure_eq_some {ρ : Type} {value result : ρ} :
    (pure value : SourceM ρ) source = some (result, after) ↔ value = result ∧ source = after := by
  rw [read_pure_apply, Option.some.injEq, Prod.mk.injEq]

/-- What stops at an error does not end without one. -/
theorem pure_ne_clean {α : Type} {target value : α} (stopped : ¬errors.isEmpty = true) :
    (pure (errors, target) : SourceM (DeserializationErrors × α)) source ≠
      some ((∅, value), after) := by
  intro run
  have clean : errors = ∅ := congrArg Prod.fst (pure_eq_some.mp run).1
  exact stopped ((Bitfield.isEmpty_iff errors).mpr clean)

theorem continues_of_clean {α : Type} {next : SourceM (DeserializationErrors × α)}
    {target value : α} (run : (if errors.isEmpty then next else pure (errors, target)) source =
      some ((∅, value), after)) : errors = ∅ ∧ next source = some ((∅, value), after) := by
  by_cases clean : errors.isEmpty = true
  · rw [if_pos clean] at run
    exact ⟨(Bitfield.isEmpty_iff _).mp clean, run⟩
  · rw [if_neg clean] at run
    exact absurd run (pure_ne_clean clean)

namespace Spends

variable {α β : Type} {operation : SourceM (DeserializationErrors × α)}
  {bound : α → BlockDataSource → Nat → Prop}

theorem yield {value : α} (allowed : ∀ source, bound value source 0) :
    Spends (pure (∅, value)) bound := by
  intro source other after run
  rcases pure_eq_some.mp run with ⟨same, rfl⟩
  cases same
  exact ⟨0, rfl, allowed source⟩

theorem mono {weaker : α → BlockDataSource → Nat → Prop} (spends : Spends operation bound)
    (implies : ∀ value source spent, bound value source spent → weaker value source spent) :
    Spends operation weaker := by
  intro source value after run
  rcases spends source value after run with ⟨spent, afterEq, allowed⟩
  exact ⟨spent, afterEq, implies value source spent allowed⟩

/-- Postprocessing of the value of a read. -/
theorem map {f : α → β} {mapped : β → BlockDataSource → Nat → Prop}
    (spends : Spends operation bound)
    (implies : ∀ value source spent, bound value source spent → mapped (f value) source spent) :
    Spends (do let result ← operation; pure (result.1, f result.2)) mapped := by
  intro source value after run
  rcases bind_eq_some.mp run with ⟨⟨errors, read⟩, middle, readRun, finish⟩
  rcases pure_eq_some.mp finish with ⟨same, rfl⟩
  cases same
  rcases spends source read middle readRun with ⟨spent, middleEq, allowed⟩
  exact ⟨spent, middleEq, implies read source spent allowed⟩

/-- Two reads in a row that thread the errors. -/
theorem pair {head : SourceM (DeserializationErrors × α)}
    {tail : DeserializationErrors → SourceM (DeserializationErrors × β)} {headText : α → Block}
    {tailText : β → Block} {headTight : α → Prop} {tailTight : β → Prop}
    (headSpends : Spends head fun value source spent =>
      errors = ∅ ∧ Covers (headText value) (headTight value) source spent)
    (tailSpends : ∀ errors, Spends (tail errors) fun values source spent =>
      errors = ∅ ∧ Covers (tailText values) (tailTight values) source spent) :
    Spends (do
        let (errors, value) ← head
        let (errors, values) ← tail errors
        pure (errors, (value, values))) fun values source spent =>
      errors = ∅ ∧ Covers (headText values.1 ++ tailText values.2)
        (headTight values.1 ∧ tailTight values.2) source spent := by
  intro source values after run
  rcases bind_eq_some.mp run with ⟨⟨found, value⟩, middle, headRun, rest⟩
  rcases bind_eq_some.mp rest with ⟨⟨later, others⟩, last, tailRun, finish⟩
  rcases pure_eq_some.mp finish with ⟨same, rfl⟩
  cases same
  rcases tailSpends _ _ _ _ tailRun with ⟨second, rfl, rfl, secondCovers⟩
  rcases headSpends _ _ _ headRun with ⟨first, rfl, clean, firstCovers⟩
  exact ⟨first + second, pop_pop _ _ _, clean, firstCovers.add secondCovers⟩

end Spends

theorem doReadFrom_spends {α : Type} {readOne : α → SourceM (DeserializationErrors × α)}
    {encodeOne : α → Payload UInt8} {tight : α → Prop}
    (spends : ∀ target, Spends (readOne target) fun value =>
      Covers (encodeOne value).elems (tight value)) (targets : List α) (done : Nat) :
    Spends (doReadFrom readOne done targets) fun values source spent =>
      values.1.length = targets.length ∧
        Covers (Payload.concat (values.1.map encodeOne)).elems (∀ value ∈ values.1, tight value)
          source spent := by
  induction targets generalizing done with
  | nil =>
      apply Spends.yield
      intro source
      exact ⟨rfl, .of_le (Nat.le_refl _) fun _ _ mem => absurd mem List.not_mem_nil⟩
  | cons target targets ih =>
      rintro source values after run
      unfold doReadFrom at run
      rcases bind_eq_some.mp run with ⟨⟨errors, value⟩, middle, oneRun, more⟩
      dsimp only at more
      rcases continues_of_clean more with ⟨rfl, more⟩
      rcases bind_eq_some.mp more with ⟨⟨found, others, count⟩, last, othersRun, finish⟩
      rcases pure_eq_some.mp finish with ⟨same, rfl⟩
      cases same
      rcases spends target source value middle oneRun with ⟨first, rfl, firstCovers⟩
      rcases ih (done + 1) _ _ _ othersRun with ⟨second, rfl, sameLength, secondCovers⟩
      refine ⟨first + second, pop_pop _ _ _, ?_, ?_⟩
      · rw [List.length_cons, List.length_cons, sameLength]
      · rw [List.map_cons, Payload.concat_cons, Payload.append_elems, List.forall_mem_cons]
        exact firstCovers.add secondCovers

namespace Deserializer

/-- The loop returns no error only if there was none before. -/
theorem commonReadFrom_spends {α : Type} {readElem : α → SourceM (DeserializationErrors × α)}
    {encodeElem : α → Payload UInt8} {tight : α → Prop}
    (spends : ∀ target, Spends (readElem target) fun value =>
      Covers (encodeElem value).elems (tight value)) (targets : List α)
    (errors : DeserializationErrors) :
    Spends (commonReadFrom readElem errors targets) fun values source spent =>
      errors = ∅ ∧ values.length = targets.length ∧
        Covers (Payload.concat (values.map encodeElem)).elems (∀ value ∈ values, tight value)
          source spent := by
  induction targets generalizing errors with
  | nil =>
      intro source values after run
      rcases pure_eq_some.mp run with ⟨same, rfl⟩
      cases same
      refine ⟨0, rfl, rfl, rfl, .of_le (Nat.le_refl _) ?_⟩
      exact fun _ _ mem => absurd mem List.not_mem_nil
  | cons target targets ih =>
      intro source values after run
      unfold commonReadFrom at run
      rcases bind_eq_some.mp run with ⟨⟨found, value⟩, middle, elemRun, more⟩
      dsimp only at more
      by_cases stops : ((errors ||| found).has .notEnoughData ||
          (errors ||| found).has .backendError) = true
      · rw [if_pos stops] at more
        rcases pure_eq_some.mp more with ⟨same, _⟩
        have clean : errors ||| found = ∅ := congrArg Prod.fst same
        rw [clean] at stops
        exact absurd stops (by decide)
      · rw [if_neg stops] at more
        rcases bind_eq_some.mp more with ⟨⟨later, others⟩, last, othersRun, finish⟩
        rcases pure_eq_some.mp finish with ⟨same, rfl⟩
        cases same
        rcases ih (errors ||| found) _ _ _ othersRun with
          ⟨second, rfl, clean, sameLength, secondCovers⟩
        rcases Bitfield.or_eq_empty.mp clean with ⟨rfl, rfl⟩
        rcases spends target source value middle elemRun with ⟨first, rfl, firstCovers⟩
        refine ⟨first + second, pop_pop _ _ _, rfl, ?_, ?_⟩
        · rw [List.length_cons, List.length_cons, sameLength]
        · rw [List.map_cons, Payload.concat_cons, Payload.append_elems, List.forall_mem_cons]
          exact firstCovers.add secondCovers

theorem coverOne_spends {α : Type} {readSpan : List α → SourceM (DeserializationErrors × List α)}
    {bound : α → BlockDataSource → Nat → Prop} {target : α}
    (spends : Spends (readSpan [target]) fun values source spent =>
      ∃ value, values = [value] ∧ bound value source spent) :
    Spends (coverOne readSpan target) bound := by
  apply spends.map (f := fun values => values.headD target)
  rintro values source spent ⟨value, rfl, allowed⟩
  exact allowed

end Deserializer

/-- Every call of the backend that returns no error keeps up with the text of the format for what
it returns. An empty list and a list of one element begin with as many bytes. -/
structure Format.SpentBy {L : Type} [Leaf L] (fmt : Format L)
    (faithful : ∀ leaf : L, Leaf.Rep leaf → Prop)
    (backend : DeserializerBackend BlockDataSource L) : Prop where
  read : ∀ leaf targets, Spends (Deserializer.plainRead backend leaf targets)
    fun values source spent =>
    values.length = targets.length ∧
      Covers (values.flatMap (fmt.leaf leaf)) (∀ value ∈ values, faithful leaf value) source spent
  readStrings : ∀ targets, Spends (Deserializer.stringRead backend targets) fun strs source spent =>
    strs.length = targets.length ∧
      Covers (Payload.concat (strs.map fmt.string)).elems True source spent
  beginStruct : Spends backend.beginStruct fun found _ spent =>
    (fmt.beginStruct found.toNat).length ≤ spent
  beginMember : ∀ name, Takes (backend.beginMember name) (fmt.beginMember name).length
  finishMember : ∀ name, backend.finishMember name = pure ∅
  finishStruct : Takes backend.finishStruct fmt.finishStruct.length
  beginList : Spends backend.beginList fun found _ spent =>
    (fmt.beginList found.toNat).length ≤ spent
  beginElement : ∀ index, backend.beginElement index = pure ∅
  finishElement : ∀ index, backend.finishElement index = pure ∅
  finishList : Takes backend.finishList fmt.finishList.length
  finish : Takes backend.finish fmt.finish.length
  leaf_pos : ∀ leaf value, 0 < (fmt.leaf leaf value).length
  string_pos : ∀ str, 0 < (fmt.string str).length
  finishList_pos : 0 < fmt.finishList.length
  finishStruct_pos : 0 < fmt.finishStruct.length
  finish_pos : 0 < fmt.finish.length
  beginList_one : (fmt.beginList 1).length = (fmt.beginList 0).length

namespace Deserializer

variable {L : Type} [Leaf L] {fmt : Format L} {faithful : ∀ leaf : L, Leaf.Rep leaf → Prop}
  {backend : DeserializerBackend BlockDataSource L} {α : Type}

theorem countErrors_eq_empty_iff {missing excess : DeserializationErrorCode}
    (missingSet : (.ofBit missing : DeserializationErrors) ≠ ∅)
    (excessSet : (.ofBit excess : DeserializationErrors) ≠ ∅) {expected : Nat} {found : Int} :
    countErrors missing excess expected found = ∅ ↔ found = expected := by
  unfold countErrors
  split
  · rename_i below
    exact iff_of_false missingSet below.ne
  · rename_i notBelow
    split
    · rename_i above
      exact iff_of_false excessSet above.ne'
    · rename_i notAbove
      exact iff_of_true rfl (le_antisymm (Int.not_lt.mp notAbove) (Int.not_lt.mp notBelow))

variable {payload : α → Payload UInt8}

variable {readElems : DeserializationErrors → SourceM (DeserializationErrors × α)}

/-- The frame of a list or a structure whose elements thread the errors. -/
theorem counted_spends {opening : SourceM (DeserializationErrors × Int)}
    {closing : SourceM DeserializationErrors} (opened : Nat → Block) {closed : Block}
    {missing excess limit : DeserializationErrorCode} {count : Nat} {target : α} {tight : α → Prop}
    (opens : Spends opening fun found _ spent => (opened found.toNat).length ≤ spent)
    (closes : Takes closing closed.length)
    (missingSet : (.ofBit missing : DeserializationErrors) ≠ ∅)
    (excessSet : (.ofBit excess : DeserializationErrors) ≠ ∅)
    (reads : ∀ errors, Spends (readElems errors) fun values source spent =>
      errors = ∅ ∧ Covers (payload values).elems (tight values) source spent) :
    Spends (do
        let (begun, found) ← opening
        let errors := begun ||| countErrors missing excess count found
        if errors.hasAtMost limit then
          let (errors, values) ← readElems errors
          let finished ← closing
          pure (errors ||| finished, values)
        else
          pure (errors, target)) fun values =>
      Covers (opened count ++ (payload values).elems ++ closed) (tight values) := by
  intro source values after run
  rcases bind_eq_some.mp run with ⟨⟨begun, found⟩, behind, openingRun, more⟩
  dsimp only at more
  by_cases counts : (begun ||| countErrors missing excess count found).hasAtMost limit = true
  · rw [if_pos counts] at more
    rcases bind_eq_some.mp more with ⟨⟨errors, read⟩, middle, elemsRun, closingRun⟩
    rcases bind_eq_some.mp closingRun with ⟨finished, last, closingRun, finish⟩
    rcases pure_eq_some.mp finish with ⟨same, rfl⟩
    obtain ⟨clean, rfl⟩ := Prod.mk.inj same
    rcases Bitfield.or_eq_empty.mp clean with ⟨rfl, rfl⟩
    rcases reads _ _ _ _ elemsRun with ⟨spent, rfl, clean, covers⟩
    rcases Bitfield.or_eq_empty.mp clean with ⟨rfl, counted⟩
    rcases opens _ _ _ openingRun with ⟨first, rfl, enough⟩
    rcases closes _ _ closingRun with ⟨_, rfl⟩
    rw [(countErrors_eq_empty_iff missingSet excessSet).mp counted, Int.toNat_natCast] at enough
    refine ⟨first + spent + closed.length, ?_, covers.framed closed enough⟩
    rw [pop_pop, pop_pop, Nat.add_assoc]
  · rw [if_neg counts] at more
    rcases pure_eq_some.mp more with ⟨same, _⟩
    have clean : begun ||| countErrors missing excess count found = ∅ := congrArg Prod.fst same
    rw [clean] at counts
    exact absurd (by simp [Bitfield.hasAtMost, (Bitfield.isEmpty_iff _).mpr rfl]) counts

theorem list_elems (count : Nat) (elems : Payload UInt8) :
    (fmt.list count elems).elems = fmt.beginList count ++ elems.elems ++ fmt.finishList :=
  rfl

section Backend

variable (spentBy : fmt.SpentBy faithful backend)

include spentBy

theorem fixedRead_spends {count : Nat} {target : α} {tight : α → Prop}
    (reads : ∀ errors, Spends (readElems errors) fun values source spent =>
      errors = ∅ ∧ Covers (payload values).elems (tight values) source spent) :
    Spends (fixedRead backend count target readElems) fun values =>
      Covers (fmt.list count (payload values)).elems (tight values) := by
  apply counted_spends fmt.beginList spentBy.beginList spentBy.finishList
  · decide
  · decide
  · exact reads

/-- The count is the number of the elements, which is not negative. -/
theorem vectorRead_spends {fill : α} {targets : List α}
    {readElems : List α → SourceM (DeserializationErrors × List α)}
    {payload : List α → Payload UInt8} {tight : List α → Prop}
    (reads : ∀ resized, Spends (readElems resized) fun values source spent =>
      values.length = resized.length ∧ Covers (payload values).elems (tight values) source spent) :
    Spends (vectorRead backend fill targets readElems) fun values =>
      Covers (fmt.list values.length (payload values)).elems (tight values) := by
  intro source values after run
  unfold vectorRead at run
  rcases bind_eq_some.mp run with ⟨⟨errors, found⟩, opened, openingRun, more⟩
  dsimp only at more
  rcases continues_of_clean more with ⟨rfl, more⟩
  rcases bind_eq_some.mp more with ⟨resized, unchanged, resizing, rest⟩
  rcases bind_eq_some.mp rest with ⟨⟨read, elems⟩, middle, elemsRun, last⟩
  rcases bind_eq_some.mp last with ⟨finished, closed, closingRun, finish⟩
  rcases pure_eq_some.mp finish with ⟨same, rfl⟩
  obtain ⟨merged, rfl⟩ := Prod.mk.inj same
  rcases found with size | size
  · cases resizing
    rcases Bitfield.or_eq_empty.mp merged with ⟨clean, rfl⟩
    rcases Bitfield.or_eq_empty.mp clean with ⟨-, rfl⟩
    rcases reads _ _ _ _ elemsRun with ⟨spent, rfl, sameLength, covers⟩
    rcases spentBy.beginList _ _ _ openingRun with ⟨first, rfl, enough⟩
    rcases spentBy.finishList _ _ closingRun with ⟨_, rfl⟩
    rw [List.takeD_length] at sameLength
    refine ⟨first + spent + fmt.finishList.length, ?_, ?_⟩
    · rw [pop_pop, pop_pop, Nat.add_assoc]
    · dsimp only
      rw [list_elems, sameLength]
      exact covers.framed _ enough
  · cases resizing

variable {readElem : SourceM (DeserializationErrors × α)}

theorem elementRead_spends (index : Nat) (errors : DeserializationErrors) (target : α)
    {bound : α → BlockDataSource → Nat → Prop} (spends : Spends readElem bound) :
    Spends (elementRead backend index errors target readElem) fun value source spent =>
      errors = ∅ ∧ bound value source spent := by
  intro source value after run
  unfold elementRead at run
  rcases continues_of_clean run with ⟨rfl, run⟩
  rw [spentBy.beginElement, pure_bind] at run
  simp only [Bitfield.or_self, (Bitfield.isEmpty_iff _).mpr, if_true] at run
  rcases bind_eq_some.mp run with ⟨⟨read, found⟩, middle, elemRun, last⟩
  rw [spentBy.finishElement, pure_bind] at last
  rcases pure_eq_some.mp last with ⟨same, rfl⟩
  obtain ⟨merged, rfl⟩ := Prod.mk.inj same
  rw [Bitfield.empty_or, Bitfield.or_empty] at merged
  subst merged
  rcases spends _ _ _ elemRun with ⟨spent, middleEq, allowed⟩
  exact ⟨spent, middleEq, rfl, allowed⟩

theorem memberRead_spends (name : Block) (errors : DeserializationErrors) (target : α)
    {tight : α → Prop} (spends : Spends readElem fun value =>
      Covers (payload value).elems (tight value)) :
    Spends (memberRead backend name errors target readElem) fun value source spent =>
      errors = ∅ ∧
        Covers (Payload.exact (fmt.beginMember name) ++ payload value).elems (tight value)
          source spent := by
  intro source value after run
  unfold memberRead at run
  rcases continues_of_clean run with ⟨rfl, run⟩
  rcases bind_eq_some.mp run with ⟨begun, named, namedRun, more⟩
  rw [Bitfield.empty_or] at more
  rcases continues_of_clean more with ⟨rfl, more⟩
  rcases bind_eq_some.mp more with ⟨⟨read, found⟩, middle, elemRun, last⟩
  dsimp only at last
  rw [spentBy.finishMember, pure_bind] at last
  rcases pure_eq_some.mp last with ⟨same, rfl⟩
  obtain ⟨merged, rfl⟩ := Prod.mk.inj same
  rw [Bitfield.empty_or, Bitfield.or_empty] at merged
  subst merged
  rcases spentBy.beginMember name _ _ namedRun with ⟨_, rfl⟩
  rcases spends _ _ _ elemRun with ⟨spent, rfl, covers⟩
  refine ⟨(fmt.beginMember name).length + spent, pop_pop _ _ _, rfl, ?_⟩
  have named : Covers (fmt.beginMember name) True source (fmt.beginMember name).length :=
    .of_le (Nat.le_refl _) fun _ => trivial
  exact (named.add covers).mono And.right

end Backend

end Deserializer

end Eagine.Serialization
