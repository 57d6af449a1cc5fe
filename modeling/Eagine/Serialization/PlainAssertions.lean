import Eagine.Serialization.Fast
import Eagine.Serialization.Portable

/-!
# What plain serializers assert

A plain serializer asserts which errors its backend reports when not all of the values were
written. It expects too much data where nothing was written, and no backend reports that.
-/

namespace Eagine.Serialization

open Theory
open BlockDataSink (ofSize write write_apply)

/-- The assertions of `plain_serializer::write` about the result for so many values. For a single
value the second one is not made, and would not be reached. -/
def assertionsHold (count : Nat) (result : SerializationErrors × Nat) : Bool :=
  if result.2 < 1 then result.1.has .tooMuchData
  else if result.2 < count then
    result.1.has .incompleteWrite || result.1.has .tooMuchData
  else true

/-- What is not written completely is reported as incomplete, and nothing else is reported. -/
structure Accounts (count : Nat) (result : SerializationErrors × Nat) : Prop where
  report : result.1 = ∅ ∨ result.1 = incomplete
  short : result.2 < count → result.1 = incomplete

theorem Accounts.assertionsHold_iff {count : Nat} {result : SerializationErrors × Nat}
    (accounts : Accounts count result) : assertionsHold count result = true ↔ 1 ≤ result.2 := by
  have noneHas : (∅ : SerializationErrors).has .tooMuchData = false := by decide
  have incompleteHas : incomplete.has .tooMuchData = false := by decide
  rw [assertionsHold]
  by_cases nothing : result.2 < 1
  · rw [if_pos nothing]
    refine iff_of_false ?_ (Nat.not_le.mpr nothing)
    rcases accounts.report with clean | isIncomplete
    · rw [clean, noneHas]
      exact Bool.false_ne_true
    · rw [isIncomplete, incompleteHas]
      exact Bool.false_ne_true
  · rw [if_neg nothing]
    refine iff_of_true ?_ (Nat.le_of_not_lt nothing)
    by_cases short : result.2 < count
    · rw [if_pos short, accounts.short short]
      decide
    · rw [if_neg short]

theorem exists_first_iff {α : Type} {first : α} {rest : List α} {fits : Prop} :
    (∃ head tail, first :: rest = head :: tail ∧ fits) ↔ fits :=
  ⟨fun ⟨_, _, _, fits⟩ => fits, fun fits => ⟨first, rest, rfl, fits⟩⟩

namespace Portable

theorem one_le_fitting_iff (room : Nat) (items : List Block) :
    1 ≤ fitting room items ↔ ∃ first rest, items = first :: rest ∧ first.length ≤ room := by
  cases items with
  | nil =>
      constructor
      · intro some
        rw [fitting] at some
        exact absurd some (by decide)
      · rintro ⟨first, rest, itemsEq, _⟩
        cases itemsEq
  | cons item items =>
      rw [fitting]
      constructor
      · intro some
        by_cases fits : item.length ≤ room
        · exact ⟨item, items, rfl, fits⟩
        · rw [if_neg fits] at some
          exact absurd some (by decide)
      · rintro ⟨first, rest, itemsEq, fits⟩
        cases itemsEq
        rw [if_pos fits]
        exact Nat.le_add_left 1 _

/-- Items that fit together fit one by one. -/
theorem fitting_of_le {room : Nat} {items : List Block} (fits : items.flatten.length ≤ room) :
    fitting room items = items.length := by
  induction items generalizing room with
  | nil => rfl
  | cons item items ih =>
      rw [List.flatten_cons, List.length_append] at fits
      have itemFits : item.length ≤ room := by omega
      have restFits : items.flatten.length ≤ room - item.length := by omega
      rw [fitting, if_pos itemFits, ih restFits, List.length_cons]

variable {α : Type} {writeOne : α → SinkM SerializationErrors} {text : α → Block}

theorem doWrite_accounts (writeOneEq : ∀ value, writeOne value = write (text value))
    (values : List α) (sink : BlockDataSink) :
    Accounts values.length (doWrite writeOne values sink).1 := by
  rw [doWrite, doWriteFrom_apply writeOneEq]
  dsimp only
  constructor
  · split
    · exact .inr rfl
    · exact .inl rfl
  · intro short
    by_cases tooSmall : sink.remainingSize <
        (values.map fun value => text value ++ [byteOf ';']).flatten.length
    · exact if_pos tooSmall
    · rw [fitting_of_le (Nat.le_of_not_lt tooSmall), List.length_map, Nat.zero_add] at short
      exact absurd short (Nat.lt_irrefl _)

theorem one_le_doWrite_iff
    (writeOneEq : ∀ value, writeOne value = write (text value)) (values : List α)
    (sink : BlockDataSink) :
    1 ≤ (doWrite writeOne values sink).1.2 ↔
      ∃ first rest, values = first :: rest ∧ (text first).length + 1 ≤ sink.remainingSize := by
  rw [doWrite, doWriteFrom_apply writeOneEq]
  dsimp only
  rw [Nat.zero_add, one_le_fitting_iff]
  constructor
  · rintro ⟨item, items, itemsEq, fits⟩
    rcases List.map_eq_cons_iff.mp itemsEq with ⟨first, rest, rfl, rfl, _⟩
    refine ⟨first, rest, rfl, ?_⟩
    rwa [List.length_append] at fits
  · rintro ⟨first, rest, rfl, fits⟩
    refine ⟨_, _, rfl, ?_⟩
    rwa [List.length_append]

/-- `_write_one` of a declared name. -/
def declNameWriteOne (name : Block) : SinkM SerializationErrors :=
  write name

end Portable

namespace Fast

/-- `do_write` of a span of any type, by its size and its bytes. -/
def doWriteOf {α : Type} (size : Nat) (bytes : α → Block) (values : List α) :
    SinkM (SerializationErrors × Nat) := do
  let sink ← get
  let canDo := sink.remainingSize / size
  if canDo < values.length then
    let sunk ← write ((values.take canDo).flatMap bytes)
    pure (incomplete ||| sunk, canDo)
  else
    let sunk ← write (values.flatMap bytes)
    pure (sunk, values.length)

section Bytes

variable {α : Type} {size : Nat} {bytes : α → Block}

theorem length_flatMap_bytes (sized : ∀ value, (bytes value).length = size) (values : List α) :
    (values.flatMap bytes).length = values.length * size := by
  induction values with
  | nil => exact (Nat.zero_mul _).symm
  | cons value values ih =>
      rw [List.flatMap_cons, List.length_append, sized, ih, List.length_cons, Nat.succ_mul,
        Nat.add_comm]

theorem doWriteOf_fst (positive : 0 < size) (sized : ∀ value, (bytes value).length = size)
    (values : List α) (sink : BlockDataSink) :
    (doWriteOf size bytes values sink).1 =
      if sink.remainingSize / size < values.length then (incomplete, sink.remainingSize / size)
      else (∅, values.length) := by
  change ((if sink.remainingSize / size < values.length then _ else _ : SinkM _) sink).1 = _
  by_cases tooSmall : sink.remainingSize / size < values.length
  · rw [if_pos tooSmall, if_pos tooSmall, sink_bind_apply, write_apply]
    split
    · rw [sink_pure_apply, Bitfield.or_self]
    · rw [sink_pure_apply, Bitfield.or_empty]
  · have fits : ¬sink.remainingSize < (values.flatMap bytes).length := by
      rw [length_flatMap_bytes sized, ← Nat.div_lt_iff_lt_mul positive]
      exact tooSmall
    rw [if_neg tooSmall, if_neg tooSmall, sink_bind_apply, write_apply, if_neg fits]
    rfl

theorem doWriteOf_accounts (positive : 0 < size) (sized : ∀ value, (bytes value).length = size)
    (values : List α) (sink : BlockDataSink) :
    Accounts values.length (doWriteOf size bytes values sink).1 := by
  rw [doWriteOf_fst positive sized]
  split
  · exact ⟨.inr rfl, fun _ => rfl⟩
  · exact ⟨.inl rfl, fun short => absurd short (Nat.lt_irrefl _)⟩

theorem one_le_doWriteOf_iff (positive : 0 < size) (sized : ∀ value, (bytes value).length = size)
    (values : List α) (sink : BlockDataSink) :
    1 ≤ (doWriteOf size bytes values sink).1.2 ↔
      ∃ first rest, values = first :: rest ∧ size ≤ sink.remainingSize := by
  have oneFits : 1 ≤ sink.remainingSize / size ↔ size ≤ sink.remainingSize := by
    rw [Nat.le_div_iff_mul_le positive, Nat.one_mul]
  rw [doWriteOf_fst positive sized]
  cases values with
  | nil =>
      constructor
      · intro some
        exact absurd some (by simp)
      · rintro ⟨first, rest, valuesEq, _⟩
        cases valuesEq
  | cons first rest =>
      rw [exists_first_iff, ← oneFits]
      split
      · exact Iff.rfl
      · rename_i enough
        rw [List.length_cons] at enough ⊢
        omega

end Bytes

/-- The strings are counted one by one, up to one whose length does not fit. -/
theorem doWriteStringsFrom_accounts (strs : List Block) (done : Nat) (sink : BlockDataSink) :
    Accounts (done + strs.length) (doWriteStringsFrom done strs sink).1 ∧
      done ≤ (doWriteStringsFrom done strs sink).1.2 := by
  induction strs generalizing done sink with
  | nil => exact ⟨⟨.inl rfl, fun short => absurd short (Nat.lt_irrefl _)⟩, Nat.le_refl _⟩
  | cons str strs ih =>
      have sized := doWriteSize_apply str.length sink
      rw [doWriteStringsFrom, sink_bind_apply]
      by_cases tooSmall : sink.remainingSize < 8
      · rw [if_pos tooSmall] at sized
        rw [sized]
        dsimp only
        rw [isEmpty_incomplete, if_neg Bool.false_ne_true]
        exact ⟨⟨.inr rfl, fun _ => rfl⟩, Nat.le_refl _⟩
      · rw [if_neg tooSmall] at sized
        rw [sized]
        dsimp only
        rw [if_pos ((Bitfield.isEmpty_iff _).mpr rfl), sink_bind_apply]
        rcases ih (done + 1)
          (write str (sink.store (sizeBytes str.length))).2 with ⟨accounts, counted⟩
        rw [List.length_cons, Nat.add_comm strs.length, ← Nat.add_assoc]
        exact ⟨accounts, Nat.le_of_succ_le counted⟩

theorem one_le_doWriteStrings_iff (strs : List Block) (sink : BlockDataSink) :
    1 ≤ (doWriteStrings strs sink).1.2 ↔
      ∃ first rest, strs = first :: rest ∧ 8 ≤ sink.remainingSize := by
  cases strs with
  | nil =>
      constructor
      · intro some
        exact absurd (show 1 ≤ 0 from some) (by decide)
      · rintro ⟨first, rest, strsEq, _⟩
        cases strsEq
  | cons str strs =>
      have sized := doWriteSize_apply str.length sink
      rw [exists_first_iff, doWriteStrings, doWriteStringsFrom, sink_bind_apply]
      by_cases tooSmall : sink.remainingSize < 8
      · rw [if_pos tooSmall] at sized
        rw [sized]
        dsimp only
        rw [isEmpty_incomplete, if_neg Bool.false_ne_true]
        exact iff_of_false (by simp) (Nat.not_le.mpr tooSmall)
      · rw [if_neg tooSmall] at sized
        rw [sized]
        dsimp only
        rw [if_pos ((Bitfield.isEmpty_iff _).mpr rfl), sink_bind_apply]
        exact iff_of_true (doWriteStringsFrom_accounts strs (0 + 1) _).2
          (Nat.le_of_not_lt tooSmall)

end Fast

/-- The `do_write` of a backend for the values of a plain type, and what it takes to write one of
them. -/
inductive PlainWriter :
    {α : Type} → (List α → SinkM (SerializationErrors × Nat)) → (α → Nat) → Prop where
  | portable (leaf : PortableLeaf) :
      PlainWriter (Portable.serializer.write leaf)
        fun value => (Portable.leafText leaf value).length + 1
  | portableDeclName :
      PlainWriter (Portable.doWrite Portable.declNameWriteOne) fun name => name.length + 1
  | portableString :
      PlainWriter Portable.serializer.writeStrings
        fun str => (Portable.stringText str).length + 1
  | fast {α : Type} {size : Nat} {bytes : α → Block} (positive : 0 < size)
      (sized : ∀ value, (bytes value).length = size) :
      PlainWriter (Fast.doWriteOf size bytes) fun _ => size
  | fastString : PlainWriter Fast.serializer.writeStrings fun _ => 8

/-- The assertions hold exactly if there is a first value, and room for it. -/
theorem assertionsHold_write_iff {α : Type} {write : List α → SinkM (SerializationErrors × Nat)}
    {need : α → Nat} (writer : PlainWriter write need) (values : List α) (sink : BlockDataSink) :
    assertionsHold values.length (write values sink).1 = true ↔
      ∃ first rest, values = first :: rest ∧ need first ≤ sink.remainingSize := by
  cases writer with
  | portable leaf =>
      have accounts := Portable.doWrite_accounts (Portable.writeOne_eq leaf) values sink
      exact accounts.assertionsHold_iff.trans
        (Portable.one_le_doWrite_iff (Portable.writeOne_eq leaf) values sink)
  | portableDeclName =>
      have writeOneEq : ∀ name, Portable.declNameWriteOne name = write name :=
        fun _ => rfl
      have accounts := Portable.doWrite_accounts writeOneEq values sink
      exact accounts.assertionsHold_iff.trans
        (Portable.one_le_doWrite_iff writeOneEq values sink)
  | portableString =>
      have accounts := Portable.doWrite_accounts Portable.stringWriteOne_eq values sink
      exact accounts.assertionsHold_iff.trans
        (Portable.one_le_doWrite_iff Portable.stringWriteOne_eq values sink)
  | fast positive sized =>
      have accounts := Fast.doWriteOf_accounts positive sized values sink
      exact accounts.assertionsHold_iff.trans
        (Fast.one_le_doWriteOf_iff positive sized values sink)
  | fastString =>
      have accounts := (Fast.doWriteStringsFrom_accounts values 0 sink).1
      rw [Nat.zero_add] at accounts
      exact accounts.assertionsHold_iff.trans (Fast.one_le_doWriteStrings_iff values sink)

/-- There is room for two of the truth values and their delimiters. -/
theorem assertionsHold_write_true :
    assertionsHold 4 (Portable.serializer.write (.scalar .bool) [true, false, false, true]
        (.ofSize 5)).1 = true ↔
      ∃ first rest, [true, false, false, true] = first :: rest ∧
        (Portable.leafText (.scalar .bool) first).length + 1 ≤
          (ofSize 5).remainingSize :=
  assertionsHold_write_iff (.portable (.scalar .bool)) [true, false, false, true] (.ofSize 5)

/-- No values at all. -/
theorem not_forall_assertionsHold :
    ¬∀ (leaf : PortableLeaf) (values : List (Leaf.Rep leaf)) (capacity : Nat),
      assertionsHold values.length
        (Portable.serializer.write leaf values (.ofSize capacity)).1 = true := by
  intro holds
  exact absurd (holds (.scalar .bool) [] 16) (by decide)

end Eagine.Serialization
