import Eagine.Serialization.Write
import Eagine.Theory.Payload

/-!
# What a write operation emits

`Emits operation payload` is the contract of every write operation over a block
sink: it stores the payload and reports success exactly when the sink has the
room the payload needs, and reports an incomplete write otherwise.  After a
success no transaction is open that was not open before; after a failure the
operation may leave its own transactions open, but never closes a foreign one.
-/

namespace Eagine.Serialization

open Theory

/-- The operation ends in an incomplete-write report and closes no transaction
of its caller. -/
def Fails (operation : SinkM SerializationErrors) (sink : BlockDataSink) : Prop :=
  (operation sink).1 = incomplete ∧
    ∃ opened, (operation sink).2.savePoints = opened ++ sink.savePoints

structure Emits (operation : SinkM SerializationErrors) (payload : Payload UInt8) : Prop where
  fit : ∀ sink : BlockDataSink, payload.need ≤ sink.remainingSize →
    operation sink = (∅, sink.store payload.elems)
  short : ∀ sink : BlockDataSink, sink.remainingSize < payload.need → Fails operation sink

namespace Emits

variable {operation first : SinkM SerializationErrors} {payload firstPayload : Payload UInt8}

theorem nothing : Emits (pure ∅) Payload.nil where
  fit sink _ := by simp
  short sink tooSmall := absurd tooSmall (Nat.not_lt_zero _)

/-- Success is reported exactly when there is room. -/
theorem errors_eq_empty_iff (emits : Emits operation payload) (sink : BlockDataSink) :
    (operation sink).1 = ∅ ↔ payload.need ≤ sink.remainingSize := by
  constructor
  · intro success
    by_contra tooSmall
    have failed := (emits.short sink (Nat.lt_of_not_le tooSmall)).1
    exact incomplete_ne_empty (failed.symm.trans success)
  · intro room
    rw [emits.fit sink room]

/-- Whatever the room, the report is empty or an incomplete write, and no
transaction of the caller is closed. -/
theorem outcome (emits : Emits operation payload) (sink : BlockDataSink) :
    ((operation sink).1 = ∅ ∨ (operation sink).1 = incomplete) ∧
      ∃ opened, (operation sink).2.savePoints = opened ++ sink.savePoints := by
  rcases Nat.lt_or_ge sink.remainingSize payload.need with tooSmall | room
  · have failed := emits.short sink tooSmall
    exact ⟨Or.inr failed.1, failed.2⟩
  · rw [emits.fit sink room]
    exact ⟨Or.inl rfl, [], rfl⟩

/-- A success is a complete write, unless the end of the payload that is cut off
is a part of its loose end. -/
theorem complete_iff (emits : Emits operation payload) (sink : BlockDataSink) :
    ((operation sink).1 = ∅ → (operation sink).2.written = sink.written ++ payload.elems) ↔
      payload.length ≤ sink.remainingSize ∨ sink.remainingSize < payload.need := by
  rw [emits.errors_eq_empty_iff]
  constructor
  · intro complete
    rcases Nat.lt_or_ge sink.remainingSize payload.need with tooSmall | room
    · exact Or.inr tooSmall
    · have written := complete room
      rw [emits.fit sink room, BlockDataSink.store_written, List.append_cancel_left_eq,
        List.take_eq_self_iff] at written
      exact Or.inl written
  · intro enough room
    rcases enough with allFits | tooSmall
    · rw [emits.fit sink room, BlockDataSink.store_written_of_le allFits]
    · exact absurd room (Nat.not_le.mpr tooSmall)

/-- Sequencing: what follows a success emits its own payload, and what follows
a failure must not lose the failure. -/
theorem bind {next : SerializationErrors → SinkM SerializationErrors}
    {nextPayload : Payload UInt8} (firstEmits : Emits first firstPayload)
    (nextEmits : Emits (next ∅) nextPayload)
    (stops : ∀ sink, Fails (next incomplete) sink) :
    Emits (first >>= next) (firstPayload ++ nextPayload) := by
  constructor
  · intro sink room
    rcases Payload.need_le_of_append room with ⟨firstRoom, nextRoom⟩
    rw [sink_bind_apply, firstEmits.fit sink firstRoom,
      nextEmits.fit _ (by simpa [Payload.length] using nextRoom),
      BlockDataSink.store_store, Payload.append_elems]
  · intro sink tooSmall
    rcases Payload.lt_need_of_append tooSmall with firstSmall | ⟨firstRoom, nextSmall⟩
    · rcases firstEmits.short sink firstSmall with ⟨report, opened, openedEq⟩
      rcases stops (first sink).2 with ⟨nextReport, nextOpened, nextOpenedEq⟩
      refine ⟨?_, nextOpened ++ opened, ?_⟩
      · rw [sink_bind_apply, report]
        exact nextReport
      · rw [sink_bind_apply, report, nextOpenedEq, openedEq, List.append_assoc]
    · have failed := nextEmits.short (sink.store firstPayload.elems)
        (by simpa [Payload.length] using nextSmall)
      unfold Fails at failed ⊢
      rw [sink_bind_apply, firstEmits.fit sink firstRoom]
      exact failed

end Emits

theorem fails_pure (sink : BlockDataSink) : Fails (pure incomplete) sink :=
  ⟨rfl, [], rfl⟩

/-- Adding the report of a further operation to a failure keeps the failure. -/
theorem Emits.fails_merge {operation : SinkM SerializationErrors} {payload : Payload UInt8}
    (emits : Emits operation payload) (sink : BlockDataSink) :
    Fails (do let more ← operation; pure (incomplete ||| more)) sink := by
  rcases emits.outcome sink with ⟨report, opened⟩
  refine ⟨?_, opened⟩
  rw [sink_bind_apply]
  rcases report with success | failure
  · rw [success]
    rfl
  · rw [failure]
    rfl

/-- Two operations in a row whose reports are merged. -/
theorem Emits.merge {first second : SinkM SerializationErrors}
    {firstPayload secondPayload : Payload UInt8}
    (firstEmits : Emits first firstPayload) (secondEmits : Emits second secondPayload) :
    Emits (do let errors ← first; let more ← second; pure (errors ||| more))
      (firstPayload ++ secondPayload) := by
  apply firstEmits.bind
  · have same : (do let more ← second; pure ((∅ : SerializationErrors) ||| more)) = second := by
      funext sink
      simp
    rw [same]
    exact secondEmits
  · exact secondEmits.fails_merge

/-- An operation that runs only after the success of another one. -/
theorem Emits.guard {first second : SinkM SerializationErrors}
    {firstPayload secondPayload : Payload UInt8}
    (firstEmits : Emits first firstPayload) (secondEmits : Emits second secondPayload) :
    Emits (do let errors ← first; if errors.isEmpty then second else pure errors)
      (firstPayload ++ secondPayload) := by
  apply firstEmits.bind
  · simpa using secondEmits
  · intro sink
    simpa using fails_pure sink

/-- The write of a single block loses nothing silently. -/
theorem emits_write (blk : Block) : Emits (BlockDataSink.write blk) (.exact blk) where
  fit sink room := by
    rw [Payload.need_exact] at room
    rw [BlockDataSink.write_apply, if_neg (Nat.not_lt.mpr room)]
    rfl
  short sink tooSmall := by
    rw [Payload.need_exact] at tooSmall
    unfold Fails
    rw [BlockDataSink.write_apply, if_pos tooSmall]
    exact ⟨rfl, [], rfl⟩

end Eagine.Serialization
