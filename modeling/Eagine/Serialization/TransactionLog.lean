import Eagine.Serialization.IOStream
import Eagine.Theory.Refinement

/-!
# Transactional sinks as logs

A block sink with room for the data of a sequence of calls holds what is written
and not rolled back.  A stream sink delivers the same and reports the same as
long as nothing is written, and no data are committed, where the commit of an
empty transaction has made the stream fail.
-/

open List

namespace Eagine.Serialization

open BlockDataSink

namespace Script

theorem length_data_le_peak (script : Script) : script.data.length ≤ script.peak := by
  induction script with
  | done => exact Nat.le_refl 0
  | write data rest ih =>
      rw [Script.data, peak, length_append]
      exact Nat.add_le_add_left ih _
  | committed body rest _ ih =>
      rw [Script.data, peak, length_append]
      exact (Nat.add_le_add_left ih _).trans (Nat.le_max_right _ _)
  | rolledBack body rest _ ih =>
      rw [Script.data, peak]
      exact ih.trans (Nat.le_max_right _ _)

section Calls

variable {σ : Type} (sink : DataSink σ)

theorem run_write (data : Block) (rest : Script) (state : σ) :
    (Script.write data rest).run sink state =
      ((sink.write data state).1 :: (rest.run sink (sink.write data state).2).1,
        (rest.run sink (sink.write data state).2).2) :=
  rfl

/-- The state in which the calls of a transaction end. -/
def afterBody (body : Script) (state : σ) : List SerializationErrors × σ :=
  body.run sink (sink.beginWork state).2

theorem run_committed (body rest : Script) (state : σ) :
    (Script.committed body rest).run sink state =
      ((afterBody sink body state).1 ++
        (rest.run sink (sink.commit (sink.beginWork state).1 (afterBody sink body state).2).2).1,
        (rest.run sink
          (sink.commit (sink.beginWork state).1 (afterBody sink body state).2).2).2) :=
  rfl

theorem run_rolledBack (body rest : Script) (state : σ) :
    (Script.rolledBack body rest).run sink state =
      ((afterBody sink body state).1 ++
        (rest.run sink (sink.rollback (sink.beginWork state).1 (afterBody sink body state).2).2).1,
        (rest.run sink
          (sink.rollback (sink.beginWork state).1 (afterBody sink body state).2).2).2) :=
  rfl

end Calls

/-- The sink with another save point. -/
def opened (sink : BlockDataSink) : BlockDataSink :=
  (BlockDataSink.beginWork sink).2

theorem commit_opened (sink : BlockDataSink) (data : Block) (handle : Nat) :
    (BlockDataSink.commit handle ((opened sink).store data)).2 = sink.store data :=
  rfl

theorem rollback_opened (sink : BlockDataSink) (data : Block) (handle : Nat) :
    (BlockDataSink.rollback handle ((opened sink).store data)).2 = sink := by
  have rewound : ((opened sink).store data).written.take sink.written.length = sink.written :=
    take_left
  ext1
  · rfl
  · exact rewound
  · rfl

/-- A block sink with enough room accepts every write and holds the data. -/
theorem run_blockDataSink (script : Script) (sink : BlockDataSink)
    (fits : script.peak ≤ sink.remainingSize) :
    script.run blockDataSink sink =
      (List.replicate script.writeCount ∅, sink.store script.data) := by
  induction script generalizing sink with
  | done =>
      rw [Script.data, store_nil]
      rfl
  | write data rest ih =>
      rw [peak] at fits
      have written : blockDataSink.write data sink = (∅, sink.store data) := by
        have applied := write_apply data sink
        rwa [if_neg (by omega)] at applied
      have restRun := ih (sink.store data) (by
        rw [remainingSize_store]
        omega)
      rw [store_store] at restRun
      rw [run_write, written, restRun]
      rfl
  | committed body rest bodyIh restIh =>
      rw [peak, max_le_iff] at fits
      have bodyRun : afterBody blockDataSink body sink = _ := bodyIh (opened sink) fits.1
      have restRun := restIh (sink.store body.data) (by
        rw [remainingSize_store]
        omega)
      have closed : (blockDataSink.commit (blockDataSink.beginWork sink).1
          ((opened sink).store body.data)).2 = sink.store body.data :=
        commit_opened sink body.data 0
      rw [store_store] at restRun
      rw [run_committed, bodyRun, closed, restRun, writeCount, replicate_add]
      rfl
  | rolledBack body rest bodyIh restIh =>
      rw [peak, max_le_iff] at fits
      have bodyRun : afterBody blockDataSink body sink = _ := bodyIh (opened sink) fits.1
      have closed : (blockDataSink.rollback (blockDataSink.beginWork sink).1
          ((opened sink).store body.data)).2 = sink := rollback_opened sink body.data 0
      rw [run_rolledBack, bodyRun, closed, restIh sink fits.2, writeCount, replicate_add]
      rfl

/-- The reports of the calls on a stream, and what is inserted into it.  The
stream is sealed when it has failed. -/
structure Delivery (script : Script) (sealed : Bool) (reports : List SerializationErrors)
    (delivered : Block) : Prop where
  length : reports.length = script.writeCount
  accepted : (∀ errors ∈ reports, errors.isEmpty = true) ↔ script.accepted sealed = true
  atMost : delivered.length ≤ script.data.length
  complete : delivered = script.data ↔ script.complete sealed = true
  nothing : delivered.isEmpty = (sealed || !script.delivers)

theorem isEmpty_append (first second : Block) :
    (first ++ second).isEmpty = (first.isEmpty && second.isEmpty) := by
  cases first <;> rfl

theorem delivery_done (sealed : Bool) : Delivery done sealed [] [] := by
  constructor
  case length => rfl
  case accepted => simp [accepted]
  case atMost => exact Nat.le_refl 0
  case complete => simp [Script.data, complete]
  case nothing => simp [delivers]

variable {sealed : Bool}

/-- A write to a stream. -/
theorem delivery_write {data : Block} {rest : Script}
    {errors : SerializationErrors} {reports : List SerializationErrors} {delivered : Block}
    (success : errors.isEmpty = !sealed) (restDelivery : Delivery rest sealed reports delivered) :
    Delivery (write data rest) sealed (errors :: reports)
      ((if sealed then [] else data) ++ delivered) := by
  have atMost : (if sealed then [] else data).length ≤ data.length := by
    split
    · exact Nat.zero_le _
    · exact Nat.le_refl _
  constructor
  case length => exact congrArg (· + 1) restDelivery.length
  case accepted =>
      rw [forall_mem_cons, restDelivery.accepted, success, Script.accepted,
        Bool.and_eq_true]
  case atMost =>
      rw [Script.data, length_append, length_append]
      exact Nat.add_le_add atMost restDelivery.atMost
  case complete =>
      rw [Script.data, Theory.append_eq_append_iff_of_le atMost restDelivery.atMost,
        restDelivery.complete, Script.complete, Bool.and_eq_true]
      cases sealed
      · simp
      · simp
  case nothing =>
      rw [isEmpty_append, restDelivery.nothing, delivers]
      cases sealed
      · simp
      · simp

variable {inner outer : List SerializationErrors}

/-- A transaction that is committed into a stream. -/
theorem delivery_committed {body rest : Script} {top delivered : Block}
    (bodyDelivery : Delivery body false inner top)
    (restDelivery : Delivery rest (sealed || top.isEmpty) outer delivered) :
    Delivery (committed body rest) sealed (inner ++ outer)
      ((if sealed then [] else top) ++ delivered) := by
  have atMost : (if sealed then [] else top).length ≤ body.data.length := by
    split
    · exact Nat.zero_le _
    · exact bodyDelivery.atMost
  have topNothing : top.isEmpty = !body.delivers := bodyDelivery.nothing
  rw [topNothing] at restDelivery
  constructor
  case length =>
      rw [length_append, bodyDelivery.length, restDelivery.length]
      rfl
  case accepted =>
      rw [forall_mem_append, bodyDelivery.accepted, restDelivery.accepted, Script.accepted,
        Bool.and_eq_true]
  case atMost =>
      rw [Script.data, length_append, length_append]
      exact Nat.add_le_add atMost restDelivery.atMost
  case complete =>
      rw [Script.data, Theory.append_eq_append_iff_of_le atMost restDelivery.atMost,
        restDelivery.complete, Script.complete, Bool.and_eq_true]
      cases sealed
      · simp [bodyDelivery.complete]
      · simp
  case nothing =>
      rw [isEmpty_append, restDelivery.nothing, delivers]
      cases sealed
      · simp only [Bool.false_eq_true, if_false, topNothing, Bool.false_or]
        cases body.delivers <;> simp
      · simp

/-- A transaction that is rolled back. -/
theorem delivery_rolledBack {body rest : Script} {top delivered : Block}
    (bodyDelivery : Delivery body false inner top)
    (restDelivery : Delivery rest sealed outer delivered) :
    Delivery (rolledBack body rest) sealed (inner ++ outer) delivered := by
  constructor
  case length =>
      rw [length_append, bodyDelivery.length, restDelivery.length]
      rfl
  case accepted =>
      rw [forall_mem_append, bodyDelivery.accepted, restDelivery.accepted, Script.accepted,
        Bool.and_eq_true]
  case atMost => exact restDelivery.atMost
  case complete => exact restDelivery.complete
  case nothing => exact restDelivery.nothing

end Script

namespace OstreamDataSink

@[simp]
theorem current_update (sink : OstreamDataSink) (stream : OStream) :
    (sink.update stream).current = stream := by
  obtain ⟨out, subs⟩ := sink
  cases subs <;> rfl

@[simp]
theorem update_update (sink : OstreamDataSink) (first second : OStream) :
    (sink.update first).update second = sink.update second := by
  obtain ⟨out, subs⟩ := sink
  cases subs <;> rfl

theorem commit_opened (sink : OstreamDataSink) (top : OStream) (handle : Nat) :
    (commit handle ((beginWork sink).2.update top)).2 =
      sink.update (sink.current.insertBuffer top.content) :=
  rfl

theorem rollback_opened (sink : OstreamDataSink) (top : OStream) (handle : Nat) :
    (rollback handle ((beginWork sink).2.update top)).2 = sink :=
  rfl

/-- A stream that has at most failed, with more characters. -/
def streamOf (content : Block) (failed : Bool) : OStream where
  content := content
  failbit := failed

theorem good_streamOf (content : Block) (failed : Bool) :
    (streamOf content failed).good = !failed := by
  cases failed <;> rfl

theorem write_streamOf (content data : Block) (failed : Bool) :
    (streamOf content failed).write data =
      streamOf (content ++ if failed then [] else data) failed := by
  cases failed
  · rfl
  · exact (congrArg (streamOf · true) (append_nil content)).symm

theorem insertBuffer_streamOf (content buffer : Block) (failed : Bool) :
    (streamOf content failed).insertBuffer buffer =
      streamOf (content ++ if failed then [] else buffer) (failed || buffer.isEmpty) := by
  cases failed
  · cases buffer with
    | nil => exact (congrArg (streamOf · true) (append_nil content)).symm
    | cons first rest => rfl
  · exact (congrArg (streamOf · true) (append_nil content)).symm

/-- The report of a write tells whether the stream has failed. -/
theorem write_update_streamOf (sink : OstreamDataSink) (content data : Block) (failed : Bool) :
    write data (sink.update (streamOf content failed)) =
      (if failed then .ofBit .dataSinkError else ∅,
        sink.update (streamOf (content ++ if failed then [] else data) failed)) := by
  have notEof : (streamOf (content ++ if failed then [] else data) failed).eofbit = false := rfl
  simp only [write, current_update, update_update, write_streamOf, good_streamOf, notEof]
  cases failed <;> rfl

end OstreamDataSink

namespace Script

open OstreamDataSink

/-- The calls of a script on a stream insert what they deliver. -/
theorem run_ostreamDataSink (script : Script) (sink : OstreamDataSink) (content : Block)
    (failed : Bool) :
    ∃ reports delivered after,
      script.run ostreamDataSink (sink.update (streamOf content failed)) =
        (reports, sink.update (streamOf (content ++ delivered) after)) ∧
      Delivery script failed reports delivered := by
  induction script generalizing sink content failed with
  | done =>
      refine ⟨[], [], failed, ?_, delivery_done failed⟩
      rw [append_nil]
      rfl
  | write data rest ih =>
      have written : ostreamDataSink.write data (sink.update (streamOf content failed)) = _ :=
        write_update_streamOf sink content data failed
      obtain ⟨reports, delivered, after, restRun, restDelivery⟩ :=
        ih sink (content ++ if failed then [] else data) failed
      have success : (if failed then .ofBit .dataSinkError else ∅ : SerializationErrors).isEmpty =
          !failed := by
        cases failed <;> decide
      refine ⟨_, _, after, ?_, delivery_write success restDelivery⟩
      rw [run_write, written, restRun, append_assoc]
  | committed body rest bodyIh restIh =>
      let outer := sink.update (streamOf content failed)
      obtain ⟨inner, top, topFailed, bodyRun, bodyDelivery⟩ :=
        bodyIh (beginWork outer).2 [] false
      have bodyAfter : afterBody ostreamDataSink body outer =
          (inner, (beginWork outer).2.update (streamOf ([] ++ top) topFailed)) := bodyRun
      have closed : (ostreamDataSink.commit (ostreamDataSink.beginWork outer).1
          ((beginWork outer).2.update (streamOf ([] ++ top) topFailed))).2 =
          sink.update (streamOf (content ++ if failed then [] else top)
            (failed || top.isEmpty)) := by
        have inserted := OstreamDataSink.commit_opened outer (streamOf ([] ++ top) topFailed)
          (beginWork outer).1
        rw [current_update, update_update] at inserted
        exact inserted.trans (congrArg sink.update (insertBuffer_streamOf content top failed))
      obtain ⟨reports, delivered, after, restRun, restDelivery⟩ :=
        restIh sink (content ++ if failed then [] else top) (failed || top.isEmpty)
      refine ⟨_, _, after, ?_, delivery_committed bodyDelivery restDelivery⟩
      rw [run_committed, bodyAfter, closed, restRun, append_assoc]
  | rolledBack body rest bodyIh restIh =>
      let outer := sink.update (streamOf content failed)
      obtain ⟨inner, top, topFailed, bodyRun, bodyDelivery⟩ :=
        bodyIh (beginWork outer).2 [] false
      have bodyAfter : afterBody ostreamDataSink body outer =
          (inner, (beginWork outer).2.update (streamOf ([] ++ top) topFailed)) := bodyRun
      have closed : (ostreamDataSink.rollback (ostreamDataSink.beginWork outer).1
          ((beginWork outer).2.update (streamOf ([] ++ top) topFailed))).2 = outer :=
        OstreamDataSink.rollback_opened outer _ 0
      obtain ⟨reports, delivered, after, restRun, restDelivery⟩ := restIh sink content failed
      refine ⟨_, _, after, ?_, delivery_rolledBack bodyDelivery restDelivery⟩
      rw [run_rolledBack, bodyAfter, closed, restRun]

theorem map_isEmpty_eq_replicate (reports : List SerializationErrors) (count : Nat)
    (sameLength : reports.length = count) :
    reports.map Bitfield.isEmpty = List.replicate count true ↔
      ∀ errors ∈ reports, errors.isEmpty = true := by
  rw [eq_replicate_iff, length_map]
  constructor
  · rintro ⟨_, allTrue⟩ errors mem
    exact allTrue _ (mem_map_of_mem mem)
  · intro success
    refine ⟨sameLength, ?_⟩
    intro flag mem
    obtain ⟨errors, errorsMem, rfl⟩ := mem_map.mp mem
    exact success errors errorsMem

/-- A block sink with enough room and a stream sink have the same log, and report
the same success of all writes, exactly when no write is made and no data are
committed after the commit of an empty transaction. -/
theorem sameLog_iff (script : Script) (capacity : Nat) (fits : script.peak ≤ capacity)
    (before : Block) :
    let block := script.run blockDataSink (.ofSize capacity)
    let stream := script.run ostreamDataSink ⟨{ content := before }, []⟩
    (stream.2.out.content = before ++ block.2.written ∧
        stream.1.map Bitfield.isEmpty = block.1.map Bitfield.isEmpty) ↔
      (script.accepted false && script.complete false) = true := by
  have room : (BlockDataSink.ofSize capacity).remainingSize = capacity :=
    remainingSize_ofSize capacity
  have dataFit : script.data.length ≤ (BlockDataSink.ofSize capacity).remainingSize :=
    (length_data_le_peak script).trans (room ▸ fits)
  have blockRun := run_blockDataSink script (.ofSize capacity) (room ▸ fits)
  obtain ⟨reports, delivered, after, streamRun, delivery⟩ :=
    run_ostreamDataSink script ⟨{ content := before }, []⟩ before false
  have streamRun : script.run ostreamDataSink ⟨{ content := before }, []⟩ =
      (reports, ⟨streamOf (before ++ delivered) after, []⟩) := streamRun
  have blockReports : (List.replicate script.writeCount (∅ : SerializationErrors)).map
      Bitfield.isEmpty = List.replicate script.writeCount true := by
    rw [map_replicate]
    rfl
  simp only [blockRun, streamRun, blockReports, store_written_of_le dataFit]
  rw [map_isEmpty_eq_replicate reports _ delivery.length, delivery.accepted, Bool.and_eq_true,
    and_comm]
  apply and_congr_right'
  rw [← delivery.complete]
  exact append_right_inj before

/-- Data in a committed transaction within a transaction that is rolled back. -/
theorem sameLog_nested :
    let script := committed (write [97] (rolledBack (write [98] done) done)) (write [99] done)
    let block := script.run blockDataSink (.ofSize 2)
    let stream := script.run ostreamDataSink ⟨{ content := [] }, []⟩
    (stream.2.out.content = [] ++ block.2.written ∧
        stream.1.map Bitfield.isEmpty = block.1.map Bitfield.isEmpty) ↔
      (script.accepted false && script.complete false) = true :=
  sameLog_iff _ 2 (by decide) []

/-- After the commit of an empty transaction a write to the stream fails. -/
theorem differentLog_after_empty :
    let script := committed done (write [97] done)
    let block := script.run blockDataSink (.ofSize 1)
    let stream := script.run ostreamDataSink ⟨{ content := [] }, []⟩
    stream.2.out.content ≠ block.2.written ∧
      stream.1.map Bitfield.isEmpty ≠ block.1.map Bitfield.isEmpty := by
  constructor
  · decide
  · decide

end Script

end Eagine.Serialization
