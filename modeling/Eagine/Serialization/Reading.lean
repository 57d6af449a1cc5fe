import Eagine.Serialization.Implementation
import Eagine.Serialization.Read
import Eagine.Theory.Payload

/-!
# What a read operation accepts

`Reads operation payload acceptable result` is the contract of every read
operation over a block source.  On a source that starts with the payload the
operation consumes the payload and yields the result, if the result is
acceptable to the backend at all; it runs out of data if the result is not
acceptable, and also if the source ends inside the loose end of the payload.
-/

namespace Eagine.Serialization

open Theory

/-- Results that carry an error report. -/
class Reported (ρ : Type) where
  report : ρ → DeserializationErrors

instance : Reported DeserializationErrors where
  report errors := errors

instance {α : Type} : Reported (DeserializationErrors × α) where
  report result := result.1

/-- The operation reports that there is not enough data. -/
def Starves {ρ : Type} [Reported ρ] (operation : SourceM ρ) (source : BlockDataSource) : Prop :=
  ∃ result after, operation source = some (result, after) ∧
    (Reported.report result).has .notEnoughData = true

structure Reads {ρ : Type} [Reported ρ] (operation : SourceM ρ) (payload : Payload UInt8)
    (acceptable : Prop) (result : ρ) : Prop where
  accept : acceptable → ∀ (source : BlockDataSource) (rest : Block),
    source.remaining = payload.elems ++ rest →
      operation source = some (result, source.pop payload.length)
  reject : ¬acceptable → ∀ (source : BlockDataSource) (rest : Block),
    source.remaining = payload.elems ++ rest → Starves operation source
  cut : ∀ (source : BlockDataSource) (size : Nat),
    payload.need ≤ size → size < payload.length →
      source.remaining = payload.elems.take size → Starves operation source

variable {ρ τ : Type} [Reported ρ] [Reported τ]

theorem starves_pure {result : ρ} (flag : (Reported.report result).has .notEnoughData = true)
    (source : BlockDataSource) : Starves (pure result : SourceM ρ) source :=
  ⟨result, source, rfl, flag⟩

variable {next : ρ → SourceM τ} {source : BlockDataSource}

/-- What follows a starved operation starves as well, if it keeps the flag. -/
theorem Starves.bind {operation : SourceM ρ} (starves : Starves operation source)
    (stops : ∀ result, (Reported.report result).has .notEnoughData = true →
      ∀ after, Starves (next result) after) :
    Starves (operation >>= next) source := by
  rcases starves with ⟨result, after, run, flag⟩
  rcases stops result flag after with ⟨nextResult, nextAfter, nextRun, nextFlag⟩
  refine ⟨nextResult, nextAfter, ?_, nextFlag⟩
  rw [read_bind_apply, run]
  exact nextRun

/-- A starved read is no success. -/
theorem Starves.not_accepted {α : Type} {operation : SourceM (DeserializationErrors × α)}
    (starves : Starves operation source) {value : α} :
    ¬∃ after, operation source = some ((∅, value), after) := by
  rintro ⟨after, success⟩
  rcases starves with ⟨result, _, run, flag⟩
  rw [success] at run
  cases run
  exact not_has_empty flag

namespace Reads

variable {operation : SourceM ρ} {payload : Payload UInt8} {acceptable : Prop} {result : ρ}

theorem yield (result : ρ) : Reads (pure result : SourceM ρ) Payload.nil True result where
  accept _ _ _ _ := rfl
  reject unacceptable := absurd trivial unacceptable
  cut _ _ _ tooLong := absurd tooLong (Nat.not_lt_zero _)

/-- A read of an exact payload cannot be cut short. -/
theorem ofExact {bytes : Block}
    (accept : ∀ (source : BlockDataSource) (rest : Block), source.remaining = bytes ++ rest →
      operation source = some (result, source.pop bytes.length)) :
    Reads operation (.exact bytes) True result where
  accept _ source rest starts := accept source rest starts
  reject unacceptable := absurd trivial unacceptable
  cut _ _ enough tooShort := absurd tooShort (Nat.not_lt.mpr enough)

theorem congr {acceptable' : Prop} (reads : Reads operation payload acceptable result)
    (same : acceptable ↔ acceptable') : Reads operation payload acceptable' result :=
  propext same ▸ reads

variable {nextPayload : Payload UInt8}

/-- Sequencing: after the first payload the second operation reads the second
one, and after a starved operation it must keep the report. -/
theorem bind {nextAcceptable : Prop}
    {nextResult : τ} (first : Reads operation payload acceptable result)
    (second : Reads (next result) nextPayload nextAcceptable nextResult)
    (stops : ∀ result, (Reported.report result).has .notEnoughData = true →
      ∀ after, Starves (next result) after) :
    Reads (operation >>= next) (payload ++ nextPayload) (acceptable ∧ nextAcceptable)
      nextResult := by
  have reach : acceptable → ∀ (source : BlockDataSource) (tail : Block),
      source.remaining = payload.elems ++ tail →
        (operation >>= next) source = next result (source.pop payload.length) ∧
          (source.pop payload.length).remaining = tail := by
    intro accepted source tail starts
    constructor
    · rw [read_bind_apply, first.accept accepted source tail starts]
      rfl
    · rw [BlockDataSource.remaining_pop, starts, Payload.length, List.drop_left]
  have stuck : ¬acceptable → ∀ (source : BlockDataSource) (tail : Block),
      source.remaining = payload.elems ++ tail → Starves (operation >>= next) source := by
    intro unaccepted source tail starts
    exact (first.reject unaccepted source tail starts).bind stops
  constructor
  · rintro ⟨accepted, nextAccepted⟩ source rest starts
    rw [Payload.append_elems, List.append_assoc] at starts
    rcases reach accepted source _ starts with ⟨run, remaining⟩
    rw [run, second.accept nextAccepted _ rest remaining, BlockDataSource.pop_pop,
      Payload.length_append]
  · intro unaccepted source rest starts
    rw [Payload.append_elems, List.append_assoc] at starts
    by_cases accepted : acceptable
    · have nextUnaccepted : ¬nextAcceptable := fun nextAccepted =>
        unaccepted ⟨accepted, nextAccepted⟩
      rcases reach accepted source _ starts with ⟨run, remaining⟩
      unfold Starves
      rw [run]
      exact second.reject nextUnaccepted _ rest remaining
    · exact stuck accepted source _ starts
  · intro source size enough tooShort starts
    by_cases empty : nextPayload.elems = []
    · rw [Payload.append_of_nil empty] at enough tooShort starts
      exact (first.cut source size enough tooShort starts).bind stops
    · rw [Payload.need_append_of_ne_nil empty] at enough
      rw [Payload.length_append] at tooShort
      rw [Payload.append_elems, List.take_append,
        List.take_of_length_le (by unfold Payload.length at enough; omega)] at starts
      by_cases accepted : acceptable
      · rcases reach accepted source _ starts with ⟨run, remaining⟩
        unfold Starves
        rw [run]
        apply second.cut _ (size - payload.length) (by omega) (by omega)
        exact remaining
      · exact stuck accepted source _ starts

/-- Sequencing after an operation every result of which is acceptable. -/
theorem after {nextResult : τ} (first : Reads operation payload True result)
    (second : Reads (next result) nextPayload acceptable nextResult)
    (stops : ∀ result, (Reported.report result).has .notEnoughData = true →
      ∀ after, Starves (next result) after) :
    Reads (operation >>= next) (payload ++ nextPayload) acceptable nextResult :=
  (first.bind second stops).congr (iff_of_eq (true_and acceptable))

/-- Postprocessing that keeps the report. -/
theorem map {f : ρ → τ} {mapped : τ} (reads : Reads operation payload acceptable result)
    (keeps : ∀ result, Reported.report (f result) = Reported.report result)
    (yields : f result = mapped) :
    Reads (do let result ← operation; pure (f result)) payload acceptable mapped := by
  have sequence : Reads (do let result ← operation; pure (f result)) (payload ++ .nil)
      (acceptable ∧ True) mapped := by
    apply reads.bind (yields ▸ yield (f result))
    intro other flag after
    exact starves_pure ((keeps other).symm ▸ flag) after
  rw [Payload.append_nil] at sequence
  exact sequence.congr (iff_of_eq (and_true acceptable))

end Reads

variable {errors : DeserializationErrors}

theorem isEmpty_eq_false_of_has
    (flag : errors.has .notEnoughData = true) : errors.isEmpty = false := by
  rw [Bitfield.isEmpty_eq_false_iff]
  exact ne_empty_of_has_notEnoughData flag

/-- What goes on only without errors stops with those that there are. -/
theorem starves_stopped (flag : errors.has .notEnoughData = true) {next : SourceM ρ} {result : ρ}
    (keeps : Reported.report result = errors) (source : BlockDataSource) :
    Starves (if errors.isEmpty then next else pure result) source := by
  simp only [isEmpty_eq_false_of_has flag, Bool.false_eq_true, if_false]
  exact starves_pure (keeps.symm ▸ flag) source

/-- A loop over values reads them in a row. -/
theorem doReadFrom_reads {α : Type} {readOne : α → SourceM (DeserializationErrors × α)}
    {encodeOne : α → Payload UInt8} (values targets : List α)
    (sameLength : targets.length = values.length)
    (reads : ∀ value ∈ values, ∀ target,
      Reads (readOne target) (encodeOne value) True (∅, value)) (done : Nat) :
    Reads (doReadFrom readOne done targets) (.concat (values.map encodeOne)) True
      (∅, values, done + values.length) := by
  induction values generalizing targets done with
  | nil =>
      rw [List.eq_nil_of_length_eq_zero sameLength]
      exact Reads.yield _
  | cons value values ih =>
      rcases targets with _ | ⟨target, targets⟩
      · cases sameLength
      have headReads := reads value List.mem_cons_self target
      have tailReads := ih targets (Nat.succ.inj sameLength)
        (fun other mem => reads other (List.mem_cons_of_mem value mem)) (done + 1)
      rw [List.map_cons, Payload.concat_cons]
      unfold doReadFrom
      apply headReads.after
      · apply tailReads.map
          (f := fun result => (result.1, value :: result.2.1, result.2.2)) (fun _ => rfl)
        simp [Nat.add_assoc, Nat.add_comm 1]
      · rintro ⟨errors, read⟩ flag after
        change errors.has .notEnoughData = true at flag
        exact starves_stopped flag rfl after

/-- The values that a loop reads, without their number. -/
theorem readValues_reads {α : Type} {readOne : α → SourceM (DeserializationErrors × α)}
    {encodeOne : α → Payload UInt8} (values targets : List α)
    (sameLength : targets.length = values.length)
    (reads : ∀ value ∈ values, ∀ target,
      Reads (readOne target) (encodeOne value) True (∅, value)) :
    Reads (do let result ← doReadFrom readOne 0 targets; pure (result.1, result.2.1))
      (.concat (values.map encodeOne)) True (∅, values) :=
  (doReadFrom_reads values targets sameLength reads 0).map
    (f := fun result => (result.1, result.2.1)) (fun _ => rfl) rfl

end Eagine.Serialization
