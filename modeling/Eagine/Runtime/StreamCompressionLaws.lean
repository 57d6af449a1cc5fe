import Eagine.Runtime.StreamCompression
import Eagine.Theory.Refinement

/-!
# Complete streams

While a stream is compressed, the data that the handler took and those in the buffer make up what
was produced from the blocks so far. When the end of the stream fits into the buffer, the helper
succeeds with one complete stream or fails.
-/

open List

namespace Eagine.Runtime

open Serialization

universe u

variable {Stream : Type u} {zlib : Zlib Stream} {handler : DataHandler} {fuel : Nat} {input : Block}

namespace ZlibDataCompressor

theorem compressHandleData_zsd (compressor : ZlibDataCompressor Stream) :
    (compressor.compressHandleData handler).2.zsd = compressor.zsd := by
  unfold compressHandleData
  split
  · rfl
  · dsimp only
    split <;> rfl

theorem compressHandleData_zdRes (compressor : ZlibDataCompressor Stream) :
    (compressor.compressHandleData handler).2.zdRes = compressor.zdRes := by
  unfold compressHandleData
  split
  · rfl
  · dsimp only
    split <;> rfl

theorem compressHandleData_nextIn (compressor : ZlibDataCompressor Stream) :
    (compressor.compressHandleData handler).2.nextIn = compressor.nextIn := by
  unfold compressHandleData
  split
  · rfl
  · dsimp only
    split <;> rfl

/-- Rejected data stay in the buffer. -/
theorem compressHandleData_accepted (compressor : ZlibDataCompressor Stream) :
    (compressor.compressHandleData handler).2.accepted ++
        (compressor.compressHandleData handler).2.temp =
      compressor.accepted ++ compressor.temp := by
  unfold compressHandleData
  split
  · rfl
  · dsimp only
    split <;> rename_i answer <;> simp [accepted, filter_append, answer]

theorem compressHandleData_temp_le (compressor : ZlibDataCompressor Stream) :
    (compressor.compressHandleData handler).2.temp.length ≤ compressor.temp.length := by
  unfold compressHandleData
  split
  · exact le_rfl
  · dsimp only
    split <;> simp

theorem compressHandleData_temp {compressor : ZlibDataCompressor Stream}
    (handled : (compressor.compressHandleData handler).1 = true) :
    (compressor.compressHandleData handler).2.temp = [] := by
  unfold compressHandleData at handled ⊢
  split
  · assumption
  · dsimp only
    split
    · rfl
    · simp_all

/-- The compressor has the stream. It was given these data, and what it produced was accepted or
is in the buffer. -/
structure Tracks (zlib : Zlib Stream) (given : Block) (stream : Stream)
    (compressor : ZlibDataCompressor Stream) : Prop where
  zsd_eq : compressor.zsd = some stream
  given_eq : zlib.consumed stream ++ compressor.nextIn = given
  accepted_eq : compressor.accepted ++ compressor.temp = zlib.produced stream
  temp_le : compressor.temp.length ≤ tempSize

/-- The compressor waits for the next block. -/
structure Working (zlib : Zlib Stream) (given : Block)
    (compressor : ZlibDataCompressor Stream) : Prop where
  tracks : ∃ stream, Tracks zlib given stream compressor
  zdRes_eq : compressor.zdRes = .ok
  nextIn_eq : compressor.nextIn = []
  temp_eq : compressor.temp = []

/-- The transaction is not ended: there is a stream, or its initialization failed. -/
inductive InTransaction (zlib : Zlib Stream) (given : Block)
    (compressor : ZlibDataCompressor Stream) : Prop
  | live (stream : Stream) (tracks : Tracks zlib given stream compressor)
      (notEnded : compressor.zdRes ≠ .streamEnd)
  | failed (code : Int) (zsd_eq : compressor.zsd = none) (zdRes_eq : compressor.zdRes = .error code)

section

variable {given : Block} {stream : Stream} {compressor : ZlibDataCompressor Stream}

theorem Tracks.handled (tracks : Tracks zlib given stream compressor) :
    Tracks zlib given stream (compressor.compressHandleData handler).2 where
  zsd_eq := (compressHandleData_zsd compressor).trans tracks.zsd_eq
  given_eq := by rw [compressHandleData_nextIn, tracks.given_eq]
  accepted_eq := (compressHandleData_accepted compressor).trans tracks.accepted_eq
  temp_le := (compressHandleData_temp_le compressor).trans tracks.temp_le

theorem Working.inTransaction (working : Working zlib given compressor) :
    InTransaction zlib given compressor := by
  rcases working.tracks with ⟨stream, tracks⟩
  exact .live stream tracks (by rw [working.zdRes_eq]; simp)

variable (lawful : zlib.Lawful)

include lawful

theorem Tracks.deflated (tracks : Tracks zlib given stream compressor) (flush : ZlibFlush) :
    Tracks zlib given (zlib.deflate flush stream compressor.nextIn compressor.availOut).stream
      (compressor.deflate zlib flush) := by
  have room := lawful.written_le flush stream compressor.nextIn compressor.availOut
  constructor
  · simp [deflate, tracks.zsd_eq]
  · simp only [deflate, tracks.zsd_eq, lawful.deflate_consumed, append_assoc,
      take_append_drop, tracks.given_eq]
  · have before := tracks.accepted_eq
    simp only [deflate, tracks.zsd_eq, lawful.deflate_produced, accepted] at before ⊢
    rw [← before, append_assoc]
  · have full := tracks.temp_le
    simp only [deflate, tracks.zsd_eq, length_append, availOut] at room ⊢
    omega

omit lawful in
theorem Tracks.deflate_zdRes (tracks : Tracks zlib given stream compressor) (flush : ZlibFlush) :
    (compressor.deflate zlib flush).zdRes =
      (zlib.deflate flush stream compressor.nextIn compressor.availOut).result := by
  simp [deflate, tracks.zsd_eq]

/-- A stream is not ended without a flush. -/
theorem Tracks.noFlush_ne_streamEnd (tracks : Tracks zlib given stream compressor) :
    (compressor.deflate zlib .noFlush).zdRes ≠ .streamEnd := by
  rw [tracks.deflate_zdRes]
  intro ended
  exact ZlibFlush.noConfusion (lawful.streamEnd ended).1

/-- Without a flush, either the whole input is taken or the buffer gets full. -/
theorem Tracks.noFlush_ok (tracks : Tracks zlib given stream compressor)
    (progress : (compressor.deflate zlib .noFlush).zdRes = .ok) :
    (compressor.deflate zlib .noFlush).nextIn = [] ∨
      (zlib.deflate .noFlush stream compressor.nextIn compressor.availOut).written.length =
        compressor.availOut := by
  rw [tracks.deflate_zdRes] at progress
  rcases lawful.noFlush_ok progress with taken | full
  · left
    simpa [deflate, tracks.zsd_eq] using taken
  · exact .inr full

theorem Tracks.produced_le (tracks : Tracks zlib given stream compressor) :
    (zlib.produced stream).length ≤ zlib.deflateBound given.length := by
  refine (lawful.produced_le stream).trans (lawful.deflateBound_mono ?_)
  rw [← tracks.given_eq, length_append]
  exact Nat.le_add_right _ _

variable {result : Bool × ZlibDataCompressor Stream}

/-- What the loop leaves behind. -/
theorem compressLoop_spec (tracks : Tracks zlib given stream compressor)
    (run : compressor.compressLoop zlib handler fuel = some result) :
    InTransaction zlib given result.2 ∧ (result.1 = true → Working zlib given result.2) := by
  induction fuel generalizing stream compressor with
  | zero => exact absurd run (by simp [compressLoop])
  | succ fuel ih =>
      have after := tracks.deflated lawful .noFlush
      have notEnded := tracks.noFlush_ne_streamEnd lawful
      have handledOpen {c : ZlibDataCompressor Stream} {s : Stream}
          (c_tracks : Tracks zlib given s c) (c_open : c.zdRes ≠ .streamEnd) :
          InTransaction zlib given (c.compressHandleData handler).2 :=
        .live s c_tracks.handled (by rw [compressHandleData_zdRes]; exact c_open)
      rw [compressLoop] at run
      dsimp only at run
      split at run
      · split at run
        · exact ih after.handled run
        · cases run
          exact ⟨handledOpen after notEnded, fun success => absurd success (by simp)⟩
      · cases run
        exact ⟨.live _ after notEnded, fun success => absurd success (by simp)⟩
      · -- the buffer is handed over when it is full
        generalize fullHandled : (if (compressor.deflate zlib .noFlush).availOut = 0 then
          (compressor.deflate zlib .noFlush).compressHandleData handler
          else (true, compressor.deflate zlib .noFlush)) = handled at run
        have handledTracks : Tracks zlib given
            (zlib.deflate .noFlush stream compressor.nextIn compressor.availOut).stream
            handled.2 := by
          rw [← fullHandled]
          split
          · exact after.handled
          · exact after
        have handledOpen' : handled.2.zdRes ≠ .streamEnd := by
          rw [← fullHandled]
          split
          · rw [compressHandleData_zdRes]
            exact notEnded
          · exact notEnded
        split at run
        · rename_i rejected
          cases run
          exact ⟨.live _ handledTracks handledOpen', fun success => absurd success (by simp)⟩
        · split at run
          · rename_i nothingLeft
            cases run
            refine ⟨handledOpen handledTracks handledOpen', fun success => ?_⟩
            rcases Bool.and_eq_true_iff.mp success with ⟨last, isOk⟩
            constructor
            · exact ⟨_, handledTracks.handled⟩
            · exact of_decide_eq_true isOk
            · rw [compressHandleData_nextIn, nothingLeft]
            · exact compressHandleData_temp last
          · exact ih handledTracks run

/-- The loop ends: each time that it goes on, it has handed over a full buffer. -/
theorem compressLoop_returns (tracks : Tracks zlib given stream compressor)
    (emptyTemp : compressor.temp = []) (input : compressor.nextIn ≠ [])
    (enough : zlib.deflateBound given.length < (zlib.produced stream).length + fuel) :
    ∃ result, compressor.compressLoop zlib handler fuel = some result := by
  induction fuel generalizing stream compressor with
  | zero => exact absurd (tracks.produced_le lawful) (Nat.not_le_of_lt enough)
  | succ fuel ih =>
      have after := tracks.deflated lawful .noFlush
      have room : compressor.availOut = tempSize := by simp [availOut, emptyTemp]
      have roomy : tempSize ≠ 0 := by decide
      rw [compressLoop]
      dsimp only
      split
      · rename_i stuck
        rw [tracks.deflate_zdRes] at stuck
        rcases lawful.bufError stuck with nothing | full
        · exact absurd nothing input
        · exact absurd (room.symm.trans full) roomy
      · exact ⟨_, rfl⟩
      · rename_i notStuck notFailed
        have progress : (compressor.deflate zlib .noFlush).zdRes = .ok := by
          cases result : (compressor.deflate zlib .noFlush).zdRes with
          | ok => rfl
          | streamEnd => exact absurd result (tracks.noFlush_ne_streamEnd lawful)
          | bufError => exact absurd result notStuck
          | error code => exact absurd result (notFailed code)
        have written : (compressor.deflate zlib .noFlush).temp =
            (zlib.deflate .noFlush stream compressor.nextIn compressor.availOut).written := by
          simp [deflate, tracks.zsd_eq, emptyTemp]
        by_cases full : (compressor.deflate zlib .noFlush).availOut = 0
        · simp only [full, if_true]
          split
          · exact ⟨_, rfl⟩
          · rename_i accepted
            split
            · exact ⟨_, rfl⟩
            · rename_i more
              apply ih after.handled
                (compressHandleData_temp (Bool.eq_true_of_not_eq_false accepted)) more
              rcases tracks.noFlush_ok lawful progress with nothing | filled
              · exact absurd ((compressHandleData_nextIn _).trans nothing) more
              · rw [lawful.deflate_produced, length_append, filled, room]
                omega
        · simp only [full, if_false]
          split
          · exact ⟨_, rfl⟩
          · split
            · exact ⟨_, rfl⟩
            · rename_i more
              rcases tracks.noFlush_ok lawful progress with nothing | filled
              · exact absurd nothing more
              · exact absurd (by rw [availOut, written, filled, room, Nat.sub_self]) full

/-- The compressor can be given the next block: it begins a transaction, or is in one. -/
inductive Ready (zlib : Zlib Stream) (given : Block)
    (compressor : ZlibDataCompressor Stream) : Prop
  | fresh (zdRes_eq : compressor.zdRes = .streamEnd) (nothingAccepted : compressor.accepted = [])
      (nothingGiven : given = [])
  | working (working : Working zlib given compressor)

omit lawful in
theorem fed_nextIn (short : input.length < 2 ^ 32)
    (compressor : ZlibDataCompressor Stream) : (compressor.fed input).nextIn = input := by
  have cast : limitCast input.length = input.length := Nat.mod_eq_of_lt short
  simp [fed, cast]

/-- The stream takes the block, unless it could not be initialized. -/
theorem Ready.initialized (ready : Ready zlib given compressor) (short : input.length < 2 ^ 32) :
    (∃ code, ((compressor.fed input).initialized zlib).zsd = none ∧
        ((compressor.fed input).initialized zlib).zdRes = .error code) ∨
      ((compressor.fed input).initialized zlib).zdRes = .ok ∧
        ((compressor.fed input).initialized zlib).temp = [] ∧
        ((compressor.fed input).initialized zlib).nextIn = input ∧
        ∃ stream, Tracks zlib (given ++ input) stream ((compressor.fed input).initialized zlib) := by
  have fedIn := fed_nextIn short compressor
  cases ready with
  | fresh zdRes_eq nothingAccepted nothingGiven =>
      have ended : (compressor.fed input).zdRes = .streamEnd := zdRes_eq
      rw [ZlibDataCompressor.initialized, if_pos ended]
      cases init : zlib.deflateInit (compressor.fed input).zdLvl with
      | error code => exact .inl ⟨code, rfl, rfl⟩
      | ok stream =>
          refine .inr ⟨rfl, rfl, fedIn, stream, rfl, ?_, ?_, Nat.zero_le _⟩
          · rw [lawful.init_consumed init, nothingGiven]
            exact fedIn
          · rw [lawful.init_produced init]
            exact (append_nil _).trans nothingAccepted
  | working working =>
      have notEnded : (compressor.fed input).zdRes ≠ .streamEnd := by
        rw [fed, working.zdRes_eq]
        simp
      rw [ZlibDataCompressor.initialized, if_neg notEnded]
      rcases working.tracks with ⟨stream, tracks⟩
      refine .inr ⟨working.zdRes_eq, rfl, fedIn, stream, tracks.zsd_eq, ?_, ?_, Nat.zero_le _⟩
      · have before := tracks.given_eq
        rw [working.nextIn_eq, append_nil] at before
        rw [fedIn, before]
      · have before := tracks.accepted_eq
        rw [working.temp_eq] at before
        exact before

theorem Ready.compressNext_spec (ready : Ready zlib given compressor)
    (short : input.length < 2 ^ 32)
    (run : compressor.compressNext zlib handler fuel input = some result) :
    InTransaction zlib (given ++ input) result.2 ∧
      (result.1 = true → Working zlib (given ++ input) result.2) := by
  simp only [compressNext] at run
  rcases ready.initialized lawful short with
    ⟨code, zsd_eq, zdRes_eq⟩ | ⟨zdRes_eq, _, _, stream, tracks⟩
  · rw [if_pos (by simp [zdRes_eq])] at run
    cases run
    exact ⟨.failed code zsd_eq zdRes_eq, fun success => absurd success (by simp)⟩
  · rw [if_neg (by simp [zdRes_eq])] at run
    exact compressLoop_spec lawful tracks run

theorem Ready.compressNext_returns (ready : Ready zlib given compressor)
    (short : input.length < 2 ^ 32) (something : input ≠ []) (handler : DataHandler)
    (enough : zlib.deflateBound (given ++ input).length < fuel) :
    ∃ result, compressor.compressNext zlib handler fuel input = some result := by
  simp only [compressNext]
  rcases ready.initialized lawful short with
    ⟨code, zsd_eq, zdRes_eq⟩ | ⟨zdRes_eq, temp_eq, nextIn_eq, stream, tracks⟩
  · rw [if_pos (by simp [zdRes_eq])]
    exact ⟨_, rfl⟩
  · rw [if_neg (by simp [zdRes_eq])]
    exact compressLoop_returns lawful tracks temp_eq (nextIn_eq.trans_ne something)
      (Nat.lt_add_left _ enough)

/-- What is still to be written at the end of the stream fits into the buffer, or the buffer has
no room at all. -/
def Fits (zlib : Zlib Stream) (compressor : ZlibDataCompressor Stream) : Prop :=
  ∀ stream ∈ compressor.zsd,
    compressor.availOut = 0 ∨ zlib.pending stream compressor.nextIn ≤ compressor.availOut

instance (zlib : Zlib Stream) (compressor : ZlibDataCompressor Stream) :
    Decidable (Fits zlib compressor) :=
  inferInstanceAs (Decidable (∀ stream ∈ compressor.zsd, _))

/-- The next transaction can begin, and what was accepted is a complete stream unless the last
one failed. -/
theorem InTransaction.compressFinish_spec (inTransaction : InTransaction zlib given compressor)
    (fits : Fits zlib compressor) (handler : DataHandler) :
    (compressor.compressFinish zlib handler).2.zdRes = .streamEnd ∧
      ((compressor.compressFinish zlib handler).1 = true →
        zlib.IsStream given (compressor.compressFinish zlib handler).2.accepted) := by
  rw [compressFinish]
  cases inTransaction with
  | failed code zsd_eq zdRes_eq =>
      have error : (compressor.deflate zlib .finish).zdRes = .streamError := by
        simp [deflate, zsd_eq]
      simp [zdRes_eq, error, cleanup, ZlibResult.streamError]
  | live stream tracks notEnded =>
      have after := tracks.deflated lawful .finish
      rw [if_neg notEnded]
      dsimp only
      split
      · rename_i answered
        refine ⟨rfl, fun handled => ?_⟩
        rw [tracks.deflate_zdRes] at answered
        rcases answered with ended | unfinished
        · rcases lawful.streamEnd ended with ⟨_, taken, isStream⟩
          have temp := compressHandleData_temp handled
          have handledTracks : Tracks zlib given _
              ((compressor.deflate zlib .finish).compressHandleData handler).2 := after.handled
          have accepted := handledTracks.accepted_eq
          rw [temp, append_nil] at accepted
          have consumed := after.given_eq
          have nothingLeft : (compressor.deflate zlib .finish).nextIn = [] := by
            simpa [deflate, tracks.zsd_eq] using taken
          rw [nothingLeft, append_nil] at consumed
          rw [consumed] at isStream
          exact accepted ▸ isStream
        · rcases lawful.finish_ok unfinished with ⟨someRoom, pending⟩
          rcases fits stream tracks.zsd_eq with noRoom | enough
          · exact absurd noRoom someRoom
          · exact absurd pending (Nat.not_lt_of_le enough)
      · exact ⟨rfl, fun success => absurd success (by simp)⟩

end

end ZlibDataCompressor

namespace StreamCompression

open ZlibDataCompressor

/-- The compressor in front of the `compress_finish` that a call makes, if it does. -/
def beforeFinish (zlib : Zlib Stream) (handler : DataHandler) (fuel : Nat)
    (stream : StreamCompression Stream) : Call → Option (ZlibDataCompressor Stream)
  | .next input level =>
      let begun := stream.begun level
      if begun.started = false then none
      else if input = [] then some begun.compressor
      else
        (begun.compressor.compressNext zlib handler fuel input).bind fun next =>
          if next.1 then none else some next.2
  | .finish => if stream.started && !stream.finished then some stream.compressor else none

/-- The condition on a call, after these data: no block comes after the end of the stream and each
is of a size that the library can take, the stream is ended when it was given some data, and where
the compressor comes to its end, what is to be written fits into the buffer. -/
def Meets (zlib : Zlib Stream) (handler : DataHandler) (fuel : Nat) (given : Block)
    (stream : StreamCompression Stream) (call : Call) : Prop :=
  (∀ compressor ∈ stream.beforeFinish zlib handler fuel call, Fits zlib compressor) ∧
    match call with
    | .next input _ =>
        stream.finished = false ∧ input.length < 2 ^ 32 ∧ (input = [] → given ≠ [])
    | .finish => given ≠ []

instance (zlib : Zlib Stream) (handler : DataHandler) (fuel : Nat) (given : Block)
    (stream : StreamCompression Stream) : (call : Call) →
    Decidable (Meets zlib handler fuel given stream call)
  | .next _ _ => inferInstanceAs (Decidable (_ ∧ _ ∧ _ ∧ _))
  | .finish => inferInstanceAs (Decidable (_ ∧ _ ≠ _))

/-- A call, with the data that were given. -/
def callGiven (zlib : Zlib Stream) (handler : DataHandler) (fuel : Nat)
    (state : Block × StreamCompression Stream) (call : Call) :
    Option (Block × StreamCompression Stream) :=
  (state.2.call zlib handler fuel call).map fun after => (state.1 ++ inputs [call], after)

/-- All calls of a run meet the condition. -/
abbrev MeetsAll (zlib : Zlib Stream) (handler : DataHandler) (fuel : Nat) (given : Block)
    (stream : StreamCompression Stream) (calls : List Call) : Prop :=
  Theory.Throughout (callGiven zlib handler fuel)
    (fun state => Meets zlib handler fuel state.1 state.2) (given, stream) calls

/-- What holds between the calls, after these data. -/
inductive Sound (zlib : Zlib Stream) (given : Block) (stream : StreamCompression Stream) : Prop
  | idle (notStarted : stream.started = false) (notFinished : stream.finished = false)
      (zdRes_eq : stream.compressor.zdRes = .streamEnd)
      (zsd_eq : stream.compressor.zsd = none)
      (nothingAccepted : stream.compressor.accepted = [])
      (failed : given = [] ∨ stream.failed = true)
      (methodFailed : stream.failed = true → stream.method ≠ .zlib)
  | working (started : stream.started = true) (notFinished : stream.finished = false)
      (working : Working zlib given stream.compressor)
  | finished (started : stream.started = true) (finished : stream.finished = true)
      (zdRes_eq : stream.compressor.zdRes = .streamEnd)
      (complete : stream.failed = false → zlib.IsStream given stream.compressor.accepted)

theorem inputs_append (front back : List Call) :
    inputs (front ++ back) = inputs front ++ inputs back := by
  induction front with
  | nil => rfl
  | cons call front ih =>
      cases call with
      | next input level => simp [inputs, ih]
      | finish => exact ih

variable (lawful : zlib.Lawful) {given : Block} {stream : StreamCompression Stream}

include lawful

theorem ended_sound {compressor : ZlibDataCompressor Stream} (started : stream.started = true)
    (inTransaction : InTransaction zlib given compressor) (fits : Fits zlib compressor) :
    Sound zlib given (stream.ended zlib handler compressor) := by
  rcases inTransaction.compressFinish_spec lawful fits handler with
    ⟨zdRes_eq, complete⟩
  apply Sound.finished
  · exact started
  · rfl
  · exact zdRes_eq
  · intro success
    exact complete (by simpa [ended] using success)

omit lawful in
/-- The compressor takes the next block, or the method is one that it does not know. -/
theorem Sound.begun (sound : Sound zlib given stream) (notFinished : stream.finished = false)
    (level : DataCompressionLevel) :
    (stream.begun level).finished = false ∧ (stream.begun level).started = true ∧
        Ready zlib given (stream.begun level).compressor ∨
      (stream.begun level).started = false ∧ ∀ later, Sound zlib later (stream.begun level) := by
  cases sound with
  | idle notStarted _ zdRes_eq zsd_eq nothingAccepted failed methodFailed =>
      by_cases method : stream.method = .zlib
      · have nothingGiven : given = [] := by
          rcases failed with nothing | isFailed
          · exact nothing
          · exact absurd method (methodFailed isFailed)
        have begun_eq : stream.begun level = { stream with
            compressor := { stream.compressor with zdLvl := translate level }, started := true } := by
          simp [StreamCompression.begun, notStarted, compressBegin, method, zdRes_eq]
        rw [begun_eq]
        exact .inl ⟨notFinished, rfl, .fresh zdRes_eq nothingAccepted nothingGiven⟩
      · have begun_eq : stream.begun level = { stream with failed := true } := by
          simp [StreamCompression.begun, notStarted, compressBegin, method]
        rw [begun_eq]
        exact .inr ⟨notStarted, fun _ => .idle notStarted notFinished zdRes_eq zsd_eq
          nothingAccepted (.inr rfl) fun _ => method⟩
  | working started _ working =>
      have begun_eq : stream.begun level = stream := by simp [StreamCompression.begun, started]
      rw [begun_eq]
      exact .inl ⟨notFinished, started, .working working⟩
  | finished _ isFinished => exact absurd isFinished (by simp [notFinished])

theorem Sound.next (sound : Sound zlib given stream) {level : DataCompressionLevel}
    (meets : Meets zlib handler fuel given stream (.next input level))
    (enough : zlib.deflateBound (given ++ input).length < fuel) :
    ∃ after, stream.next zlib handler fuel input level = some after ∧
      Sound zlib (given ++ input) after := by
  rcases meets with ⟨fits, notFinished, short, emptyBlock⟩
  rw [beforeFinish] at fits
  rcases sound.begun notFinished level with ⟨stillNot, started, ready⟩ | ⟨notStarted, failed⟩
  · by_cases nothing : input = []
    · have something := emptyBlock nothing
      simp only [started, nothing] at fits
      cases ready with
      | fresh _ _ nothingGiven => exact absurd nothingGiven something
      | working working =>
          refine ⟨(stream.begun level).ended zlib handler (stream.begun level).compressor, ?_, ?_⟩
          · simp [StreamCompression.next, started, nothing]
          · rw [nothing, append_nil]
            exact ended_sound lawful started working.inTransaction (fits _ rfl)
    · rcases ready.compressNext_returns lawful short nothing handler enough with
        ⟨⟨success, compressor⟩, compressed⟩
      rcases ready.compressNext_spec lawful short compressed with ⟨inTransaction, working⟩
      cases success with
      | true =>
          refine ⟨{ stream.begun level with compressor := compressor }, ?_, ?_⟩
          · simp [StreamCompression.next, started, nothing, compressed]
          · exact .working started stillNot (working rfl)
      | false =>
          refine ⟨(stream.begun level).ended zlib handler compressor, ?_, ?_⟩
          · simp [StreamCompression.next, started, nothing, compressed]
          · refine ended_sound lawful started inTransaction (fits compressor ?_)
            simp [started, nothing, compressed]
  · refine ⟨stream.begun level, ?_, failed _⟩
    simp [StreamCompression.next, notStarted]

theorem Sound.finish (sound : Sound zlib given stream)
    (meets : Meets zlib handler fuel given stream .finish) :
    Sound zlib given (stream.finish zlib handler) := by
  rcases meets with ⟨fits, _⟩
  cases started : stream.started with
  | false => simpa [StreamCompression.finish, started] using sound
  | true =>
      cases finished : stream.finished with
      | true => simpa [StreamCompression.finish, started, finished] using sound
      | false =>
          cases sound with
          | idle notStarted => exact absurd notStarted (by simp [started])
          | working _ _ working =>
              have now : Sound zlib given (stream.ended zlib handler stream.compressor) :=
                ended_sound lawful started working.inTransaction
                  (fits _ (by simp [beforeFinish, started, finished]))
              simpa [StreamCompression.finish, started, finished] using now
          | finished _ isFinished => exact absurd isFinished (by simp [finished])

theorem Sound.call (sound : Sound zlib given stream) {call : Call}
    (meets : Meets zlib handler fuel given stream call)
    (enough : zlib.deflateBound (given ++ inputs [call]).length < fuel) :
    ∃ after, stream.call zlib handler fuel call = some after ∧
      Sound zlib (given ++ inputs [call]) after := by
  cases call with
  | next input level =>
      simp only [inputs, append_nil] at enough ⊢
      exact sound.next lawful meets enough
  | finish =>
      simp only [inputs, append_nil]
      exact ⟨_, rfl, sound.finish lawful meets⟩

theorem Sound.run (sound : Sound zlib given stream) {calls : List Call}
    (meets : MeetsAll zlib handler fuel given stream calls)
    (enough : zlib.deflateBound (given ++ inputs calls).length < fuel) :
    ∃ after, stream.run zlib handler fuel calls = some after ∧
      Sound zlib (given ++ inputs calls) after := by
  induction calls generalizing given stream with
  | nil =>
      refine ⟨stream, rfl, ?_⟩
      simpa [inputs] using sound
  | cons call calls ih =>
      rcases meets with ⟨first, others⟩
      have all : given ++ inputs (call :: calls) = given ++ inputs [call] ++ inputs calls := by
        rw [append_assoc, ← inputs_append, singleton_append]
      rw [all] at enough ⊢
      have bound : zlib.deflateBound (given ++ inputs [call]).length < fuel := by
        refine lt_of_le_of_lt (lawful.deflateBound_mono ?_) enough
        exact (prefix_append _ _).length_le
      rcases sound.call lawful first bound with ⟨after, called, soundAfter⟩
      rcases ih soundAfter (others _ (by rw [callGiven, called]; rfl)) enough with
        ⟨final, ran, soundFinal⟩
      refine ⟨final, ?_, soundFinal⟩
      simp only [StreamCompression.run, foldlM_cons, called, Option.bind_eq_bind,
        Option.bind_some] at ran ⊢
      exact ran

omit lawful in
/-- A stream that was started is finished. -/
theorem finished_finish (started : (stream.finish zlib handler).started = true) :
    (stream.finish zlib handler).finished = true := by
  unfold StreamCompression.finish at started ⊢
  split
  · rfl
  · rename_i nothingToEnd
    rw [if_neg nothingToEnd] at started
    simpa [started] using nothingToEnd

theorem Sound.finish_complete (sound : Sound zlib given stream)
    (meets : Meets zlib handler fuel given stream .finish)
    (success : (stream.finish zlib handler).hasSucceeded = true) :
    zlib.IsStream given (stream.finish zlib handler).compressor.accepted ∧
      (stream.finish zlib handler).compressor.zdRes = .streamEnd := by
  have notFailed : (stream.finish zlib handler).failed = false := by
    simpa [hasSucceeded] using success
  cases sound.finish lawful meets with
  | idle _ _ _ _ _ failed _ =>
      rcases failed with nothing | isFailed
      · exact absurd nothing meets.2
      · exact absurd isFailed (by simp [notFailed])
  | working started notFinished _ =>
      exact absurd (finished_finish started) (by simp [notFinished])
  | finished _ _ zdRes_eq complete => exact ⟨complete notFailed, zdRes_eq⟩

omit lawful in
theorem MeetsAll.append {front back : List Call}
    (meets : MeetsAll zlib handler fuel given stream (front ++ back)) :
    MeetsAll zlib handler fuel given stream front ∧
      ∀ after, stream.run zlib handler fuel front = some after →
        MeetsAll zlib handler fuel (given ++ inputs front) after back := by
  induction front generalizing given stream with
  | nil =>
      refine ⟨trivial, fun after ran => ?_⟩
      have same : stream = after := Option.some.inj ran
      rw [← same]
      simpa [inputs] using meets
  | cons call front ih =>
      rcases meets with ⟨first, others⟩
      refine ⟨⟨first, fun after called => ?_⟩, ?_⟩
      · rcases Option.map_eq_some_iff.mp called with ⟨stream, _, rfl⟩
        exact (ih (others _ called)).1
      · intro final ran
        simp only [StreamCompression.run, foldlM_cons, Option.bind_eq_bind] at ran
        rcases Option.bind_eq_some_iff.mp ran with ⟨after, called, rest⟩
        have later := (ih (others (given ++ inputs [call], after)
          (by rw [callGiven, called]; rfl))).2
          final rest
        rw [append_assoc, ← inputs_append, singleton_append] at later
        exact later

/-- Every run whose calls meet the condition returns. When it has succeeded after the finish, the
handler has accepted one complete stream of all blocks, and a transaction can begin. -/
theorem hasSucceeded_complete (method : DataCompressionMethod) {fuel : Nat} {calls : List Call}
    (enough : zlib.deflateBound (inputs calls).length < fuel)
    (meets : MeetsAll zlib handler fuel [] { method } (calls ++ [.finish])) :
    ∃ final, ({ method } : StreamCompression Stream).run zlib handler fuel (calls ++ [.finish]) =
        some final ∧
      (final.hasSucceeded = true →
        zlib.IsStream (inputs calls) final.compressor.accepted ∧
          ∀ level, (final.compressor.compressBegin .zlib level).1 = true) := by
  have start : Sound zlib [] ({ method } : StreamCompression Stream) :=
    .idle rfl rfl rfl rfl rfl (.inl rfl) fun failed => absurd failed (by simp)
  rcases meets.append with ⟨before, last⟩
  rcases start.run lawful before enough with ⟨stream, ran, sound⟩
  have meetsFinish := (last stream ran).1
  refine ⟨stream.finish zlib handler, ?_, fun success => ?_⟩
  · simp only [StreamCompression.run] at ran ⊢
    rw [foldlM_append, ran]
    rfl
  · rcases sound.finish_complete lawful meetsFinish success with ⟨complete, zdRes_eq⟩
    refine ⟨complete, fun level => ?_⟩
    simp [compressBegin, zdRes_eq]

/-- Blocks of different sizes. -/
def sampleBlocks : List Call :=
  [.next [1] .none, .next [2, 3] .none, .next [4] .none]

/-- The first data are rejected, and taken when they are offered once more. -/
def rejectsOnce : DataHandler :=
  fun offered _ => !offered.isEmpty

omit lawful in
/-- The blocks with a handler that takes everything, and one of them with one that does not. -/
theorem hasSucceeded_complete_one :
    (∃ final, ({ method := .zlib } : StreamCompression StoredStream).run storedZlib
        (fun _ _ => true) 16 (sampleBlocks ++ [.finish]) = some final ∧
      (final.hasSucceeded = true →
        storedZlib.IsStream (inputs sampleBlocks) final.compressor.accepted ∧
          ∀ level, (final.compressor.compressBegin .zlib level).1 = true)) ∧
    ∃ final, ({ method := .zlib } : StreamCompression StoredStream).run storedZlib
        rejectsOnce 16 ([.next [2, 3] .none] ++ [.finish]) = some final ∧
      (final.hasSucceeded = true →
        storedZlib.IsStream (inputs [.next [2, 3] .none]) final.compressor.accepted ∧
          ∀ level, (final.compressor.compressBegin .zlib level).1 = true) := by
  constructor
  · exact hasSucceeded_complete storedZlib_lawful .zlib (by decide) (by decide)
  · exact hasSucceeded_complete storedZlib_lawful .zlib (by decide) (by decide)

omit lawful in
/-- An empty block ends a stream that never began: the handler gets nothing at all. -/
theorem not_hasSucceeded_complete :
    ¬∀ (handler : DataHandler) (fuel : Nat) (calls : List Call)
        (final : StreamCompression StoredStream),
      ({ method := .zlib } : StreamCompression StoredStream).run storedZlib handler fuel
          (calls ++ [.finish]) = some final →
        final.hasSucceeded = true →
          storedZlib.IsStream (inputs calls) final.compressor.accepted := by
  intro complete
  have nothing := complete (fun _ _ => true) 1 [.next [] .normal] _ rfl rfl
  exact absurd (congrArg List.length nothing) (by decide)

end StreamCompression

end Eagine.Runtime
