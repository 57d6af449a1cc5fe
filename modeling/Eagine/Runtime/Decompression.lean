import Eagine.Runtime.Inflate

/-!
# Decompression

The loop that uncompresses a block goes on until the library has taken all of the block. It has
no bound of its own: it ends unless the library can not take what is left, which is so for a block
without any data and for what follows the end of the stream.
-/

namespace Eagine.Runtime

open Serialization

universe u

/-- The part of `zlib_data_compressor_impl` that decompresses, with the blocks that the handler was
given. The stream is missing where its state was not initialized or released. What was written into
the buffer stands for `next_out` and `avail_out`. -/
structure ZlibDataDecompressor (Stream : Type u) where
  zsi : Option Stream := none
  nextIn : Block := []
  temp : Block := []
  ziRes : ZlibResult := .streamEnd
  offered : List (Block × Bool) := []

namespace ZlibDataDecompressor

variable {Stream : Type u}

def availOut (decompressor : ZlibDataDecompressor Stream) : Nat :=
  tempSize - decompressor.temp.length

def decompressHandleData (handler : DataHandler) (decompressor : ZlibDataDecompressor Stream) :
    Bool × ZlibDataDecompressor Stream :=
  if decompressor.temp = [] then (true, decompressor)
  else
    let answer := handler decompressor.offered decompressor.temp
    let offered := decompressor.offered ++ [(decompressor.temp, answer)]
    if answer then (true, { decompressor with temp := [], offered }) else
      (false, { decompressor with offered })

variable (inflater : Inflater Stream)

/-- A call of `inflate`. -/
def inflate (decompressor : ZlibDataDecompressor Stream) : ZlibDataDecompressor Stream :=
  match decompressor.zsi with
  | none => { decompressor with ziRes := .streamError }
  | some stream =>
      let inflated := inflater.inflate stream decompressor.nextIn decompressor.availOut
      { decompressor with
        zsi := some inflated.stream
        nextIn := decompressor.nextIn.drop inflated.taken
        temp := decompressor.temp ++ inflated.written
        ziRes := inflated.result }

/-- One round of the loop of `decompress_next`, which returns or goes on. -/
def decompressRound (handler : DataHandler) (decompressor : ZlibDataDecompressor Stream) :
    (Bool × ZlibDataDecompressor Stream) ⊕ ZlibDataDecompressor Stream :=
  let inflated := decompressor.inflate inflater
  match inflated.ziRes with
  | .bufError =>
      let handled := inflated.decompressHandleData handler
      if handled.1 then .inr handled.2 else .inl (false, handled.2)
  | .error _ => .inl (false, inflated)
  | _ =>
      let handled :=
        if inflated.availOut = 0 then inflated.decompressHandleData handler
        else (true, inflated)
      if handled.1 = false then .inl (false, handled.2)
      else if handled.2.nextIn = [] then
        let last := handled.2.decompressHandleData handler
        .inl (last.1 && decide (last.2.ziRes = .ok), last.2)
      else .inr handled.2

def decompressLoop (handler : DataHandler) :
    Nat → ZlibDataDecompressor Stream → Option (Bool × ZlibDataDecompressor Stream)
  | 0, _ => none
  | fuel + 1, decompressor =>
      match decompressor.decompressRound inflater handler with
      | .inl result => some result
      | .inr next => decompressLoop handler fuel next

/-- The stream is initialized when the last one was ended. -/
def initialized (decompressor : ZlibDataDecompressor Stream) : ZlibDataDecompressor Stream :=
  if decompressor.ziRes = .streamEnd then
    match inflater.inflateInit with
    | .ok stream => { decompressor with zsi := some stream, ziRes := .ok }
    | .error code => { decompressor with zsi := none, ziRes := .error code }
  else decompressor

/-- The block is to be decompressed into an empty buffer. -/
def fed (input : Block) (decompressor : ZlibDataDecompressor Stream) :
    ZlibDataDecompressor Stream :=
  { decompressor with nextIn := input.take (limitCast input.length), temp := [] }

def decompressNext (handler : DataHandler) (fuel : Nat) (input : Block)
    (decompressor : ZlibDataDecompressor Stream) : Option (Bool × ZlibDataDecompressor Stream) :=
  let ready := (decompressor.fed input).initialized inflater
  if ready.ziRes ≠ .ok then some (false, ready) else ready.decompressLoop inflater handler fuel

end ZlibDataDecompressor

/-- The data, as far as it fills whole buffers. -/
def fullBuffers : Nat → Block → List Block
  | 0, _ => []
  | count + 1, data => data.take tempSize :: fullBuffers count (data.drop tempSize)

/-- The handler takes each one of the blocks. -/
def takesAll (handler : DataHandler) : List (Block × Bool) → List Block → Prop
  | _, [] => True
  | offered, block :: blocks =>
      handler offered block = true ∧ takesAll handler (offered ++ [(block, true)]) blocks

/-- The handler takes each whole buffer of the data. -/
def TakesFull (handler : DataHandler) (offered : List (Block × Bool)) (data : Block) : Prop :=
  takesAll handler offered (fullBuffers (data.length / tempSize) data)

variable {offered : List (Block × Bool)}

theorem takesFull_of_short {handler : DataHandler} {data : Block}
    (short : data.length < tempSize) : TakesFull handler offered data := by
  rw [TakesFull, Nat.div_eq_of_lt short]
  trivial

theorem takesFull_append {handler : DataHandler}
    {block data : Block} (full : block.length = tempSize) :
    TakesFull handler offered (block ++ data) ↔
      handler offered block = true ∧ TakesFull handler (offered ++ [(block, true)]) data := by
  have count : (block ++ data).length / tempSize = data.length / tempSize + 1 := by
    rw [List.length_append, full, Nat.add_div_left _ (by decide)]
  rw [TakesFull, TakesFull, count, fullBuffers, List.take_left' full, List.drop_left' full, takesAll]

namespace ZlibDataDecompressor

variable {Stream : Type u} {inflater : Inflater Stream} {handler : DataHandler}

variable {decompressor : ZlibDataDecompressor Stream}

theorem decompressHandleData_of_nil (nothing : decompressor.temp = []) :
    decompressor.decompressHandleData handler = (true, decompressor) :=
  if_pos nothing

theorem decompressHandleData_of_rejects (something : decompressor.temp ≠ [])
    (rejects : handler decompressor.offered decompressor.temp = false) :
    (decompressor.decompressHandleData handler).1 = false := by
  simp [decompressHandleData, something, rejects]

theorem decompressHandleData_of_accepts (something : decompressor.temp ≠ [])
    (accepts : handler decompressor.offered decompressor.temp = true) :
    decompressor.decompressHandleData handler =
      (true, { decompressor with
        temp := []
        offered := decompressor.offered ++ [(decompressor.temp, true)] }) := by
  simp [decompressHandleData, something, accepts]

/-- The loop begins a round with an empty buffer. -/
structure AtRound (decompressor : ZlibDataDecompressor Stream) (stream : Stream) (input : Block)
    (offered : List (Block × Bool)) : Prop where
  zsi_eq : decompressor.zsi = some stream
  nextIn_eq : decompressor.nextIn = input
  temp_eq : decompressor.temp = []
  offered_eq : decompressor.offered = offered

variable {decompressor : ZlibDataDecompressor Stream} {stream : Stream} {input : Block}
  {offered : List (Block × Bool)}

/-- What the round's call of `inflate` does with the decompressor. -/
def inflatedTo (inflated : Inflated Stream) (input : Block) (offered : List (Block × Bool)) :
    ZlibDataDecompressor Stream where
  zsi := some inflated.stream
  nextIn := input.drop inflated.taken
  temp := inflated.written
  ziRes := inflated.result
  offered := offered

theorem AtRound.inflate_eq (atRound : AtRound decompressor stream input offered) :
    decompressor.inflate inflater =
      inflatedTo (inflater.inflate stream input tempSize) input offered := by
  rcases decompressor with ⟨zsi, nextIn, temp, ziRes, offered⟩
  rcases atRound with ⟨rfl, rfl, rfl, rfl⟩
  rfl

/-- What a round does that is given what `inflate` did. -/
inductive RoundOf (handler : DataHandler) (inflated : Inflated Stream) (input : Block)
    (offered : List (Block × Bool)) :
    (Bool × ZlibDataDecompressor Stream) ⊕ ZlibDataDecompressor Stream → Prop
  /-- Nothing was written for want of input. -/
  | again {next} (result : inflated.result = .bufError) (nothing : inflated.written = [])
      (atRound : AtRound next inflated.stream (input.drop inflated.taken) offered) :
      RoundOf handler inflated input offered (.inr next)
  | failed {code answer} (result : inflated.result = .error code) :
      RoundOf handler inflated input offered (.inl answer)
  /-- The buffer is full. -/
  | rejected {answer} (went : inflated.result = .ok ∨ inflated.result = .streamEnd)
      (full : inflated.written.length = tempSize)
      (rejects : handler offered inflated.written = false) :
      RoundOf handler inflated input offered (.inl answer)
  | accepted {next} (went : inflated.result = .ok ∨ inflated.result = .streamEnd)
      (full : inflated.written.length = tempSize)
      (accepts : handler offered inflated.written = true)
      (more : input.drop inflated.taken ≠ [])
      (atRound : AtRound next inflated.stream (input.drop inflated.taken)
        (offered ++ [(inflated.written, true)])) :
      RoundOf handler inflated input offered (.inr next)
  /-- All input was taken. -/
  | last {answer} (went : inflated.result = .ok ∨ inflated.result = .streamEnd)
      (nothingLeft : input.drop inflated.taken = []) :
      RoundOf handler inflated input offered (.inl answer)
  /-- Neither is the buffer full nor all input taken. -/
  | halted {next} (went : inflated.result = .ok ∨ inflated.result = .streamEnd)
      (notFull : inflated.written.length < tempSize)
      (more : input.drop inflated.taken ≠ []) (zsi_eq : next.zsi = some inflated.stream)
      (nextIn_eq : next.nextIn = input.drop inflated.taken)
      (temp_eq : next.temp = inflated.written) :
      RoundOf handler inflated input offered (.inr next)

/-- The part of a round behind an `inflate` that went on. -/
theorem roundOf_went {inflated : Inflated Stream}
    (written_le : inflated.written.length ≤ tempSize)
    (went : inflated.result = .ok ∨ inflated.result = .streamEnd) :
    let after := inflatedTo inflated input offered
    let handled :=
      if after.availOut = 0 then after.decompressHandleData handler else (true, after)
    RoundOf handler inflated input offered
      (if handled.1 = false then .inl (false, handled.2)
      else if handled.2.nextIn = [] then
        let last := handled.2.decompressHandleData handler
        .inl (last.1 && decide (last.2.ziRes = .ok), last.2)
      else .inr handled.2) := by
  intro after handled
  rcases Nat.lt_or_eq_of_le written_le with notFull | full
  case inl =>
      have room : after.availOut ≠ 0 := Nat.sub_ne_zero_of_lt notFull
      have handledEq : handled = (true, after) := if_neg room
      rw [handledEq, if_neg Bool.true_eq_false_eq_False]
      split
      case isTrue nothingLeft => exact .last went nothingLeft
      case isFalse more => exact .halted went notFull more rfl rfl rfl
  case inr =>
      have noRoom : after.availOut = 0 := Nat.sub_eq_zero_of_le full.ge
      have something : after.temp ≠ [] := by
        intro nothing
        rw [show inflated.written = [] from nothing] at full
        exact absurd full (by decide)
      have handledEq : handled = after.decompressHandleData handler := if_pos noRoom
      rw [handledEq]
      cases answer : handler offered inflated.written with
      | false =>
          rw [if_pos (decompressHandleData_of_rejects something answer)]
          exact .rejected went full answer
      | true =>
          rw [decompressHandleData_of_accepts something answer, if_neg Bool.true_eq_false_eq_False]
          split
          case isTrue nothingLeft => exact .last went nothingLeft
          case isFalse more => exact .accepted went full answer more ⟨rfl, rfl, rfl, rfl⟩

/-- What a round can do. -/
theorem AtRound.round (handler : DataHandler) (lawful : inflater.Lawful)
    (atRound : AtRound decompressor stream input offered) :
    RoundOf handler (inflater.inflate stream input tempSize) input offered
      (decompressor.decompressRound inflater handler) := by
  have written_le := lawful.written_le stream input tempSize
  have nothing := @lawful.bufError stream input tempSize
  rw [decompressRound, atRound.inflate_eq]
  generalize inflater.inflate stream input tempSize = inflated at written_le nothing ⊢
  have resultEq : (inflatedTo inflated input offered).ziRes = inflated.result := rfl
  cases result : inflated.result with
  | ok =>
      rw [result] at resultEq
      simp only [resultEq]
      exact roundOf_went written_le (.inl result)
  | streamEnd =>
      rw [result] at resultEq
      simp only [resultEq]
      exact roundOf_went written_le (.inr result)
  | bufError =>
      have isNil := (nothing result).2.1
      rw [result] at resultEq
      simp only [resultEq, decompressHandleData_of_nil
        (show (inflatedTo inflated input offered).temp = [] from isNil), if_true]
      exact .again result isNil ⟨rfl, rfl, isNil, rfl⟩
  | error code =>
      rw [result] at resultEq
      simp only [resultEq]
      exact .failed result

/-- The loop returns. -/
def Returns (inflater : Inflater Stream) (handler : DataHandler)
    (decompressor : ZlibDataDecompressor Stream) : Prop :=
  ∃ fuel result, decompressor.decompressLoop inflater handler fuel = some result

theorem returns_of_inl {result : Bool × ZlibDataDecompressor Stream}
    (round : decompressor.decompressRound inflater handler = .inl result) :
    Returns inflater handler decompressor :=
  ⟨1, result, by rw [decompressLoop, round]⟩

variable {next : ZlibDataDecompressor Stream}

theorem decompressLoop_of_inr
    (round : decompressor.decompressRound inflater handler = .inr next) (fuel : Nat) :
    decompressor.decompressLoop inflater handler (fuel + 1) =
      next.decompressLoop inflater handler fuel := by
  rw [decompressLoop, round]

theorem returns_of_inr (round : decompressor.decompressRound inflater handler = .inr next)
    (returns : Returns inflater handler next) : Returns inflater handler decompressor := by
  rcases returns with ⟨fuel, result, run⟩
  exact ⟨fuel + 1, result, (decompressLoop_of_inr round fuel).trans run⟩

/-- What follows the end of a stream is neither taken nor dropped. -/
theorem decompressLoop_of_ended (lawful : inflater.Lawful) (ended : inflater.Ended stream)
    (zsiEq : decompressor.zsi = some stream) (more : decompressor.nextIn ≠ [])
    (notFull : decompressor.temp.length < tempSize) (fuel : Nat) :
    decompressor.decompressLoop inflater handler fuel = none := by
  induction fuel generalizing decompressor with
  | zero => rfl
  | succ fuel ih =>
      let next := { decompressor with ziRes := ZlibResult.streamEnd }
      have inflateEq : decompressor.inflate inflater = next := by
        rw [inflate, zsiEq]
        simp [lawful.ended_inflate ended, next, zsiEq]
      have room : next.availOut ≠ 0 := Nat.sub_ne_zero_of_lt notFull
      have round : decompressor.decompressRound inflater handler = .inr next := by
        rw [decompressRound, inflateEq]
        simp only [next] at room more ⊢
        simp only [room, more, if_false, Bool.true_eq_false]
      rw [decompressLoop_of_inr round]
      exact ih zsiEq more notFull

end ZlibDataDecompressor

/-- The library can not take the input that a stream goes on with: there is none, and nothing to
be written without; or there is some behind the end of the stream, and the handler takes the
buffers in front of it. -/
inductive Endless {Stream : Type u} (inflater : Inflater Stream) (handler : DataHandler)
    (offered : List (Block × Bool)) (stream : Stream) (input : Block) : Prop
  | starved (empty : input = []) (nothing : inflater.uncompressed stream [] = [])
      (unfinished : inflater.ending stream [] = .unfinished)
  | trailing {left : Nat} (some : left ≠ 0) (ended : inflater.ending stream input = .ended left)
      (takes : TakesFull handler offered (inflater.uncompressed stream input))

namespace Endless

variable {Stream : Type u} {inflater : Inflater Stream} {handler : DataHandler} {stream : Stream}
  {input : Block} {offered : List (Block × Bool)}

/-- A call that writes nothing leaves an endless rest. -/
theorem rest (lawful : inflater.Lawful) (endless : Endless inflater handler offered stream input)
    (nothing : (inflater.inflate stream input tempSize).written = []) :
    Endless inflater handler offered (inflater.inflate stream input tempSize).stream
      (input.drop (inflater.inflate stream input tempSize).taken) := by
  have uncompressedEq := lawful.uncompressed_eq stream input tempSize
  have endingEq := lawful.ending_eq stream input tempSize
  rw [nothing, List.nil_append] at uncompressedEq
  cases endless with
  | starved empty noData unfinished =>
      subst empty
      rw [List.drop_nil] at uncompressedEq endingEq ⊢
      exact .starved rfl (uncompressedEq.symm.trans noData) (endingEq.symm.trans unfinished)
  | trailing some ended takes =>
      exact .trailing some (endingEq.symm.trans ended) (uncompressedEq ▸ takes)

/-- A call that fills the buffer leaves an endless rest, if the handler takes it. -/
theorem iff_of_full (lawful : inflater.Lawful)
    (full : (inflater.inflate stream input tempSize).written.length = tempSize)
    (more : input.drop (inflater.inflate stream input tempSize).taken ≠ []) :
    Endless inflater handler offered stream input ↔
      handler offered (inflater.inflate stream input tempSize).written = true ∧
        Endless inflater handler
          (offered ++ [((inflater.inflate stream input tempSize).written, true)])
          (inflater.inflate stream input tempSize).stream
          (input.drop (inflater.inflate stream input tempSize).taken) := by
  have uncompressedEq := lawful.uncompressed_eq stream input tempSize
  have endingEq := lawful.ending_eq stream input tempSize
  constructor
  · rintro (⟨empty, -, -⟩ | ⟨some, ended, takes⟩)
    · rw [empty, List.drop_nil] at more
      exact absurd rfl more
    · rw [uncompressedEq, takesFull_append full] at takes
      exact ⟨takes.1, .trailing some (endingEq.symm.trans ended) takes.2⟩
  · rintro ⟨accepts, ⟨empty, -, -⟩ | ⟨some, ended, takes⟩⟩
    · exact absurd empty more
    · refine .trailing some (endingEq.trans ended) ?_
      rw [uncompressedEq, takesFull_append full]
      exact ⟨accepts, takes⟩

/-- The stream ends in front of the end of the input. -/
theorem of_ended (lawful : inflater.Lawful)
    (ended : inflater.Ended (inflater.inflate stream input tempSize).stream)
    (more : input.drop (inflater.inflate stream input tempSize).taken ≠ [])
    (takes : TakesFull handler offered (inflater.inflate stream input tempSize).written) :
    Endless inflater handler offered stream input := by
  have uncompressedEq := lawful.uncompressed_eq stream input tempSize
  have endingEq := lawful.ending_eq stream input tempSize
  rw [lawful.ended_uncompressed ended, List.append_nil] at uncompressedEq
  rw [lawful.ended_ending ended] at endingEq
  refine .trailing ?_ endingEq (uncompressedEq ▸ takes)
  exact fun none => more (List.eq_nil_of_length_eq_zero none)

/-- The call does not fail. -/
theorem not_error (lawful : inflater.Lawful)
    (endless : Endless inflater handler offered stream input) {code : Int} :
    (inflater.inflate stream input tempSize).result ≠ .error code := by
  intro isError
  have invalid := lawful.error isError
  cases endless with
  | starved empty _ unfinished =>
      subst empty
      exact absurd (invalid.symm.trans unfinished) nofun
  | trailing _ ended _ => exact absurd (invalid.symm.trans ended) nofun

/-- A call that goes on does not take all of the input. -/
theorem more (lawful : inflater.Lawful) (endless : Endless inflater handler offered stream input)
    (went : (inflater.inflate stream input tempSize).result = .ok ∨
      (inflater.inflate stream input tempSize).result = .streamEnd) :
    input.drop (inflater.inflate stream input tempSize).taken ≠ [] := by
  intro nothingLeft
  have uncompressedEq := lawful.uncompressed_eq stream input tempSize
  have endingEq := lawful.ending_eq stream input tempSize
  rw [nothingLeft] at uncompressedEq endingEq
  cases endless with
  | starved empty noData unfinished =>
      subst empty
      rw [noData] at uncompressedEq
      rw [unfinished] at endingEq
      rcases went with isOk | isEnd
      · have taken := Nat.le_zero.mp (lawful.taken_le stream [] tempSize)
        have written := (List.append_eq_nil_iff.mp uncompressedEq.symm).1
        exact (lawful.ok_progress isOk).elim (absurd taken) (absurd written)
      · rw [lawful.ended_ending (lawful.streamEnd isEnd)] at endingEq
        exact absurd endingEq nofun
  | trailing some ended takes =>
      exact some (Nat.le_zero.mp (lawful.left_le (endingEq.symm.trans ended)))

end Endless

namespace ZlibDataDecompressor

variable {Stream : Type u} {inflater : Inflater Stream} {handler : DataHandler}
  {decompressor : ZlibDataDecompressor Stream} {stream : Stream} {input : Block}
  {offered : List (Block × Bool)}

/-- A round that goes on without a full buffer has come to the end of the stream. -/
theorem ended_of_halted (lawful : inflater.Lawful)
    (went : (inflater.inflate stream input tempSize).result = .ok ∨
      (inflater.inflate stream input tempSize).result = .streamEnd)
    (notFull : (inflater.inflate stream input tempSize).written.length < tempSize)
    (more : input.drop (inflater.inflate stream input tempSize).taken ≠ []) :
    inflater.Ended (inflater.inflate stream input tempSize).stream := by
  rcases went with isOk | isEnd
  · rcases lawful.ok_stops isOk with taken | full
    · exact absurd (List.drop_eq_nil_of_le taken.ge) more
    · exact absurd full notFull.ne
  · exact lawful.streamEnd isEnd

/-- The loop goes on for ever. -/
theorem decompressLoop_of_endless (lawful : inflater.Lawful)
    (atRound : AtRound decompressor stream input offered)
    (endless : Endless inflater handler offered stream input) (fuel : Nat) :
    decompressor.decompressLoop inflater handler fuel = none := by
  induction fuel generalizing decompressor stream input offered with
  | zero => rfl
  | succ fuel ih =>
      have isRound := atRound.round handler lawful
      cases round : decompressor.decompressRound inflater handler with
      | inl answer =>
          rw [round] at isRound
          exfalso
          cases isRound with
          | failed isError => exact endless.not_error lawful isError
          | last went nothingLeft => exact endless.more lawful went nothingLeft
          | rejected went full rejects =>
              have accepts := ((Endless.iff_of_full lawful full (endless.more lawful went)).mp
                endless).1
              exact absurd (accepts.symm.trans rejects) nofun
      | inr next =>
          rw [round] at isRound
          rw [decompressLoop_of_inr round]
          cases isRound with
          | again isStuck nothing atNext =>
              exact ih atNext (endless.rest lawful nothing)
          | accepted went full accepts more atNext =>
              exact ih atNext ((Endless.iff_of_full lawful full more).mp endless).2
          | halted went notFull more zsiEq nextInEq tempEq =>
              exact decompressLoop_of_ended lawful (ended_of_halted lawful went notFull more) zsiEq
                (nextInEq ▸ more) (tempEq ▸ notFull) fuel

/-- The loop returns, if it does not go on for ever. -/
theorem returns_of_not_endless (lawful : inflater.Lawful) {size : Nat}
    (sizeEq : (inflater.uncompressed stream input).length = size)
    (atRound : AtRound decompressor stream input offered)
    (notEndless : ¬Endless inflater handler offered stream input) :
    Returns inflater handler decompressor := by
  -- Each round that goes on has handed over a full buffer of what is to be written.
  induction size using Nat.strong_induction_on generalizing decompressor stream input offered with
  | _ size ih =>
      have isRound := atRound.round handler lawful
      cases round : decompressor.decompressRound inflater handler with
      | inl answer => exact returns_of_inl round
      | inr next =>
          rw [round] at isRound
          cases isRound with
          | again isStuck nothing atNext =>
              rcases (lawful.bufError isStuck).2.2 with noRoom | ⟨empty, noData, unfinished⟩
              · exact absurd noRoom (by decide)
              · subst empty
                exact absurd (.starved rfl noData unfinished) notEndless
          | accepted went full accepts more atNext =>
              have lengthEq := congrArg List.length (lawful.uncompressed_eq stream input tempSize)
              rw [List.length_append, full, sizeEq] at lengthEq
              have positive : 0 < tempSize := by decide
              refine returns_of_inr round (ih _ ?_ rfl atNext ?_)
              · omega
              · intro endless
                exact notEndless ((Endless.iff_of_full lawful full more).mpr ⟨accepts, endless⟩)
          | halted went notFull more zsiEq nextInEq tempEq =>
              have ended := ended_of_halted lawful went notFull more
              exact absurd (.of_ended lawful ended more (takesFull_of_short notFull)) notEndless

/-- `decompress_next` terminates. -/
def Terminates (inflater : Inflater Stream) (handler : DataHandler) (input : Block)
    (decompressor : ZlibDataDecompressor Stream) : Prop :=
  ∃ fuel, (decompressor.decompressNext inflater handler fuel input).isSome = true

/-- The stream that a call goes on with: the one of the call before, or a new one if that one
has ended. -/
def goesOnWith (inflater : Inflater Stream) (decompressor : ZlibDataDecompressor Stream) :
    Option Stream :=
  match decompressor.ziRes with
  | .ok => decompressor.zsi
  | .streamEnd => inflater.inflateInit.toOption
  | _ => none

/-- A call that goes on with a stream is its loop. -/
theorem decompressNext_eq_loop (handler : DataHandler)
    (goesOn : decompressor.goesOnWith inflater = some stream) (input : Block) :
    ∃ ready, AtRound ready stream (input.take (limitCast input.length)) decompressor.offered ∧
      ∀ fuel, decompressor.decompressNext inflater handler fuel input =
        ready.decompressLoop inflater handler fuel := by
  refine ⟨(decompressor.fed input).initialized inflater, ?_⟩
  rcases decompressor with ⟨zsi, nextIn, temp, ziRes, offered⟩
  cases ziRes with
  | ok => exact ⟨⟨goesOn, rfl, rfl, rfl⟩, fun _ => rfl⟩
  | streamEnd =>
      simp only [goesOnWith] at goesOn
      simp only [decompressNext, initialized, fed, if_true]
      cases init : inflater.inflateInit with
      | ok fresh =>
          rw [init] at goesOn
          exact ⟨⟨goesOn, rfl, rfl, rfl⟩, fun _ => rfl⟩
      | error code =>
          rw [init] at goesOn
          exact absurd goesOn nofun
  | bufError => exact absurd goesOn nofun
  | error code => exact absurd goesOn nofun

/-- A call that does not go on with a stream returns. -/
theorem terminates_of_none (goesOn : decompressor.goesOnWith inflater = none) (input : Block) :
    Terminates inflater handler input decompressor := by
  refine ⟨1, ?_⟩
  rcases decompressor with ⟨zsi, nextIn, temp, ziRes, offered⟩
  cases ziRes with
  | ok =>
      simp only [goesOnWith] at goesOn
      subst goesOn
      rfl
  | streamEnd =>
      simp only [goesOnWith] at goesOn
      cases init : inflater.inflateInit with
      | ok fresh =>
          rw [init] at goesOn
          exact absurd goesOn nofun
      | error code => simp [decompressNext, initialized, fed, init]
  | bufError => rfl
  | error code => rfl

/-- A call terminates exactly if the stream that it goes on with is not endless. -/
theorem decompressNext_terminates_iff (lawful : inflater.Lawful) (handler : DataHandler)
    (input : Block) (decompressor : ZlibDataDecompressor Stream) :
    Terminates inflater handler input decompressor ↔
      ∀ stream, decompressor.goesOnWith inflater = some stream →
        ¬Endless inflater handler decompressor.offered stream
          (input.take (limitCast input.length)) := by
  cases goesOn : decompressor.goesOnWith inflater with
  | none =>
      exact iff_of_true (terminates_of_none goesOn input) fun stream isSome =>
        (Option.some_ne_none stream isSome.symm).elim
  | some stream =>
      rcases decompressNext_eq_loop handler goesOn input with ⟨ready, atRound, loopEq⟩
      constructor
      · rintro ⟨fuel, returned⟩ _ ⟨⟩ endless
        rw [loopEq, decompressLoop_of_endless lawful atRound endless] at returned
        exact Bool.false_ne_true returned
      · intro notEndless
        rcases returns_of_not_endless lawful rfl atRound (notEndless stream rfl) with
          ⟨fuel, result, run⟩
        exact ⟨fuel, by rw [loopEq, run, Option.isSome_some]⟩

/-- A stream that is stored in a block of its own. -/
theorem decompressNext_terminates_iff_stored :
    storedDecoder.inflater.Lawful ∧
      (Terminates storedDecoder.inflater (fun _ _ => true) (storedStream [0x2a]) {} ↔
        ∀ stream, goesOnWith storedDecoder.inflater {} = some stream →
          ¬Endless storedDecoder.inflater (fun _ _ => true) [] stream
            ((storedStream [0x2a]).take (limitCast (storedStream [0x2a]).length))) :=
  ⟨storedDecoder.inflater_lawful,
    decompressNext_terminates_iff storedDecoder.inflater_lawful (fun _ _ => true) _ {}⟩

/-- A byte behind the end of a stream is enough for a call not to return. -/
theorem not_forall_terminates :
    ¬∀ (inflater : Inflater StoredInflate), inflater.Lawful →
      ∀ handler input decompressor, Terminates inflater handler input decompressor := by
  intro terminates
  let input := storedStream [0x2a] ++ [0x00]
  rcases terminates storedDecoder.inflater storedDecoder.inflater_lawful (fun _ _ => true) input {}
    with ⟨fuel, returned⟩
  have ended : storedDecoder.inflater.ending .method (input.take (limitCast input.length)) =
      .ended 1 := by
    decide +kernel
  have short : (storedDecoder.inflater.uncompressed .method
      (input.take (limitCast input.length))).length < tempSize := by
    decide +kernel
  have goesOn : goesOnWith storedDecoder.inflater {} = some .method := rfl
  rcases decompressNext_eq_loop (fun _ _ => true) goesOn input with ⟨ready, atRound, loopEq⟩
  rw [loopEq, decompressLoop_of_endless storedDecoder.inflater_lawful atRound
    (.trailing Nat.one_ne_zero ended (takesFull_of_short short))] at returned
  exact absurd returned nofun

end ZlibDataDecompressor

end Eagine.Runtime
