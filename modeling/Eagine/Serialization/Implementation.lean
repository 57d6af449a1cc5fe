import Eagine.Serialization.Block

/-!
# Common parts of deserializer backends

Scanning the top of a source for a delimiter, and consuming or requiring
literal text.  A scan looks at the source in steps of whole blocks, so a
delimiter behind `max` bytes is still found if it is in the same step; without
a delimiter a long source is reported to have one at `max`.
-/

namespace Eagine.Serialization

/-- The code unit of a character literal. -/
def byteOf (char : Char) : UInt8 :=
  UInt8.ofNat char.toNat

/-- The default step of a scan. -/
def scanStep : Nat :=
  256

namespace BlockDataSource

/-- The loop of `scan_until`; the fuel bounds the number of its iterations. -/
def scanUntilFrom (source : BlockDataSource) (predicate : UInt8 → Bool) (max step : Nat) :
    Nat → Nat → Nat → Option Nat
  | 0, _, _ => none
  | fuel + 1, start, total =>
      let blk := source.top total
      if blk.isEmpty then none
      else
        match (blk.drop start).findIdx? predicate with
        | some found => some (start + found)
        | none =>
            if blk.length < total then none
            else if max < total then some max
            else scanUntilFrom source predicate max step fuel (start + step) (total + step)

/-- `scan_until`: every iteration adds a step to the total, so that it ends
before there are more iterations than bytes to scan. -/
def scanUntil (source : BlockDataSource) (predicate : UInt8 → Bool) (max step : Nat) :
    Option Nat :=
  scanUntilFrom source predicate max step (max + 1) 0 step

def scanFor (source : BlockDataSource) (what : UInt8) (max step : Nat) : Option Nat :=
  scanUntil source (· == what) max step

/-- `string_before`: the text up to a delimiter, empty if there is none. -/
def stringBefore (source : BlockDataSource) (delimiter : UInt8) (max : Nat) : Block :=
  source.top ((source.scanFor delimiter max scanStep).getD 0)

end BlockDataSource

def topString (size : Nat) : SourceM Block := fun source =>
  some (source.top size, source)

def popTop (size : Nat) : SourceM Unit := fun source =>
  some ((), source.pop size)

/-- `consume`: takes the text from the top, if it is there. -/
def consume (what : Block) : SourceM (Bool × DeserializationErrors) := fun source =>
  let topStr := source.top what.length
  if topStr.length < what.length then some ((false, .ofBit .notEnoughData), source)
  else if topStr = what then some ((true, ∅), source.pop what.length)
  else some ((false, .ofBit .unexpectedData), source)

/-- `require`: like `consume`, but other text is a format error. -/
def require (what : Block) : SourceM DeserializationErrors := fun source =>
  let topStr := source.top what.length
  if topStr.length < what.length then some (.ofBit .notEnoughData, source)
  else if topStr = what then some (∅, source.pop what.length)
  else some (.ofBit .invalidFormat, source)

/-- The loop of `consume_until`; every iteration but the last consumes data. -/
def consumeUntilFrom (predicate : UInt8 → Bool) : Nat → SourceM Unit
  | 0, source => some ((), source)
  | fuel + 1, source =>
      match source.scanUntil predicate scanStep scanStep with
      | none => some ((), source)
      | some 0 => some ((), source)
      | some (pos + 1) => consumeUntilFrom predicate fuel (source.pop (pos + 1))

def consumeUntil (predicate : UInt8 → Bool) : SourceM Unit := fun source =>
  consumeUntilFrom predicate (source.remaining.length + 1) source

/-- The loop of a `do_read` that goes value by value, with the number of values done so far. -/
def doReadFrom {α : Type} (readOne : α → SourceM (DeserializationErrors × α)) :
    Nat → List α → SourceM (DeserializationErrors × List α × Nat)
  | done, [] => pure (∅, [], done)
  | done, target :: targets => do
      let (errors, value) ← readOne target
      if errors.isEmpty then
        let (errors, values, done) ← doReadFrom readOne (done + 1) targets
        pure (errors, value :: values, done)
      else
        pure (errors, value :: targets, done)

section Text

open BlockDataSource (scanFor scanUntil scanUntilFrom stringBefore top)

variable {source : BlockDataSource} {rest : Block} {text : Block}

theorem top_of_append (starts : source.remaining = text ++ rest) :
    source.top text.length = text := by
  rw [top, starts, List.take_left]

theorem require_of_append (starts : source.remaining = text ++ rest) :
    require text source = some (∅, source.pop text.length) := by
  simp [require, top_of_append starts]

theorem consume_of_append (starts : source.remaining = text ++ rest) :
    consume text source = some ((true, ∅), source.pop text.length) := by
  simp [consume, top_of_append starts]

variable {delimiter : UInt8}

/-- A delimiter within the first step is found, however small `max` is. -/
theorem scanFor_of_append
    (starts : source.remaining = text ++ delimiter :: rest) (absent : delimiter ∉ text)
    (short : text.length < scanStep) (max : Nat) :
    source.scanFor delimiter max scanStep = some text.length := by
  have blkEq : source.top scanStep = text ++ (delimiter :: rest).take (scanStep - text.length) := by
    rw [top, starts, List.take_append, List.take_of_length_le short.le]
  rcases Nat.exists_eq_add_of_lt short with ⟨more, moreEq⟩
  have restEq : (delimiter :: rest).take (scanStep - text.length) =
      delimiter :: rest.take more := by
    have stepEq : scanStep - text.length = more + 1 := by omega
    rw [stepEq, List.take_succ_cons]
  have notInText : text.findIdx? (· == delimiter) = none := by
    rw [List.findIdx?_eq_none_iff]
    intro byte mem
    rw [beq_eq_false_iff_ne]
    rintro rfl
    exact absent mem
  have found : (source.top scanStep).findIdx? (· == delimiter) = some text.length := by
    rw [blkEq, restEq, List.findIdx?_append, notInText]
    simp [List.findIdx?_cons]
  have nonempty : (source.top scanStep).isEmpty = false := by
    rw [blkEq, restEq]
    simp
  simp [scanFor, scanUntil, scanUntilFrom,
    nonempty, found]

/-- Where a short source has no delimiter, there is no text in front of it. -/
theorem stringBefore_of_absent (absent : delimiter ∉ source.remaining)
    (short : source.remaining.length < scanStep) (max : Nat) :
    source.stringBefore delimiter max = [] := by
  have blkEq : source.top scanStep = source.remaining := by
    rw [top, List.take_of_length_le short.le]
  have notFound : source.remaining.findIdx? (· == delimiter) = none := by
    rw [List.findIdx?_eq_none_iff]
    intro byte mem
    rw [beq_eq_false_iff_ne]
    rintro rfl
    exact absent mem
  have missing : source.scanFor delimiter max scanStep = none := by
    simp only [scanFor, scanUntil,
      scanUntilFrom, List.drop_zero, blkEq, notFound, if_pos short]
    split <;> rfl
  rw [stringBefore, missing]
  rfl

theorem stringBefore_of_append
    (starts : source.remaining = text ++ delimiter :: rest) (absent : delimiter ∉ text)
    (short : text.length < scanStep) (max : Nat) :
    source.stringBefore delimiter max = text := by
  rw [stringBefore, scanFor_of_append starts absent short, Option.getD_some,
    top_of_append starts]

/-- Nothing is skipped in front of a byte at which the skipping stops. -/
theorem consumeUntil_of_cons {predicate : UInt8 → Bool} {byte : UInt8}
    (starts : source.remaining = byte :: rest) (stops : predicate byte = true) :
    consumeUntil predicate source = some ((), source) := by
  have blkEq : source.top scanStep = byte :: rest.take 255 := by
    rw [top, starts]
    rfl
  have found : (byte :: rest.take 255).findIdx? predicate = some 0 := by
    simp [List.findIdx?_cons, stops]
  simp [consumeUntil, consumeUntilFrom, scanUntil,
    scanUntilFrom, blkEq, found]

end Text

end Eagine.Serialization
