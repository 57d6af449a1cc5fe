import Eagine.Serialization.Types

/-!
# Deserializers

The deserializer templates over an arbitrary backend and source.  A reader gets
the object it reads into and returns it together with the report: a failed read
may have changed a part of the object.  Lists and tuples check the element
count they find against the count they expect.
-/

namespace Eagine.Serialization

/-- The operations of a deserializer backend over a source with states `σ`.
The span readers also return how many values were done, and the begin calls
the count they found. -/
structure DeserializerBackend (σ L : Type) [Leaf L] where
  begin : ReadM σ DeserializationErrors
  read : (leaf : L) → List (Leaf.Rep leaf) →
    ReadM σ (DeserializationErrors × List (Leaf.Rep leaf) × Nat)
  readStrings : List Block → ReadM σ (DeserializationErrors × List Block × Nat)
  beginStruct : ReadM σ (DeserializationErrors × Int)
  beginMember : Block → ReadM σ DeserializationErrors
  finishMember : Block → ReadM σ DeserializationErrors
  finishStruct : ReadM σ DeserializationErrors
  beginList : ReadM σ (DeserializationErrors × Int)
  beginElement : Nat → ReadM σ DeserializationErrors
  finishElement : Nat → ReadM σ DeserializationErrors
  finishList : ReadM σ DeserializationErrors
  finish : ReadM σ DeserializationErrors

namespace Deserializer

variable {σ L : Type} [Leaf L] (backend : DeserializerBackend σ L)

/-- `plain_deserializer`: the number of values done is not passed on. -/
def plainRead (leaf : L) (targets : List (Leaf.Rep leaf)) :
    ReadM σ (DeserializationErrors × List (Leaf.Rep leaf)) := do
  let (errors, values, _) ← backend.read leaf targets
  pure (errors, values)

def stringRead (targets : List Block) : ReadM σ (DeserializationErrors × List Block) := do
  let (errors, values, _) ← backend.readStrings targets
  pure (errors, values)

/-- A single object as a span of one element. -/
def coverOne {α : Type} (read : List α → ReadM σ (DeserializationErrors × List α)) (target : α) :
    ReadM σ (DeserializationErrors × α) := do
  let (errors, values) ← read [target]
  pure (errors, values.headD target)

/-- The element loop of `common_deserializer::read`, with the errors
accumulated so far. -/
def commonReadFrom {α : Type} (readElem : α → ReadM σ (DeserializationErrors × α)) :
    DeserializationErrors → List α → ReadM σ (DeserializationErrors × List α)
  | errors, [] => pure (errors, [])
  | errors, elem :: rest => do
      let (found, value) ← readElem elem
      let errors := errors ||| found
      if errors.has .notEnoughData || errors.has .backendError then
        pure (errors, value :: rest)
      else
        let (errors, values) ← commonReadFrom readElem errors rest
        pure (errors, value :: values)

/-- `common_deserializer::read`: the elements of a list, one after another. -/
def commonRead {α : Type} (readElem : α → ReadM σ (DeserializationErrors × α))
    (targets : List α) : ReadM σ (DeserializationErrors × List α) :=
  commonReadFrom readElem ∅ targets

/-- The span overload of `deserializer<T>::read`: plain types and strings hand
the whole span to the backend, arrays inherit the element loop.  Vectors, tuples
and structures have none that compiles, and for those it is the loop that they
would inherit: no type that `Ty.hasReader` gets there. -/
def spanRead : (ty : Ty L) → (ty.Rep → ReadM σ (DeserializationErrors × ty.Rep)) →
    List ty.Rep → ReadM σ (DeserializationErrors × List ty.Rep)
  | .plain leaf, _, targets => plainRead backend leaf targets
  | .string, _, targets => stringRead backend targets
  | .array _ _, readElem, targets => commonRead readElem targets
  | .vector _, readElem, targets => commonRead readElem targets
  | .tuple _, readElem, targets => commonRead readElem targets
  | .struct _, readElem, targets => commonRead readElem targets

/-- The report of a count that differs from the expected one. -/
def countErrors (missing excess : DeserializationErrorCode) (expected : Nat) (found : Int) :
    DeserializationErrors :=
  if found < expected then .ofBit missing
  else if found > expected then .ofBit excess
  else ∅

/-- A list of a fixed number of elements, common to arrays and tuples. -/
def fixedRead {α : Type} (count : Nat) (target : α)
    (readElems : DeserializationErrors → ReadM σ (DeserializationErrors × α)) :
    ReadM σ (DeserializationErrors × α) := do
  let (begun, found) ← backend.beginList
  let errors := begun ||| countErrors .missingElement .excessElement count found
  if errors.hasAtMost .excessElement then
    let (errors, values) ← readElems errors
    let finished ← backend.finishList
    pure (errors ||| finished, values)
  else
    pure (errors, target)

/-- `std::vector::resize`; it throws through a noexcept function, which ends
the program, when the new size is negative. -/
def resize {α : Type} (fill : α) (values : List α) : Int → Option (List α)
  | .ofNat size => some (values.takeD size fill)
  | .negSucc _ => none

/-- A list of as many elements as its count says. -/
def vectorRead {α : Type} (fill : α) (targets : List α)
    (readElems : List α → ReadM σ (DeserializationErrors × List α)) :
    ReadM σ (DeserializationErrors × List α) := do
  let (errors, found) ← backend.beginList
  if errors.isEmpty then
    let resized ← (resize fill targets found : Option (List α))
    let (read, values) ← readElems resized
    let finished ← backend.finishList
    pure (errors ||| read ||| finished, values)
  else
    pure (errors, targets)

/-- `_read_element` of the tuple deserializer. -/
def elementRead {α : Type} (index : Nat) (errors : DeserializationErrors) (target : α)
    (readElem : ReadM σ (DeserializationErrors × α)) : ReadM σ (DeserializationErrors × α) :=
  if errors.isEmpty then do
    let begun ← backend.beginElement index
    let errors := errors ||| begun
    if errors.isEmpty then
      let (read, value) ← readElem
      let finished ← backend.finishElement index
      pure (errors ||| read ||| finished, value)
    else
      pure (errors, target)
  else
    pure (errors, target)

/-- `_read_member` of the deserializer of mapped data members. -/
def memberRead {α : Type} (name : Block) (errors : DeserializationErrors) (target : α)
    (readElem : ReadM σ (DeserializationErrors × α)) : ReadM σ (DeserializationErrors × α) :=
  if errors.isEmpty then do
    let begun ← backend.beginMember name
    let errors := errors ||| begun
    if errors.isEmpty then
      let (read, value) ← readElem
      let finished ← backend.finishMember name
      pure (errors ||| read ||| finished, value)
    else
      pure (errors, target)
  else
    pure (errors, target)

mutual

/-- `deserializer<T>::read` into a single object. -/
def read : (ty : Ty L) → ty.Rep → ReadM σ (DeserializationErrors × ty.Rep)
  | .plain leaf, target => coverOne (plainRead backend leaf) target
  | .string, target => coverOne (stringRead backend) target
  | .array elem size, targets =>
      fixedRead backend size targets fun errors => do
        let (read, values) ← spanRead backend elem (fun target => read elem target) targets
        pure (errors ||| read, values)
  | .vector elem, targets =>
      vectorRead backend elem.zero targets fun resized =>
        spanRead backend elem (fun target => read elem target) resized
  | .tuple elems, targets =>
      fixedRead backend elems.length targets fun errors => readElements elems targets 0 errors
  | .struct members, targets => do
      let (begun, found) ← backend.beginStruct
      let errors := begun ||| countErrors .missingMember .excessMember members.length found
      if errors.hasAtMost .excessMember then
        let (errors, values) ← readMembers members targets errors
        let finished ← backend.finishStruct
        pure (errors ||| finished, values)
      else
        pure (errors, targets)

def readElements : (elems : Elems L) → elems.Rep → Nat → DeserializationErrors →
    ReadM σ (DeserializationErrors × elems.Rep)
  | .nil, targets, _, errors => pure (errors, targets)
  | .cons head tail, (target, targets), index, errors => do
      let (errors, value) ← elementRead backend index errors target (read head target)
      let (errors, values) ← readElements tail targets (index + 1) errors
      pure (errors, (value, values))

def readMembers : (members : Members L) → members.Rep → DeserializationErrors →
    ReadM σ (DeserializationErrors × members.Rep)
  | .nil, targets, errors => pure (errors, targets)
  | .cons name head tail, (target, targets), errors => do
      let (errors, value) ← memberRead backend name errors target (read head target)
      let (errors, values) ← readMembers tail targets errors
      pure (errors, (value, values))

end

/-- `deserialize`: the value between the begin and finish calls. -/
def deserialize (ty : Ty L) (target : ty.Rep) : ReadM σ (DeserializationErrors × ty.Rep) := do
  let errors ← backend.begin
  if errors.isEmpty then
    let (read, value) ← read backend ty target
    let finished ← backend.finish
    pure (errors ||| read ||| finished, value)
  else
    pure (errors, target)

/-- `deserialize` for a type that may have no reader: no program calls it for such a type. -/
def compiledDeserialize (isBool : L → Bool) (ty : Ty L) (target : ty.Rep) :
    ReadM σ (DeserializationErrors × ty.Rep) :=
  if ty.hasReader isBool then deserialize backend ty target else fun _ => none

theorem compiledDeserialize_eq_some {isBool : L → Bool} {ty : Ty L} {target : ty.Rep} {state : σ}
    {result : (DeserializationErrors × ty.Rep) × σ} :
    compiledDeserialize backend isBool ty target state = some result ↔
      ty.hasReader isBool = true ∧ deserialize backend ty target state = some result := by
  unfold compiledDeserialize
  split
  · next compiles => exact (and_iff_right compiles).symm
  · next missing => exact iff_of_false nofun fun run => missing run.1

end Deserializer

end Eagine.Serialization
