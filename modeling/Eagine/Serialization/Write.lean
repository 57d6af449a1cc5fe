import Eagine.Serialization.Types

/-!
# Serializers

The serializer templates over an arbitrary backend: plain values and strings
go to the backend as spans, lists and tuples are framed by the begin and finish
calls of the backend, and a list of anything but plain values is written
element by element, each in a transaction of its own.  Errors accumulate in one
report, which guards every further step.
-/

namespace Eagine.Serialization

/-- The operations of a serializer backend over a block sink.  The two span
writers also return how many values were done. -/
structure SerializerBackend (L : Type) [Leaf L] where
  begin : SinkM SerializationErrors
  write : (leaf : L) → List (Leaf.Rep leaf) → SinkM (SerializationErrors × Nat)
  writeStrings : List Block → SinkM (SerializationErrors × Nat)
  beginStruct : Nat → SinkM SerializationErrors
  beginMember : Block → SinkM SerializationErrors
  finishMember : Block → SinkM SerializationErrors
  finishStruct : SinkM SerializationErrors
  beginList : Nat → SinkM SerializationErrors
  beginElement : Nat → SinkM SerializationErrors
  finishElement : Nat → SinkM SerializationErrors
  finishList : SinkM SerializationErrors
  finish : SinkM SerializationErrors

namespace Serializer

variable {L : Type} [Leaf L] (backend : SerializerBackend L)

/-- `plain_serializer`: the number of values done is not passed on. -/
def plainWrite (leaf : L) (values : List (Leaf.Rep leaf)) : SinkM SerializationErrors := do
  let result ← backend.write leaf values
  pure result.1

def stringWrite (str : Block) : SinkM SerializationErrors := do
  let result ← backend.writeStrings [str]
  pure result.1

/-- The element loop of `common_serializer::write`, from the element at
`index` and with the errors accumulated so far. -/
def commonWriteFrom {α : Type} (writeElem : α → SinkM SerializationErrors) :
    Nat → SerializationErrors → List α → SinkM SerializationErrors
  | _, errors, [] => pure errors
  | index, errors, elem :: rest => do
      let handle ← BlockDataSink.beginWork
      let begun ← backend.beginElement index
      let errors := errors ||| begun
      if errors.isEmpty then
        let written ← writeElem elem
        let finished ← backend.finishElement index
        let errors := errors ||| written ||| finished
        if errors.isEmpty then
          let committed ← BlockDataSink.commit handle
          commonWriteFrom writeElem (index + 1) (errors ||| committed) rest
        else if errors.hasAtMost .tooMuchData then
          BlockDataSink.rollback handle
          pure (errors.clear .tooMuchData ||| incomplete)
        else
          pure errors
      else if errors.hasOnly .tooMuchData then
        BlockDataSink.rollback handle
        pure (errors.clear .tooMuchData ||| incomplete)
      else
        pure errors

/-- `common_serializer::write`: a list of elements, each in its transaction. -/
def commonWrite {α : Type} (writeElem : α → SinkM SerializationErrors) (values : List α) :
    SinkM SerializationErrors :=
  commonWriteFrom backend writeElem 0 ∅ values

/-- The list overload of `serializer<T>::write`: plain types hand the whole
span to the backend, all others inherit the element loop. -/
def spanWrite : (ty : Ty L) → (ty.Rep → SinkM SerializationErrors) → List ty.Rep →
    SinkM SerializationErrors
  | .plain leaf, _, values => plainWrite backend leaf values
  | .string, writeElem, values => commonWrite backend writeElem values
  | .array _ _, writeElem, values => commonWrite backend writeElem values
  | .vector _, writeElem, values => commonWrite backend writeElem values
  | .tuple _, writeElem, values => commonWrite backend writeElem values
  | .struct _, writeElem, values => commonWrite backend writeElem values

/-- A list framed by its element count, common to arrays, vectors and spans. -/
def listWrite (count : Nat) (writeElems : SinkM SerializationErrors) :
    SinkM SerializationErrors := do
  let errors ← backend.beginList count
  if errors.isEmpty then
    let written ← writeElems
    let finished ← backend.finishList
    pure (errors ||| written ||| finished)
  else
    pure errors

/-- `_write_element` of the tuple serializer. -/
def elementWrite (index : Nat) (errors : SerializationErrors)
    (writeElem : SinkM SerializationErrors) : SinkM SerializationErrors :=
  if errors.isEmpty then do
    let begun ← backend.beginElement index
    let errors := errors ||| begun
    if errors.isEmpty then
      let written ← writeElem
      let finished ← backend.finishElement index
      pure (errors ||| written ||| finished)
    else
      pure errors
  else
    pure errors

/-- `_write_member` of the serializer of mapped data members. -/
def memberWrite (name : Block) (errors : SerializationErrors)
    (writeElem : SinkM SerializationErrors) : SinkM SerializationErrors :=
  if errors.isEmpty then do
    let begun ← backend.beginMember name
    let errors := errors ||| begun
    if errors.isEmpty then
      let written ← writeElem
      let finished ← backend.finishMember name
      pure (errors ||| written ||| finished)
    else
      pure errors
  else
    pure errors

mutual

/-- `serializer<T>::write` for a single value. -/
def write : (ty : Ty L) → ty.Rep → SinkM SerializationErrors
  | .plain leaf, value => plainWrite backend leaf [value]
  | .string, str => stringWrite backend str
  | .array elem size, values =>
      listWrite backend size (spanWrite backend elem (fun value => write elem value) values)
  | .vector elem, values =>
      listWrite backend (List.length values)
        (spanWrite backend elem (fun value => write elem value) values)
  | .tuple elems, values => do
      let errors ← backend.beginList elems.length
      if errors.isEmpty then
        let errors ← writeElements elems values 0 errors
        let finished ← backend.finishList
        pure (errors ||| finished)
      else
        pure errors
  | .struct members, values => do
      let errors ← backend.beginStruct members.length
      if errors.isEmpty then
        let errors ← writeMembers members values errors
        let finished ← backend.finishStruct
        pure (errors ||| finished)
      else
        pure errors

def writeElements : (elems : Elems L) → elems.Rep → Nat → SerializationErrors →
    SinkM SerializationErrors
  | .nil, _, _, errors => pure errors
  | .cons head tail, (value, values), index, errors => do
      let errors ← elementWrite backend index errors (write head value)
      writeElements tail values (index + 1) errors

def writeMembers : (members : Members L) → members.Rep → SerializationErrors →
    SinkM SerializationErrors
  | .nil, _, errors => pure errors
  | .cons name head tail, (value, values), errors => do
      let errors ← memberWrite backend name errors (write head value)
      writeMembers tail values errors

end

/-- `serialize`: the value framed by the begin and finish calls. -/
def serialize (ty : Ty L) (value : ty.Rep) : SinkM SerializationErrors := do
  let errors ← backend.begin
  let errors ←
    if errors.isEmpty then do
      let written ← write backend ty value
      let finished ← backend.finish
      pure (errors ||| written ||| finished)
    else
      pure errors
  let finalized ← BlockDataSink.finalize
  pure (errors ||| finalized)

end Serializer

end Eagine.Serialization
