import Eagine.Serialization.Read
import Eagine.Serialization.Write

/-!
# Optional values

A `valid_if` is written as a list of one element if it has a value, and as an empty list if it
has none. `Layout` is the structure of a type that may have optional values anywhere, indexed
by what an object of the type holds, so that a policy can be a condition on the payload. The
templates for the other types are those of `Ty`.
-/

namespace Eagine.Serialization

open Deserializer (commonRead countErrors coverOne elementRead fixedRead memberRead plainRead
  stringRead vectorRead)

/-- The policies of `valid_if`: a flag beside the value, or a condition on the value itself. -/
inductive ValidPolicy (α : Type) where
  | flag
  | condition (holds : α → Bool)

namespace ValidPolicy

variable {α : Type}

/-- `_assign` of a value that was read. -/
def assign : ValidPolicy α → α → Option α
  | .flag, src => some src
  | .condition holds, src => if holds src then some src else none

/-- The default constructor, over the value-initialized payload. -/
def initial : ValidPolicy α → α → Option α
  | .flag, _ => none
  | .condition holds, value => if holds value then some value else none

end ValidPolicy

mutual

/-- Serializable types by what their objects hold. -/
inductive Layout (L : Type) [Leaf L] : Type → Type 1 where
  | plain (leaf : L) : Layout L (Leaf.Rep leaf)
  | string : Layout L Block
  | array {α : Type} (elem : Layout L α) (size : Nat) : Layout L (List α)
  | vector {α : Type} (elem : Layout L α) : Layout L (List α)
  | tuple {α : Type} (elems : ElemLayouts L α) : Layout L α
  | struct {α : Type} (members : MemberLayouts L α) : Layout L α
  | optional {α : Type} (policy : ValidPolicy α) (payload : Layout L α) : Layout L (Option α)

inductive ElemLayouts (L : Type) [Leaf L] : Type → Type 1 where
  | nil : ElemLayouts L Unit
  | cons {α β : Type} (head : Layout L α) (tail : ElemLayouts L β) : ElemLayouts L (α × β)

inductive MemberLayouts (L : Type) [Leaf L] : Type → Type 1 where
  | nil : MemberLayouts L Unit
  | cons {α β : Type} (name : Block) (head : Layout L α) (tail : MemberLayouts L β) :
      MemberLayouts L (α × β)

end

variable {L : Type} [Leaf L]

def ElemLayouts.length : {α : Type} → ElemLayouts L α → Nat
  | _, .nil => 0
  | _, .cons _ tail => tail.length + 1

def MemberLayouts.length : {α : Type} → MemberLayouts L α → Nat
  | _, .nil => 0
  | _, .cons _ _ tail => tail.length + 1

mutual

/-- The value-initialized object. -/
def Layout.zero : {α : Type} → Layout L α → α
  | _, .plain leaf => Leaf.zero leaf
  | _, .string => []
  | _, .array elem size => List.replicate size elem.zero
  | _, .vector _ => []
  | _, .tuple elems => elems.zero
  | _, .struct members => members.zero
  | _, .optional policy payload => policy.initial payload.zero

def ElemLayouts.zero : {α : Type} → ElemLayouts L α → α
  | _, .nil => ()
  | _, .cons head tail => (head.zero, tail.zero)

def MemberLayouts.zero : {α : Type} → MemberLayouts L α → α
  | _, .nil => ()
  | _, .cons _ head tail => (head.zero, tail.zero)

end

mutual

/-- What holds of every object. An optional one has a payload in any case, and a valid payload
is one that the policy accepts. -/
def Layout.Holds : {α : Type} → Layout L α → α → Prop
  | _, .plain _, _ => True
  | _, .string, str => IsSpanOf (fun _ : UInt8 => True) str
  | _, .array elem size, values => HasLength size values ∧ IsSpanOf elem.Holds values
  | _, .vector elem, values => IsSpanOf elem.Holds values
  | _, .tuple elems, values => elems.length < spanSizeLimit ∧ elems.Holds values
  | _, .struct members, values => members.length < spanSizeLimit ∧ members.Holds values
  | _, .optional policy payload, value =>
      payload.Holds payload.zero ∧
        ∀ held ∈ value, policy.assign held = some held ∧ payload.Holds held

def ElemLayouts.Holds : {α : Type} → ElemLayouts L α → α → Prop
  | _, .nil, _ => True
  | _, .cons head tail, values => head.Holds values.1 ∧ tail.Holds values.2

def MemberLayouts.Holds : {α : Type} → MemberLayouts L α → α → Prop
  | _, .nil, _ => True
  | _, .cons _ head tail, values => head.Holds values.1 ∧ tail.Holds values.2

end

theorem ValidPolicy.assign_of_initial {α : Type} {policy : ValidPolicy α} {zero held : α}
    (mem : held ∈ policy.initial zero) : held = zero ∧ policy.assign zero = some zero := by
  cases policy with
  | flag => cases mem
  | condition holds =>
      rw [ValidPolicy.initial] at mem
      by_cases accepted : holds zero = true
      · rw [if_pos accepted] at mem
        cases mem
        exact ⟨rfl, if_pos accepted⟩
      · rw [if_neg accepted] at mem
        cases mem

mutual

/-- Where an object exists at all, the value-initialized one is a proper object, too. -/
theorem Layout.zero_holds : {α : Type} → (layout : Layout L α) → (value : α) →
    layout.Holds value → layout.Holds layout.zero
  | _, .plain _, _, _ => trivial
  | _, .string, _, _ => ⟨Nat.two_pow_pos 63, fun _ _ => trivial⟩
  | _, .array elem size, values, holds => by
      refine ⟨List.length_replicate, ?_, ?_⟩
      · rw [Layout.zero, List.length_replicate, ← holds.1]
        exact holds.2.1
      · intro value mem
        rcases List.mem_replicate.mp mem with ⟨positive, rfl⟩
        have occupied : values ≠ [] := by
          rintro rfl
          exact positive holds.1.symm
        rcases List.exists_mem_of_ne_nil values occupied with ⟨other, otherMem⟩
        exact elem.zero_holds other (holds.2.2 other otherMem)
  | _, .vector _, _, _ => ⟨Nat.two_pow_pos 63, fun _ mem => absurd mem List.not_mem_nil⟩
  | _, .tuple elems, values, holds => ⟨holds.1, elems.zero_holds values holds.2⟩
  | _, .struct members, values, holds => ⟨holds.1, members.zero_holds values holds.2⟩
  | _, .optional policy payload, _, holds => by
      refine ⟨holds.1, ?_⟩
      intro held mem
      rcases ValidPolicy.assign_of_initial mem with ⟨rfl, accepted⟩
      exact ⟨accepted, holds.1⟩

theorem ElemLayouts.zero_holds : {α : Type} → (elems : ElemLayouts L α) → (values : α) →
    elems.Holds values → elems.Holds elems.zero
  | _, .nil, _, _ => trivial
  | _, .cons head tail, values, holds =>
      ⟨head.zero_holds values.1 holds.1, tail.zero_holds values.2 holds.2⟩

theorem MemberLayouts.zero_holds : {α : Type} → (members : MemberLayouts L α) → (values : α) →
    members.Holds values → members.Holds members.zero
  | _, .nil, _, _ => trivial
  | _, .cons _ head tail, values, holds =>
      ⟨head.zero_holds values.1 holds.1, tail.zero_holds values.2 holds.2⟩

end

/-- An object of the type. -/
structure Layout.Object {α : Type} (layout : Layout L α) where
  rep : α
  holds : layout.Holds rep

section Writing

variable (backend : SerializerBackend L)

/-- `serializer<valid_if>::write`. -/
def Serializer.optionalWrite {α : Type} (value : Option α)
    (writePayload : α → SinkM SerializationErrors) : SinkM SerializationErrors := do
  let errors ← backend.beginList value.isSome.toNat
  if errors.isEmpty then
    let errors ←
      match value with
      | some held => do
          let written ← writePayload held
          pure (errors ||| written)
      | none => pure errors
    let finished ← backend.finishList
    pure (errors ||| finished)
  else
    pure errors

open Serializer (commonWrite listWrite plainWrite)

/-- The list overload of `serializer<T>::write`, which plain types have of their own. -/
def Layout.spanWrite {α : Type} : Layout L α → (α → SinkM SerializationErrors) → List α →
    SinkM SerializationErrors
  | .plain leaf, _, values => plainWrite backend leaf values
  | .string, writeElem, values => commonWrite backend writeElem values
  | .array _ _, writeElem, values => commonWrite backend writeElem values
  | .vector _, writeElem, values => commonWrite backend writeElem values
  | .tuple _, writeElem, values => commonWrite backend writeElem values
  | .struct _, writeElem, values => commonWrite backend writeElem values
  | .optional _ _, writeElem, values => commonWrite backend writeElem values

mutual

/-- `serializer<T>::write` for a single object. -/
def Layout.write : {α : Type} → Layout L α → α → SinkM SerializationErrors
  | _, .plain leaf, value => plainWrite backend leaf [value]
  | _, .string, str => Serializer.stringWrite backend str
  | _, .array elem size, values =>
      listWrite backend size
        (elem.spanWrite backend (fun value => elem.write value) values)
  | _, .vector elem, values =>
      listWrite backend values.length
        (elem.spanWrite backend (fun value => elem.write value) values)
  | _, .tuple elems, values => do
      let errors ← backend.beginList elems.length
      if errors.isEmpty then
        let errors ← elems.write values 0 errors
        let finished ← backend.finishList
        pure (errors ||| finished)
      else
        pure errors
  | _, .struct members, values => do
      let errors ← backend.beginStruct members.length
      if errors.isEmpty then
        let errors ← members.write values errors
        let finished ← backend.finishStruct
        pure (errors ||| finished)
      else
        pure errors
  | _, .optional _ payload, value =>
      Serializer.optionalWrite backend value fun held => payload.write held

/-- `_write_elements` of the tuple serializer. -/
def ElemLayouts.write : {α : Type} → ElemLayouts L α → α → Nat → SerializationErrors →
    SinkM SerializationErrors
  | _, .nil, _, _, errors => pure errors
  | _, .cons head tail, values, index, errors => do
      let errors ← Serializer.elementWrite backend index errors (head.write values.1)
      tail.write values.2 (index + 1) errors

/-- `_write_members` of the serializer of mapped data members. -/
def MemberLayouts.write : {α : Type} → MemberLayouts L α → α → SerializationErrors →
    SinkM SerializationErrors
  | _, .nil, _, errors => pure errors
  | _, .cons name head tail, values, errors => do
      let errors ← Serializer.memberWrite backend name errors (head.write values.1)
      tail.write values.2 errors

end

/-- `serialize`. -/
def Layout.serialize {α : Type} (layout : Layout L α) (value : α) :
    SinkM SerializationErrors := do
  let errors ← backend.begin
  let errors ←
    if errors.isEmpty then do
      let written ← layout.write backend value
      let finished ← backend.finish
      pure (errors ||| written ||| finished)
    else
      pure errors
  let finalized ← BlockDataSink.finalize
  pure (errors ||| finalized)

end Writing

section Reading

variable {σ : Type} (backend : DeserializerBackend σ L)

/-- The report of the count of a list of at most one element. -/
def Deserializer.optionalCountErrors (found : Int) : DeserializationErrors :=
  if found < 0 then .ofBit .missingElement
  else if found > 1 then .ofBit .excessElement
  else ∅

/-- `deserializer<valid_if>::read`. The count is not looked at again: an element is read from
the empty list, too. -/
def Deserializer.optionalRead {α : Type} (policy : ValidPolicy α) (zero : α) (target : Option α)
    (readPayload : α → ReadM σ (DeserializationErrors × α)) :
    ReadM σ (DeserializationErrors × Option α) := do
  let (begun, found) ← backend.beginList
  let errors := begun ||| optionalCountErrors found
  if errors.isEmpty then
    let (read, temp) ← readPayload zero
    let finished ← backend.finishList
    let errors := errors ||| read ||| finished
    if errors.isEmpty then
      pure (errors, policy.assign temp)
    else
      pure (errors, target)
  else
    pure (errors, target)

/-- The span overload of `deserializer<T>::read`, which plain types and strings have of their
own. -/
def Layout.spanRead {α : Type} : Layout L α → (α → ReadM σ (DeserializationErrors × α)) →
    List α → ReadM σ (DeserializationErrors × List α)
  | .plain leaf, _, targets => plainRead backend leaf targets
  | .string, _, targets => stringRead backend targets
  | .array _ _, readElem, targets => commonRead readElem targets
  | .vector _, readElem, targets => commonRead readElem targets
  | .tuple _, readElem, targets => commonRead readElem targets
  | .struct _, readElem, targets => commonRead readElem targets
  | .optional _ _, readElem, targets => commonRead readElem targets

mutual

/-- `deserializer<T>::read` into a single object. -/
def Layout.read : {α : Type} → Layout L α → α → ReadM σ (DeserializationErrors × α)
  | _, .plain leaf, target =>
      coverOne (plainRead backend leaf) target
  | _, .string, target => coverOne (stringRead backend) target
  | _, .array elem size, targets =>
      fixedRead backend size targets fun errors => do
        let (read, values) ← elem.spanRead backend (fun target => elem.read target) targets
        pure (errors ||| read, values)
  | _, .vector elem, targets =>
      vectorRead backend elem.zero targets fun resized =>
        elem.spanRead backend (fun target => elem.read target) resized
  | _, .tuple elems, targets =>
      fixedRead backend elems.length targets fun errors =>
        elems.read targets 0 errors
  | _, .struct members, targets => do
      let (begun, found) ← backend.beginStruct
      let errors := begun |||
        countErrors .missingMember .excessMember members.length found
      if errors.hasAtMost .excessMember then
        let (errors, values) ← members.read targets errors
        let finished ← backend.finishStruct
        pure (errors ||| finished, values)
      else
        pure (errors, targets)
  | _, .optional policy payload, target =>
      Deserializer.optionalRead backend policy payload.zero target fun temp => payload.read temp

/-- `_read_elements` of the tuple deserializer. -/
def ElemLayouts.read : {α : Type} → ElemLayouts L α → α → Nat → DeserializationErrors →
    ReadM σ (DeserializationErrors × α)
  | _, .nil, targets, _, errors => pure (errors, targets)
  | _, .cons head tail, targets, index, errors => do
      let (errors, value) ←
        elementRead backend index errors targets.1 (head.read targets.1)
      let (errors, values) ← tail.read targets.2 (index + 1) errors
      pure (errors, (value, values))

/-- `_read_members` of the deserializer of mapped data members. -/
def MemberLayouts.read : {α : Type} → MemberLayouts L α → α → DeserializationErrors →
    ReadM σ (DeserializationErrors × α)
  | _, .nil, targets, errors => pure (errors, targets)
  | _, .cons name head tail, targets, errors => do
      let (errors, value) ←
        memberRead backend name errors targets.1 (head.read targets.1)
      let (errors, values) ← tail.read targets.2 errors
      pure (errors, (value, values))

end

/-- `deserialize`. -/
def Layout.deserialize {α : Type} (layout : Layout L α) (target : α) :
    ReadM σ (DeserializationErrors × α) := do
  let errors ← backend.begin
  if errors.isEmpty then
    let (read, value) ← layout.read backend target
    let finished ← backend.finish
    pure (errors ||| read ||| finished, value)
  else
    pure (errors, target)

end Reading

end Eagine.Serialization
