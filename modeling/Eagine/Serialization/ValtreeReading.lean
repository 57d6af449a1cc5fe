import Eagine.Serialization.Yielding
import Eagine.ValueTree.JsonConversion

/-!
# What is read from a value tree

Members are read at their own attributes, but elements are read at the attribute of the list.
`FoundAt` is what that makes of an attribute, and `read_yields` lifts it to every type.
-/

/-!
## The value tree backend

The deserializer backend that reads from a value tree, here from that of a JSON document. It
keeps the attributes that it is in on a stack, and its errors until it is used again.
-/

namespace Eagine.Serialization

open ValueTree FromString

/-- `valtree_deserializer_backend`, but for its source. -/
structure ValtreeState where
  errors : DeserializationErrors := ∅
  attribs : List JsonNode := []

namespace ValtreeBackend

/-- The backend reports all of its errors, whichever of its calls were the cause. -/
def fail (error : DeserializationErrorCode) : ReadM ValtreeState DeserializationErrors :=
  fun state =>
    let errors := state.errors ||| .ofBit error
    some (errors, { state with errors := errors })

def report : ReadM ValtreeState DeserializationErrors := fun state =>
  some (state.errors, state)

/-- `do_read`. -/
def doRead {α : Type} (conversion : JsonValue → Option α) (targets : List α) :
    ReadM ValtreeState (DeserializationErrors × List α × Nat) := fun state =>
  match state.attribs with
  | attrib :: _ => do
      let values := attrib.value.fetchValues conversion targets.length
      let done := values.length
      let (errors, state) ←
        if done < targets.length then fail .notEnoughData state else report state
      some ((errors, values ++ targets.drop done, done), state)
  | [] => do
      let (errors, state) ← fail .backendError state
      some ((errors, targets, 0), state)

/-- `do_convert` to a type with the same values. -/
def doConvert {α : Type} (conversion : JsonValue → Option α) (zero : α) (targets : List α) :
    ReadM ValtreeState (DeserializationErrors × List α × Nat) := do
  let (errors, temp, done) ← doRead conversion (List.replicate targets.length zero)
  if done = targets.length then pure (errors, temp, done) else pure (errors, targets, done)

/-- `begin_struct` and `begin_list`. -/
def beginNested : ReadM ValtreeState (DeserializationErrors × Int) := fun state =>
  match state.attribs with
  | attrib :: _ => some ((state.errors, attrib.value.getNestedCount), state)
  | [] => do
      let (errors, state) ← fail .backendError state
      some ((errors, 0), state)

/-- `finish_member` and `finish`. -/
def popAttrib : ReadM ValtreeState DeserializationErrors := fun state =>
  match state.attribs with
  | _ :: attribs => report { state with attribs := attribs }
  | [] => fail .backendError state

section Backend

variable [ExpressionParser] [JsonLibrary]

def beginMember (name : Block) : ReadM ValtreeState DeserializationErrors := fun state =>
  match state.attribs with
  | attrib :: _ => do
      match ← attrib.nested name with
      | some nested => report { state with attribs := nested :: state.attribs }
      | none => fail .missingMember state
  | [] => fail .backendError state

/-- `begin`, with the document and the root that the backend may have. -/
def begin (document : JsonValue) (root : Option JsonNode) :
    ReadM ValtreeState DeserializationErrors := fun state =>
  match state.attribs with
  | [] => some (∅, ⟨∅, [root.getD ⟨[], document, none⟩]⟩)
  | _ => fail .backendError { state with errors := ∅ }

/-- The backend of a document. Elements of lists are begun and finished without going
anywhere. -/
def backend (document : JsonValue) (root : Option JsonNode) :
    DeserializerBackend ValtreeState TreeScalar where
  begin := begin document root
  read
    | .signed .longLong, targets =>
        doConvert (JsonValue.convert (.signed .longLong)) (BitVec.zero 64) targets
    | .unsigned .longLong, targets =>
        doConvert (JsonValue.convert (.unsigned .longLong)) (BitVec.zero 64) targets
    | scalar, targets => doRead (JsonValue.convert scalar) targets
  readStrings targets := doRead JsonValue.convertString targets
  beginStruct := beginNested
  beginMember := beginMember
  finishMember _ := popAttrib
  finishStruct := report
  beginList := beginNested
  beginElement _ := report
  finishElement _ := report
  finishList := report
  finish := popAttrib

end Backend

end ValtreeBackend

end Eagine.Serialization

namespace Eagine

open Serialization FromString
open Bitfield (empty_or)

namespace Serialization

open ValueTree

namespace ValtreeBackend

variable {α : Type} (conversion : JsonValue → Option α) (node : JsonNode)
  (attribs : List JsonNode)

/-- The state of the backend at an attribute, as long as there are no errors. -/
def settled : ValtreeState :=
  ⟨∅, node :: attribs⟩

theorem fail_settled (error : DeserializationErrorCode) :
    fail error (settled node attribs) = some (.ofBit error, ⟨.ofBit error, node :: attribs⟩) := by
  rw [fail, settled, empty_or]

theorem length_fetchValues_le (size : Nat) :
    (node.value.fetchValues conversion size).length ≤ size := by
  rw [JsonValue.fetchValues_eq]
  exact (JsonValue.length_convertWhile_le _).trans (List.length_take_le _ _)

theorem doRead_few (targets : List α)
    (few : (node.value.fetchValues conversion targets.length).length < targets.length) :
    ∃ values done, doRead conversion targets (settled node attribs) =
      some ((.ofBit .notEnoughData, values, done), ⟨.ofBit .notEnoughData, node :: attribs⟩) ∧
        done < targets.length := by
  have failed := fail_settled node attribs .notEnoughData
  rw [settled] at failed
  let fetched := node.value.fetchValues conversion targets.length
  refine ⟨fetched ++ targets.drop fetched.length, _, ?_, few⟩
  simp only [doRead, settled]
  rw [if_pos few, failed]
  rfl

theorem doRead_enough (targets : List α)
    (enough : (node.value.fetchValues conversion targets.length).length = targets.length) :
    doRead conversion targets (settled node attribs) =
      some ((∅, node.value.fetchValues conversion targets.length, targets.length),
        settled node attribs) := by
  simp only [doRead, settled]
  rw [if_neg (Nat.not_lt.mpr enough.ge), enough, List.drop_length, List.append_nil]
  rfl

theorem doConvert_few {zero : α} (targets : List α)
    (few : (node.value.fetchValues conversion targets.length).length < targets.length) :
    ∃ values done, doConvert conversion zero targets (settled node attribs) =
      some ((.ofBit .notEnoughData, values, done), ⟨.ofBit .notEnoughData, node :: attribs⟩) ∧
        done < targets.length := by
  have sameSize : (List.replicate targets.length zero).length = targets.length :=
    List.length_replicate
  rcases doRead_few conversion node attribs (List.replicate targets.length zero)
    (by rwa [sameSize]) with ⟨values, done, run, short⟩
  rw [sameSize] at short
  refine ⟨targets, done, ?_, short⟩
  rw [doConvert, read_bind_apply, run]
  simp only [Option.bind_some, if_neg short.ne]
  rfl

theorem doConvert_enough {zero : α} (targets : List α)
    (enough : (node.value.fetchValues conversion targets.length).length = targets.length) :
    doConvert conversion zero targets (settled node attribs) =
      some ((∅, node.value.fetchValues conversion targets.length, targets.length),
        settled node attribs) := by
  have sameSize : (List.replicate targets.length zero).length = targets.length :=
    List.length_replicate
  have run := doRead_enough conversion node attribs (List.replicate targets.length zero)
    (by rwa [sameSize])
  rw [sameSize] at run
  rw [doConvert, read_bind_apply, run]
  simp only [Option.bind_some, if_true]
  rfl

/-- A span is read where enough values of the attribute convert. -/
theorem span_yields {targets : List α}
    {operation : ReadM ValtreeState (DeserializationErrors × List α × Nat)}
    (few : (node.value.fetchValues conversion targets.length).length < targets.length →
      ∃ values done, operation (settled node attribs) =
        some ((.ofBit .notEnoughData, values, done), ⟨.ofBit .notEnoughData, node :: attribs⟩) ∧
          done < targets.length)
    (enough : (node.value.fetchValues conversion targets.length).length = targets.length →
      operation (settled node attribs) =
        some ((∅, node.value.fetchValues conversion targets.length, targets.length),
          settled node attribs)) :
    Yields (do let (errors, values, _) ← operation; pure (errors, values))
      (settled node attribs) (settled node attribs)
      (fun values => values.length = targets.length ∧ node.value.Converts conversion values) := by
  intro values after
  rw [read_bind_apply]
  beta_reduce
  rw [← JsonValue.fetchValues_iff]
  rcases Nat.lt_or_eq_of_le (length_fetchValues_le conversion node targets.length) with
    short | long
  · rcases few short with ⟨read, done, run, _⟩
    rw [run]
    constructor
    · intro success
      have noErrors : (.ofBit .notEnoughData : DeserializationErrors) = ∅ :=
        errors_of_pure success
      exact absurd noErrors (ne_empty_of_has_notEnoughData has_notEnoughData)
    · rintro ⟨⟨rfl, sameLength⟩, _⟩
      exact absurd sameLength short.ne
  · rw [enough long]
    constructor
    · rintro ⟨⟩
      exact ⟨⟨rfl, long⟩, rfl⟩
    · rintro ⟨⟨rfl, _⟩, rfl⟩
      rfl

section Backend

variable [ExpressionParser] [JsonLibrary] (document : JsonValue) (root : Option JsonNode)

theorem plainRead_yields (scalar : TreeScalar) (targets : List (Leaf.Rep scalar)) :
    Yields (Deserializer.plainRead (backend document root) scalar targets)
      (settled node attribs) (settled node attribs)
      (fun values => values.length = targets.length ∧
        node.value.Converts (JsonValue.convert scalar) values) := by
  have straight : Yields (do
      let (errors, values, _) ← doRead (JsonValue.convert scalar) targets
      pure (errors, values)) (settled node attribs) (settled node attribs) _ :=
    span_yields _ node attribs (doRead_few _ node attribs targets)
      (doRead_enough _ node attribs targets)
  cases scalar with
  | bool => exact straight
  | signed type =>
      cases type with
      | short => exact straight
      | int => exact straight
      | long => exact straight
      | longLong =>
          exact span_yields _ node attribs (doConvert_few _ node attribs targets)
            (doConvert_enough _ node attribs targets)
  | unsigned type =>
      cases type with
      | short => exact straight
      | int => exact straight
      | long => exact straight
      | longLong =>
          exact span_yields _ node attribs (doConvert_few _ node attribs targets)
            (doConvert_enough _ node attribs targets)

theorem stringRead_yields (targets : List Block) :
    Yields (Deserializer.stringRead (backend document root) targets)
      (settled node attribs) (settled node attribs)
      (fun values => values.length = targets.length ∧
        node.value.Converts JsonValue.convertString values) :=
  span_yields _ node attribs (doRead_few _ node attribs targets) (doRead_enough _ node attribs targets)

end Backend

open Deserializer in
/-- A read that expects a certain count between an opening and a closing call. -/
theorem counted_yields {α : Type} {node : JsonNode} {attribs : List JsonNode}
    {opening : ReadM ValtreeState (DeserializationErrors × Int)}
    {closing : ReadM ValtreeState DeserializationErrors}
    {missing excess : DeserializationErrorCode} {count : Nat} {target : α}
    {readElems : DeserializationErrors → ReadM ValtreeState (DeserializationErrors × α)}
    {accepted : α → Prop}
    (opened : opening (settled node attribs) =
      some ((∅, (node.value.getNestedCount : Int)), settled node attribs))
    (closed : closing (settled node attribs) = some (∅, settled node attribs))
    (missingFlag : (.ofBit missing : DeserializationErrors) ≠ ∅)
    (excessFlag : (.ofBit excess : DeserializationErrors) ≠ ∅)
    (yields : Yields (readElems ∅) (settled node attribs) (settled node attribs) accepted)
    (skips : ∀ errors, errors ≠ ∅ → readElems errors = pure (errors, target)) :
    Yields (do
        let (begun, found) ← opening
        let errors := begun ||| countErrors missing excess count found
        if errors.hasAtMost excess then
          let (errors, values) ← readElems errors
          let finished ← closing
          pure (errors ||| finished, values)
        else
          pure (errors, target))
      (settled node attribs) (settled node attribs)
      (fun values => count = node.value.getNestedCount ∧ accepted values) := by
  intro values after
  rw [read_bind_apply, opened, Option.bind_some]
  simp only [empty_or]
  by_cases counted : count = node.value.getNestedCount
  · subst counted
    have noErrors : countErrors missing excess node.value.getNestedCount
        node.value.getNestedCount = ∅ := by
      simp [countErrors]
    have goesOn : (∅ : DeserializationErrors).hasAtMost excess = true := by
      rw [Bitfield.hasAtMost, (Bitfield.isEmpty_iff ∅).mpr rfl, Bool.true_or]
    simp only [noErrors, goesOn, if_true, true_and]
    exact yields.closing closed values after
  · have reported : countErrors missing excess count node.value.getNestedCount ≠ ∅ := by
      rw [countErrors]
      split
      · exact missingFlag
      · rw [if_pos (by omega)]
        exact excessFlag
    constructor
    · intro success
      split at success
      · rw [skips _ reported, pure_bind] at success
        rcases read_bind_eq_some.mp success with ⟨finished, last, _, rest⟩
        exact absurd (Bitfield.or_eq_empty.mp (errors_of_pure rest)).1 reported
      · exact absurd (errors_of_pure success) reported
    · rintro ⟨⟨same, _⟩, _⟩
      exact absurd same counted

end ValtreeBackend

mutual

/-- The lists of the type are vectors and tuples. -/
def Ty.WithoutArrays : Ty TreeScalar → Prop
  | .plain _ => True
  | .string => True
  | .array _ _ => False
  | .vector elem => elem.WithoutArrays
  | .tuple elems => elems.WithoutArrays
  | .struct members => members.WithoutArrays

def Elems.WithoutArrays : Elems TreeScalar → Prop
  | .nil => True
  | .cons head tail => head.WithoutArrays ∧ tail.WithoutArrays

def Members.WithoutArrays : Members TreeScalar → Prop
  | .nil => True
  | .cons _ head tail => head.WithoutArrays ∧ tail.WithoutArrays

end

section Objects

variable [ExpressionParser] [JsonLibrary]

/-- The objects are what is read at the attribute, where single objects are what is `found`
there. -/
def Ty.SpanAt (node : JsonNode) : (ty : Ty TreeScalar) → (ty.Rep → Prop) → List ty.Rep → Prop
  | .plain scalar, _, values => node.value.Converts (JsonValue.convert scalar) values
  | .string, _, texts => node.value.Converts JsonValue.convertString texts
  | .array _ _, found, values => ∀ value ∈ values, found value
  | .vector _, found, values => ∀ value ∈ values, found value
  | .tuple _, found, values => ∀ value ∈ values, found value
  | .struct _, found, values => ∀ value ∈ values, found value

mutual

/-- The object is what is read at the attribute. -/
def Ty.FoundAt : (ty : Ty TreeScalar) → JsonNode → ty.Rep → Prop
  | .plain scalar, node, value => node.value.Converts (JsonValue.convert scalar) [value]
  | .string, node, text => node.value.Converts JsonValue.convertString [text]
  | .array elem size, node, values =>
      HasLength size values ∧ size = node.value.getNestedCount ∧
        elem.SpanAt node (fun value => elem.FoundAt node value) values
  | .vector elem, node, values =>
      HasLength node.value.getNestedCount values ∧
        elem.SpanAt node (fun value => elem.FoundAt node value) values
  | .tuple elems, node, values =>
      elems.length = node.value.getNestedCount ∧ elems.FoundAt node values
  | .struct members, node, values =>
      members.length = node.value.getNestedCount ∧ members.FoundAt node values

/-- The elements are all read at the attribute of the list. -/
def Elems.FoundAt : (elems : Elems TreeScalar) → JsonNode → elems.Rep → Prop
  | .nil, _, _ => True
  | .cons head tail, node, (value, values) => head.FoundAt node value ∧ tail.FoundAt node values

def Members.FoundAt : (members : Members TreeScalar) → JsonNode → members.Rep → Prop
  | .nil, _, _ => True
  | .cons name head tail, node, (value, values) =>
      (∃ child, node.nested name = some (some child) ∧ head.FoundAt child value) ∧
        tail.FoundAt node values

end

namespace ValtreeBackend

open Deserializer

variable (document : JsonValue) (root : Option JsonNode)

theorem vectorRead_yields {α : Type} {node : JsonNode} {attribs : List JsonNode} {fill : α}
    {targets : List α}
    {readElems : List α → ReadM ValtreeState (DeserializationErrors × List α)}
    {accepted : List α → Prop}
    (yields : ∀ targets : List α, Yields (readElems targets)
      (settled node attribs) (settled node attribs)
      (fun values => values.length = targets.length ∧ accepted values)) :
    Yields (vectorRead (backend document root) fill targets readElems)
      (settled node attribs) (settled node attribs)
      (fun values => HasLength node.value.getNestedCount values ∧ accepted values) := by
  have begun : (backend document root).beginList (settled node attribs) =
      some ((∅, (node.value.getNestedCount : Int)), settled node attribs) := rfl
  have finished : (backend document root).finishList (settled node attribs) =
      some (∅, settled node attribs) := rfl
  intro values after
  rw [vectorRead, read_bind_apply, begun, Option.bind_some]
  have noErrors : (∅ : DeserializationErrors).isEmpty = true := by decide
  have resized : (resize fill targets (node.value.getNestedCount : Int)) =
      some (targets.takeD node.value.getNestedCount fill) := rfl
  simp only [noErrors, if_true, resized, empty_or]
  have length : (targets.takeD node.value.getNestedCount fill).length =
      node.value.getNestedCount := List.takeD_length _ _ _
  have read := (yields (targets.takeD node.value.getNestedCount fill)).closing finished
  rw [length] at read
  exact read values after

theorem elementRead_yields {α : Type} {node : JsonNode} {attribs : List JsonNode} (index : Nat)
    (target : α) {readElem : ReadM ValtreeState (DeserializationErrors × α)}
    {accepted : α → Prop}
    (yields : Yields readElem (settled node attribs) (settled node attribs) accepted) :
    Yields (elementRead (backend document root) index ∅ target readElem)
      (settled node attribs) (settled node attribs) accepted := by
  have begun : (backend document root).beginElement index (settled node attribs) =
      some (∅, settled node attribs) := rfl
  have finished : (backend document root).finishElement index (settled node attribs) =
      some (∅, settled node attribs) := rfl
  have noErrors : (∅ : DeserializationErrors).isEmpty = true := by decide
  intro value after
  simp only [elementRead, noErrors, if_true]
  rw [read_bind_apply, begun, Option.bind_some]
  simp only [Bitfield.or_self, noErrors, if_true, empty_or]
  exact yields.closing finished value after

section Members

variable {node : JsonNode} {name : Block} (attribs : List JsonNode)

theorem beginMember_of_none (nestedEq : node.nested name = none) :
    (backend document root).beginMember name (settled node attribs) = none := by
  change (node.nested name).bind _ = _
  rw [nestedEq, Option.bind_none]

theorem beginMember_of_missing (nestedEq : node.nested name = some none) :
    (backend document root).beginMember name (settled node attribs) =
      some (.ofBit .missingMember, ⟨.ofBit .missingMember, node :: attribs⟩) := by
  change (node.nested name).bind _ = _
  rw [nestedEq, Option.bind_some]
  exact fail_settled node attribs .missingMember

theorem beginMember_of_child {child : JsonNode} (nestedEq : node.nested name = some (some child)) :
    (backend document root).beginMember name (settled node attribs) =
      some (∅, settled child (node :: attribs)) := by
  change (node.nested name).bind _ = _
  rw [nestedEq, Option.bind_some]
  rfl

end Members

/-- A member is read at its own attribute, if there is one. -/
theorem memberRead_yields {α : Type} {node : JsonNode} {attribs : List JsonNode} (name : Block)
    (target : α) {readElem : ReadM ValtreeState (DeserializationErrors × α)}
    {accepted : JsonNode → α → Prop}
    (yields : ∀ child, Yields readElem (settled child (node :: attribs))
      (settled child (node :: attribs)) (accepted child)) :
    Yields (memberRead (backend document root) name ∅ target readElem)
      (settled node attribs) (settled node attribs)
      (fun value => ∃ child, node.nested name = some (some child) ∧ accepted child value) := by
  have noErrors : (∅ : DeserializationErrors).isEmpty = true := by decide
  intro value after
  simp only [memberRead, noErrors, if_true]
  rw [read_bind_eq_some]
  cases nestedEq : node.nested name with
  | none =>
      rw [beginMember_of_none document root attribs nestedEq]
      constructor
      · rintro ⟨_, _, ⟨⟩, _⟩
      · rintro ⟨⟨_, ⟨⟩, _⟩, _⟩
  | some made =>
      cases made with
      | none =>
          rw [beginMember_of_missing document root attribs nestedEq]
          constructor
          · rintro ⟨_, _, ⟨⟩, rest⟩
            have reported : (.ofBit .missingMember : DeserializationErrors).isEmpty = false := by
              decide
            simp only [empty_or, reported, Bool.false_eq_true, if_false] at rest
            have empty : (.ofBit .missingMember : DeserializationErrors) = ∅ :=
              errors_of_pure rest
            exact absurd empty (by decide)
          · rintro ⟨⟨_, ⟨⟩, _⟩, _⟩
      | some child =>
          have begun := beginMember_of_child document root attribs nestedEq
          have finished : (backend document root).finishMember name
              (settled child (node :: attribs)) = some (∅, settled node attribs) := rfl
          have read := (yields child).closing finished value after
          have only : (∃ other, some (some child) = some (some other) ∧ accepted other value) ↔
              accepted child value := by
            constructor
            · rintro ⟨_, ⟨⟩, taken⟩
              exact taken
            · intro taken
              exact ⟨child, rfl, taken⟩
          rw [only, ← read, begun]
          constructor
          · rintro ⟨_, _, ⟨⟩, rest⟩
            simpa only [Bitfield.or_self, noErrors, if_true, empty_or] using rest
          · intro run
            refine ⟨_, _, rfl, ?_⟩
            simpa only [Bitfield.or_self, noErrors, if_true, empty_or] using run

theorem spanRead_yields (ty : Ty TreeScalar) {node : JsonNode} {attribs : List JsonNode}
    {readElem : ty.Rep → ReadM ValtreeState (DeserializationErrors × ty.Rep)}
    {found : ty.Rep → Prop}
    (yields : ∀ target, Yields (readElem target) (settled node attribs) (settled node attribs)
      found) (targets : List ty.Rep) :
    Yields (spanRead (backend document root) ty readElem targets)
      (settled node attribs) (settled node attribs)
      (fun values => values.length = targets.length ∧ ty.SpanAt node found values) := by
  have loop := commonReadFrom_yields yields targets
  cases ty with
  | plain scalar => exact plainRead_yields node attribs document root scalar targets
  | string => exact stringRead_yields node attribs document root targets
  | array elem size => exact loop
  | vector elem => exact loop
  | tuple elems => exact loop
  | struct members => exact loop

mutual

/-- At an attribute the reader yields just what is found there. -/
theorem read_yields (node : JsonNode) (attribs : List JsonNode) : (ty : Ty TreeScalar) →
    ty.WithoutArrays → (target : ty.Rep) →
      Yields (read (backend document root) ty target) (settled node attribs)
        (settled node attribs) (ty.FoundAt node)
  | .plain scalar, _, target => by
      rw [Deserializer.read]
      apply (coverOne_yields (plainRead_yields node attribs document root scalar [target])
        (fun values taken => taken.1)).congr
      intro value
      exact and_iff_right rfl
  | .string, _, target => by
      rw [Deserializer.read]
      apply (coverOne_yields (stringRead_yields node attribs document root [target])
        (fun values taken => taken.1)).congr
      intro value
      exact and_iff_right rfl
  | .array _ _, noArrays, _ => noArrays.elim
  | .vector elem, noArrays, targets => by
      have elemYields := fun target => read_yields node attribs elem noArrays target
      have spanYields := spanRead_yields document root elem elemYields
      rw [Deserializer.read]
      exact vectorRead_yields document root spanYields
  | .tuple elems, noArrays, targets => by
      rw [Deserializer.read]
      apply counted_yields rfl rfl (by decide) (by decide)
        (readElements_yields node attribs elems noArrays targets 0)
      intro errors reported
      exact readElements_errors reported elems targets 0
  | .struct members, noArrays, targets => by
      rw [Deserializer.read]
      apply counted_yields rfl rfl (by decide) (by decide)
        (readMembers_yields node attribs members noArrays targets)
      intro errors reported
      exact readMembers_errors reported members targets

theorem readElements_yields (node : JsonNode) (attribs : List JsonNode) :
    (elems : Elems TreeScalar) → elems.WithoutArrays → (targets : elems.Rep) → (index : Nat) →
      Yields (readElements (backend document root) elems targets index ∅) (settled node attribs)
        (settled node attribs) (elems.FoundAt node)
  | .nil, _, _, _ => by
      apply yields_pure.congr
      intro values
      exact ⟨fun _ => trivial, fun _ => rfl⟩
  | .cons head tail, noArrays, (target, targets), index => by
      have headYields := elementRead_yields document root index target
        (read_yields node attribs head noArrays.1 target)
      have tailYields := readElements_yields node attribs tail noArrays.2 targets (index + 1)
      have stops : ∀ errors, errors ≠ ∅ →
          readElements (backend document root) tail targets (index + 1) errors =
            pure (errors, targets) :=
        fun _ reported => readElements_errors reported tail targets (index + 1)
      have sequence := headYields.bind (keepsErrors_pair stops)
        (fun value _ => tailYields.map fun values => (value, values))
      rw [readElements]
      apply sequence.congr
      rintro ⟨value, values⟩
      constructor
      · rintro ⟨_, headFound, _, tailFound, ⟨⟩⟩
        exact ⟨headFound, tailFound⟩
      · rintro ⟨headFound, tailFound⟩
        exact ⟨value, headFound, values, tailFound, rfl⟩

theorem readMembers_yields (node : JsonNode) (attribs : List JsonNode) :
    (members : Members TreeScalar) → members.WithoutArrays → (targets : members.Rep) →
      Yields (readMembers (backend document root) members targets ∅) (settled node attribs)
        (settled node attribs) (members.FoundAt node)
  | .nil, _, _ => by
      apply yields_pure.congr
      intro values
      exact ⟨fun _ => trivial, fun _ => rfl⟩
  | .cons name head tail, noArrays, (target, targets) => by
      have headYields := memberRead_yields document root name target
        (fun child => read_yields child (node :: attribs) head noArrays.1 target)
      have tailYields := readMembers_yields node attribs tail noArrays.2 targets
      have stops : ∀ errors, errors ≠ ∅ →
          readMembers (backend document root) tail targets errors = pure (errors, targets) :=
        fun _ reported => readMembers_errors reported tail targets
      have sequence := headYields.bind (keepsErrors_pair stops)
        (fun value _ => tailYields.map fun values => (value, values))
      rw [readMembers]
      apply sequence.congr
      rintro ⟨value, values⟩
      constructor
      · rintro ⟨_, headFound, _, tailFound, ⟨⟩⟩
        exact ⟨headFound, tailFound⟩
      · rintro ⟨headFound, tailFound⟩
        exact ⟨value, headFound, values, tailFound, rfl⟩

end

/-- The backend reads at the root, and it can be used again afterwards. -/
theorem deserialize_yields (ty : Ty TreeScalar) (noArrays : ty.WithoutArrays) (target : ty.Rep)
    (errors : DeserializationErrors) :
    Yields (deserialize (backend document root) ty target) ⟨errors, []⟩ ⟨∅, []⟩
      (ty.FoundAt (root.getD ⟨[], document, none⟩)) := by
  let node := root.getD ⟨[], document, none⟩
  have begun : (backend document root).begin ⟨errors, []⟩ = some (∅, settled node []) := rfl
  have finished : (backend document root).finish (settled node []) = some (∅, ⟨∅, []⟩) := rfl
  have noErrors : (∅ : DeserializationErrors).isEmpty = true := by decide
  intro value after
  rw [deserialize, read_bind_apply, begun, Option.bind_some]
  simp only [noErrors, if_true, empty_or]
  exact (read_yields document root node [] ty noArrays target).closing finished value after

end ValtreeBackend

end Objects

end Serialization

end Eagine
