import Eagine.ValueTree.Traversal

/-!
# Delivery of documents

What a visitor is handed between which of its calls, against the values that a document has.
-/

open List

namespace Eagine.ValueTree

open Serialization FromString

/-- The values of documents that are to be handed to visitors. -/
inductive LeafValue where
  | bool (value : Bool)
  | integer (value : Int)
  | string (text : Block)
deriving DecidableEq

/-- What values are contained in. -/
inductive Container where
  | attribute (name : Block)
  | list
deriving DecidableEq

/-- A value, with the innermost attribute or list that contains it. -/
abbrev Delivery := Option Container × LeafValue

namespace VisitorEvent

/-- What is open after a call: attributes, lists, and structures, which are no containers. -/
def opened : VisitorEvent → List (Option Container) → List (Option Container)
  | .beginStruct, frames => none :: frames
  | .beginList, frames => some .list :: frames
  | .beginAttribute name, frames => some (.attribute name) :: frames
  | .finishStruct, frames => frames.tail
  | .finishList, frames => frames.tail
  | .finishAttribute _, frames => frames.tail
  | _, frames => frames

def consumed : VisitorEvent → List LeafValue
  | .consumeBools values => values.map .bool
  | .consumeInts values => values.map fun value => .integer value.toInt
  | .consumeStrings texts => texts.map .string
  | _ => []

end VisitorEvent

def innermost (frames : List (Option Container)) : Option Container :=
  frames.findSome? id

def framesAfter (events : List VisitorEvent) : List (Option Container) :=
  events.foldl (fun frames event => event.opened frames) []

/-- The values that the visitor is handed, with what is open around them. -/
def deliveriesFrom (frames : List (Option Container)) : List VisitorEvent → List Delivery
  | [] => []
  | event :: events =>
      event.consumed.map (fun leaf => (innermost frames, leaf)) ++
        deliveriesFrom (event.opened frames) events

def deliveries (events : List VisitorEvent) : List Delivery :=
  deliveriesFrom [] events

namespace JsonValue

/-- Values that are to be handed to visitors. -/
def IsLeaf : JsonValue → Prop
  | .bool _ => True
  | .integer _ => True
  | .string _ => True
  | _ => False

mutual

/-- The truth values, integers and strings of a document. -/
def leaves (container : Option Container) : JsonValue → List Delivery
  | .null => []
  | .bool value => [(container, .bool value)]
  | .integer number => [(container, .integer number.value)]
  | .real _ => []
  | .string text => [(container, .string text)]
  | .array elements => leavesOfElements elements
  | .object members => leavesOfMembers members

def leavesOfElements : List JsonValue → List Delivery
  | [] => []
  | element :: elements => leaves (some .list) element ++ leavesOfElements elements

def leavesOfMembers : List (Block × JsonValue) → List Delivery
  | [] => []
  | (name, value) :: members => leaves (some (.attribute name)) value ++ leavesOfMembers members

end

mutual

/-- Integers are signed ones of 64 bits, and attributes of single values have names. -/
def Handable : JsonValue → Prop
  | .null => True
  | .bool _ => True
  | .integer number => number.isInt64 = true
  | .real _ => True
  | .string _ => True
  | .array elements => HandableElements elements
  | .object members => HandableMembers members

def HandableElements : List JsonValue → Prop
  | [] => True
  | element :: elements => Handable element ∧ HandableElements elements

def HandableMembers : List (Block × JsonValue) → Prop
  | [] => True
  | (name, value) :: members =>
      (name = [] → ¬value.IsLeaf) ∧ Handable value ∧ HandableMembers members

end

/-- The array has elements of a common type that can be handed over once more. -/
def Repeated (elements : List JsonValue) : Prop :=
  match (array elements).getCanonicalType with
  | .boolType => elements.length ≤ 256
  | .int32Type => True
  | .int64Type => True
  | .stringType => True
  | _ => False

mutual

/-- No array has single values of a common type as elements, but for more than 256 truth
values. -/
def Unrepeated : JsonValue → Prop
  | .null => True
  | .bool _ => True
  | .integer _ => True
  | .real _ => True
  | .string _ => True
  | .array elements => ¬Repeated elements ∧ UnrepeatedElements elements
  | .object members => UnrepeatedMembers members

def UnrepeatedElements : List JsonValue → Prop
  | [] => True
  | element :: elements => Unrepeated element ∧ UnrepeatedElements elements

def UnrepeatedMembers : List (Block × JsonValue) → Prop
  | [] => True
  | (_, value) :: members => Unrepeated value ∧ UnrepeatedMembers members

end

end JsonValue

theorem framesAfter_append (events others : List VisitorEvent) :
    framesAfter (events ++ others) =
      others.foldl (fun frames event => event.opened frames) (framesAfter events) :=
  foldl_append

theorem deliveriesFrom_append (frames : List (Option Container))
    (events others : List VisitorEvent) :
    deliveriesFrom frames (events ++ others) = deliveriesFrom frames events ++
      deliveriesFrom (events.foldl (fun frames event => event.opened frames) frames) others := by
  induction events generalizing frames with
  | nil => rfl
  | cons event events ih =>
      rw [cons_append, deliveriesFrom, deliveriesFrom, ih, append_assoc]
      rfl

theorem deliveries_append (events others : List VisitorEvent) :
    deliveries (events ++ others) =
      deliveries events ++ deliveriesFrom (framesAfter events) others :=
  deliveriesFrom_append [] events others

/-- The calls from one to another leave these frames open, and make these deliveries. -/
structure Hands (before after : List VisitorEvent) (frames : List (Option Container))
    (handed : List Delivery) : Prop where
  frames : framesAfter after = frames
  handed : deliveries after = deliveries before ++ handed

namespace Hands

variable {before middle after : List VisitorEvent} {frames : List (Option Container)}
  {handed : List Delivery}

theorem refl (events : List VisitorEvent) : Hands events events (framesAfter events) [] where
  frames := rfl
  handed := (append_nil _).symm

theorem trans {other : List (Option Container)} {more : List Delivery}
    (first : Hands before middle other handed) (second : Hands middle after frames more) :
    Hands before after frames (handed ++ more) where
  frames := second.frames
  handed := by rw [second.handed, first.handed, append_assoc]

theorem call (events : List VisitorEvent) (event : VisitorEvent) :
    Hands events (events ++ [event]) (event.opened (framesAfter events))
      (event.consumed.map fun leaf => (innermost (framesAfter events), leaf)) where
  frames := framesAfter_append events [event]
  handed := by
    rw [deliveries_append, deliveriesFrom, deliveriesFrom, append_nil]

/-- A call that does not hand over anything. -/
theorem bracket (hands : Hands before middle frames handed) {event : VisitorEvent}
    (nothing : event.consumed = []) :
    Hands before (middle ++ [event]) (event.opened frames) handed := by
  have step := hands.trans (call middle event)
  rw [nothing, map_nil, append_nil, hands.frames] at step
  exact step

end Hands

namespace JsonValue

theorem forward_frames {α : Type} {conversion : JsonValue → Option α} {zero : α}
    {consume : List α → VisitorEvent}
    (still : ∀ values frames, (consume values).opened frames = frames) (value : JsonValue)
    (count : Nat) (frames : List (Option Container)) :
    ∀ event ∈ value.forward conversion zero consume count, event.opened frames = frames := by
  intro event mem
  rw [forward] at mem
  split at mem
  · exact absurd mem not_mem_nil
  · rw [mem_singleton.mp mem]
    exact still _ frames

theorem deliveriesFrom_still {events : List VisitorEvent} {frames : List (Option Container)}
    (still : ∀ event ∈ events, event.opened frames = frames) :
    deliveriesFrom frames events =
      (events.flatMap VisitorEvent.consumed).map (fun leaf => (innermost frames, leaf)) ∧
        events.foldl (fun frames event => event.opened frames) frames = frames := by
  induction events with
  | nil => exact ⟨rfl, rfl⟩
  | cons event events ih =>
      rcases forall_mem_cons.mp still with ⟨headStill, tailStill⟩
      rcases ih tailStill with ⟨handedEq, framesEq⟩
      constructor
      · rw [deliveriesFrom, headStill, handedEq, flatMap_cons, map_append]
      · rw [foldl_cons, headStill, framesEq]

/-- What is open in an attribute or element of the name. -/
def framesIn (name : Block) (frames : List (Option Container)) : List (Option Container) :=
  if name.isEmpty then frames else some (.attribute name) :: frames

/-- What is opened for the first attribute or element of the name. -/
def frameOf (name : Block) : Option Container :=
  if name.isEmpty then some .list else none

/-- One iteration of the loop over what is nested in an attribute. -/
theorem visitNested_hands {visitor : Visitor}
    (eager : ∀ events, visitor.shouldContinue events = true) (name : Block)
    {isFirst : Bool} (isLast : Bool) {traverse : List VisitorEvent → List VisitorEvent}
    (out : List (Option Container) → List Delivery)
    (nested : ∀ events, Hands events (traverse events) (framesAfter events)
      (out (framesAfter events)))
    {before events : List VisitorEvent} {frame : Option Container}
    {outer : List (Option Container)} {done : List Delivery}
    (hands : Hands before events (if isFirst then outer else frame :: outer) done)
    (firstFrame : isFirst = true → frame = frameOf name) :
    Hands before (visitNested visitor name isFirst isLast traverse events)
      (if isLast then outer else frame :: outer)
      (done ++ out (framesIn name (frame :: outer))) := by
  let opening := if isFirst then
    events ++ [if !name.isEmpty then VisitorEvent.beginStruct else .beginList] else events
  have opened : Hands before opening (frame :: outer) done := by
    cases isFirst with
    | false => exact hands
    | true =>
        rw [firstFrame rfl, frameOf]
        simp only [opening, if_true]
        cases name.isEmpty with
        | false => exact hands.bracket rfl
        | true => exact hands.bracket rfl
  let entering := if !name.isEmpty then opening ++ [.beginAttribute name] else opening
  have entered : Hands before entering (framesIn name (frame :: outer)) done := by
    simp only [entering, framesIn]
    cases name.isEmpty with
    | false => exact opened.bracket rfl
    | true => exact opened
  have traversed := entered.trans (nested entering)
  rw [entered.frames] at traversed
  let leaving := if !name.isEmpty then traverse entering ++ [.finishAttribute name] else
    traverse entering
  have left : Hands before leaving (frame :: outer)
      (done ++ out (framesIn name (frame :: outer))) := by
    have frames : framesIn name (frame :: outer) =
        if name.isEmpty then frame :: outer else some (.attribute name) :: frame :: outer := rfl
    simp only [leaving]
    cases nameEq : name.isEmpty with
    | false =>
        rw [nameEq] at frames
        have finished : Hands before (traverse entering ++ [.finishAttribute name]) _ _ :=
          traversed.bracket rfl
        rw [frames] at finished ⊢
        exact finished
    | true =>
        rw [nameEq] at frames
        rw [frames] at traversed ⊢
        exact traversed
  have unfolded : visitNested visitor name isFirst isLast traverse events =
      if isLast then leaving ++ [if !name.isEmpty then .finishStruct else .finishList]
      else leaving := by
    rw [visitNested, if_pos (eager events)]
  rw [unfolded]
  cases isLast with
  | false => exact left
  | true =>
      simp only [if_true]
      cases name.isEmpty with
      | false => exact left.bracket rfl
      | true => exact left.bracket rfl

variable [ExpressionParser] [RealConversion]

/-- The values that are handed over after what is nested in the attribute. -/
def forwarded (value : JsonValue) : List LeafValue :=
  value.forwardValues.flatMap VisitorEvent.consumed

mutual

/-- What is handed over for a value. -/
def handed (frames : List (Option Container)) : JsonValue → List Delivery
  | .null => null.forwarded.map fun leaf => (innermost frames, leaf)
  | .bool value => (bool value).forwarded.map fun leaf => (innermost frames, leaf)
  | .integer number => (integer number).forwarded.map fun leaf => (innermost frames, leaf)
  | .real bits => (real bits).forwarded.map fun leaf => (innermost frames, leaf)
  | .string text => (string text).forwarded.map fun leaf => (innermost frames, leaf)
  | .array elements =>
      handedElements (some .list :: frames) elements ++
        (array elements).forwarded.map fun leaf => (innermost frames, leaf)
  | .object members =>
      handedMembers ((members.head?.map fun entry => frameOf entry.1).getD none :: frames)
        members ++ (object members).forwarded.map fun leaf => (innermost frames, leaf)

def handedElements (frames : List (Option Container)) : List JsonValue → List Delivery
  | [] => []
  | element :: elements => handed frames element ++ handedElements frames elements

def handedMembers (frames : List (Option Container)) : List (Block × JsonValue) → List Delivery
  | [] => []
  | (name, value) :: members =>
      handed (framesIn name frames) value ++ handedMembers frames members

end

/-- Nothing is opened or finished where values are handed over. -/
theorem forwardValues_frames (value : JsonValue) (frames : List (Option Container)) :
    ∀ event ∈ value.forwardValues, event.opened frames = frames := by
  intro event mem
  simp only [forwardValues, forwardBool, forwardInt, forwardFloat, forwardString] at mem
  repeat' split at mem
  all_goals first
    | exact absurd mem not_mem_nil
    | exact forward_frames (fun _ _ => rfl) _ _ _ event mem

theorem forwardValues_hands (value : JsonValue) {before events : List VisitorEvent}
    {frames : List (Option Container)} {done : List Delivery}
    (hands : Hands before events frames done) :
    Hands before (events ++ value.forwardValues) frames
      (done ++ value.forwarded.map fun leaf => (innermost frames, leaf)) := by
  have still := deliveriesFrom_still (value.forwardValues_frames frames)
  constructor
  · rw [framesAfter_append, hands.frames, still.2]
  · rw [deliveries_append, hands.frames, still.1, hands.handed, append_assoc]
    rfl

variable {visitor : Visitor}

mutual

/-- A visitor that goes on is handed what belongs to the value. -/
theorem traverseFrom_hands (eager : ∀ events, visitor.shouldContinue events = true) :
    (value : JsonValue) → (events : List VisitorEvent) →
    Hands events (value.traverseFrom visitor events) (framesAfter events)
      (value.handed (framesAfter events))
  | .null, events => by
      rw [traverseFrom, handed]
      exact forwardValues_hands null (Hands.refl events)
  | .bool value, events => by
      rw [traverseFrom, handed]
      exact forwardValues_hands (bool value) (Hands.refl events)
  | .integer number, events => by
      rw [traverseFrom, handed]
      exact forwardValues_hands (integer number) (Hands.refl events)
  | .real bits, events => by
      rw [traverseFrom, handed]
      exact forwardValues_hands (real bits) (Hands.refl events)
  | .string text, events => by
      rw [traverseFrom, handed]
      exact forwardValues_hands (string text) (Hands.refl events)
  | .array elements, events => by
      rw [traverseFrom, handed]
      apply forwardValues_hands
      cases elements with
      | nil => exact Hands.refl events
      | cons element elements =>
          exact traverseElements_hands eager (element :: elements) (cons_ne_nil _ _) true
            (Hands.refl events)
  | .object members, events => by
      rw [traverseFrom, handed]
      apply forwardValues_hands
      cases members with
      | nil => exact Hands.refl events
      | cons entry members =>
          exact traverseMembers_hands eager (entry :: members) (cons_ne_nil _ _) true
            (Hands.refl events) (fun _ => rfl)

theorem traverseElements_hands (eager : ∀ events, visitor.shouldContinue events = true) :
    (elements : List JsonValue) → elements ≠ [] → (isFirst : Bool) →
      ∀ {before events : List VisitorEvent}
      {outer : List (Option Container)} {done : List Delivery},
      Hands before events (if isFirst then outer else some .list :: outer) done →
        Hands before (traverseElements visitor elements isFirst events) outer
          (done ++ handedElements (some .list :: outer) elements)
  | [], nonempty, _ => absurd rfl nonempty
  | [element], _, isFirst => by
      intro hands
      have step := visitNested_hands eager [] true (fun frames => element.handed frames)
        (traverseFrom_hands eager element) hands (fun _ => rfl)
      rw [handedElements, handedElements, append_nil]
      exact step
  | element :: other :: elements, _, isFirst => by
      intro hands
      have step := visitNested_hands eager [] false (fun frames => element.handed frames)
        (traverseFrom_hands eager element) hands (fun _ => rfl)
      have rest := traverseElements_hands eager (other :: elements) (cons_ne_nil _ _) false step
      rw [handedElements, ← append_assoc]
      exact rest

theorem traverseMembers_hands (eager : ∀ events, visitor.shouldContinue events = true) :
    (members : List (Block × JsonValue)) → members ≠ [] → (isFirst : Bool) →
      ∀ {before events : List VisitorEvent} {frame : Option Container}
        {outer : List (Option Container)} {done : List Delivery},
      Hands before events (if isFirst then outer else frame :: outer) done →
        (isFirst = true → frame = (members.head?.map fun entry => frameOf entry.1).getD none) →
          Hands before (traverseMembers visitor members isFirst events) outer
            (done ++ handedMembers (frame :: outer) members)
  | [], nonempty, _ => absurd rfl nonempty
  | [(name, value)], _, isFirst => by
      intro hands firstFrame
      have step := visitNested_hands eager name true (fun frames => value.handed frames)
        (traverseFrom_hands eager value) hands firstFrame
      rw [handedMembers, handedMembers, append_nil]
      exact step
  | (name, value) :: other :: members, _, isFirst => by
      intro hands firstFrame
      have step := visitNested_hands eager name false (fun frames => value.handed frames)
        (traverseFrom_hands eager value) hands firstFrame
      have rest := traverseMembers_hands eager (other :: members) (cons_ne_nil _ _) false step
        (fun impossible => absurd impossible Bool.false_ne_true)
      rw [handedMembers, ← append_assoc]
      exact rest

end

end JsonValue

end Eagine.ValueTree
