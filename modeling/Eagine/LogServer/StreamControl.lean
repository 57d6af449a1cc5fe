import Eagine.LogServer.JsonParser
import Eagine.ValueTree.JsonStreamOrder

/-!
# The control of the JSON parser

What decides when an info is handed to the sink: the path of the visitor, the extractor that is
selected and the flag of the clean finish. The values that are collected for the infos do not
matter for it.
-/

open List

namespace Eagine.LogServer

open Logging ValueTree
open StreamParser (consumeOther_attrStack consumeOther_listStack floatCache handle intCache run
  uintCache)

universe u

/-- What is to be known of an info: whether it is a finish info and if so, whether it is clean. -/
def Info.report {F : Type u} : Info F → Option Bool
  | .finish info => some info.clean
  | _ => none

/-- The same of the info that an extractor keeps. -/
def ExtractorKind.report : ExtractorKind → Option Bool
  | .finish => some true
  | _ => none

/-- The extractor that is selected is kept with the map that it was found in. -/
structure Control where
  path : StringPath := []
  selected : Option ExtractorKind × ExtractorMap
  reports : List (Option Bool) := []
  clean : Bool := false

namespace Control

def string (value : String) (control : Control) : Control :=
  if control.path.like ["_", "t"] then
    { control with selected := control.selected.2.lookup value }
  else control

def leave (name : String) (control : Control) : Control :=
  if control.path.getLast? = some name then { control with path := control.path.popBack }
  else control

def finishStruct (control : Control) : Control :=
  match control.selected.1 with
  | some kind =>
      if control.path.like ["_"] then
        { control with reports := control.reports ++ [kind.report], clean := true }
      else control
  | none => control

def step : VisitorCall → Control → Control
  | .consume (.string value :: _), control => control.string value
  | .consume _, control => control
  | .beginStruct, control => control
  | .beginAttribute name, control => { control with path := control.path.pushBack name }
  | .beginList, control => { control with path := control.path.pushBack "_" }
  | .finishList, control => control.leave "_"
  | .finishAttribute name, control => control.leave name
  | .finishStruct, control => control.finishStruct

def steps (calls : List VisitorCall) (control : Control) : Control :=
  calls.foldl (fun control call => control.step call) control

end Control

section Visitor

open JsonDataExtractor (addArg addObject addString consumeBy finishObject reset)

variable {F : Type u}

/-- The control of a visitor with a data extractor. -/
def control (visitor : BuildingVisitor (JsonDataExtractor F)) : Control where
  path := visitor.path
  selected := (visitor.builder.current, visitor.builder.extractors)
  reports := visitor.builder.consumed.map Info.report
  clean := visitor.builder.cleanFinish

/-- The parts of an extractor that the control has. -/
structure SameControl (before after : JsonDataExtractor F) : Prop where
  current_eq : after.current = before.current
  extractors_eq : after.extractors = before.extractors
  consumed_eq : after.consumed = before.consumed
  clean_eq : after.cleanFinish = before.cleanFinish

theorem sameControl_reset (extractor : JsonDataExtractor F) :
    SameControl extractor extractor.reset := by
  unfold reset
  split <;> exact ⟨rfl, rfl, rfl, rfl⟩

theorem sameControl_addObject (path : StringPath) (extractor : JsonDataExtractor F) :
    SameControl extractor (extractor.addObject path) := by
  unfold addObject
  split <;> exact ⟨rfl, rfl, rfl, rfl⟩

theorem control_of_same {visitor : BuildingVisitor (JsonDataExtractor F)}
    {extractor : JsonDataExtractor F} (same : SameControl visitor.builder extractor) :
    control { visitor with builder := extractor } = control visitor := by
  rcases same with ⟨currentEq, extractorsEq, consumedEq, cleanEq⟩
  simp [control, currentEq, extractorsEq, consumedEq, cleanEq]

theorem consumeBy_report (kind : ExtractorKind) (extractor : JsonDataExtractor F) :
    (extractor.consumeBy kind).current = extractor.current ∧
      (extractor.consumeBy kind).extractors = extractor.extractors ∧
      (extractor.consumeBy kind).consumed.map Info.report =
        extractor.consumed.map Info.report ++ [kind.report] := by
  cases kind <;>
    simp [consumeBy, JsonDataExtractor.consume, Info.report,
      ExtractorKind.report]

theorem control_leave (name : String) (visitor : BuildingVisitor (JsonDataExtractor F)) :
    control (visitor.leave name) = (control visitor).leave name := by
  unfold BuildingVisitor.leave Control.leave
  by_cases isLast : visitor.path.getLast? = some name
  · rw [if_pos isLast, if_pos (show (control visitor).path.getLast? = some name from isLast)]
    rfl
  · rw [if_neg isLast, if_neg (show ¬(control visitor).path.getLast? = some name from isLast)]
    rfl

variable [Conversions F]

theorem sameControl_addArg (path : StringPath) (arg : ExtractorArg F)
    (extractor : JsonDataExtractor F) : SameControl extractor (extractor.addArg path arg) := by
  unfold addArg
  split <;> exact ⟨rfl, rfl, rfl, rfl⟩

/-- A string selects an extractor, or is added by the one that is selected. -/
theorem control_addString (value : String) (visitor : BuildingVisitor (JsonDataExtractor F)) :
    control { visitor with builder := visitor.builder.addString visitor.path value } =
      (control visitor).string value := by
  rw [Control.string]
  by_cases isType : visitor.path.like ["_", "t"]
  · let found := visitor.builder.extractors.lookup value
    let selected : BuildingVisitor (JsonDataExtractor F) := { visitor with
      builder := { visitor.builder with current := found.1, extractors := found.2 } }
    have same : SameControl selected.builder selected.builder.reset := sameControl_reset _
    rw [if_pos (show (control visitor).path.like ["_", "t"] = true from isType),
      addString, if_pos isType]
    exact control_of_same same
  · rw [if_neg (show ¬(control visitor).path.like ["_", "t"] = true from isType),
      addString, if_neg isType]
    exact control_of_same (sameControl_addArg _ _ _)

theorem control_visit (call : VisitorCall) (visitor : BuildingVisitor (JsonDataExtractor F)) :
    control (visitor.visit call) = (control visitor).step call := by
  cases call with
  | consume values =>
      rcases values with _ | ⟨value, values⟩
      · rfl
      · cases value with
        | string value => exact control_addString value visitor
        | nothing => rfl
        | _ => exact control_of_same (sameControl_addArg _ _ _)
  | beginStruct => exact control_of_same (sameControl_addObject _ _)
  | beginAttribute name => rfl
  | beginList => rfl
  | finishList => exact control_leave "_" visitor
  | finishAttribute name => exact control_leave name visitor
  | finishStruct =>
      change control { visitor with
        builder := finishObject visitor.path visitor.builder } =
          (control visitor).finishStruct
      unfold finishObject Control.finishStruct
      have currentEq : (control visitor).selected.1 = visitor.builder.current := rfl
      rw [currentEq]
      cases found : visitor.builder.current with
      | none => rfl
      | some kind =>
          dsimp only
          by_cases isEntry : visitor.path.like ["_"]
          · rcases consumeBy_report kind visitor.builder with ⟨keptEq, extractorsEq, reportsEq⟩
            rw [if_pos isEntry, if_pos (show (control visitor).path.like ["_"] = true from isEntry)]
            simp [control, keptEq, extractorsEq, reportsEq, found]
          · rw [if_neg isEntry, if_neg (show ¬(control visitor).path.like ["_"] = true from isEntry)]

theorem control_visitAll (calls : List VisitorCall)
    (visitor : BuildingVisitor (JsonDataExtractor F)) :
    control (visitor.visitAll calls) = (control visitor).steps calls := by
  induction calls generalizing visitor with
  | nil => rfl
  | cons call calls ih =>
      rw [BuildingVisitor.visitAll_cons, ih, control_visit]
      rfl

end Visitor

/-- The control before the stream. -/
def Control.initial (memory : Memory) : Control where
  selected := (none, { memory := memory })

variable (memory : Memory)

/-- The control after the calls that a stream parser has made. -/
def driven (parser : StreamParser) : Control :=
  Control.steps parser.calls (.initial memory)

variable {memory}

variable {parser after : StreamParser} {base : StringPath}

theorem driven_of_calls {other : StreamParser} (same : parser.calls = other.calls) :
    driven memory parser = driven memory other :=
  congrArg (Control.steps · _) same

theorem driven_call (call : VisitorCall) (parser : StreamParser) :
    driven memory (parser.call call) = (driven memory parser).step call :=
  foldl_append

theorem driven_consume (values : List Scalar) (parser : StreamParser) :
    driven memory (parser.consume values) = (driven memory parser).step (.consume values) :=
  foldl_append

theorem step_numbers {scalar : BitVec 64 → Scalar}
    (notString : ∀ value text, scalar value ≠ .string text)
    (values : List (BitVec 64)) (control : Control) :
    control.step (.consume (values.map scalar)) = control := by
  cases values with
  | nil => rfl
  | cons value values =>
      rw [map_cons]
      cases found : scalar value with
      | string text => exact absurd found (notString value text)
      | _ => rfl

theorem driven_flushPrevious (newValTyp : CachedType) (parser : StreamParser) :
    driven memory (parser.flushPrevious newValTyp) = driven memory parser := by
  have cached (cache : Cache) (notString : ∀ value text, cache.scalar value ≠ .string text)
      (assigned : ∀ values p, driven memory (cache.assign values p) = driven memory p)
      (curValTyp : CachedType) (p : StreamParser) :
      driven memory (p.doFlushPrevious cache curValTyp newValTyp) = driven memory p := by
    unfold StreamParser.doFlushPrevious
    split
    · rw [assigned, driven_consume, step_numbers notString]
    · rfl
  change driven memory (((parser.doFlushPrevious floatCache .float newValTyp).doFlushPrevious
    uintCache .uint newValTyp).doFlushPrevious intCache .int newValTyp) = _
  rw [cached, cached, cached]
  all_goals
    intros
    first | rfl | exact Scalar.noConfusion

/-- The parser after a value: the control is another one only by the extractor that a string has
selected. -/
structure Passed (memory : Memory) (before after : StreamParser) : Prop where
  attrs : after.attrStack = before.attrStack
  lists : after.listStack = before.listStack
  path_eq : (driven memory after).path = (driven memory before).path
  reports_eq : (driven memory after).reports = (driven memory before).reports
  clean_eq : (driven memory after).clean = (driven memory before).clean
  selected_eq : (driven memory before).path.like ["_", "t"] = false →
    (driven memory after).selected = (driven memory before).selected

variable {before : StreamParser}

theorem passed_of_same (attrs : after.attrStack = before.attrStack)
    (lists : after.listStack = before.listStack)
    (same : driven memory after = driven memory before) : Passed memory before after :=
  ⟨attrs, lists, by rw [same], by rw [same], by rw [same], fun _ => by rw [same]⟩

theorem driven_consumeOther (value : Scalar) (parser : StreamParser) :
    driven memory (parser.consumeOther value) = (driven memory parser).step (.consume [value]) := by
  rw [StreamParser.consumeOther, driven_consume, driven_flushPrevious]

theorem passed_number (number : Number) (parser : StreamParser) :
    Passed memory parser (parser.doPush number.cached number.cache number.cachedType) := by
  have notString : ∀ value text, number.cache.scalar value ≠ .string text := by
    cases number <;> exact fun _ _ => Scalar.noConfusion
  by_cases inList : parser.InList
  · rw [StreamParser.doPush_inList inList]
    rcases number.assign_stacks (number.cache.values (parser.flushPrevious number.cachedType) ++
      [number.cached]) (parser.flushPrevious number.cachedType) with ⟨attrs, lists⟩
    apply passed_of_same
    · rw [attrs, StreamParser.flushPrevious_attrStack]
    · rw [lists, StreamParser.flushPrevious_listStack]
    · rw [driven_of_calls (number.assign_calls _ _), driven_flushPrevious]
  · rw [StreamParser.doPush_outside inList]
    have same := step_numbers notString [number.cached] (driven memory parser)
    exact passed_of_same rfl rfl ((driven_consume _ _).trans same)

theorem passed_string (value : String) (parser : StreamParser) :
    Passed memory parser (parser.consumeOther (.string value)) := by
  have drivenEq : driven memory (parser.consumeOther (.string value)) =
      (driven memory parser).string value :=
    driven_consumeOther (.string value) parser
  rw [Control.string] at drivenEq
  have attrs := consumeOther_attrStack (.string value) parser
  have lists := consumeOther_listStack (.string value) parser
  by_cases isType : (driven memory parser).path.like ["_", "t"]
  · rw [if_pos isType] at drivenEq
    refine ⟨attrs, lists, ?_, ?_, ?_, fun notType => ?_⟩
    · rw [drivenEq]
    · rw [drivenEq]
    · rw [drivenEq]
    · rw [isType] at notType
      exact Bool.noConfusion notType
  · rw [if_neg isType] at drivenEq
    exact passed_of_same attrs lists drivenEq

/-- The path in an object: the member that was opened last is still in it. -/
def opened (base : StringPath) (name : String) : StringPath :=
  if name = "" then base else base ++ [name]

/-- The parser in an object, behind some of its members. -/
structure InMembers (memory : Memory) (base : StringPath) (outer : List String)
    (start parser : StreamParser) :
    Prop where
  attrs : ∃ name, parser.attrStack = name :: outer ∧ (driven memory parser).path = opened base name
  lists : parser.listStack = start.listStack
  reports_eq : (driven memory parser).reports = (driven memory start).reports
  clean_eq : (driven memory parser).clean = (driven memory start).clean

variable {name : String}

/-- The last member is left. -/
theorem finishPrevious_control (path_eq : (driven memory parser).path = opened base name) :
    driven memory (parser.finishPrevious name) = { driven memory parser with path := base } := by
  unfold StreamParser.finishPrevious
  by_cases empty : name = ""
  · rw [if_neg (not_not.mpr empty)]
    rw [opened, if_pos empty] at path_eq
    rw [← path_eq]
  · rw [opened, if_neg empty] at path_eq
    rw [if_pos empty, driven_call]
    change (driven memory parser).leave name = _
    rw [Control.leave, path_eq, getLast?_concat, if_pos rfl]
    simp

/-- No element of an array is the type of an entry. -/
theorem not_like_element (base : StringPath) : StringPath.like (base ++ ["_"]) ["_", "t"] = false := by
  rcases base with _ | ⟨first, _ | ⟨second, others⟩⟩
  · rfl
  · have differs : StringPath.elementsMatch "_" "t" = false := by decide
    simp [StringPath.like, differs]
  · apply StringPath.not_like_of_length
    simp

theorem finishStruct_deep {control : Control} (deep : control.path.length ≠ 1) :
    control.finishStruct = control := by
  rw [Control.finishStruct]
  cases control.selected.1 with
  | none => rfl
  | some kind =>
      dsimp only
      rw [if_neg]
      rw [StringPath.not_like_of_length (by simpa using deep)]
      exact Bool.false_ne_true

/-- The parser behind the begin of an array. -/
theorem driven_beginArray (parser : StreamParser) :
    driven memory (beginArray parser) =
      { driven memory parser with path := (driven memory parser).path ++ ["_"] } :=
  driven_call .beginList _

/-- The parser behind the end of an array. -/
theorem driven_endArray (path_eq : (driven memory parser).path = base ++ ["_"])
    (lists : List Bool) :
    driven memory (endArray lists parser) = { driven memory parser with path := base } := by
  have called : driven memory _ = _ := driven_call .finishList (parser.flushPrevious .none)
  rw [driven_flushPrevious .none parser] at called
  change driven memory (endArray lists parser) = (driven memory parser).leave "_" at called
  rw [called, Control.leave, path_eq, getLast?_concat, if_pos rfl]
  simp

variable {outer : List String}

theorem handle_key {start : StreamParser} (inMembers : InMembers memory base outer start parser)
    (isElement : StringPath.IsElement name) :
    ∃ next, parser.handle (.key name) = some next ∧ next.attrStack = name :: outer ∧
      next.listStack = parser.listStack ∧
        driven memory next = { driven memory parser with path := base ++ [name] } := by
  rcases inMembers.attrs with ⟨last, attrs, path_eq⟩
  refine ⟨nextMember last name outer parser, ?_, rfl, finishPrevious_listStack last parser, ?_⟩
  · simp only [handle, attrs, nextMember]
  · have called : driven memory _ = _ := driven_call (.beginAttribute name)
      { parser.finishPrevious last with attrStack := name :: outer }
    have same : driven memory { parser.finishPrevious last with attrStack := name :: outer } =
        { driven memory parser with path := base } := finishPrevious_control path_eq
    rw [nextMember, called, same]
    change Control.mk (base ++ [StringPath.fix name]) _ _ _ = _
    rw [isElement.2]

theorem handle_endObject {start : StreamParser}
    (inMembers : InMembers memory base outer start parser) {isList : Bool} {lists : List Bool}
    (lists_eq : parser.listStack = isList :: lists) (count : Nat) :
    ∃ next, parser.handle (.endObject count) = some next ∧ next.attrStack = outer ∧
      next.listStack = lists ∧
        driven memory next = Control.finishStruct { driven memory parser with path := base } := by
  rcases inMembers.attrs with ⟨last, attrs, path_eq⟩
  refine ⟨endObject last outer lists parser, ?_, rfl, rfl, ?_⟩
  · simp only [handle, attrs, lists_eq, endObject]
  · rw [endObject, driven_call]
    change (driven memory (parser.finishPrevious last)).finishStruct = _
    rw [finishPrevious_control path_eq]

theorem driven_beginObject (parser : StreamParser) :
    driven memory (beginObject parser) = driven memory parser :=
  driven_call .beginStruct _

theorem inMembers_beginObject (parser : StreamParser) :
    InMembers memory (driven memory parser).path parser.attrStack (beginObject parser)
      (beginObject parser) :=
  ⟨⟨"", rfl, by rw [driven_beginObject]; rfl⟩, rfl, rfl, rfl⟩

/-- A value in an object is behind its name. -/
theorem inMembers_passed {start next : StreamParser}
    (inMembers : InMembers memory base outer start parser) (named : name ≠ "")
    (attrs : next.attrStack = name :: outer) (lists : next.listStack = parser.listStack)
    (drivenEq : driven memory next = { driven memory parser with path := base ++ [name] })
    (passed : Passed memory next after) : InMembers memory base outer start after where
  attrs := ⟨name, passed.attrs.trans attrs, by
    rw [passed.path_eq, drivenEq, opened, if_neg named]⟩
  lists := passed.lists.trans (lists.trans inMembers.lists)
  reports_eq := by rw [passed.reports_eq, drivenEq, inMembers.reports_eq]
  clean_eq := by rw [passed.clean_eq, drivenEq, inMembers.clean_eq]

variable {first second third : StreamParser}

theorem Passed.trans (one : Passed memory first second)
    (two : Passed memory second third) : Passed memory first third where
  attrs := two.attrs.trans one.attrs
  lists := two.lists.trans one.lists
  path_eq := two.path_eq.trans one.path_eq
  reports_eq := two.reports_eq.trans one.reports_eq
  clean_eq := two.clean_eq.trans one.clean_eq
  selected_eq := fun notType => (two.selected_eq (one.path_eq ▸ notType)).trans
    (one.selected_eq notType)

theorem run_singleton (callback : Callback) (parser : StreamParser) :
    run [callback] parser = parser.handle callback := by
  rw [run_cons]
  exact Option.bind_fun_some _

/-- An array, with its elements. -/
theorem passed_array (passed : Passed memory (beginArray parser) after) :
    Passed memory parser (endArray parser.listStack after) := by
  have path_eq := passed.path_eq
  have reports_eq := passed.reports_eq
  have clean_eq := passed.clean_eq
  have selected_eq := passed.selected_eq
  rw [driven_beginArray] at path_eq reports_eq clean_eq selected_eq
  have ended := driven_endArray path_eq parser.listStack
  constructor
  case attrs => exact (endArray_attrStack _ after).trans passed.attrs
  case lists => rfl
  case path_eq => rw [ended]
  case reports_eq => rw [ended, reports_eq]
  case clean_eq => rw [ended, clean_eq]
  case selected_eq =>
      intro _
      rw [ended]
      exact selected_eq (not_like_element _)

mutual

/-- A value below an entry leaves the control as it was. -/
theorem passed_document (document : Document) (named : document.wellNamed = true)
    (parser : StreamParser) (deep : 2 ≤ (driven memory parser).path.length) :
    ∃ after, run document.callbacks parser = some after ∧ Passed memory parser after := by
  match document with
  | .null =>
      exact ⟨_, run_singleton _ _, passed_of_same (consumeOther_attrStack _ _)
        (consumeOther_listStack _ _) (driven_consumeOther .nothing parser)⟩
  | .bool value =>
      exact ⟨_, run_singleton _ _, passed_of_same (consumeOther_attrStack _ _)
        (consumeOther_listStack _ _) (driven_consumeOther (.bool value) parser)⟩
  | .number number =>
      exact ⟨_, (run_singleton _ _).trans (number.handle_callback parser),
        passed_number number parser⟩
  | .string value => exact ⟨_, run_singleton _ _, passed_string value parser⟩
  | .array elements =>
      have deepElements : 2 ≤ (driven memory (beginArray parser)).path.length := by
        rw [driven_beginArray, length_append]
        exact Nat.le_add_right_of_le deep
      rcases passed_elements elements named _ deepElements with ⟨middle, runEq, passed⟩
      refine ⟨endArray parser.listStack middle, ?_, passed_array passed⟩
      have lists : middle.listStack = true :: parser.listStack := passed.lists
      rw [Document.callbacks, run_cons]
      change StreamParser.run _ (beginArray parser) = _
      rw [run_append, runEq, Option.bind_some, run_singleton]
      simp only [handle, lists, endArray]
  | .object members =>
      have notEmpty : (driven memory parser).path ≠ [] := by
        rintro empty
        rw [empty] at deep
        exact absurd deep (by decide)
      rcases passed_members members named (inMembers_beginObject parser) notEmpty with
        ⟨middle, runEq, inMembers, selected_eq⟩
      rcases handle_endObject inMembers inMembers.lists members.length with
        ⟨after, handled, attrs, lists, drivenEq⟩
      rw [finishStruct_deep (by dsimp only; omega)] at drivenEq
      refine ⟨after, ?_, ?_⟩
      · rw [Document.callbacks, run_cons]
        change StreamParser.run _ (beginObject parser) = _
        rw [run_append, runEq, Option.bind_some, run_singleton, handled]
      · constructor
        case attrs => exact attrs
        case lists => exact lists
        case path_eq => rw [drivenEq]
        case reports_eq => rw [drivenEq, inMembers.reports_eq, driven_beginObject]
        case clean_eq => rw [drivenEq, inMembers.clean_eq, driven_beginObject]
        case selected_eq =>
            intro _
            rw [drivenEq]
            change (driven memory middle).selected = _
            rw [selected_eq, driven_beginObject]
            intro name _
            apply StringPath.not_like_of_length
            rw [length_append]
            change _ + 1 ≠ 2
            omega

theorem passed_elements (elements : Elements) (named : elements.wellNamed = true)
    (parser : StreamParser) (deep : 2 ≤ (driven memory parser).path.length) :
    ∃ after, run elements.callbacks parser = some after ∧ Passed memory parser after := by
  match elements with
  | .nil => exact ⟨parser, rfl, passed_of_same rfl rfl rfl⟩
  | .cons head tail =>
      rw [Elements.wellNamed, Bool.and_eq_true] at named
      rcases passed_document head named.1 parser deep with ⟨middle, runHead, passedHead⟩
      rcases passed_elements tail named.2 middle (passedHead.path_eq ▸ deep) with
        ⟨after, runTail, passedTail⟩
      refine ⟨after, ?_, passedHead.trans passedTail⟩
      rw [Elements.callbacks, run_append, runHead, Option.bind_some, runTail]

theorem passed_members (members : Members) (named : members.wellNamed = true)
    {base : StringPath} {outer : List String} {start parser : StreamParser}
    (inMembers : InMembers memory base outer start parser) (notEmpty : base ≠ []) :
    ∃ after, run members.callbacks parser = some after ∧
      InMembers memory base outer start after ∧
        ((∀ name ∈ members.names, StringPath.like (base ++ [name]) ["_", "t"] = false) →
          (driven memory after).selected = (driven memory parser).selected) := by
  match members with
  | .nil => exact ⟨parser, rfl, inMembers, fun _ => rfl⟩
  | .cons name head tail =>
      rw [Members.wellNamed, Bool.and_eq_true, Bool.and_eq_true, decide_eq_true_eq] at named
      rcases named with ⟨isElement, namedHead, namedTail⟩
      rcases handle_key inMembers isElement with ⟨next, handled, attrs, lists, drivenEq⟩
      have deep : 2 ≤ (driven memory next).path.length := by
        rw [drivenEq, length_append]
        exact Nat.succ_le_succ (length_pos_iff.mpr notEmpty)
      rcases passed_document head namedHead next deep with ⟨middle, runHead, passed⟩
      have inMiddle := inMembers_passed inMembers isElement.1 attrs lists drivenEq passed
      rcases passed_members tail namedTail inMiddle notEmpty with
        ⟨after, runTail, inAfter, selected_eq⟩
      refine ⟨after, ?_, inAfter, ?_⟩
      · rw [Members.callbacks, run_cons, handled, Option.bind_some,
          run_append, runHead, Option.bind_some, runTail]
      · intro others
        rcases forall_mem_cons.mp others with ⟨notType, othersTail⟩
        rw [selected_eq othersTail, passed.selected_eq (by rw [drivenEq]; exact notType), drivenEq]

end

/-- Nothing was handed to the sink. -/
structure Unreported (memory : Memory) (before after : StreamParser) : Prop where
  reports_eq : (driven memory after).reports = (driven memory before).reports
  clean_eq : (driven memory after).clean = (driven memory before).clean

theorem Unreported.of_same
    (same : driven memory after = driven memory before) : Unreported memory before after :=
  ⟨by rw [same], by rw [same]⟩

theorem Unreported.trans (one : Unreported memory first second)
    (two : Unreported memory second third) : Unreported memory first third :=
  ⟨two.reports_eq.trans one.reports_eq, two.clean_eq.trans one.clean_eq⟩

theorem Passed.unreported (passed : Passed memory before after) :
    Unreported memory before after :=
  ⟨passed.reports_eq, passed.clean_eq⟩

variable {callbacks part : List Callback}

/-- A part of the callbacks that begins with one of them: there is nothing, or it and a part of the
others. -/
theorem part_cons {callback : Callback} (isPart : part <+: callback :: callbacks) :
    part = [] ∨ ∃ others, part = callback :: others ∧ others <+: callbacks :=
  prefix_cons_iff.mp isPart

/-- A part of two lists of callbacks: a proper part of the first one, or all of it and a part of
the second one. -/
theorem part_append {first second part : List Callback} (isPart : part <+: first ++ second) :
    (part <+: first ∧ part ≠ first) ∨ ∃ others, part = first ++ others ∧ others <+: second := by
  rcases prefix_or_prefix_of_prefix isPart (prefix_append first second) with inFirst | all
  · by_cases whole : part = first
    · exact Or.inr ⟨[], by rw [whole, append_nil], nil_prefix⟩
    · exact Or.inl ⟨inFirst, whole⟩
  · rcases all with ⟨others, rfl⟩
    exact Or.inr ⟨others, rfl, (prefix_append_right_inj first).mp isPart⟩

/-- A proper part of the callbacks with one at the end. -/
theorem part_concat {last : Callback}
    (isPart : part <+: callbacks ++ [last]) (notWhole : part ≠ callbacks ++ [last]) :
    part <+: callbacks := by
  rcases prefix_concat_iff.mp isPart with whole | inside
  · exact absurd whole notWhole
  · exact inside

mutual

/-- A part of a value in the list of entries, or below it, hands nothing to the sink. -/
theorem unreported_document (document : Document) (named : document.wellNamed = true)
    (parser : StreamParser) (inside : (driven memory parser).path ≠ []) {part : List Callback}
    (isPart : part <+: document.callbacks) (notWhole : part ≠ document.callbacks) :
    ∃ after, run part parser = some after ∧ Unreported memory parser after := by
  have nothing : run [] parser = some parser := rfl
  have single {callback : Callback} (isPart : part <+: [callback]) (notWhole : part ≠ [callback]) :
      ∃ after, run part parser = some after ∧ Unreported memory parser after := by
    rcases part_cons isPart with rfl | ⟨others, rfl, others_eq⟩
    · exact ⟨parser, nothing, .of_same rfl⟩
    · rw [prefix_nil.mp others_eq] at notWhole
      exact absurd rfl notWhole
  match document with
  | .null => exact single isPart notWhole
  | .bool value => exact single isPart notWhole
  | .number number => exact single isPart notWhole
  | .string value => exact single isPart notWhole
  | .array elements =>
      rcases part_cons isPart with rfl | ⟨others, rfl, othersPart⟩
      · exact ⟨parser, nothing, .of_same rfl⟩
      · have othersNotWhole : others ≠ elements.callbacks ++ [.endArray elements.length] := by
          rintro rfl
          exact notWhole rfl
        have deep : 2 ≤ (driven memory (beginArray parser)).path.length := by
          rw [driven_beginArray, length_append]
          exact Nat.succ_le_succ (length_pos_iff.mpr inside)
        rcases unreported_elements elements named (beginArray parser) deep
          (part_concat othersPart othersNotWhole) with ⟨after, runEq, unreported⟩
        refine ⟨after, ?_, ?_⟩
        · rw [run_cons]
          exact runEq
        · have began : Unreported memory parser (beginArray parser) :=
            ⟨by rw [driven_beginArray], by rw [driven_beginArray]⟩
          exact began.trans unreported
  | .object members =>
      rcases part_cons isPart with rfl | ⟨others, rfl, othersPart⟩
      · exact ⟨parser, nothing, .of_same rfl⟩
      · have othersNotWhole : others ≠ members.callbacks ++ [.endObject members.length] := by
          rintro rfl
          exact notWhole rfl
        rcases unreported_members members named (inMembers_beginObject parser) inside
          (part_concat othersPart othersNotWhole) with ⟨after, runEq, unreported⟩
        refine ⟨after, ?_, ?_⟩
        · rw [run_cons]
          exact runEq
        · exact (Unreported.of_same (driven_beginObject parser)).trans unreported

theorem unreported_elements (elements : Elements) (named : elements.wellNamed = true)
    (parser : StreamParser) (deep : 2 ≤ (driven memory parser).path.length) {part : List Callback}
    (isPart : part <+: elements.callbacks) :
    ∃ after, run part parser = some after ∧ Unreported memory parser after := by
  match elements with
  | .nil =>
      rw [prefix_nil.mp isPart]
      exact ⟨parser, rfl, .of_same rfl⟩
  | .cons head tail =>
      rw [Elements.wellNamed, Bool.and_eq_true] at named
      rcases part_append isPart with ⟨inHead, notWhole⟩ | ⟨others, rfl, inTail⟩
      · have inside : (driven memory parser).path ≠ [] := by
          intro empty
          rw [empty] at deep
          exact absurd deep (by decide)
        exact unreported_document head named.1 parser inside inHead notWhole
      · rcases passed_document head named.1 parser deep with ⟨middle, runHead, passedHead⟩
        rcases unreported_elements tail named.2 middle (passedHead.path_eq ▸ deep) inTail with
          ⟨after, runTail, unreported⟩
        refine ⟨after, ?_, passedHead.unreported.trans unreported⟩
        rw [run_append, runHead, Option.bind_some, runTail]

theorem unreported_members (members : Members) (named : members.wellNamed = true)
    {base : StringPath} {outer : List String} {start parser : StreamParser}
    (inMembers : InMembers memory base outer start parser) (notEmpty : base ≠ [])
    {part : List Callback}
    (isPart : part <+: members.callbacks) :
    ∃ after, run part parser = some after ∧ Unreported memory start after := by
  match members with
  | .nil =>
      rw [prefix_nil.mp isPart]
      exact ⟨parser, rfl, inMembers.reports_eq, inMembers.clean_eq⟩
  | .cons name head tail =>
      rw [Members.wellNamed, Bool.and_eq_true, Bool.and_eq_true, decide_eq_true_eq] at named
      rcases named with ⟨isElement, namedHead, namedTail⟩
      rcases part_cons isPart with rfl | ⟨others, rfl, othersPart⟩
      · exact ⟨parser, rfl, inMembers.reports_eq, inMembers.clean_eq⟩
      · rcases handle_key inMembers isElement with ⟨next, handled, attrs, lists, drivenEq⟩
        have deep : 2 ≤ (driven memory next).path.length := by
          rw [drivenEq, length_append]
          exact Nat.succ_le_succ (length_pos_iff.mpr notEmpty)
        rcases part_append othersPart with ⟨inHead, notWhole⟩ | ⟨behind, rfl, inTail⟩
        · have inside : (driven memory next).path ≠ [] := by
            rw [drivenEq]
            exact concat_ne_nil name base
          rcases unreported_document head namedHead next inside inHead notWhole with
            ⟨after, runHead, unreported⟩
          refine ⟨after, ?_, ?_, ?_⟩
          · rw [run_cons, handled, Option.bind_some, runHead]
          · rw [unreported.reports_eq, drivenEq, inMembers.reports_eq]
          · rw [unreported.clean_eq, drivenEq, inMembers.clean_eq]
        · rcases passed_document head namedHead next deep with ⟨middle, runHead, passed⟩
          have inMiddle := inMembers_passed inMembers isElement.1 attrs lists drivenEq passed
          rcases unreported_members tail namedTail inMiddle notEmpty inTail with
            ⟨after, runTail, unreported⟩
          refine ⟨after, ?_, unreported⟩
          rw [run_cons, handled, Option.bind_some, run_append, runHead, Option.bind_some, runTail]

end

end Eagine.LogServer
