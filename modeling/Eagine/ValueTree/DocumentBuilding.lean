import Eagine.Theory.LastWrite
import Eagine.ValueTree.BuildingVisitor
import Eagine.ValueTree.JsonStreamOrder

/-!
# Building objects from documents

Where no array has a number as its element, nothing is cached: the stream parser and the visitor
hand each value to the builder as it comes, at the path where it is in the document.
-/

namespace Eagine.ValueTree

open StreamParser Option
open ObjectBuilder (add addObject begin failed finish finishObject)

universe u v

/-! ## What a builder is to get -/

section

variable {B : Type u} [ObjectBuilder B]

mutual

/-- The builder gets the values of a document at its path. -/
def Document.build (path : StringPath) : Document → B → B
  | .null => add path [.nothing]
  | .bool value => add path [.bool value]
  | .number value => add path [value.scalar]
  | .string value => add path [.string value]
  | .array elements => elements.build (path ++ ["_"])
  | .object members => fun builder =>
      finishObject path (members.build path (addObject path builder))

def Elements.build (path : StringPath) : Elements → B → B
  | .nil => id
  | .cons head tail => fun builder => tail.build path (head.build path builder)

def Members.build (path : StringPath) : Members → B → B
  | .nil => id
  | .cons name head tail => fun builder => tail.build path (head.build (path ++ [name]) builder)

end

end

mutual

/-- No array has a number as its element. -/
def Document.direct : Document → Bool
  | .array elements => elements.direct
  | .object members => members.direct
  | _ => true

def Elements.direct : Elements → Bool
  | .nil => true
  | .cons head tail => !head.isNumber && (head.direct && tail.direct)

def Members.direct : Members → Bool
  | .nil => true
  | .cons _ head tail => head.direct && tail.direct

end

/-! ## Nothing is cached -/

/-- No values are cached. -/
structure Uncached (parser : StreamParser) : Prop where
  floats : parser.floatValues = []
  uints : parser.uintValues = []
  ints : parser.intValues = []

variable {parser : StreamParser}

theorem flushPrevious_uncached (uncached : Uncached parser) (newValTyp : CachedType) :
    parser.flushPrevious newValTyp = { parser with oldValTyp := newValTyp } := by
  simp [flushPrevious, doFlushPrevious, floatCache, uintCache, intCache, uncached.floats,
    uncached.uints, uncached.ints]

variable {outer : List String} {first second third : StreamParser}

section

variable {B : Type u} [ObjectBuilder B] (start : BuildingVisitor B)

/-- The visitor after the calls of the parser. -/
def visited (parser : StreamParser) : BuildingVisitor B :=
  start.visitAll parser.calls

variable {before : StreamParser} {base : StringPath}

theorem visited_of_calls {after : StreamParser} {call : VisitorCall}
    (calls_eq : after.calls = before.calls ++ [call]) :
    visited start after = (visited start before).visit call := by
  rw [visited, calls_eq, BuildingVisitor.visitAll_append]
  rfl

theorem visited_call (call : VisitorCall) (parser : StreamParser) :
    visited start (parser.call call) = (visited start parser).visit call :=
  visited_of_calls start rfl

/-- The builder has changed, and the parser is where it was. -/
structure Built (change : B → B) (before after : StreamParser) : Prop where
  attrs : after.attrStack = before.attrStack
  lists : after.listStack = before.listStack
  uncached : Uncached after
  visited_eq : visited start after =
    { visited start before with builder := change (visited start before).builder }

/-- The path in an object: the member that was opened last is still in it. -/
def memberPath (base : StringPath) (name : String) : StringPath :=
  if name = "" then base else base ++ [name]

/-- The parser is in an object behind some of its members, and the builder has changed. -/
structure BuiltMembers (base : StringPath) (outer : List String) (change : B → B)
    (before after : StreamParser) : Prop where
  attrs : ∃ name, after.attrStack = name :: outer ∧ visited start after =
    { visited start before with
      path := memberPath base name
      builder := change (visited start before).builder }
  lists : after.listStack = before.listStack
  uncached : Uncached after

variable {start} {change : B → B}

theorem visited_path {after : StreamParser} (built : Built start change before after) :
    (visited start after).path = (visited start before).path := by
  rw [built.visited_eq]

theorem Built.trans {one two : B → B}
    (builtOne : Built start one first second) (builtTwo : Built start two second third) :
    Built start (fun builder => two (one builder)) first third where
  attrs := builtTwo.attrs.trans builtOne.attrs
  lists := builtTwo.lists.trans builtOne.lists
  uncached := builtTwo.uncached
  visited_eq := by rw [builtTwo.visited_eq, builtOne.visited_eq]

/-- Null, truth values and strings. -/
theorem built_consumeOther (value : Scalar) (uncached : Uncached parser) :
    Built start (add (visited start parser).path [value]) parser
      (parser.consumeOther value) := by
  rw [StreamParser.consumeOther, flushPrevious_uncached uncached]
  have called := visited_call start (.consume [value])
    { parser with oldValTyp := .other }
  exact ⟨rfl, rfl, ⟨uncached.floats, uncached.uints, uncached.ints⟩, called⟩

/-- A number that is no element of an array. -/
theorem built_number (number : Number) (uncached : Uncached parser) (outside : ¬parser.InList) :
    Built start (add (visited start parser).path [number.scalar]) parser
      (parser.doPush number.cached number.cache number.cachedType) := by
  rw [doPush_outside outside, number.scalar_cached]
  have called := visited_call start (.consume [number.scalar]) parser
  exact ⟨rfl, rfl, ⟨uncached.floats, uncached.uints, uncached.ints⟩, called⟩

variable {name : String}

omit [ObjectBuilder B] in
theorem leave_last {visitor : BuildingVisitor B}
    (path_eq : visitor.path = base ++ [name]) :
    visitor.leave name = { visitor with path := base } := by
  rw [BuildingVisitor.leave, path_eq, List.getLast?_concat, if_pos rfl]
  simp

theorem visited_finishPrevious (path_eq : (visited start parser).path = memberPath base name) :
    visited start (parser.finishPrevious name) = { visited start parser with path := base } := by
  unfold finishPrevious
  rw [memberPath] at path_eq
  by_cases empty : name = ""
  · rw [if_neg (not_not.mpr empty)]
    rw [if_pos empty] at path_eq
    rw [← path_eq]
  · rw [if_neg empty] at path_eq
    rw [if_pos empty, visited_call]
    exact leave_last path_eq

theorem uncached_finishPrevious (uncached : Uncached parser) (name : String) :
    Uncached (parser.finishPrevious name) := by
  unfold finishPrevious
  split <;> exact ⟨uncached.floats, uncached.uints, uncached.ints⟩

theorem visited_beginArray (parser : StreamParser) :
    visited start (beginArray parser) =
      { visited start parser with path := (visited start parser).path ++ ["_"] } := by
  have called : visited start (beginArray parser) = (visited start parser).visit .beginList :=
    visited_of_calls start rfl
  exact called

theorem visited_beginObject (parser : StreamParser) :
    visited start (beginObject parser) =
      { visited start parser with
        builder := addObject (visited start parser).path
          (visited start parser).builder } := by
  have called : visited start (beginObject parser) = (visited start parser).visit .beginStruct :=
    visited_of_calls start rfl
  exact called

theorem visited_nextMember {last name : String}
    (path_eq : (visited start parser).path = memberPath base last)
    (isElement : StringPath.IsElement name) (outer : List String) :
    visited start (nextMember last name outer parser) =
      { visited start parser with path := base ++ [name] } := by
  have called : visited start (nextMember last name outer parser) =
      (visited start (parser.finishPrevious last)).visit (.beginAttribute name) :=
    visited_of_calls start rfl
  rw [called, visited_finishPrevious path_eq, BuildingVisitor.visit, StringPath.pushBack,
    isElement.2]

/-- The name of a member. -/
theorem built_key (built : BuiltMembers start base outer change before parser)
    (isElement : StringPath.IsElement name) :
    ∃ next, parser.handle (.key name) = some next ∧ next.attrStack = name :: outer ∧
      next.listStack = before.listStack ∧ Uncached next ∧ visited start next =
        { visited start before with
          path := base ++ [name]
          builder := change (visited start before).builder } := by
  rcases built.attrs with ⟨last, attrs, visitedEq⟩
  have path_eq : (visited start parser).path = memberPath base last := by rw [visitedEq]
  have uncached := uncached_finishPrevious built.uncached last
  refine ⟨nextMember last name outer parser, ?_, rfl,
    (finishPrevious_listStack last parser).trans built.lists,
    ⟨uncached.floats, uncached.uints, uncached.ints⟩, ?_⟩
  · simp only [handle, attrs, nextMember]
  · rw [visited_nextMember path_eq isElement, visitedEq]

/-- The end of an object. -/
theorem built_endObject
    (built : BuiltMembers start base outer change before parser) {isList : Bool} {lists : List Bool}
    (lists_eq : before.listStack = isList :: lists) (count : Nat) :
    ∃ next, parser.handle (.endObject count) = some next ∧ next.attrStack = outer ∧
      next.listStack = lists ∧ Uncached next ∧ visited start next =
        { visited start before with
          path := base
          builder := finishObject base (change (visited start before).builder) } := by
  rcases built.attrs with ⟨last, attrs, visitedEq⟩
  have finished : visited start (parser.finishPrevious last) =
      { visited start before with
        path := base
        builder := change (visited start before).builder } := by
    have path_eq : (visited start parser).path = memberPath base last := by rw [visitedEq]
    rw [visited_finishPrevious path_eq, visitedEq]
  have uncached := uncached_finishPrevious built.uncached last
  refine ⟨endObject last outer lists parser, ?_, rfl, rfl,
    ⟨uncached.floats, uncached.uints, uncached.ints⟩, ?_⟩
  · simp only [handle, attrs, built.lists, lists_eq, endObject]
  · have called : visited start (endObject last outer lists parser) =
        (visited start (parser.finishPrevious last)).visit .finishStruct := visited_of_calls start rfl
    rw [called, finished]
    rfl

/-! ## Whole documents -/

mutual

/-- The builder gets what is in the document. -/
theorem built_document (document : Document) (named : document.wellNamed = true)
    (direct : document.direct = true) {parser : StreamParser} (uncached : Uncached parser)
    (outside : document.isNumber = true → ¬parser.InList) :
    ∃ after, run document.callbacks parser = some after ∧
      Built start (document.build (visited start parser).path) parser after := by
  match document with
  | .null => exact ⟨_, run_one _ _, built_consumeOther .nothing uncached⟩
  | .bool value => exact ⟨_, run_one _ _, built_consumeOther (.bool value) uncached⟩
  | .number number =>
      exact ⟨_, (run_one _ _).trans (number.handle_callback parser),
        built_number number uncached (outside rfl)⟩
  | .string value => exact ⟨_, run_one _ _, built_consumeOther (.string value) uncached⟩
  | .array elements =>
      have began : visited start (beginArray parser) = _ := visited_beginArray parser
      have uncachedArray : Uncached (beginArray parser) :=
        ⟨uncached.floats, uncached.uints, uncached.ints⟩
      rcases built_elements elements named direct uncachedArray with ⟨middle, runEq, built⟩
      refine ⟨endArray parser.listStack middle, ?_, ?_⟩
      · have lists : middle.listStack = true :: parser.listStack := built.lists
        rw [Document.callbacks, run_cons]
        change run _ (beginArray parser) = _
        rw [run_append, runEq, bind_some, run_one]
        simp only [handle, lists, endArray]
      · have pathEq : (visited start middle).path = (visited start parser).path ++ ["_"] := by
          rw [visited_path built, began]
        have ended : visited start (endArray parser.listStack middle) =
            (visited start middle).visit .finishList := by
          apply visited_of_calls start
          rw [endArray, flushPrevious_uncached built.uncached]
          rfl
        have uncachedEnd : Uncached (endArray parser.listStack middle) := by
          rw [endArray, flushPrevious_uncached built.uncached]
          exact ⟨built.uncached.floats, built.uncached.uints, built.uncached.ints⟩
        refine ⟨?_, rfl, uncachedEnd, ?_⟩
        · rw [endArray, flushPrevious_uncached built.uncached]
          exact built.attrs
        · rw [ended, BuildingVisitor.visit, leave_last pathEq, built.visited_eq, began]
          rfl
  | .object members =>
      have began : visited start (beginObject parser) = _ := visited_beginObject parser
      have inObject : BuiltMembers start (visited start parser).path parser.attrStack id
          (beginObject parser) (beginObject parser) :=
        ⟨⟨"", rfl, by rw [began]; rfl⟩, rfl, ⟨uncached.floats, uncached.uints, uncached.ints⟩⟩
      rcases built_members members named direct inObject (by simp [InList, beginObject, call]) with
        ⟨middle, runEq, built⟩
      rcases built_endObject built rfl members.length with
        ⟨after, handled, attrs, lists, uncachedAfter, visitedEq⟩
      refine ⟨after, ?_, attrs, lists, uncachedAfter, ?_⟩
      · rw [Document.callbacks, run_cons]
        change run _ (beginObject parser) = _
        rw [run_append, runEq, bind_some, run_one, handled]
      · rw [visitedEq, began]
        rfl

theorem built_elements (elements : Elements) (named : elements.wellNamed = true)
    (direct : elements.direct = true) {parser : StreamParser} (uncached : Uncached parser) :
    ∃ after, run elements.callbacks parser = some after ∧
      Built start (elements.build (visited start parser).path) parser after := by
  match elements with
  | .nil => exact ⟨parser, rfl, rfl, rfl, uncached, rfl⟩
  | .cons head tail =>
      rw [Elements.wellNamed, Bool.and_eq_true] at named
      rw [Elements.direct, Bool.and_eq_true, Bool.and_eq_true, Bool.not_eq_true'] at direct
      rcases direct with ⟨notNumber, directHead, directTail⟩
      have outside : head.isNumber = true → ¬parser.InList := by
        intro isNumber
        rw [notNumber] at isNumber
        exact Bool.noConfusion isNumber
      rcases built_document head named.1 directHead uncached outside with
        ⟨middle, runHead, builtHead⟩
      rcases built_elements tail named.2 directTail builtHead.uncached with
        ⟨after, runTail, builtTail⟩
      refine ⟨after, ?_, ?_⟩
      · rw [Elements.callbacks, run_append, runHead, bind_some, runTail]
      · rw [visited_path builtHead] at builtTail
        exact builtHead.trans builtTail

theorem built_members (members : Members) (named : members.wellNamed = true)
    (direct : members.direct = true) {base : StringPath} {outer : List String} {change : B → B}
    {before parser : StreamParser}
    (built : BuiltMembers start base outer change before parser)
    (outside : ¬before.InList) :
    ∃ after, run members.callbacks parser = some after ∧
      BuiltMembers start base outer (fun builder => members.build base (change builder)) before
        after := by
  match members with
  | .nil => exact ⟨parser, rfl, built⟩
  | .cons name head tail =>
      rw [Members.wellNamed, Bool.and_eq_true, Bool.and_eq_true, decide_eq_true_eq] at named
      rw [Members.direct, Bool.and_eq_true] at direct
      rcases named with ⟨isElement, namedHead, namedTail⟩
      rcases built_key built isElement with ⟨next, handled, attrs, lists, uncached, visitedEq⟩
      have outsideNext : head.isNumber = true → ¬next.InList := by
        intro _
        rw [InList, lists]
        exact outside
      rcases built_document head namedHead direct.1 uncached outsideNext with
        ⟨middle, runHead, builtHead⟩
      have builtMiddle : BuiltMembers start base outer
          (fun builder => head.build (base ++ [name]) (change builder)) before middle := by
        refine ⟨⟨name, builtHead.attrs.trans attrs, ?_⟩, builtHead.lists.trans lists,
          builtHead.uncached⟩
        rw [builtHead.visited_eq, visitedEq, memberPath, if_neg isElement.1]
      rcases built_members tail namedTail direct.2 builtMiddle outside with
        ⟨after, runTail, builtTail⟩
      refine ⟨after, ?_, builtTail⟩
      rw [Members.callbacks, run_cons, handled, bind_some, run_append, runHead,
        bind_some, runTail]

end

end

variable {document : Document}

/-- What becomes of a builder when a document is read without an error. -/
theorem traverse_document {B : Type u} [ObjectBuilder B]
    (named : document.wellNamed = true) (direct : document.direct = true) (builder : B) :
    (Reading.traverse ⟨document.callbacks, false⟩ builder).map (fun outcome => outcome.2.builder) =
      some (finish (document.build [] (begin builder))).2 := by
  have uncached : Uncached {} := ⟨rfl, rfl, rfl⟩
  have outside : document.isNumber = true → ¬InList {} := by
    intro _ inList
    cases inList
  have read : ∃ after, run document.callbacks {} = some after ∧
      Built (BuildingVisitor.begin { builder := builder }) (document.build []) {} after :=
    built_document document named direct uncached outside
  rcases read with ⟨after, runEq, built⟩
  have visitedEq := built.visited_eq
  rw [Reading.traverse, runEq, map_some, map_some]
  change some (BuildingVisitor.finish (visited _ after)).2.builder = _
  rw [visitedEq]
  rfl

/-- What becomes of a builder when there is an error behind the elements of an array. -/
theorem traverse_unclosed {B : Type u} [ObjectBuilder B] {elements : Elements}
    (named : elements.wellNamed = true) (direct : elements.direct = true) (builder : B) :
    (Reading.traverse ⟨.startArray :: elements.callbacks, true⟩ builder).map
        (fun outcome => outcome.2.builder) =
      some (failed (elements.build ["_"] (begin builder))) := by
  have uncached : Uncached (beginArray {}) := ⟨rfl, rfl, rfl⟩
  have read : ∃ after, run elements.callbacks (beginArray {}) = some after ∧
      Built (BuildingVisitor.begin { builder := builder }) (elements.build ["_"]) (beginArray {})
        after :=
    built_elements elements named direct uncached
  rcases read with ⟨after, runEq, built⟩
  have opened : run (.startArray :: elements.callbacks) {} = some after := by
    rw [run_cons]
    exact runEq
  have visitedEq := built.visited_eq
  rw [Reading.traverse, opened, map_some, map_some]
  change some (BuildingVisitor.failed (visited _ after)).builder = _
  rw [visitedEq]
  rfl

/-! ## Calls behind others -/

/-- The second parser has made further calls before. It goes on like the first one: the type of the
last value does not matter if nothing is cached. -/
structure Behind (calls : List VisitorCall) (one other : StreamParser) : Prop where
  calls_eq : other.calls = calls ++ one.calls
  attrs : other.attrStack = one.attrStack
  lists : other.listStack = one.listStack
  floats : other.floatValues = one.floatValues
  uints : other.uintValues = one.uintValues
  ints : other.intValues = one.intValues
  last : other.oldValTyp = one.oldValTyp ∨ Uncached one

namespace Behind

variable {calls : List VisitorCall} {one other : StreamParser}

theorem call (behind : Behind calls one other) (visitorCall : VisitorCall) :
    Behind calls (one.call visitorCall) (other.call visitorCall) where
  calls_eq := by simp [StreamParser.call, behind.calls_eq]
  attrs := behind.attrs
  lists := behind.lists
  floats := behind.floats
  uints := behind.uints
  ints := behind.ints
  last := behind.last.imp_right fun uncached => ⟨uncached.floats, uncached.uints, uncached.ints⟩

theorem consume (behind : Behind calls one other) (values : List Scalar) :
    Behind calls (one.consume values) (other.consume values) := by
  rcases behind.call (.consume values) with ⟨calls_eq, attrs, lists, floats, uints, ints, last⟩
  exact ⟨calls_eq, attrs, lists, floats, uints, ints,
    last.imp_right fun uncached => ⟨uncached.floats, uncached.uints, uncached.ints⟩⟩

/-- A cache has the same values, and is assigned others alike. -/
structure Alike (cache : Cache) : Prop where
  values : ∀ {calls one other}, Behind calls one other → cache.values other = cache.values one
  nothing : ∀ {one}, Uncached one → cache.values one = []
  assign : ∀ {calls one other}, Behind calls one other → ∀ values,
    other.oldValTyp = one.oldValTyp ∨ values = [] →
      Behind calls (cache.assign values one) (cache.assign values other)

theorem alike_floatCache : Alike floatCache where
  values behind := behind.floats
  nothing uncached := uncached.floats
  assign behind values last := by
    rcases behind with ⟨calls_eq, attrs, lists, floats, uints, ints, before⟩
    refine ⟨calls_eq, attrs, lists, rfl, uints, ints, ?_⟩
    rcases last with same | rfl
    · exact Or.inl same
    · exact before.imp_right fun uncached => ⟨rfl, uncached.uints, uncached.ints⟩

theorem alike_uintCache : Alike uintCache where
  values behind := behind.uints
  nothing uncached := uncached.uints
  assign behind values last := by
    rcases behind with ⟨calls_eq, attrs, lists, floats, uints, ints, before⟩
    refine ⟨calls_eq, attrs, lists, floats, rfl, ints, ?_⟩
    rcases last with same | rfl
    · exact Or.inl same
    · exact before.imp_right fun uncached => ⟨uncached.floats, rfl, uncached.ints⟩

theorem alike_intCache : Alike intCache where
  values behind := behind.ints
  nothing uncached := uncached.ints
  assign behind values last := by
    rcases behind with ⟨calls_eq, attrs, lists, floats, uints, ints, before⟩
    refine ⟨calls_eq, attrs, lists, floats, uints, rfl, ?_⟩
    rcases last with same | rfl
    · exact Or.inl same
    · exact before.imp_right fun uncached => ⟨uncached.floats, uncached.uints, rfl⟩

theorem alike_cache (number : Number) : Alike number.cache := by
  cases number with
  | int value => exact alike_intCache
  | uint value => exact alike_uintCache
  | int64 value => exact alike_intCache
  | uint64 value => exact alike_uintCache
  | double bits => exact alike_floatCache

theorem doFlushPrevious {cache : Cache} (alike : Alike cache) (behind : Behind calls one other)
    (curValTyp newValTyp : CachedType) :
    Behind calls (one.doFlushPrevious cache curValTyp newValTyp)
      (other.doFlushPrevious cache curValTyp newValTyp) := by
  unfold StreamParser.doFlushPrevious
  rw [alike.values behind]
  rcases behind.last with same | uncached
  · rw [same]
    split_ifs
    · exact alike.assign (behind.consume _) [] (Or.inr rfl)
    · exact behind
  · rw [alike.nothing uncached]
    simpa using behind

theorem flushPrevious (behind : Behind calls one other) (newValTyp : CachedType) :
    Behind calls (one.flushPrevious newValTyp) (other.flushPrevious newValTyp) := by
  have flushed := doFlushPrevious alike_intCache (doFlushPrevious alike_uintCache
    (doFlushPrevious alike_floatCache behind .float newValTyp) .uint newValTyp) .int newValTyp
  exact ⟨flushed.calls_eq, flushed.attrs, flushed.lists, flushed.floats, flushed.uints,
    flushed.ints, Or.inl rfl⟩

theorem consumeOther (behind : Behind calls one other) (value : Scalar) :
    Behind calls (one.consumeOther value) (other.consumeOther value) :=
  (behind.flushPrevious .other).consume [value]

theorem doPush (behind : Behind calls one other) (number : Number) :
    Behind calls (one.doPush number.cached number.cache number.cachedType)
      (other.doPush number.cached number.cache number.cachedType) := by
  by_cases inList : one.InList
  · have inListOther : other.InList := by rwa [InList, behind.lists]
    have flushed := behind.flushPrevious number.cachedType
    rw [doPush_inList inList, doPush_inList inListOther, (alike_cache number).values flushed]
    exact (alike_cache number).assign flushed _ (Or.inl rfl)
  · have outsideOther : ¬other.InList := by rwa [InList, behind.lists]
    rw [doPush_outside inList, doPush_outside outsideOther]
    exact behind.consume _

theorem finishPrevious (behind : Behind calls one other) (name : String) :
    Behind calls (one.finishPrevious name) (other.finishPrevious name) := by
  unfold StreamParser.finishPrevious
  split_ifs
  · exact behind.call _
  · exact behind

theorem restack (behind : Behind calls one other) {attrs attrsOther : List String}
    (sameAttrs : attrsOther = attrs) {lists listsOther : List Bool} (sameLists : listsOther = lists)
    (unparsed unparsedOther : Bool) :
    Behind calls { one with attrStack := attrs, listStack := lists, inUnparsed := unparsed }
      { other with
        attrStack := attrsOther, listStack := listsOther, inUnparsed := unparsedOther } :=
  ⟨behind.calls_eq, sameAttrs, sameLists, behind.floats, behind.uints, behind.ints,
    behind.last.imp_right fun uncached => ⟨uncached.floats, uncached.uints, uncached.ints⟩⟩

/-- A callback is handled alike. -/
theorem handle (behind : Behind calls one other) {callback : Callback} {next : StreamParser}
    (handled : one.handle callback = some next) :
    ∃ nextOther, other.handle callback = some nextOther ∧ Behind calls next nextOther := by
  have value (scalar : Scalar) (handledEq : some (one.consumeOther scalar) = some next) :
      ∃ nextOther, some (other.consumeOther scalar) = some nextOther ∧
        Behind calls next nextOther :=
    ⟨_, rfl, Option.some.inj handledEq ▸ behind.consumeOther scalar⟩
  have number (number : Number) (handledEq : one.handle number.callback = some next) :
      ∃ nextOther, other.handle number.callback = some nextOther ∧
        Behind calls next nextOther := by
    rw [number.handle_callback] at handledEq ⊢
    exact ⟨_, rfl, Option.some.inj handledEq ▸ behind.doPush number⟩
  cases callback with
  | null => exact value .nothing handled
  | bool truth => exact value (.bool truth) handled
  | string str => exact value (.string str) handled
  | int bits => exact number (.int bits) handled
  | uint bits => exact number (.uint bits) handled
  | int64 bits => exact number (.int64 bits) handled
  | uint64 bits => exact number (.uint64 bits) handled
  | double bits => exact number (.double bits) handled
  | startObject =>
      cases handled
      exact ⟨_, rfl, (behind.restack (congrArg _ behind.attrs) (congrArg _ behind.lists) _ _).call _⟩
  | startArray =>
      cases handled
      exact ⟨_, rfl, (behind.restack behind.attrs (congrArg _ behind.lists) _ _).call _⟩
  | key str =>
      rw [StreamParser.handle] at handled ⊢
      rw [behind.attrs]
      cases stack : one.attrStack with
      | nil =>
          rw [stack] at handled
          cases handled
      | cons name names =>
          rw [stack] at handled
          cases handled
          have finished := behind.finishPrevious name
          exact ⟨_, rfl, (finished.restack rfl finished.lists _ _).call _⟩
  | endObject count =>
      rw [StreamParser.handle] at handled ⊢
      rw [behind.attrs, behind.lists]
      rcases stack : one.attrStack with _ | ⟨name, names⟩
      · rw [stack] at handled
        cases handled
      · rcases lists : one.listStack with _ | ⟨isList, lists⟩
        · rw [stack, lists] at handled
          cases handled
        · rw [stack, lists] at handled
          cases handled
          exact ⟨_, rfl, ((behind.finishPrevious name).restack rfl rfl _ _).call _⟩
  | endArray count =>
      rw [StreamParser.handle] at handled ⊢
      rw [behind.lists]
      rcases lists : one.listStack with _ | ⟨isList, lists⟩
      · rw [lists] at handled
        cases handled
      · rw [lists] at handled
        cases handled
        have ended := (behind.flushPrevious .none).call .finishList
        exact ⟨_, rfl, ended.restack ended.attrs rfl _ _⟩

theorem run (behind : Behind calls one other) {callbacks : List Callback} {after : StreamParser}
    (ran : StreamParser.run callbacks one = some after) :
    ∃ afterOther, StreamParser.run callbacks other = some afterOther ∧
      Behind calls after afterOther := by
  induction callbacks generalizing one other with
  | nil => exact ⟨other, rfl, Option.some.inj ran ▸ behind⟩
  | cons callback callbacks ih =>
      rw [run_cons] at ran
      rcases bind_eq_some_iff.mp ran with ⟨next, handled, rest⟩
      rcases behind.handle handled with ⟨nextOther, handledOther, behindNext⟩
      rcases ih behindNext rest with ⟨afterOther, restOther, behindAfter⟩
      exact ⟨afterOther, by rw [run_cons, handledOther, bind_some, restOther], behindAfter⟩

end Behind

/-! ## Builders that stay related -/

section

variable {B : Type u} [ObjectBuilder B] {C : Type v} [ObjectBuilder C]

/-- Builders that get the same stay related. -/
structure Respected (R : B → C → Prop) : Prop where
  add : ∀ path values {one other}, R one other →
    R (add path values one) (add path values other)
  addObject : ∀ path {one other}, R one other →
    R (addObject path one) (addObject path other)
  finishObject : ∀ path {one other}, R one other →
    R (finishObject path one) (finishObject path other)

/-- Two visitors are at the same path, with builders that are related. -/
structure VisitorsRelated (R : B → C → Prop) (one : BuildingVisitor B) (other : BuildingVisitor C) :
    Prop where
  path_eq : one.path = other.path
  builders : R one.builder other.builder

variable {R : B → C → Prop} {one : BuildingVisitor B} {other : BuildingVisitor C}

omit [ObjectBuilder B] [ObjectBuilder C] in
theorem VisitorsRelated.leave (related : VisitorsRelated R one other) (name : String) :
    VisitorsRelated R (one.leave name) (other.leave name) := by
  unfold BuildingVisitor.leave
  rw [related.path_eq]
  split_ifs
  · exact ⟨rfl, related.builders⟩
  · exact ⟨rfl, related.builders⟩

theorem VisitorsRelated.visit (respected : Respected R) (related : VisitorsRelated R one other)
    (call : VisitorCall) : VisitorsRelated R (one.visit call) (other.visit call) := by
  have path_eq := related.path_eq
  have builders := related.builders
  cases call with
  | consume values =>
      refine ⟨path_eq, ?_⟩
      rw [BuildingVisitor.visit, BuildingVisitor.visit, path_eq]
      exact respected.add _ _ builders
  | beginStruct =>
      refine ⟨path_eq, ?_⟩
      rw [BuildingVisitor.visit, BuildingVisitor.visit, path_eq]
      exact respected.addObject _ builders
  | finishStruct =>
      refine ⟨path_eq, ?_⟩
      rw [BuildingVisitor.visit, BuildingVisitor.visit, path_eq]
      exact respected.finishObject _ builders
  | beginAttribute name => exact ⟨congrArg (StringPath.pushBack · name) path_eq, builders⟩
  | beginList => exact ⟨congrArg (StringPath.pushBack · "_") path_eq, builders⟩
  | finishList => exact related.leave "_"
  | finishAttribute name => exact related.leave name

theorem VisitorsRelated.visitAll (respected : Respected R) (related : VisitorsRelated R one other)
    (calls : List VisitorCall) : VisitorsRelated R (one.visitAll calls) (other.visitAll calls) := by
  induction calls generalizing one other with
  | nil => exact related
  | cons call calls ih => exact ih (related.visit respected call)

/-- The builder gets the same whatever the visitor was told before. -/
theorem visitAll_builder_congr (one other : BuildingVisitor B) (path_eq : one.path = other.path)
    (builder_eq : one.builder = other.builder) (calls : List VisitorCall) :
    (one.visitAll calls).path = (other.visitAll calls).path ∧
      (one.visitAll calls).builder = (other.visitAll calls).builder := by
  have same : Respected fun one other : B => one = other :=
    ⟨fun _ _ _ _ => congrArg _, fun _ _ _ => congrArg _, fun _ _ _ => congrArg _⟩
  have related := VisitorsRelated.visitAll same ⟨path_eq, builder_eq⟩ calls
  exact ⟨related.path_eq, related.builders⟩

/-- What a builder keeps whatever it gets. -/
theorem visitAll_keeps {Q : B → Prop} (kept : Respected fun one _ : B => Q one)
    {visitor : BuildingVisitor B} (holds : Q visitor.builder) (calls : List VisitorCall) :
    Q (visitor.visitAll calls).builder := by
  have related : VisitorsRelated (fun one _ : B => Q one) visitor visitor := ⟨rfl, holds⟩
  exact (related.visitAll kept calls).builders

end

/-! ## What is kept below a member -/

section

variable {B : Type u} [ObjectBuilder B] {depth : Nat} {Q : B → Prop} {start : BuildingVisitor B}

/-- What a builder keeps when it gets values below some depth. -/
structure KeptBelow (depth : Nat) (Q : B → Prop) : Prop where
  add : ∀ {path builder} values, depth < path.length → Q builder →
    Q (add path values builder)
  addObject : ∀ {path builder}, depth ≤ path.length → Q builder →
    Q (addObject path builder)
  finishObject : ∀ {path builder}, depth ≤ path.length → Q builder →
    Q (finishObject path builder)

/-- The parser is where it was, and the builder keeps what it keeps. -/
structure Kept (Q : B → Prop) (start : BuildingVisitor B) (before after : StreamParser) : Prop where
  attrs : after.attrStack = before.attrStack
  lists : after.listStack = before.listStack
  path_eq : (visited start after).path = (visited start before).path
  holds : Q (visited start before).builder → Q (visited start after).builder

/-- The same in an object, behind some of its members. -/
structure KeptMembers (Q : B → Prop) (start : BuildingVisitor B) (base : StringPath)
    (outer : List String) (before after : StreamParser) : Prop where
  attrs : ∃ name, after.attrStack = name :: outer ∧ (visited start after).path = memberPath base name
  lists : after.listStack = before.listStack
  holds : Q (visited start before).builder → Q (visited start after).builder

theorem Kept.trans (one : Kept Q start first second)
    (two : Kept Q start second third) : Kept Q start first third where
  attrs := two.attrs.trans one.attrs
  lists := two.lists.trans one.lists
  path_eq := two.path_eq.trans one.path_eq
  holds := two.holds ∘ one.holds

/-- Only the calls matter for what is visited. -/
theorem Kept.of_calls {before middle after : StreamParser} (kept : Kept Q start before middle)
    (calls : after.calls = middle.calls) (attrs : after.attrStack = middle.attrStack)
    (lists : after.listStack = middle.listStack) : Kept Q start before after := by
  have same : visited start after = visited start middle := congrArg start.visitAll calls
  exact ⟨attrs.trans kept.attrs, lists.trans kept.lists, same ▸ kept.path_eq, same ▸ kept.holds⟩

theorem kept_consume (below : KeptBelow depth Q) (values : List Scalar)
    (deep : depth < (visited start parser).path.length) :
    Kept Q start parser (parser.consume values) := by
  have called : visited start (parser.consume values) =
      (visited start parser).visit (.consume values) := visited_of_calls start rfl
  rw [BuildingVisitor.visit] at called
  refine ⟨rfl, rfl, by rw [called], fun holds => ?_⟩
  rw [called]
  exact below.add values deep holds

theorem kept_doFlushPrevious (below : KeptBelow depth Q) {cache : Cache}
    (assigned : ∀ values {before after}, Kept Q start before after →
      Kept Q start before (cache.assign values after)) (curValTyp newValTyp : CachedType)
    (deep : depth < (visited start parser).path.length) :
    Kept Q start parser (parser.doFlushPrevious cache curValTyp newValTyp) := by
  unfold doFlushPrevious
  split_ifs
  · exact assigned [] (kept_consume below _ deep)
  · exact ⟨rfl, rfl, rfl, id⟩

theorem kept_flushPrevious (below : KeptBelow depth Q) (newValTyp : CachedType)
    (deep : depth < (visited start parser).path.length) :
    Kept Q start parser (parser.flushPrevious newValTyp) := by
  let flushedFloats := parser.doFlushPrevious floatCache .float newValTyp
  let flushedUints := flushedFloats.doFlushPrevious uintCache .uint newValTyp
  have floats : Kept Q start parser flushedFloats :=
    kept_doFlushPrevious below (fun _ _ _ kept => kept.of_calls rfl rfl rfl) .float newValTyp deep
  have uints : Kept Q start flushedFloats flushedUints :=
    kept_doFlushPrevious below (fun _ _ _ kept => kept.of_calls rfl rfl rfl) .uint newValTyp
      (floats.path_eq ▸ deep)
  have toUints := floats.trans uints
  have ints : Kept Q start flushedUints (flushedUints.doFlushPrevious intCache .int newValTyp) :=
    kept_doFlushPrevious below (fun _ _ _ kept => kept.of_calls rfl rfl rfl) .int newValTyp
      (toUints.path_eq ▸ deep)
  exact (toUints.trans ints).of_calls rfl rfl rfl

theorem kept_consumeOther (below : KeptBelow depth Q) (value : Scalar)
    (deep : depth < (visited start parser).path.length) :
    Kept Q start parser (parser.consumeOther value) := by
  have flushed := kept_flushPrevious below .other deep
  exact flushed.trans (kept_consume below _ (flushed.path_eq ▸ deep))

theorem kept_number (below : KeptBelow depth Q) (number : Number)
    (deep : depth < (visited start parser).path.length) :
    Kept Q start parser (parser.doPush number.cached number.cache number.cachedType) := by
  by_cases inList : parser.InList
  · rw [doPush_inList inList]
    have flushed := kept_flushPrevious below number.cachedType deep
    rcases number.assign_stacks (number.cache.values (parser.flushPrevious number.cachedType) ++
      [number.cached]) (parser.flushPrevious number.cachedType) with ⟨attrs, lists⟩
    exact flushed.of_calls (number.assign_calls _ _) attrs lists
  · rw [doPush_outside inList]
    exact kept_consume below _ deep

mutual

/-- A value is visited, and the builder keeps what it keeps below the depth. -/
theorem kept_document (below : KeptBelow depth Q) (document : Document)
    (named : document.wellNamed = true) {parser : StreamParser}
    (deep : depth ≤ (visited start parser).path.length)
    (inside : document.isContainer = false → depth < (visited start parser).path.length) :
    ∃ after, run document.callbacks parser = some after ∧ Kept Q start parser after := by
  match document with
  | .null => exact ⟨_, run_one _ _, kept_consumeOther below .nothing (inside rfl)⟩
  | .bool value => exact ⟨_, run_one _ _, kept_consumeOther below (.bool value) (inside rfl)⟩
  | .number number =>
      exact ⟨_, (run_one _ _).trans (number.handle_callback parser),
        kept_number below number (inside rfl)⟩
  | .string value => exact ⟨_, run_one _ _, kept_consumeOther below (.string value) (inside rfl)⟩
  | .array elements =>
      have began : visited start (beginArray parser) = _ := visited_beginArray parser
      have deepElements : depth < (visited start (beginArray parser)).path.length := by
        rw [began, List.length_append, List.length_singleton]
        exact Nat.lt_add_one_of_le deep
      rcases kept_elements below elements named deepElements with ⟨middle, runEq, kept⟩
      refine ⟨endArray parser.listStack middle, ?_, ?_⟩
      · have lists : middle.listStack = true :: parser.listStack := kept.lists
        rw [Document.callbacks, run_cons]
        change run _ (beginArray parser) = _
        rw [run_append, runEq, bind_some, run_one]
        simp only [handle, lists, endArray]
      · have flushed := kept.trans (kept_flushPrevious below .none (kept.path_eq ▸ deepElements))
        have ended : visited start (endArray parser.listStack middle) =
            (visited start (middle.flushPrevious .none)).visit .finishList :=
          visited_of_calls start rfl
        have pathEq : (visited start (middle.flushPrevious .none)).path =
            (visited start parser).path ++ ["_"] := by rw [flushed.path_eq, began]
        rw [BuildingVisitor.visit, leave_last pathEq] at ended
        have holds := flushed.holds
        rw [began] at holds
        exact ⟨flushed.attrs, rfl, by rw [ended], by rw [ended]; exact holds⟩
  | .object members =>
      have began : visited start (beginObject parser) = _ := visited_beginObject parser
      have inObject : KeptMembers Q start (visited start parser).path parser.attrStack
          (beginObject parser) (beginObject parser) :=
        ⟨⟨"", rfl, by rw [began]; rfl⟩, rfl, id⟩
      rcases kept_members below members named inObject deep with ⟨middle, runEq, kept⟩
      rcases kept.attrs with ⟨last, attrs, path_eq⟩
      have lists : middle.listStack = false :: parser.listStack := kept.lists
      refine ⟨endObject last parser.attrStack parser.listStack middle, ?_, ?_⟩
      · rw [Document.callbacks, run_cons]
        change run _ (beginObject parser) = _
        rw [run_append, runEq, bind_some, run_one]
        simp only [handle, attrs, lists, endObject]
      · have ended : visited start (endObject last parser.attrStack parser.listStack middle) =
            (visited start (middle.finishPrevious last)).visit .finishStruct :=
          visited_of_calls start rfl
        rw [visited_finishPrevious path_eq] at ended
        refine ⟨rfl, rfl, by rw [ended]; rfl, fun holds => ?_⟩
        have added : Q (visited start (beginObject parser)).builder := by
          rw [began]
          exact below.addObject deep holds
        rw [ended]
        exact below.finishObject deep (kept.holds added)

theorem kept_elements (below : KeptBelow depth Q) (elements : Elements)
    (named : elements.wellNamed = true) {parser : StreamParser}
    (deep : depth < (visited start parser).path.length) :
    ∃ after, run elements.callbacks parser = some after ∧ Kept Q start parser after := by
  match elements with
  | .nil => exact ⟨parser, rfl, rfl, rfl, rfl, id⟩
  | .cons head tail =>
      rw [Elements.wellNamed, Bool.and_eq_true] at named
      rcases kept_document below head named.1 (Nat.le_of_lt deep) (fun _ => deep) with
        ⟨middle, runHead, keptHead⟩
      rcases kept_elements below tail named.2 (keptHead.path_eq ▸ deep) with
        ⟨after, runTail, keptTail⟩
      refine ⟨after, ?_, keptHead.trans keptTail⟩
      rw [Elements.callbacks, run_append, runHead, bind_some, runTail]

theorem kept_members (below : KeptBelow depth Q) (members : Members)
    (named : members.wellNamed = true) {base : StringPath} {outer : List String}
    {before parser : StreamParser} (kept : KeptMembers Q start base outer before parser)
    (deep : depth ≤ base.length) :
    ∃ after, run members.callbacks parser = some after ∧
      KeptMembers Q start base outer before after := by
  match members with
  | .nil => exact ⟨parser, rfl, kept⟩
  | .cons name head tail =>
      rw [Members.wellNamed, Bool.and_eq_true, Bool.and_eq_true, decide_eq_true_eq] at named
      rcases named with ⟨isElement, namedHead, namedTail⟩
      rcases kept.attrs with ⟨last, attrs, path_eq⟩
      have visitedNext := visited_nextMember path_eq isElement outer
      have deepNext : depth < (visited start (nextMember last name outer parser)).path.length := by
        rw [visitedNext, List.length_append, List.length_singleton]
        exact Nat.lt_add_one_of_le deep
      rcases kept_document below head namedHead (Nat.le_of_lt deepNext) (fun _ => deepNext) with
        ⟨middle, runHead, keptHead⟩
      have keptMiddle : KeptMembers Q start base outer before middle := by
        refine ⟨⟨name, keptHead.attrs, ?_⟩, ?_, fun holds => ?_⟩
        · rw [keptHead.path_eq, visitedNext, memberPath, if_neg isElement.1]
        · exact keptHead.lists.trans ((finishPrevious_listStack last parser).trans kept.lists)
        · have held := kept.holds holds
          have heldNext : Q (visited start (nextMember last name outer parser)).builder := by
            rw [visitedNext]
            exact held
          exact keptHead.holds heldNext
      rcases kept_members below tail namedTail keptMiddle deep with ⟨after, runTail, keptTail⟩
      refine ⟨after, ?_, keptTail⟩
      have handled : parser.handle (.key name) = some (nextMember last name outer parser) := by
        simp only [handle, attrs, nextMember]
      rw [Members.callbacks, run_cons, handled, bind_some, run_append, runHead,
        bind_some, runTail]

end

end

/-! ## The members of an object -/

/-- The value of a document that is no container. -/
def Document.scalar : Document → Option Scalar
  | .null => some .nothing
  | .bool value => some (.bool value)
  | .number value => some value.scalar
  | .string value => some (.string value)
  | .array _ => none
  | .object _ => none

/-- The members that are no containers. -/
def Members.scalars : Members → List (String × Scalar)
  | .nil => []
  | .cons name head tail => (head.scalar.map fun value => (name, value)).toList ++ tail.scalars

section

variable {B : Type u} [ObjectBuilder B] {base : StringPath}

/-- A builder gets the values of members. Of an array or an object that is a member it is only known
what is kept below its path: there are cached values in between. -/
inductive Members.Takes (base : StringPath) : Members → B → B → Prop
  | nil (builder : B) : Takes base .nil builder builder
  | scalar {name : String} {head : Document} {tail : Members} {value : Scalar} {before after : B} :
      head.scalar = some value →
        Takes base tail (add (base ++ [name]) [value] before) after →
          Takes base (.cons name head tail) before after
  | container {name : String} {head : Document} {tail : Members} {before middle after : B} :
      head.isContainer = true →
        (∀ Q, KeptBelow (base.length + 1) Q → Q before → Q middle) →
          Takes base tail middle after → Takes base (.cons name head tail) before after

namespace Members.Takes

variable {members : Members} {before after : B}

/-- What is kept by all that the builder gets. -/
theorem keeps (takes : Takes base members before after) {Q : B → Prop}
    (below : KeptBelow (base.length + 1) Q)
    (add : ∀ name ∈ members.names, ∀ value builder, Q builder →
      Q (add (base ++ [name]) [value] builder)) (holds : Q before) : Q after := by
  induction takes with
  | nil builder => exact holds
  | scalar _ _ ih =>
      rcases List.forall_mem_cons.mp add with ⟨addHead, addTail⟩
      exact ih addTail (addHead _ _ holds)
  | container _ kept _ ih =>
      rcases List.forall_mem_cons.mp add with ⟨_, addTail⟩
      exact ih addTail (kept Q below holds)

/-- What is written only by members that are no containers is settled by them. -/
theorem settles {V : Type v} (takes : Takes base members before after) {P : B → Prop} {get : B → V}
    {write : String → Scalar → Option V}
    (below : ∀ value, KeptBelow (base.length + 1) fun builder => P builder ∧ get builder = value)
    (add : ∀ name ∈ members.names, ∀ value builder, P builder →
      P (add (base ++ [name]) [value] builder) ∧
        get (add (base ++ [name]) [value] builder) =
          (write name value).getD (get builder)) (holds : P before) :
    get after = Theory.settle (get before)
      (members.scalars.map fun member => write member.1 member.2) := by
  induction takes with
  | nil builder => rfl
  | @scalar name head tail value before after scalar _ ih =>
      rcases List.forall_mem_cons.mp add with ⟨addHead, addTail⟩
      rcases addHead value before holds with ⟨holdsNext, written⟩
      rw [ih addTail holdsNext, written, Members.scalars, scalar]
      rfl
  | @container name head tail before middle after isContainer kept _ ih =>
      rcases List.forall_mem_cons.mp add with ⟨_, addTail⟩
      rcases kept _ (below (get before)) ⟨holds, rfl⟩ with ⟨holdsNext, same⟩
      have noScalar : head.scalar = none := by
        cases head with
        | array elements => rfl
        | object members => rfl
        | _ => cases isContainer
      rw [ih addTail holdsNext, same, Members.scalars, noScalar]
      rfl

end Members.Takes

/-! ## Whole objects -/

variable {start : BuildingVisitor B}

theorem uncached_of_pending (nothing : parser.pending = []) : Uncached parser := by
  rw [pending, List.map_eq_nil_iff, List.append_eq_nil_iff, List.append_eq_nil_iff,
    List.map_eq_nil_iff, List.map_eq_nil_iff, List.map_eq_nil_iff] at nothing
  exact ⟨nothing.1, nothing.2.1, nothing.2.2⟩

theorem Uncached.pending (uncached : Uncached parser) : parser.pending = [] := by
  rw [StreamParser.pending, uncached.floats, uncached.uints, uncached.ints]
  rfl

/-- A value that is no container. -/
theorem built_scalar (start : BuildingVisitor B) {value : Scalar}
    (scalar : document.scalar = some value) (uncached : Uncached parser)
    (outside : ¬parser.InList) :
    ∃ after, run document.callbacks parser = some after ∧
      Built start (add (visited start parser).path [value]) parser after := by
  cases document with
  | null =>
      cases scalar
      exact ⟨_, run_one _ _, built_consumeOther .nothing uncached⟩
  | bool truth =>
      cases scalar
      exact ⟨_, run_one _ _, built_consumeOther (.bool truth) uncached⟩
  | number number =>
      cases scalar
      exact ⟨_, (run_one _ _).trans (number.handle_callback parser),
        built_number number uncached outside⟩
  | string text =>
      cases scalar
      exact ⟨_, run_one _ _, built_consumeOther (.string text) uncached⟩
  | array elements => cases scalar
  | object members => cases scalar

/-- An array or an object in an object. -/
theorem kept_container (start : BuildingVisitor B)
    (isContainer : document.isContainer = true) (named : document.wellNamed = true)
    (uncached : Uncached parser) :
    ∃ after, run document.callbacks parser = some after ∧ after.attrStack = parser.attrStack ∧
      after.listStack = parser.listStack ∧ Uncached after ∧
        (visited start after).path = (visited start parser).path ∧
          ∀ Q, KeptBelow (visited start parser).path.length Q →
            Q (visited start parser).builder → Q (visited start after).builder := by
  have steady : parser.Steady :=
    ⟨fun _ => uncached.floats, fun _ => uncached.uints, fun _ => uncached.ints⟩
  rcases Document.run_followed document steady with ⟨after, runEq, followed⟩
  have notNumber : document.isNumber = false := by
    cases document with
    | number number => cases isContainer
    | _ => rfl
  have nothing : after.pending = [] := by
    rw [followed.cached (Or.inl uncached.pending), notNumber]
    simp
  have kept : ∀ Q : B → Prop, KeptBelow (visited start parser).path.length Q →
      Kept Q start parser after := by
    intro Q below
    have inside : document.isContainer = false →
        (visited start parser).path.length < (visited start parser).path.length := by
      rw [isContainer]
      exact fun impossible => Bool.noConfusion impossible
    rcases kept_document below document named le_rfl inside with ⟨other, runOther, kept⟩
    cases runEq.symm.trans runOther
    exact kept
  have always : KeptBelow (visited start parser).path.length fun _ : B => True :=
    ⟨fun _ _ _ => trivial, fun _ _ => trivial, fun _ _ => trivial⟩
  exact ⟨after, runEq, followed.names, followed.advance.lists, uncached_of_pending nothing,
    (kept _ always).path_eq, fun Q below => (kept Q below).holds⟩

theorem takes_members (members : Members) (named : members.wellNamed = true)
    {last : String} {parser : StreamParser} (attrs : parser.attrStack = last :: outer)
    (path_eq : (visited start parser).path = memberPath base last) (uncached : Uncached parser)
    (outside : ¬parser.InList) :
    ∃ after name, run members.callbacks parser = some after ∧ after.attrStack = name :: outer ∧
      (visited start after).path = memberPath base name ∧ after.listStack = parser.listStack ∧
        Uncached after ∧
          Members.Takes base members (visited start parser).builder (visited start after).builder := by
  match members with
  | .nil => exact ⟨parser, last, rfl, attrs, path_eq, rfl, uncached, .nil _⟩
  | .cons name head tail =>
      rw [Members.wellNamed, Bool.and_eq_true, Bool.and_eq_true, decide_eq_true_eq] at named
      rcases named with ⟨isElement, namedHead, namedTail⟩
      have visitedNext := visited_nextMember path_eq isElement outer
      have handled : parser.handle (.key name) = some (nextMember last name outer parser) := by
        simp only [handle, attrs, nextMember]
      have listsNext : (nextMember last name outer parser).listStack = parser.listStack :=
        finishPrevious_listStack last parser
      have uncachedNext : Uncached (nextMember last name outer parser) := by
        rcases uncached_finishPrevious uncached last with ⟨floats, uints, ints⟩
        exact ⟨floats, uints, ints⟩
      have outsideNext : ¬(nextMember last name outer parser).InList := by
        rwa [InList, listsNext]
      have inMember : base ++ [name] = memberPath base name := (if_neg isElement.1).symm
      cases scalar : head.scalar with
      | some value =>
          rcases built_scalar start scalar uncachedNext outsideNext with ⟨middle, runHead, built⟩
          have visitedMiddle := built.visited_eq
          rw [visitedNext] at visitedMiddle
          have outsideMiddle : ¬middle.InList := by rwa [InList, built.lists]
          rcases takes_members tail namedTail built.attrs (by rw [visitedMiddle, ← inMember])
            built.uncached outsideMiddle with
            ⟨after, lastAfter, runTail, attrsAfter, pathAfter, listsAfter, uncachedAfter, takes⟩
          refine ⟨after, lastAfter, ?_, attrsAfter, pathAfter,
            listsAfter.trans (built.lists.trans listsNext), uncachedAfter, .scalar scalar ?_⟩
          · rw [Members.callbacks, run_cons, handled, bind_some, run_append, runHead,
              bind_some, runTail]
          · rwa [visitedMiddle] at takes
      | none =>
          have isContainer : head.isContainer = true := by
            cases head with
            | array elements => rfl
            | object members => rfl
            | _ => cases scalar
          rcases kept_container start isContainer namedHead uncachedNext with
            ⟨middle, runHead, attrsMiddle, listsMiddle, uncachedMiddle, pathMiddle, kept⟩
          rw [visitedNext] at pathMiddle kept
          have outsideMiddle : ¬middle.InList := by rwa [InList, listsMiddle]
          rcases takes_members tail namedTail attrsMiddle (by rw [pathMiddle, ← inMember])
            uncachedMiddle outsideMiddle with
            ⟨after, lastAfter, runTail, attrsAfter, pathAfter, listsAfter, uncachedAfter, takes⟩
          refine ⟨after, lastAfter, ?_, attrsAfter, pathAfter,
            listsAfter.trans (listsMiddle.trans listsNext), uncachedAfter,
            .container isContainer (fun Q below => kept Q ?_) takes⟩
          · rw [Members.callbacks, run_cons, handled, bind_some, run_append, runHead,
              bind_some, runTail]
          · rwa [List.length_append, List.length_singleton]

/-- An object is built from what its members are. -/
theorem takes_object (members : Members) (named : members.wellNamed = true)
    (path_eq : (visited start parser).path = base) (uncached : Uncached parser) :
    ∃ after built, run (Document.object members).callbacks parser = some after ∧
      after.attrStack = parser.attrStack ∧ after.listStack = parser.listStack ∧ Uncached after ∧
        (visited start after).path = base ∧
          Members.Takes base members (addObject base (visited start parser).builder)
            built ∧ (visited start after).builder = finishObject base built := by
  have began : visited start (beginObject parser) = _ := visited_beginObject parser
  have uncachedBegan : Uncached (beginObject parser) :=
    ⟨uncached.floats, uncached.uints, uncached.ints⟩
  rw [path_eq] at began
  have attrsBegan : (beginObject parser).attrStack = "" :: parser.attrStack := rfl
  rcases takes_members members named attrsBegan (by rw [began]; exact path_eq) uncachedBegan
    (by simp [InList, beginObject, call]) with
    ⟨middle, last, runEq, attrs, pathMiddle, lists, uncachedMiddle, takes⟩
  rw [began] at takes
  have ended : visited start (endObject last parser.attrStack parser.listStack middle) =
      (visited start (middle.finishPrevious last)).visit .finishStruct := visited_of_calls start rfl
  rw [visited_finishPrevious pathMiddle] at ended
  rcases uncached_finishPrevious uncachedMiddle last with ⟨floats, uints, ints⟩
  refine ⟨endObject last parser.attrStack parser.listStack middle, _, ?_, rfl, rfl,
    ⟨floats, uints, ints⟩, by rw [ended]; rfl, takes, by rw [ended]; rfl⟩
  have listsMiddle : middle.listStack = false :: parser.listStack := lists
  rw [Document.callbacks, run_cons]
  change run _ (beginObject parser) = _
  rw [run_append, runEq, bind_some, run_one]
  simp only [handle, attrs, listsMiddle, endObject]

end

end Eagine.ValueTree
