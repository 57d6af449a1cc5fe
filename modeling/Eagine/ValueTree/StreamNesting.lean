import Eagine.ValueTree.JsonStreamOrder

/-!
# Where a document ends

The handler knows the end of a document by its lists: it is behind the callback that closes the
array or object at the root, and not before. What the handler does never depends on the visitor
having been flushed.
-/

namespace Eagine.ValueTree

namespace StreamParser

/-- The parsers are at the same place of a document. -/
structure SameNest (before after : StreamParser) : Prop where
  attrs : after.attrStack = before.attrStack
  lists : after.listStack = before.listStack
  inUnparsed_eq : after.inUnparsed = before.inUnparsed

variable {first second third : StreamParser}

theorem SameNest.trans (one : SameNest first second)
    (two : SameNest second third) : SameNest first third :=
  ⟨two.attrs.trans one.attrs, two.lists.trans one.lists,
    two.inUnparsed_eq.trans one.inUnparsed_eq⟩

theorem sameNest_flushPrevious (newValTyp : CachedType) (parser : StreamParser) :
    SameNest parser (parser.flushPrevious newValTyp) := by
  refine ⟨flushPrevious_attrStack _ _, flushPrevious_listStack _ _, ?_⟩
  simp only [flushPrevious, doFlushPrevious]
  split_ifs <;> rfl

theorem sameNest_consumeOther (value : Scalar) (parser : StreamParser) :
    SameNest parser (parser.consumeOther value) :=
  (sameNest_flushPrevious .other parser).trans ⟨rfl, rfl, rfl⟩

theorem sameNest_number (number : Number) (parser : StreamParser) :
    SameNest parser (parser.doPush number.cached number.cache number.cachedType) := by
  by_cases inList : parser.InList
  · have pushed : SameNest (parser.flushPrevious number.cachedType)
        (parser.doPush number.cached number.cache number.cachedType) := by
      rw [doPush_inList inList]
      cases number <;> exact ⟨rfl, rfl, rfl⟩
    exact (sameNest_flushPrevious number.cachedType parser).trans pushed
  · rw [doPush_outside inList]
    exact ⟨rfl, rfl, rfl⟩

theorem inUnparsed_finishPrevious (name : String) (parser : StreamParser) :
    (parser.finishPrevious name).inUnparsed = parser.inUnparsed := by
  unfold finishPrevious
  split <;> rfl

/-- The document is not closed before, by or behind any of the callbacks. -/
def StaysOpen : List Callback → StreamParser → StreamParser → Prop
  | [], parser, after => parser.inUnparsed = false ∧ parser = after
  | callback :: callbacks, parser, after =>
      parser.inUnparsed = false ∧
        ∃ next, parser.handle callback = some next ∧ StaysOpen callbacks next after

/-- The document is closed by the last of the callbacks and not before. -/
def ClosesWith : List Callback → StreamParser → StreamParser → Prop
  | [], parser, after => parser.inUnparsed = true ∧ parser = after
  | callback :: callbacks, parser, after =>
      parser.inUnparsed = false ∧
        ∃ next, parser.handle callback = some next ∧ ClosesWith callbacks next after

variable {callbacks : List Callback} {parser : StreamParser}

theorem StaysOpen.append {others : List Callback}
    (one : StaysOpen callbacks first second) (two : StaysOpen others second third) :
    StaysOpen (callbacks ++ others) first third := by
  induction callbacks generalizing first with
  | nil =>
      rcases one with ⟨_, rfl⟩
      exact two
  | cons callback callbacks ih =>
      rcases one with ⟨isOpen, next, handled, others⟩
      exact ⟨isOpen, next, handled, ih others⟩

theorem StaysOpen.closes {others : List Callback}
    (one : StaysOpen callbacks first second) (two : ClosesWith others second third) :
    ClosesWith (callbacks ++ others) first third := by
  induction callbacks generalizing first with
  | nil =>
      rcases one with ⟨_, rfl⟩
      exact two
  | cons callback callbacks ih =>
      rcases one with ⟨isOpen, next, handled, others⟩
      exact ⟨isOpen, next, handled, ih others⟩

theorem StaysOpen.isOpen {before after : StreamParser} (stays : StaysOpen callbacks before after) :
    after.inUnparsed = false := by
  induction callbacks generalizing before with
  | nil =>
      rcases stays with ⟨isOpen, rfl⟩
      exact isOpen
  | cons callback callbacks ih =>
      rcases stays with ⟨_, next, _, others⟩
      exact ih others

theorem staysOpen_one {callback : Callback} {before after : StreamParser}
    (isOpen : before.inUnparsed = false) (handled : before.handle callback = some after)
    (same : after.inUnparsed = before.inUnparsed) : StaysOpen [callback] before after :=
  ⟨isOpen, after, handled, same.trans isOpen, rfl⟩

theorem handle_endArray {lists : List Bool} {isList : Bool}
    (lists_eq : parser.listStack = isList :: lists) (count : Nat) :
    parser.handle (.endArray count) = some (endArray lists parser) := by
  simp only [handle, lists_eq, endArray]

theorem handle_endObject {names : List String} {name : String} {lists : List Bool} {isList : Bool}
    (attrs_eq : parser.attrStack = name :: names) (lists_eq : parser.listStack = isList :: lists)
    (count : Nat) :
    parser.handle (.endObject count) = some (endObject name names lists parser) := by
  simp only [handle, attrs_eq, lists_eq, endObject]

theorem handle_key {names : List String} {previous : String}
    (attrs_eq : parser.attrStack = previous :: names) (name : String) :
    parser.handle (.key name) = some (nextMember previous name names parser) := by
  simp only [handle, attrs_eq, nextMember]

mutual

/-- A document in a container does not close anything around it. -/
theorem open_document (document : Document) {parser : StreamParser}
    (isOpen : parser.inUnparsed = false) (nested : parser.listStack ≠ []) :
    ∃ after, StaysOpen document.callbacks parser after ∧ SameNest parser after := by
  match document with
  | .null =>
      have same := sameNest_consumeOther .nothing parser
      exact ⟨_, staysOpen_one isOpen rfl same.inUnparsed_eq, same⟩
  | .bool value =>
      have same := sameNest_consumeOther (.bool value) parser
      exact ⟨_, staysOpen_one isOpen rfl same.inUnparsed_eq, same⟩
  | .number number =>
      have same := sameNest_number number parser
      exact ⟨_, staysOpen_one isOpen (number.handle_callback parser) same.inUnparsed_eq, same⟩
  | .string value =>
      have same := sameNest_consumeOther (.string value) parser
      exact ⟨_, staysOpen_one isOpen rfl same.inUnparsed_eq, same⟩
  | .array elements =>
      rcases open_array elements isOpen with ⟨middle, stays, same⟩
      have lists : middle.listStack = true :: parser.listStack := same.lists
      rcases List.exists_cons_of_ne_nil nested with ⟨isList, outer, outerEq⟩
      have ended : (endArray parser.listStack middle).inUnparsed = middle.inUnparsed := by
        rw [outerEq]
        rfl
      refine ⟨endArray parser.listStack middle, stays.append
        (staysOpen_one stays.isOpen (handle_endArray lists _) ended), ?_, rfl, ?_⟩
      · exact (sameNest_flushPrevious .none middle).attrs.trans same.attrs
      · exact ended.trans (stays.isOpen.trans isOpen.symm)
  | .object members =>
      rcases open_object members isOpen with ⟨last, middle, stays, attrs, lists⟩
      rcases List.exists_cons_of_ne_nil nested with ⟨isList, outer, outerEq⟩
      have ended : (endObject last parser.attrStack parser.listStack middle).inUnparsed =
          middle.inUnparsed := by
        rw [outerEq]
        rfl
      refine ⟨endObject last parser.attrStack parser.listStack middle, stays.append
        (staysOpen_one stays.isOpen (handle_endObject attrs lists _) ended), rfl, rfl, ?_⟩
      exact ended.trans (stays.isOpen.trans isOpen.symm)

/-- An array up to its end. -/
theorem open_array (elements : Elements) {parser : StreamParser}
    (isOpen : parser.inUnparsed = false) :
    ∃ after, StaysOpen (.startArray :: elements.callbacks) parser after ∧
      SameNest (beginArray parser) after := by
  have isOpenInside : (beginArray parser).inUnparsed = false := isOpen
  rcases open_elements elements isOpenInside (List.cons_ne_nil _ _) with ⟨after, stays, same⟩
  exact ⟨after, ⟨isOpen, _, rfl, stays⟩, same⟩

theorem open_elements (elements : Elements) {parser : StreamParser}
    (isOpen : parser.inUnparsed = false) (nested : parser.listStack ≠ []) :
    ∃ after, StaysOpen elements.callbacks parser after ∧ SameNest parser after := by
  match elements with
  | .nil => exact ⟨parser, ⟨isOpen, rfl⟩, rfl, rfl, rfl⟩
  | .cons head tail =>
      rcases open_document head isOpen nested with ⟨middle, staysHead, sameHead⟩
      have nestedTail : middle.listStack ≠ [] := by
        rw [sameHead.lists]
        exact nested
      rcases open_elements tail staysHead.isOpen nestedTail with ⟨after, staysTail, sameTail⟩
      exact ⟨after, staysHead.append staysTail, sameHead.trans sameTail⟩

/-- An object up to its end. -/
theorem open_object (members : Members) {parser : StreamParser}
    (isOpen : parser.inUnparsed = false) :
    ∃ last after, StaysOpen (.startObject :: members.callbacks) parser after ∧
      after.attrStack = last :: parser.attrStack ∧
        after.listStack = false :: parser.listStack := by
  have isOpenInside : (beginObject parser).inUnparsed = false := isOpen
  rcases open_members members isOpenInside (List.cons_ne_nil _ _) rfl with
    ⟨last, after, stays, attrs, lists⟩
  exact ⟨last, after, ⟨isOpen, _, rfl, stays⟩, attrs, lists⟩

theorem open_members (members : Members) {parser : StreamParser} {previous : String}
    {names : List String} (isOpen : parser.inUnparsed = false) (nested : parser.listStack ≠ [])
    (attrs_eq : parser.attrStack = previous :: names) :
    ∃ last after, StaysOpen members.callbacks parser after ∧ after.attrStack = last :: names ∧
      after.listStack = parser.listStack := by
  match members with
  | .nil => exact ⟨previous, parser, ⟨isOpen, rfl⟩, attrs_eq, rfl⟩
  | .cons name head tail =>
      have lists : (nextMember previous name names parser).listStack = parser.listStack :=
        finishPrevious_listStack previous parser
      have inside : (nextMember previous name names parser).inUnparsed = parser.inUnparsed :=
        inUnparsed_finishPrevious previous parser
      have nestedHead : (nextMember previous name names parser).listStack ≠ [] := by
        rw [lists]
        exact nested
      rcases open_document head (inside.trans isOpen) nestedHead with ⟨middle, staysHead, same⟩
      have nestedTail : middle.listStack ≠ [] := by
        rw [same.lists]
        exact nestedHead
      rcases open_members tail staysHead.isOpen nestedTail same.attrs with
        ⟨last, after, staysTail, attrs, listsEq⟩
      refine ⟨last, after, ⟨isOpen, _, handle_key attrs_eq name, staysHead.append staysTail⟩,
        attrs, ?_⟩
      rw [listsEq, same.lists, lists]

end

/-- A document whose root is an array or an object is closed by its last callback. -/
theorem closes_document {document : Document} (isContainer : document.isContainer = true) :
    ∃ after, ClosesWith document.callbacks {} after := by
  cases document with
  | array elements =>
      have isOpen : ({} : StreamParser).inUnparsed = false := rfl
      rcases open_array elements isOpen with ⟨middle, stays, same⟩
      have lists : middle.listStack = [true] := same.lists
      exact ⟨endArray [] middle, stays.closes
        ⟨stays.isOpen, _, handle_endArray lists _, rfl, rfl⟩⟩
  | object members =>
      have isOpen : ({} : StreamParser).inUnparsed = false := rfl
      rcases open_object members isOpen with ⟨last, middle, stays, attrs, lists⟩
      exact ⟨endObject last [] [] middle, stays.closes
        ⟨stays.isOpen, _, handle_endObject attrs lists _, rfl, rfl⟩⟩
  | _ => exact absurd isContainer Bool.false_ne_true

/-- The visitor was flushed, or not, and nothing else is different. -/
def flagged (flag : Bool) (parser : StreamParser) : StreamParser :=
  { parser with justFlushed := flag }

/-- The cache is not in the flag. -/
structure Unflagged (cache : Cache) : Prop where
  values_eq : ∀ flag parser, cache.values (flagged flag parser) = cache.values parser
  assign_eq : ∀ flag values parser,
    cache.assign values (flagged flag parser) = flagged flag (cache.assign values parser)

theorem Unflagged.doFlushPrevious {cache : Cache} (unflagged : Unflagged cache)
    (curValTyp newValTyp : CachedType) (flag : Bool) (parser : StreamParser) :
    ∃ other, (parser.flagged flag).doFlushPrevious cache curValTyp newValTyp =
      (parser.doFlushPrevious cache curValTyp newValTyp).flagged other := by
  unfold StreamParser.doFlushPrevious
  rw [unflagged.values_eq]
  by_cases due : (parser.oldValTyp ≠ newValTyp ∧ cache.values parser ≠ []) ∨
      (parser.oldValTyp = curValTyp ∧ 512 ≤ (cache.values parser).length)
  · rw [if_pos due]
    refine ⟨false, (if_pos due).trans ?_⟩
    rw [← unflagged.assign_eq]
    rfl
  · rw [if_neg due]
    exact ⟨flag, if_neg due⟩

theorem flushPrevious_flagged (newValTyp : CachedType) (flag : Bool) (parser : StreamParser) :
    ∃ other, (parser.flagged flag).flushPrevious newValTyp =
      (parser.flushPrevious newValTyp).flagged other := by
  have floats : Unflagged floatCache := ⟨fun _ _ => rfl, fun _ _ _ => rfl⟩
  have uints : Unflagged uintCache := ⟨fun _ _ => rfl, fun _ _ _ => rfl⟩
  have ints : Unflagged intCache := ⟨fun _ _ => rfl, fun _ _ _ => rfl⟩
  unfold flushPrevious
  rcases floats.doFlushPrevious .float newValTyp flag parser with ⟨first, firstEq⟩
  rcases uints.doFlushPrevious .uint newValTyp first
    (parser.doFlushPrevious floatCache .float newValTyp) with ⟨second, secondEq⟩
  rcases ints.doFlushPrevious .int newValTyp second
    ((parser.doFlushPrevious floatCache .float newValTyp).doFlushPrevious uintCache .uint
      newValTyp) with ⟨third, thirdEq⟩
  refine ⟨third, ?_⟩
  dsimp only
  rw [firstEq, secondEq, thirdEq]
  rfl

theorem consumeOther_flagged (value : Scalar) (flag : Bool) (parser : StreamParser) :
    ∃ other, (parser.flagged flag).consumeOther value =
      (parser.consumeOther value).flagged other := by
  rcases flushPrevious_flagged .other flag parser with ⟨other, flushedEq⟩
  exact ⟨false, by rw [StreamParser.consumeOther, flushedEq]; rfl⟩

theorem number_flagged (number : Number) (flag : Bool) (parser : StreamParser) :
    ∃ other, (parser.flagged flag).doPush number.cached number.cache number.cachedType =
      (parser.doPush number.cached number.cache number.cachedType).flagged other := by
  by_cases inList : parser.InList
  · have inListFlagged : (parser.flagged flag).InList := inList
    rcases flushPrevious_flagged number.cachedType flag parser with ⟨other, flushedEq⟩
    refine ⟨other, ?_⟩
    rw [doPush_inList inListFlagged, doPush_inList inList, flushedEq]
    cases number <;> rfl
  · have outsideFlagged : ¬(parser.flagged flag).InList := inList
    refine ⟨false, ?_⟩
    rw [doPush_outside outsideFlagged, doPush_outside inList]
    rfl

theorem finishPrevious_flagged (name : String) (flag : Bool) (parser : StreamParser) :
    (parser.flagged flag).finishPrevious name = (parser.finishPrevious name).flagged flag := by
  unfold finishPrevious
  split <;> rfl

/-- A callback does the same, if the visitor was flushed before or not. -/
theorem handle_flagged {callback : Callback} {next : StreamParser}
    (handled : parser.handle callback = some next) (flag : Bool) :
    ∃ other, (parser.flagged flag).handle callback = some (next.flagged other) := by
  have value (scalar : Scalar) {after : StreamParser}
      (handledEq : some (parser.consumeOther scalar) = some after) :
      ∃ other, some ((parser.flagged flag).consumeOther scalar) = some (after.flagged other) := by
    rcases consumeOther_flagged scalar flag parser with ⟨other, valueEq⟩
    exact ⟨other, by rw [valueEq, Option.some.inj handledEq]⟩
  have number (number : Number) (handledEq : parser.handle number.callback = some next) :
      ∃ other, (parser.flagged flag).handle number.callback = some (next.flagged other) := by
    rw [number.handle_callback] at handledEq ⊢
    rcases number_flagged number flag parser with ⟨other, pushedEq⟩
    exact ⟨other, by rw [pushedEq, Option.some.inj handledEq]⟩
  cases callback with
  | null => exact value .nothing handled
  | bool truth => exact value (.bool truth) handled
  | string str => exact value (.string str) handled
  | int bits => exact number (.int bits) handled
  | uint bits => exact number (.uint bits) handled
  | int64 bits => exact number (.int64 bits) handled
  | uint64 bits => exact number (.uint64 bits) handled
  | double bits => exact number (.double bits) handled
  | startObject =>
      cases handled
      exact ⟨flag, rfl⟩
  | startArray =>
      cases handled
      exact ⟨flag, rfl⟩
  | key str =>
      cases attrs : parser.attrStack with
      | nil => simp only [handle, attrs, reduceCtorEq] at handled
      | cons name names =>
          have attrsFlagged : (parser.flagged flag).attrStack = name :: names := attrs
          rw [handle_key attrs] at handled
          rw [handle_key attrsFlagged, ← Option.some.inj handled]
          refine ⟨flag, ?_⟩
          rw [nextMember, finishPrevious_flagged]
          rfl
  | endObject count =>
      cases attrs : parser.attrStack with
      | nil => simp only [handle, attrs, reduceCtorEq] at handled
      | cons name names =>
          cases lists : parser.listStack with
          | nil => simp only [handle, attrs, lists, reduceCtorEq] at handled
          | cons isList outer =>
              have attrsFlagged : (parser.flagged flag).attrStack = name :: names := attrs
              have listsFlagged : (parser.flagged flag).listStack = isList :: outer := lists
              rw [handle_endObject attrs lists] at handled
              rw [handle_endObject attrsFlagged listsFlagged, ← Option.some.inj handled]
              refine ⟨flag, ?_⟩
              rw [endObject, finishPrevious_flagged]
              rfl
  | endArray count =>
      cases lists : parser.listStack with
      | nil => simp only [handle, lists, reduceCtorEq] at handled
      | cons isList outer =>
          have listsFlagged : (parser.flagged flag).listStack = isList :: outer := lists
          rw [handle_endArray lists] at handled
          rw [handle_endArray listsFlagged, ← Option.some.inj handled]
          rcases flushPrevious_flagged .none flag parser with ⟨other, flushedEq⟩
          refine ⟨other, ?_⟩
          rw [endArray, flushedEq]
          rfl

end StreamParser

end Eagine.ValueTree
