import Eagine.Theory.Refinement
import Eagine.ValueTree.StreamNesting

/-!
# Structure events

The begin and finish calls that a visitor gets for structures, attributes and lists are brackets.
They match unless a member of an object has an empty name: the handler remembers the name of the
last member, and takes an empty one for none.
-/

namespace Eagine.ValueTree

open List Option

/-- What was begun and is not finished yet. -/
inductive Bracket where
  | struct
  | attribute (name : String)
  | list
deriving DecidableEq

/-- An attribute begins directly in a structure, and what is finished is the innermost thing that
was begun. -/
def nestStep : List Bracket → VisitorCall → Option (List Bracket)
  | stack, .consume _ => some stack
  | stack, .beginStruct => some (.struct :: stack)
  | .struct :: stack, .beginAttribute name => some (.attribute name :: .struct :: stack)
  | _, .beginAttribute _ => none
  | stack, .beginList => some (.list :: stack)
  | .list :: stack, .finishList => some stack
  | _, .finishList => none
  | .attribute begun :: stack, .finishAttribute name => if name = begun then some stack else none
  | _, .finishAttribute _ => none
  | .struct :: stack, .finishStruct => some stack
  | _, .finishStruct => none

def nest (stack : List Bracket) (calls : List VisitorCall) : Option (List Bracket) :=
  Theory.run nestStep stack calls

/-- Everything that is begun is finished, from the inside out and with the same name. -/
def Balanced (calls : List VisitorCall) : Prop :=
  nest [] calls = some []

instance (calls : List VisitorCall) : Decidable (Balanced calls) :=
  inferInstanceAs (Decidable (nest [] calls = some []))

theorem nest_append (stack : List Bracket) (front back : List VisitorCall) :
    nest stack (front ++ back) = (nest stack front).bind fun inner => nest inner back :=
  Theory.run_append _ _ _ _

theorem nest_cons (stack : List Bracket) (call : VisitorCall) (calls : List VisitorCall) :
    nest stack (call :: calls) = (nestStep stack call).bind fun inner => nest inner calls :=
  rfl

def isStructural : VisitorCall → Bool
  | .consume _ => false
  | _ => true

/-- Values are no brackets. -/
theorem nest_filter (stack : List Bracket) (calls : List VisitorCall) :
    nest stack (calls.filter isStructural) = nest stack calls := by
  induction calls generalizing stack with
  | nil => rfl
  | cons call calls ih =>
      cases structural : isStructural call with
      | true =>
          rw [filter_cons_of_pos structural, nest_cons, nest_cons]
          congr 1
          funext inner
          exact ih inner
      | false =>
          have skipped : nestStep stack call = some stack := by
            cases call with
            | consume values => exact rfl
            | _ => exact absurd structural Bool.noConfusion
          rw [filter_cons_of_neg (Bool.eq_false_iff.mp structural), ih,
            nest_cons, skipped, bind_some]

variable {name : String}

theorem mem_of_nestStep {call : VisitorCall} {stack inner : List Bracket}
    (other : call ≠ .finishAttribute name) (begun : .attribute name ∈ stack)
    (stepped : nestStep stack call = some inner) : .attribute name ∈ inner := by
  cases call with
  | consume values =>
      cases stepped
      exact begun
  | beginStruct =>
      cases stepped
      exact mem_cons_of_mem _ begun
  | beginList =>
      cases stepped
      exact mem_cons_of_mem _ begun
  | beginAttribute begins =>
      rcases stack with _ | ⟨_ | _ | _, stack⟩ <;> cases stepped
      exact mem_cons_of_mem _ begun
  | finishList =>
      rcases stack with _ | ⟨_ | _ | _, stack⟩ <;> cases stepped
      exact (mem_cons.mp begun).resolve_left Bracket.noConfusion
  | finishStruct =>
      rcases stack with _ | ⟨_ | _ | _, stack⟩ <;> cases stepped
      exact (mem_cons.mp begun).resolve_left Bracket.noConfusion
  | finishAttribute finished =>
      rcases stack with _ | ⟨_ | innermost | _, stack⟩
      · cases stepped
      · cases stepped
      · rw [nestStep] at stepped
        split at stepped
        · rename_i same
          cases stepped
          refine (mem_cons.mp begun).resolve_left fun here => other ?_
          rw [same, Bracket.attribute.inj here]
        · cases stepped
      · cases stepped

/-- An attribute stays begun as long as it is not finished. -/
theorem mem_of_nest {calls : List VisitorCall} {stack after : List Bracket}
    (notFinished : .finishAttribute name ∉ calls) (begun : .attribute name ∈ stack)
    (nested : nest stack calls = some after) : .attribute name ∈ after := by
  induction calls generalizing stack with
  | nil =>
      cases nested
      exact begun
  | cons call calls ih =>
      rw [mem_cons, not_or] at notFinished
      rcases bind_eq_some_iff.mp nested with ⟨inner, stepped, rest⟩
      exact ih notFinished.2
        (mem_of_nestStep (Ne.symm notFinished.1) begun stepped) rest

/-- What is begun in balanced calls is finished in them. -/
theorem Balanced.finished {calls : List VisitorCall} (balanced : Balanced calls)
    (begun : .beginAttribute name ∈ calls) : .finishAttribute name ∈ calls := by
  by_contra notFinished
  rcases append_of_mem begun with ⟨front, back, rfl⟩
  rw [Balanced, nest_append, bind_eq_some_iff] at balanced
  rcases balanced with ⟨outer, _, nested⟩
  rcases bind_eq_some_iff.mp nested with ⟨inner, stepped, rest⟩
  have innermost : .attribute name ∈ inner := by
    rcases outer with _ | ⟨_ | _ | _, outer⟩ <;> cases stepped
    exact mem_cons_self
  have notBehind : .finishAttribute name ∉ back := fun member =>
    notFinished (mem_append_right _ (mem_cons_of_mem _ member))
  exact absurd (mem_of_nest notBehind innermost rest) not_mem_nil

mutual

/-- No member has an empty name. -/
def Document.hasNames : Document → Bool
  | .array elements => elements.hasNames
  | .object members => members.hasNames
  | _ => true

def Elements.hasNames : Elements → Bool
  | .nil => true
  | .cons head tail => head.hasNames && tail.hasNames

def Members.hasNames : Members → Bool
  | .nil => true
  | .cons name head tail => name != "" && (head.hasNames && tail.hasNames)

end

mutual

theorem Document.nest_called : (document : Document) → document.hasNames = true →
    ∀ stack, nest stack document.called = some stack
  | .null, _, _ => rfl
  | .bool _, _, _ => rfl
  | .number _, _, _ => rfl
  | .string _, _, _ => rfl
  | .array elements, named, stack => by
      have calledEq : (Document.array elements).called =
          .beginList :: (elements.called ++ [.finishList]) := rfl
      rw [calledEq, nest_cons, nestStep, bind_some, nest_append,
        Elements.nest_called elements named, bind_some]
      rfl
  | .object members, named, stack => by
      have calledEq : (Document.object members).called =
          .beginStruct :: (members.called ++ [.finishStruct]) := rfl
      rw [calledEq, nest_cons, nestStep, bind_some, nest_append,
        Members.nest_called members named, bind_some]
      rfl

theorem Elements.nest_called : (elements : Elements) → elements.hasNames = true →
    ∀ stack, nest stack elements.called = some stack
  | .nil, _, _ => rfl
  | .cons head tail, named, stack => by
      rw [Elements.hasNames, Bool.and_eq_true] at named
      have calledEq : (Elements.cons head tail).called = head.called ++ tail.called := rfl
      rw [calledEq, nest_append, Document.nest_called head named.1, bind_some,
        Elements.nest_called tail named.2]

theorem Members.nest_called : (members : Members) → members.hasNames = true →
    ∀ stack, nest (.struct :: stack) members.called = some (.struct :: stack)
  | .nil, _, _ => rfl
  | .cons name head tail, named, stack => by
      rw [Members.hasNames, Bool.and_eq_true, Bool.and_eq_true] at named
      rcases named with ⟨isName, headNamed, tailNamed⟩
      have calledEq : (Members.cons name head tail).called =
          .beginAttribute name :: (head.called ++ ([.finishAttribute name] ++ tail.called)) := by
        rw [Members.called, Members.events, hasName, if_pos isName]
        rfl
      rw [calledEq, nest_cons, nestStep, bind_some, nest_append,
        Document.nest_called head headNamed, bind_some, nest_append, nest_cons, nestStep,
        if_pos rfl]
      exact Members.nest_called tail tailNamed stack

end

mutual

theorem Document.begins_nameless : (document : Document) → document.hasNames = false →
    .beginAttribute "" ∈ document.called
  | .array elements, nameless =>
      mem_cons_of_mem _ (mem_append_left _ (Elements.begins_nameless elements nameless))
  | .object members, nameless =>
      mem_cons_of_mem _ (mem_append_left _ (Members.begins_nameless members nameless))

theorem Elements.begins_nameless : (elements : Elements) → elements.hasNames = false →
    .beginAttribute "" ∈ elements.called
  | .cons head tail, nameless => by
      rw [Elements.hasNames, Bool.and_eq_false_iff] at nameless
      rcases nameless with inHead | inTail
      · exact mem_append_left _ (Document.begins_nameless head inHead)
      · exact mem_append_right _ (Elements.begins_nameless tail inTail)

theorem Members.begins_nameless : (members : Members) → members.hasNames = false →
    .beginAttribute "" ∈ members.called
  | .cons name head tail, nameless => by
      rw [Members.hasNames, Bool.and_eq_false_iff, Bool.and_eq_false_iff] at nameless
      rcases nameless with here | inHead | inTail
      · rw [bne_eq_false_iff_eq] at here
        rw [here]
        exact mem_cons_self
      · exact mem_cons_of_mem _
          (mem_append_left _ (Document.begins_nameless head inHead))
      · exact mem_cons_of_mem _ (mem_append_right _
          (mem_append_right _ (Members.begins_nameless tail inTail)))

end

/-- No attribute with an empty name is ever finished. -/
theorem Document.not_finishes_nameless (document : Document) :
    .finishAttribute "" ∉ document.called := by
  rw [← document.filter_events, mem_filter]
  rintro ⟨_, named⟩
  exact absurd named (by decide)

namespace StreamParser

def structural (parser : StreamParser) : List VisitorCall :=
  parser.calls.filter isStructural

theorem structural_call {visitorCall : VisitorCall} (isBracket : isStructural visitorCall = true)
    (parser : StreamParser) :
    (parser.call visitorCall).structural = parser.structural ++ [visitorCall] := by
  rw [structural, call, filter_append, filter_cons_of_pos isBracket]
  rfl

theorem structural_consume (values : List Scalar) (parser : StreamParser) :
    (parser.consume values).structural = parser.structural := by
  change (parser.calls ++ [VisitorCall.consume values]).filter isStructural = _
  rw [filter_append]
  exact append_nil _

theorem structural_doFlushPrevious {cache : Cache}
    (keeps : ∀ values parser, (cache.assign values parser).structural = parser.structural)
    (curValTyp newValTyp : CachedType) (parser : StreamParser) :
    (parser.doFlushPrevious cache curValTyp newValTyp).structural = parser.structural := by
  rw [doFlushPrevious]
  split
  · rw [keeps, structural_consume]
  · rfl

theorem structural_flushPrevious (newValTyp : CachedType) (parser : StreamParser) :
    (parser.flushPrevious newValTyp).structural = parser.structural := by
  have floats := @structural_doFlushPrevious floatCache fun _ _ => rfl
  have uints := @structural_doFlushPrevious uintCache fun _ _ => rfl
  have ints := @structural_doFlushPrevious intCache fun _ _ => rfl
  change (doFlushPrevious intCache .int newValTyp (doFlushPrevious uintCache .uint newValTyp
    (doFlushPrevious floatCache .float newValTyp parser))).structural = _
  rw [ints, uints, floats]

theorem structural_consumeOther (value : Scalar) (parser : StreamParser) :
    (parser.consumeOther value).structural = parser.structural := by
  rw [consumeOther, structural_consume, structural_flushPrevious]

theorem structural_number (number : Number) (parser : StreamParser) :
    (parser.doPush number.cached number.cache number.cachedType).structural =
      parser.structural := by
  by_cases inList : parser.InList
  · rw [doPush_inList inList, ← structural_flushPrevious number.cachedType parser]
    cases number <;> rfl
  · rw [doPush_outside inList, structural_consume]

theorem structural_finishPrevious (name : String) (parser : StreamParser) :
    (parser.finishPrevious name).structural = parser.structural ++ closing name := by
  unfold finishPrevious closing
  split
  · exact structural_call rfl parser
  · exact (append_nil _).symm

theorem structural_nextMember (previous name : String) (names : List String)
    (parser : StreamParser) :
    (nextMember previous name names parser).structural =
      parser.structural ++ closing previous ++ [.beginAttribute name] := by
  rw [nextMember, structural_call rfl, ← structural_finishPrevious]
  rfl

theorem structural_endObject (name : String) (names : List String) (lists : List Bool)
    (parser : StreamParser) :
    (endObject name names lists parser).structural =
      parser.structural ++ closing name ++ [.finishStruct] := by
  rw [endObject, structural_call rfl, ← structural_finishPrevious]
  rfl

theorem structural_endArray (lists : List Bool) (parser : StreamParser) :
    (endArray lists parser).structural = parser.structural ++ [.finishList] := by
  rw [← structural_flushPrevious .none parser]
  exact structural_call rfl _

/-- The parser is at the same place, and the brackets of the calls were called. -/
structure WentThrough (calls : List VisitorCall) (before after : StreamParser) : Prop where
  attrs : after.attrStack = before.attrStack
  lists : after.listStack = before.listStack
  structural_eq : after.structural = before.structural ++ calls.filter isStructural

/-- A value that is handed over, now or later, is no bracket. -/
theorem wentThrough_value {value : Scalar} {before after : StreamParser}
    (same : SameNest before after) (unchanged : after.structural = before.structural) :
    WentThrough [value.call] before after :=
  ⟨same.attrs, same.lists, unchanged.trans (append_nil _).symm⟩

mutual

theorem Document.run_structural : (document : Document) → (before : StreamParser) →
    ∃ after, run document.callbacks before = some after ∧
      WentThrough document.called before after
  | .null, before =>
      ⟨before.consumeOther .nothing, rfl,
        wentThrough_value (sameNest_consumeOther _ _) (structural_consumeOther _ _)⟩
  | .bool value, before =>
      ⟨before.consumeOther (.bool value), rfl,
        wentThrough_value (sameNest_consumeOther _ _) (structural_consumeOther _ _)⟩
  | .string value, before =>
      ⟨before.consumeOther (.string value), rfl,
        wentThrough_value (sameNest_consumeOther _ _) (structural_consumeOther _ _)⟩
  | .number number, before => by
      refine ⟨before.doPush number.cached number.cache number.cachedType, ?_,
        wentThrough_value (sameNest_number _ _) (structural_number _ _)⟩
      rw [Document.callbacks, run_one, number.handle_callback]
  | .array elements, before => by
      rcases Elements.run_structural elements (beginArray before) with ⟨middle, ran, through⟩
      have lists : middle.listStack = true :: before.listStack := through.lists
      refine ⟨endArray before.listStack middle, ?_, ?_, rfl, ?_⟩
      · have begins : before.handle .startArray = some (beginArray before) := rfl
        rw [Document.callbacks, run_cons, begins, bind_some, run_append, ran,
          bind_some, run_one, handle_endArray lists]
      · exact (endArray_attrStack _ middle).trans through.attrs
      · have begun : (beginArray before).structural = before.structural ++ [.beginList] :=
          structural_call rfl _
        have calledEq : (Document.array elements).called =
            [.beginList] ++ elements.called ++ [.finishList] := rfl
        rw [structural_endArray, through.structural_eq, begun, calledEq, filter_append,
          filter_append]
        simp only [append_assoc]
        rfl
  | .object members, before => by
      have attrs : (beginObject before).attrStack = "" :: before.attrStack := rfl
      rcases Members.run_structural members (beginObject before) attrs with
        ⟨last, middle, ran, names, lists, structuralEq⟩
      refine ⟨endObject last before.attrStack before.listStack middle, ?_, rfl, rfl, ?_⟩
      · have begins : before.handle .startObject = some (beginObject before) := rfl
        rw [Document.callbacks, run_cons, begins, bind_some, run_append, ran,
          bind_some, run_one, handle_endObject names lists]
      · have begun : (beginObject before).structural = before.structural ++ [.beginStruct] :=
          structural_call rfl _
        have calledEq : (Document.object members).called =
            [.beginStruct] ++ members.called ++ [.finishStruct] := rfl
        rw [structural_endObject, structuralEq, begun, calledEq, filter_append,
          filter_append]
        simp only [closing, append_assoc]
        rfl

theorem Elements.run_structural : (elements : Elements) → (before : StreamParser) →
    ∃ after, run elements.callbacks before = some after ∧
      WentThrough elements.called before after
  | .nil, before => ⟨before, rfl, rfl, rfl, (append_nil _).symm⟩
  | .cons head tail, before => by
      rcases Document.run_structural head before with ⟨middle, headRan, headThrough⟩
      rcases Elements.run_structural tail middle with ⟨after, tailRan, tailThrough⟩
      refine ⟨after, ?_, tailThrough.attrs.trans headThrough.attrs,
        tailThrough.lists.trans headThrough.lists, ?_⟩
      · rw [Elements.callbacks, run_append, headRan, bind_some, tailRan]
      · have calledEq : (Elements.cons head tail).called = head.called ++ tail.called := rfl
        rw [tailThrough.structural_eq, headThrough.structural_eq, calledEq, filter_append,
          append_assoc]

/-- The end of the last member is still to come. -/
theorem Members.run_structural : (members : Members) → (before : StreamParser) →
    {previous : String} → {outer : List String} → before.attrStack = previous :: outer →
    ∃ last after, run members.callbacks before = some after ∧
      after.attrStack = last :: outer ∧ after.listStack = before.listStack ∧
        after.structural ++ closing last =
          before.structural ++ closing previous ++ members.called.filter isStructural
  | .nil, before, previous, outer, attrs =>
      ⟨previous, before, rfl, attrs, rfl, (append_nil _).symm⟩
  | .cons name head tail, before, previous, outer, attrs => by
      rcases Document.run_structural head (nextMember previous name outer before) with
        ⟨middle, headRan, headThrough⟩
      rcases Members.run_structural tail middle headThrough.attrs with
        ⟨last, after, tailRan, names, lists, structuralEq⟩
      refine ⟨last, after, ?_, names, ?_, ?_⟩
      · rw [Members.callbacks, run_cons, handle_key attrs, bind_some, run_append, headRan,
          bind_some, tailRan]
      · rw [lists, headThrough.lists]
        exact finishPrevious_listStack previous before
      · have closingEq : (if hasName name head = true then [VisitorCall.finishAttribute name]
            else []).filter isStructural = closing name := by
          unfold hasName closing
          by_cases isName : name = ""
          · rw [isName]
            rfl
          · rw [if_pos (bne_iff_ne.mpr isName), if_pos isName]
            rfl
        have calledEq : (Members.cons name head tail).called.filter isStructural =
            .beginAttribute name ::
              (head.called.filter isStructural ++
                (closing name ++ tail.called.filter isStructural)) := by
          rw [← closingEq, ← filter_append, ← filter_append]
          rfl
        rw [structuralEq, headThrough.structural_eq, structural_nextMember, calledEq]
        simp only [append_assoc, cons_append, nil_append]

end

end StreamParser

/-- The calls for the document are balanced, as it is read from begin to end. -/
def Document.IsBalanced (document : Document) : Prop :=
  ∃ parser, StreamParser.run document.callbacks {} = some parser ∧ Balanced parser.calls

theorem Document.nest_calls {document : Document} {parser : StreamParser}
    (ran : StreamParser.run document.callbacks {} = some parser) :
    nest [] parser.calls = nest [] document.called := by
  rcases StreamParser.Document.run_structural document {} with ⟨after, ranEq, through⟩
  cases ranEq.symm.trans ran
  rw [← nest_filter, ← nest_filter _ document.called]
  exact congrArg (nest []) through.structural_eq

/-- Begin and finish calls match exactly if every member has a name. -/
theorem Document.isBalanced_iff (document : Document) :
    document.IsBalanced ↔ document.hasNames = true := by
  constructor
  · rintro ⟨parser, ran, balanced⟩
    by_contra nameless
    have begins := document.begins_nameless (Bool.eq_false_iff.mpr nameless)
    have calledBalanced : Balanced document.called := (document.nest_calls ran).symm.trans balanced
    exact document.not_finishes_nameless (calledBalanced.finished begins)
  · intro named
    rcases StreamParser.Document.run_structural document {} with ⟨parser, ran, _⟩
    exact ⟨parser, ran, (document.nest_calls ran).trans (document.nest_called named [])⟩

/-- An object with one member, which has an empty name. -/
theorem Document.not_forall_isBalanced : ¬∀ document : Document, document.IsBalanced := by
  intro balanced
  rcases balanced (.object (.cons "" .null .nil)) with ⟨parser, ran, isBalanced⟩
  cases ran
  exact absurd isBalanced (by decide)

end Eagine.ValueTree
