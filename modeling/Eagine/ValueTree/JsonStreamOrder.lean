import Eagine.ValueTree.JsonStreamCache
import Mathlib.Data.List.Perm.Basic

/-!
# The order in a stream of a JSON document

The visitor's trace followed by the cached values is what was read so far, as
long as no container begins while there are cached values.  When one does, the
trace and the document part for good.
-/

namespace Eagine.ValueTree

open StreamParser List Elements

/-- Neither sequence continues the other. -/
def Parted (trace reference : List VisitorCall) : Prop :=
  ¬trace <+: reference ∧ ¬reference <+: trace

variable {reference trace : List VisitorCall} {parser after before : StreamParser}
  {document : Document}

theorem Parted.extend {longer further : List VisitorCall} (parted : Parted trace reference)
    (grows : trace <+: longer) (continues : reference <+: further) : Parted longer further := by
  constructor
  · intro isPrefix
    rcases prefix_or_prefix_of_prefix (grows.trans isPrefix) continues with before | after
    · exact parted.1 before
    · exact parted.2 after
  · intro isPrefix
    rcases prefix_or_prefix_of_prefix grows (continues.trans isPrefix) with before | after
    · exact parted.1 before
    · exact parted.2 after

theorem parted_of_differ (common : List VisitorCall) {call other : VisitorCall}
    (differ : call ≠ other) : Parted (common ++ [call]) (common ++ [other]) := by
  constructor
  · intro isPrefix
    rw [prefix_append_right_inj, cons_prefix_cons] at isPrefix
    exact differ isPrefix.1
  · intro isPrefix
    rw [prefix_append_right_inj, cons_prefix_cons] at isPrefix
    exact differ isPrefix.1.symm

theorem Parted.ne (parted : Parted trace reference) : trace ≠ reference := by
  rintro rfl
  exact parted.1 prefix_rfl

/-- Where `inOrder` holds, nothing was overtaken; otherwise something was. -/
def Tracks (inOrder : Bool) (reference : List VisitorCall) (parser : StreamParser) : Prop :=
  (inOrder = true → parser.full = reference) ∧ (inOrder = false → Parted parser.trace reference)

/-- The end of an attribute is announced when it has a name. -/
def hasName (name : String) (_ : Document) : Bool :=
  name != ""

def Document.called (document : Document) : List VisitorCall :=
  document.events hasName

def Elements.called (elements : Elements) : List VisitorCall :=
  elements.events hasName

open Elements (called cons events named nil spaced)

def Members.called (members : Members) : List VisitorCall :=
  members.events hasName

/-- The parser went on and got the calls into its trace or its caches. -/
structure Advance (before after : StreamParser) (calls : List VisitorCall) : Prop where
  steady : after.Steady
  lists : after.listStack = before.listStack
  grows : before.trace <+: after.trace
  collected : after.full.Perm (before.full ++ calls)

/-- There are no cached values that would be overtaken. -/
def Ready (document : Document) (parser : StreamParser) : Prop :=
  parser.pending = [] ∨ (parser.InList ∧ document.isContainer = false)

structure Document.Followed (document : Document) (before after : StreamParser) : Prop where
  names : after.attrStack = before.attrStack
  advance : Advance before after document.called
  cached : Ready document before →
    (after.pending = [] ↔ ¬(before.InList ∧ document.isNumber = true))
  tracks : Ready document before → Tracks document.spaced (before.full ++ document.called) after
  begins : document.isContainer = true →
    ∃ call, (∀ value : Scalar, call ≠ value.call) ∧ before.trace ++ [call] <+: after.trace

structure Elements.Followed (elements : Elements) (before after : StreamParser) : Prop where
  names : after.attrStack = before.attrStack
  advance : Advance before after elements.called
  tracks : ∀ afterNumber, (before.pending = [] ↔ afterNumber = false) →
    Tracks (elements.spaced afterNumber) (before.full ++ elements.called) after

/-- The call that is due for an attribute before the next one. -/
def closing (name : String) : List VisitorCall :=
  if name ≠ "" then [.finishAttribute name] else []

structure Members.Followed (members : Members) (first last : String) (outer : List String)
    (before after : StreamParser) : Prop where
  names : after.attrStack = last :: outer
  steady : after.Steady
  lists : after.listStack = before.listStack
  grows : before.trace <+: after.trace
  collected : (after.full ++ closing last).Perm (before.full ++ (closing first ++ members.called))
  cached : before.pending = [] → after.pending = []
  inOrder : before.pending = [] → members.spaced = true →
    after.trace ++ closing last = before.trace ++ (closing first ++ members.called)
  parted : before.pending = [] → members.spaced = false →
    Parted after.trace (before.trace ++ (closing first ++ members.called))

theorem run_cons (callback : Callback) (callbacks : List Callback) (parser : StreamParser) :
    run (callback :: callbacks) parser = (parser.handle callback).bind (run callbacks) :=
  foldlM_cons

theorem run_one (callback : Callback) (parser : StreamParser) :
    run [callback] parser = parser.handle callback := by
  rw [run_cons]
  exact Option.bind_fun_some _

theorem run_append (callbacks others : List Callback) (parser : StreamParser) :
    run (callbacks ++ others) parser = (run callbacks parser).bind (run others) :=
  foldlM_append

theorem trace_prefix_full (parser : StreamParser) : parser.trace <+: parser.full :=
  prefix_append _ _

theorem full_of_pending (nothing : parser.pending = []) : parser.full = parser.trace := by
  rw [full, nothing, append_nil]

/-- Calls that are made while values wait come before these. -/
theorem full_perm_of_trace {next : StreamParser} {calls : List VisitorCall}
    (traceEq : next.trace = parser.trace ++ calls) (pendingEq : next.pending = parser.pending) :
    next.full.Perm (parser.full ++ calls) := by
  rw [full, full, traceEq, pendingEq, append_assoc, append_assoc]
  exact List.Perm.append_left _ perm_append_comm

theorem tracks_of_full (fullEq : parser.full = reference) : Tracks true reference parser :=
  ⟨fun _ => fullEq, fun impossible => Bool.noConfusion impossible⟩

/-- Null, truth values and strings. -/
theorem consumeOther_followed {value : Scalar} (calledEq : document.called = [value.call])
    (spaced : document.spaced = true) (notNumber : document.isNumber = false)
    (notContainer : document.isContainer = false) (steady : parser.Steady) :
    document.Followed parser (parser.consumeOther value) := by
  rcases consumeOther_trace steady value with ⟨traceEq, pendingEq⟩
  have fullEq : (parser.consumeOther value).full = parser.full ++ document.called := by
    rw [full_of_pending pendingEq, traceEq, calledEq]
  constructor
  case names => exact consumeOther_attrStack value parser
  case advance =>
      constructor
      · exact consume_steady _ (flushPrevious_steady steady .other)
      · exact consumeOther_listStack value parser
      · rw [traceEq]
        exact (trace_prefix_full parser).trans (prefix_append _ _)
      · rw [fullEq]
  case cached =>
      intro _
      simp [pendingEq, notNumber]
  case tracks =>
      intro _
      rw [spaced]
      exact tracks_of_full fullEq
  case begins =>
      intro isContainer
      rw [notContainer] at isContainer
      exact Bool.noConfusion isContainer

/-- A number in a list is cached. -/
theorem number_followed_inList (number : Number) (steady : parser.Steady) (inList : parser.InList) :
    (Document.number number).Followed parser
      (parser.doPush number.cached number.cache number.cachedType) := by
  rw [doPush_inList inList]
  have flushed := flushPrevious_steady steady number.cachedType
  have pendingEq := number.assign_pending flushed rfl
  have fullEq : (number.cache.assign (number.cache.values
      (parser.flushPrevious number.cachedType) ++ [number.cached])
      (parser.flushPrevious number.cachedType)).full =
      parser.full ++ (Document.number number).called := by
    rw [full, pendingEq, number.assign_trace, ← append_assoc]
    exact congrArg (· ++ [number.scalar.call]) (flushPrevious_full steady number.cachedType)
  rcases number.assign_stacks (number.cache.values (parser.flushPrevious number.cachedType) ++
    [number.cached]) (parser.flushPrevious number.cachedType) with ⟨attrEq, listEq⟩
  constructor
  case names => rw [attrEq, flushPrevious_attrStack]
  case advance =>
      constructor
      · exact number.assign_steady _ flushed rfl
      · rw [listEq, flushPrevious_listStack]
      · rw [number.assign_trace]
        exact flushPrevious_grows number.cachedType parser
      · rw [fullEq]
  case cached =>
      intro _
      simp [pendingEq, inList, Document.isNumber]
  case tracks =>
      intro _
      exact tracks_of_full fullEq
  case begins => exact fun isContainer => Bool.noConfusion isContainer

/-- Other numbers are consumed at once. -/
theorem number_followed_outside (number : Number) (steady : parser.Steady)
    (outside : ¬parser.InList) :
    (Document.number number).Followed parser
      (parser.doPush number.cached number.cache number.cachedType) := by
  rw [doPush_outside outside, number.scalar_cached]
  constructor
  case names => rfl
  case advance =>
      constructor
      · exact consume_steady _ steady
      · rfl
      · rw [trace_consume]
        exact prefix_append _ _
      · exact full_perm_of_trace (trace_consume _ _) (consume_pending _ _)
  case cached =>
      rintro (nothing | ⟨inList, _⟩)
      · simp [consume_pending, nothing, outside]
      · exact absurd inList outside
  case tracks =>
      rintro (nothing | ⟨inList, _⟩)
      · apply tracks_of_full
        rw [full, full, trace_consume, consume_pending, nothing, append_nil, append_nil]
        rfl
      · exact absurd inList outside
  case begins => exact fun isContainer => Bool.noConfusion isContainer

theorem followed_nil (steady : parser.Steady) : nil.Followed parser parser := by
  constructor
  case names => rfl
  case advance =>
      refine ⟨steady, rfl, prefix_rfl, ?_⟩
      rw [called, events, append_nil]
  case tracks =>
      intro afterNumber _
      apply tracks_of_full
      rw [called, events, append_nil]

/-- A container that begins after a cached number overtakes it. -/
theorem parted_of_begins (followed : document.Followed before after)
    (isContainer : document.isContainer = true) (cached : before.pending ≠ []) :
    Parted after.trace before.full := by
  rcases followed.begins isContainer with ⟨call, notConsume, begins⟩
  rcases exists_cons_of_ne_nil cached with ⟨first, rest, pendingEq⟩
  have firstMem : first ∈ before.pending := pendingEq ▸ mem_cons_self
  rcases mem_map.mp firstMem with ⟨value, _, rfl⟩
  apply (parted_of_differ before.trace (notConsume value)).extend begins
  rw [full, pendingEq, prefix_append_right_inj, cons_prefix_cons]
  exact ⟨rfl, nil_prefix⟩

theorem followed_cons {head : Document} {tail : Elements} {middle : StreamParser}
    (inList : before.InList) (headFollowed : head.Followed before middle)
    (tailFollowed : tail.Followed middle after) :
    (cons head tail).Followed before after := by
  have calledEq : (cons head tail).called = head.called ++ tail.called := rfl
  constructor
  case names => exact tailFollowed.names.trans headFollowed.names
  case advance =>
      refine ⟨tailFollowed.advance.steady,
        tailFollowed.advance.lists.trans headFollowed.advance.lists,
        headFollowed.advance.grows.trans tailFollowed.advance.grows, ?_⟩
      rw [calledEq, ← append_assoc]
      exact tailFollowed.advance.collected.trans
        (headFollowed.advance.collected.append_right tail.called)
  case tracks =>
      intro afterNumber cached
      rw [calledEq, ← append_assoc]
      by_cases overtakes : afterNumber = true ∧ head.isContainer = true
      · have cachedNumber : before.pending ≠ [] := fun nothing => by
          rw [cached.mp nothing] at overtakes
          exact Bool.noConfusion overtakes.1
        have parted := parted_of_begins headFollowed overtakes.2 cachedNumber
        have notSpaced : (cons head tail).spaced afterNumber = false := by
          simp [spaced, overtakes]
        refine ⟨fun spaced => ?_, fun _ => ?_⟩
        · rw [notSpaced] at spaced
          exact Bool.noConfusion spaced
        · apply parted.extend tailFollowed.advance.grows
          rw [append_assoc]
          exact prefix_append _ _
      · have ready : Ready head before := by
          cases afterNumber with
          | false => exact Or.inl (cached.mpr rfl)
          | true => exact Or.inr ⟨inList, by simpa using overtakes⟩
        have spacedEq : (cons head tail).spaced afterNumber =
            (head.spaced && tail.spaced head.isNumber) := by
          cases afterNumber <;> simp_all [spaced]
        have headTracks := headFollowed.tracks ready
        have stillCached : middle.pending = [] ↔ head.isNumber = false := by
          simpa [inList] using headFollowed.cached ready
        have tailTracks := tailFollowed.tracks head.isNumber stillCached
        rw [spacedEq]
        cases headSpaced : head.spaced with
        | false =>
            refine ⟨fun impossible => Bool.noConfusion impossible, fun _ => ?_⟩
            exact (headTracks.2 headSpaced).extend tailFollowed.advance.grows
              (prefix_append _ _)
        | true =>
            rw [← headTracks.1 headSpaced]
            exact tailTracks

/-- The parser after the begin of an array. -/
def beginArray (parser : StreamParser) : StreamParser :=
  { parser with listStack := true :: parser.listStack }.call .beginList

/-- The parser after the end of an array in the given lists. -/
def endArray (lists : List Bool) (parser : StreamParser) : StreamParser :=
  { (parser.flushPrevious .none).call .finishList with
    listStack := lists
    inUnparsed := lists.isEmpty || parser.inUnparsed }

theorem endArray_pending (lists : List Bool) (parser : StreamParser) :
    (endArray lists parser).pending = (parser.flushPrevious .none).pending := by
  simp only [pending, endArray, call]

theorem endArray_attrStack (lists : List Bool) (parser : StreamParser) :
    (endArray lists parser).attrStack = parser.attrStack := by
  simp only [endArray, call, flushPrevious_attrStack]

theorem endArray_trace (steady : parser.Steady) (lists : List Bool) :
    (endArray lists parser).trace = parser.full ++ [.finishList] ∧
      (endArray lists parser).pending = [] := by
  have flushed : (parser.flushPrevious .none).pending = [] :=
    pending_of_steady (flushPrevious_steady steady .none) (by simp) (by simp) (by simp)
  have fullEq := flushPrevious_full steady .none
  rw [full, flushed, append_nil] at fullEq
  constructor
  · have called := trace_call .finishList (parser.flushPrevious .none)
    rw [fullEq] at called
    exact called
  · rw [endArray_pending, flushed]

theorem beginArray_full_perm (parser : StreamParser) :
    (beginArray parser).full.Perm (parser.full ++ [.beginList]) :=
  full_perm_of_trace (trace_call .beginList _) rfl

theorem Document.followed_array {elements : Elements}
    (elementsFollowed : elements.Followed (beginArray before) after) :
    (Document.array elements).Followed before (endArray before.listStack after) := by
  have traceEq : (beginArray before).trace = before.trace ++ [.beginList] :=
    trace_call .beginList _
  have pendingEq : (beginArray before).pending = before.pending := rfl
  have calledEq : (Document.array elements).called =
      [.beginList] ++ elements.called ++ [.finishList] := rfl
  have steady := elementsFollowed.advance.steady
  rcases endArray_trace steady before.listStack with ⟨endTrace, endPending⟩
  have endFull := full_of_pending endPending
  have grows : after.trace <+: (endArray before.listStack after).trace := by
    rw [endTrace]
    exact (trace_prefix_full after).trans (prefix_append _ _)
  have begins : before.trace ++ [.beginList] <+: (endArray before.listStack after).trace := by
    rw [← traceEq]
    exact elementsFollowed.advance.grows.trans grows
  constructor
  case names => exact (endArray_attrStack _ after).trans elementsFollowed.names
  case advance =>
      constructor
      · rcases flushPrevious_steady steady .none with ⟨floats, uints, ints⟩
        exact ⟨floats, uints, ints⟩
      · rfl
      · exact (prefix_append _ _).trans begins
      · rw [endFull, endTrace, calledEq, ← append_assoc, ← append_assoc]
        apply List.Perm.append_right
        apply elementsFollowed.advance.collected.trans
        exact (beginArray_full_perm before).append_right elements.called
  case cached =>
      intro _
      simp [endPending, Document.isNumber]
  case tracks =>
      rintro (nothing | ⟨_, notContainer⟩)
      · have beginFull : (beginArray before).full = before.full ++ [.beginList] := by
          rw [full_of_pending (pendingEq.trans nothing), full_of_pending nothing, traceEq]
        have elementsTrack := elementsFollowed.tracks false (by simp [pendingEq, nothing])
        rw [beginFull] at elementsTrack
        rw [calledEq, ← append_assoc, ← append_assoc]
        constructor
        · intro spaced
          rw [endFull, endTrace, elementsTrack.1 spaced]
        · intro notSpaced
          exact (elementsTrack.2 notSpaced).extend grows (prefix_append _ _)
      · exact Bool.noConfusion notContainer
  case begins =>
      intro _
      refine ⟨.beginList, ?_, begins⟩
      intro value impossible
      exact VisitorCall.noConfusion impossible

theorem finishPrevious_trace (name : String) (parser : StreamParser) :
    (parser.finishPrevious name).trace = parser.trace ++ closing name := by
  unfold finishPrevious closing
  split
  · exact trace_call _ _
  · exact (append_nil _).symm

theorem finishPrevious_pending (name : String) (parser : StreamParser) :
    (parser.finishPrevious name).pending = parser.pending := by
  unfold finishPrevious
  split <;> rfl

theorem finishPrevious_steady (name : String) (steady : parser.Steady) :
    (parser.finishPrevious name).Steady := by
  unfold finishPrevious
  split
  · exact ⟨steady.floats, steady.uints, steady.ints⟩
  · exact steady

theorem finishPrevious_listStack (name : String) (parser : StreamParser) :
    (parser.finishPrevious name).listStack = parser.listStack := by
  unfold finishPrevious
  split <;> rfl

/-- The parser after the begin of an object. -/
def beginObject (parser : StreamParser) : StreamParser :=
  { parser with
    attrStack := "" :: parser.attrStack
    listStack := false :: parser.listStack }.call .beginStruct

/-- The parser after the end of an object in the given attributes and lists. -/
def endObject (name : String) (names : List String) (lists : List Bool) (parser : StreamParser) :
    StreamParser :=
  { parser.finishPrevious name with
    attrStack := names
    listStack := lists
    inUnparsed := lists.isEmpty || parser.inUnparsed }.call .finishStruct

/-- The parser after the name of a member. -/
def nextMember (previous name : String) (names : List String) (parser : StreamParser) :
    StreamParser :=
  { parser.finishPrevious previous with attrStack := name :: names }.call (.beginAttribute name)

theorem nextMember_trace (previous name : String) (names : List String) (parser : StreamParser) :
    (nextMember previous name names parser).trace =
      parser.trace ++ closing previous ++ [.beginAttribute name] := by
  rw [← finishPrevious_trace]
  exact trace_call _ _

theorem nextMember_pending (previous name : String) (names : List String) (parser : StreamParser) :
    (nextMember previous name names parser).pending = parser.pending :=
  finishPrevious_pending previous parser

theorem nextMember_listStack (previous name : String) (names : List String)
    (parser : StreamParser) :
    (nextMember previous name names parser).listStack = parser.listStack :=
  finishPrevious_listStack previous parser

theorem nextMember_full_perm (previous name : String) (names : List String)
    (parser : StreamParser) :
    (nextMember previous name names parser).full.Perm
      (parser.full ++ closing previous ++ [.beginAttribute name]) := by
  have traceEq := nextMember_trace previous name names parser
  rw [append_assoc] at traceEq ⊢
  exact full_perm_of_trace traceEq (nextMember_pending previous name names parser)

theorem Members.called_cons (name : String) (head : Document) (tail : Members) :
    (Members.cons name head tail).called =
      [.beginAttribute name] ++ (head.called ++ (closing name ++ tail.called)) := by
  have endsEq : (if hasName name head then [VisitorCall.finishAttribute name] else []) =
      closing name := by
    unfold closing hasName
    simp only [bne_iff_ne]
  rw [Members.called, Members.events, endsEq]
  rfl

theorem Members.followed_nil {name : String} {outer : List String}
    (names : parser.attrStack = name :: outer) (steady : parser.Steady) :
    Members.nil.Followed name name outer parser parser := by
  have calledEq : Members.nil.called = [] := rfl
  constructor
  case names => exact names
  case steady => exact steady
  case lists => rfl
  case grows => exact prefix_rfl
  case collected => rw [calledEq, append_nil]
  case cached => exact id
  case inOrder =>
      intro _ _
      rw [calledEq, append_nil]
  case parted =>
      intro _ impossible
      exact Bool.noConfusion impossible

theorem Members.followed_cons {previous name last : String} {outer : List String} {head : Document}
    {tail : Members} {middle : StreamParser} (outside : ¬before.InList)
    (headFollowed : head.Followed (nextMember previous name outer before) middle)
    (tailFollowed : tail.Followed name last outer middle after) :
    (Members.cons name head tail).Followed previous last outer before after := by
  have nextTrace := nextMember_trace previous name outer before
  have nextPending := nextMember_pending previous name outer before
  have nextOutside : ¬(nextMember previous name outer before).InList := by
    unfold InList
    rw [nextMember_listStack]
    exact outside
  have middlePending (nothing : before.pending = []) : middle.pending = [] := by
    apply (headFollowed.cached (Or.inl (nextPending.trans nothing))).mpr
    exact fun both => nextOutside both.1
  have headTracks (nothing : before.pending = []) :
      Tracks head.spaced (before.trace ++ closing previous ++ [.beginAttribute name] ++
        head.called) middle := by
    have tracks := headFollowed.tracks (Or.inl (nextPending.trans nothing))
    rwa [full_of_pending (nextPending.trans nothing), nextTrace] at tracks
  have regroup (front : List VisitorCall) :
      front ++ (closing previous ++ (Members.cons name head tail).called) =
        front ++ closing previous ++ [.beginAttribute name] ++ head.called ++
          (closing name ++ tail.called) := by
    rw [Members.called_cons]
    simp only [append_assoc]
  constructor
  case names => exact tailFollowed.names
  case steady => exact tailFollowed.steady
  case lists =>
      exact tailFollowed.lists.trans (headFollowed.advance.lists.trans
        (nextMember_listStack previous name outer before))
  case grows =>
      apply List.IsPrefix.trans _ (headFollowed.advance.grows.trans tailFollowed.grows)
      rw [nextTrace, append_assoc]
      exact prefix_append _ _
  case collected =>
      have nextFull := nextMember_full_perm previous name outer before
      rw [regroup]
      apply tailFollowed.collected.trans
      apply List.Perm.append_right
      exact headFollowed.advance.collected.trans (nextFull.append_right head.called)
  case cached => exact fun nothing => tailFollowed.cached (middlePending nothing)
  case inOrder =>
      intro nothing spaced
      rw [Members.spaced, Bool.and_eq_true] at spaced
      have headFull := (headTracks nothing).1 spaced.1
      rw [full_of_pending (middlePending nothing)] at headFull
      rw [tailFollowed.inOrder (middlePending nothing) spaced.2, headFull, regroup]
  case parted =>
      intro nothing notSpaced
      rw [regroup]
      cases headSpaced : head.spaced with
      | false =>
          exact ((headTracks nothing).2 headSpaced).extend tailFollowed.grows
            (prefix_append _ _)
      | true =>
          have headFull := (headTracks nothing).1 headSpaced
          rw [full_of_pending (middlePending nothing)] at headFull
          rw [Members.spaced, headSpaced, Bool.true_and] at notSpaced
          rw [← headFull]
          exact tailFollowed.parted (middlePending nothing) notSpaced

theorem Document.followed_object {members : Members} {last : String}
    (membersFollowed : members.Followed "" last before.attrStack (beginObject before) after) :
    (Document.object members).Followed before
      (endObject last before.attrStack before.listStack after) := by
  have beginTrace : (beginObject before).trace = before.trace ++ [.beginStruct] :=
    trace_call .beginStruct _
  have beginPending : (beginObject before).pending = before.pending := rfl
  have calledEq : (Document.object members).called =
      [.beginStruct] ++ members.called ++ [.finishStruct] := rfl
  have endTrace : (endObject last before.attrStack before.listStack after).trace =
      after.trace ++ closing last ++ [.finishStruct] := by
    rw [← finishPrevious_trace]
    exact trace_call _ _
  have endPending : (endObject last before.attrStack before.listStack after).pending =
      after.pending := finishPrevious_pending last after
  have grows : after.trace <+:
      (endObject last before.attrStack before.listStack after).trace := by
    rw [endTrace, append_assoc]
    exact prefix_append _ _
  have begins : before.trace ++ [.beginStruct] <+:
      (endObject last before.attrStack before.listStack after).trace := by
    rw [← beginTrace]
    exact membersFollowed.grows.trans grows
  constructor
  case names => rfl
  case advance =>
      constructor
      · rcases finishPrevious_steady last membersFollowed.steady with ⟨floats, uints, ints⟩
        exact ⟨floats, uints, ints⟩
      · rfl
      · exact (prefix_append _ _).trans begins
      · have beginFull : (beginObject before).full.Perm (before.full ++ [.beginStruct]) :=
          full_perm_of_trace beginTrace beginPending
        have endFull : (endObject last before.attrStack before.listStack after).full.Perm
            (after.full ++ closing last ++ [.finishStruct]) := by
          rw [append_assoc] at endTrace ⊢
          exact full_perm_of_trace endTrace endPending
        rw [calledEq, ← append_assoc, ← append_assoc]
        apply endFull.trans
        apply List.Perm.append_right
        exact membersFollowed.collected.trans (beginFull.append_right members.called)
  case cached =>
      rintro (nothing | ⟨_, notContainer⟩)
      · simp [endPending, membersFollowed.cached (beginPending.trans nothing), Document.isNumber]
      · exact Bool.noConfusion notContainer
  case tracks =>
      rintro (nothing | ⟨_, notContainer⟩)
      · have noneBegun := beginPending.trans nothing
        have endFull := full_of_pending (endPending.trans (membersFollowed.cached noneBegun))
        rw [calledEq, full_of_pending nothing, ← append_assoc, ← append_assoc,
          ← beginTrace]
        constructor
        · intro spaced
          rw [endFull, endTrace, membersFollowed.inOrder noneBegun spaced]
          rfl
        · intro notSpaced
          exact (membersFollowed.parted noneBegun notSpaced).extend grows (prefix_append _ _)
      · exact Bool.noConfusion notContainer
  case begins =>
      intro _
      refine ⟨.beginStruct, ?_, begins⟩
      intro value impossible
      exact VisitorCall.noConfusion impossible

mutual

theorem Document.run_followed : (document : Document) → {before : StreamParser} →
    before.Steady →
    ∃ after, run document.callbacks before = some after ∧ document.Followed before after
  | .null, before, steady =>
      ⟨before.consumeOther .nothing, rfl, consumeOther_followed rfl rfl rfl rfl steady⟩
  | .bool value, before, steady =>
      ⟨before.consumeOther (.bool value), rfl, consumeOther_followed rfl rfl rfl rfl steady⟩
  | .string value, before, steady =>
      ⟨before.consumeOther (.string value), rfl, consumeOther_followed rfl rfl rfl rfl steady⟩
  | .number number, before, steady => by
      refine ⟨before.doPush number.cached number.cache number.cachedType, ?_, ?_⟩
      · rw [Document.callbacks, run_cons, number.handle_callback]
        rfl
      · by_cases inList : before.InList
        · exact number_followed_inList number steady inList
        · exact number_followed_outside number steady inList
  | .array elements, before, steady => by
      have beginSteady : (beginArray before).Steady := ⟨steady.floats, steady.uints, steady.ints⟩
      rcases run_followed elements beginSteady rfl with ⟨after, run, followed⟩
      refine ⟨endArray before.listStack after, ?_, Document.followed_array followed⟩
      have listsEq : after.listStack = true :: before.listStack := followed.advance.lists
      have beginEq : before.handle .startArray = some (beginArray before) := rfl
      rw [Document.callbacks, run_cons, beginEq, Option.bind_some, run_append, run,
        Option.bind_some, run_cons, handle, listsEq]
      rfl
  | .object members, before, steady => by
      have beginSteady : (beginObject before).Steady := ⟨steady.floats, steady.uints, steady.ints⟩
      rcases Members.run_followed members beginSteady rfl (by simp [InList, beginObject, call]) with
        ⟨last, after, run, followed⟩
      refine ⟨endObject last before.attrStack before.listStack after, ?_,
        Document.followed_object followed⟩
      have listsEq : after.listStack = false :: before.listStack := followed.lists
      have beginEq : before.handle .startObject = some (beginObject before) := rfl
      rw [Document.callbacks, run_cons, beginEq, Option.bind_some, run_append, run,
        Option.bind_some, run_cons, handle, followed.names, listsEq]
      rfl

theorem run_followed : (elements : Elements) → {before : StreamParser} →
    before.Steady → before.InList →
    ∃ after, run elements.callbacks before = some after ∧ elements.Followed before after
  | .nil, before, steady, _ => ⟨before, rfl, followed_nil steady⟩
  | .cons head tail, before, steady, inList => by
      rcases Document.run_followed head steady with ⟨middle, headRun, headFollowed⟩
      have stillInList : middle.InList := by
        unfold InList
        rwa [headFollowed.advance.lists]
      rcases run_followed tail headFollowed.advance.steady stillInList with
        ⟨after, tailRun, tailFollowed⟩
      refine ⟨after, ?_, followed_cons inList headFollowed tailFollowed⟩
      rw [Elements.callbacks, run_append, headRun, Option.bind_some, tailRun]

theorem Members.run_followed : (members : Members) → {previous : String} →
    {outer : List String} → {before : StreamParser} → before.Steady →
    before.attrStack = previous :: outer → ¬before.InList →
    ∃ last after, run members.callbacks before = some after ∧
      members.Followed previous last outer before after
  | .nil, previous, _, before, steady, names, _ =>
      ⟨previous, before, rfl, Members.followed_nil names steady⟩
  | .cons name head tail, previous, outer, before, steady, names, outside => by
      have nextEq : before.handle (.key name) = some (nextMember previous name outer before) := by
        rw [handle, names]
        rfl
      have nextSteady : (nextMember previous name outer before).Steady := by
        rcases finishPrevious_steady previous steady with ⟨floats, uints, ints⟩
        exact ⟨floats, uints, ints⟩
      rcases Document.run_followed head nextSteady with ⟨middle, headRun, headFollowed⟩
      have middleLists : middle.listStack = before.listStack :=
        headFollowed.advance.lists.trans (finishPrevious_listStack previous before)
      have stillOutside : ¬middle.InList := by
        unfold InList
        rwa [middleLists]
      rcases Members.run_followed tail headFollowed.advance.steady headFollowed.names
        stillOutside with ⟨last, after, tailRun, tailFollowed⟩
      refine ⟨last, after, ?_, Members.followed_cons outside headFollowed tailFollowed⟩
      rw [Members.callbacks, run_cons, nextEq, Option.bind_some, run_append, headRun,
        Option.bind_some, tailRun]

end

mutual

theorem Document.events_sublist {ends others : String → Document → Bool}
    (fewer : ∀ name value, ends name value = true → others name value = true) :
    (document : Document) → (document.events ends).Sublist (document.events others)
  | .null => List.Sublist.refl _
  | .bool _ => List.Sublist.refl _
  | .number _ => List.Sublist.refl _
  | .string _ => List.Sublist.refl _
  | .array elements =>
      ((events_sublist fewer elements).append (List.Sublist.refl _)).cons_cons _
  | .object members =>
      ((Members.events_sublist fewer members).append (List.Sublist.refl _)).cons_cons _

theorem events_sublist {ends others : String → Document → Bool}
    (fewer : ∀ name value, ends name value = true → others name value = true) :
    (elements : Elements) → (elements.events ends).Sublist (elements.events others)
  | .nil => List.Sublist.refl _
  | .cons head tail =>
      (Document.events_sublist fewer head).append (events_sublist fewer tail)

theorem Members.events_sublist {ends others : String → Document → Bool}
    (fewer : ∀ name value, ends name value = true → others name value = true) :
    (members : Members) → (members.events ends).Sublist (members.events others)
  | .nil => List.Sublist.refl _
  | .cons name head tail => by
      apply List.Sublist.cons_cons
      apply (Document.events_sublist fewer head).append
      apply List.Sublist.append _ (Members.events_sublist fewer tail)
      by_cases listed : ends name head = true
      · rw [if_pos listed, if_pos (fewer name head listed)]
      · rw [if_neg listed]
        exact nil_sublist _

end

/-- The end of an attribute without a name. -/
def isNamelessEnd : VisitorCall → Bool
  | .finishAttribute name => name == ""
  | _ => false

mutual

theorem Document.filter_events : (document : Document) →
    (document.events fun _ _ => true).filter (fun call => !isNamelessEnd call) = document.called
  | .null => rfl
  | .bool _ => rfl
  | .number _ => rfl
  | .string _ => rfl
  | .array elements => by
      rw [Document.events, filter_cons_of_pos rfl, filter_append,
        filter_events elements]
      rfl
  | .object members => by
      rw [Document.events, filter_cons_of_pos rfl, filter_append,
        Members.filter_events members]
      rfl

theorem filter_events : (elements : Elements) →
    (elements.events fun _ _ => true).filter (fun call => !isNamelessEnd call) = elements.called
  | .nil => rfl
  | .cons head tail => by
      rw [events, filter_append, Document.filter_events head,
        filter_events tail]
      rfl

theorem Members.filter_events : (members : Members) →
    (members.events fun _ _ => true).filter (fun call => !isNamelessEnd call) = members.called
  | .nil => rfl
  | .cons name head tail => by
      have endsEq : [VisitorCall.finishAttribute name].filter (fun call => !isNamelessEnd call) =
          if hasName name head then [.finishAttribute name] else [] := by
        by_cases empty : name = "" <;> simp [isNamelessEnd, hasName, empty]
      rw [Members.events, if_pos rfl, filter_cons_of_pos rfl, filter_append,
        filter_append, endsEq, Document.filter_events head, Members.filter_events tail]
      rfl

end

mutual

/-- An end without a name is demanded only for a number. -/
theorem Document.any_isNamelessEnd : (document : Document) →
    (document.events fun _ value => value.isNumber).any isNamelessEnd = !document.named
  | .null => rfl
  | .bool _ => rfl
  | .number _ => rfl
  | .string _ => rfl
  | .array elements => by
      have inner := any_isNamelessEnd elements
      simp [Document.named, Document.events, isNamelessEnd, inner]
  | .object members => by
      have inner := Members.any_isNamelessEnd members
      simp [Document.named, Document.events, isNamelessEnd, inner]

theorem any_isNamelessEnd : (elements : Elements) →
    (elements.events fun _ value => value.isNumber).any isNamelessEnd = !elements.named
  | .nil => rfl
  | .cons head tail => by
      rw [events, any_append, Document.any_isNamelessEnd head,
        any_isNamelessEnd tail, named, Bool.not_and]

theorem Members.any_isNamelessEnd : (members : Members) →
    (members.events fun _ value => value.isNumber).any isNamelessEnd = !members.named
  | .nil => rfl
  | .cons name head tail => by
      have beginOther : isNamelessEnd (.beginAttribute name) = false := rfl
      have endsEq : (if head.isNumber then [VisitorCall.finishAttribute name] else []).any
          isNamelessEnd = (name == "" && head.isNumber) := by
        cases head.isNumber <;> simp [isNamelessEnd]
      rw [Members.events, any_cons, beginOther, Bool.false_or, any_append,
        any_append, endsEq, Document.any_isNamelessEnd head, Members.any_isNamelessEnd tail,
        Members.named, Bool.or_left_comm, ← Bool.not_and, Bool.not_and (!_), Bool.not_not]

end

theorem Document.required_sublist_called :
    (document.events fun _ value => value.isNumber).Sublist document.called ↔
      document.named = true := by
  have anyEq := document.any_isNamelessEnd
  constructor
  · intro sublist
    have noneCalled : document.called.any isNamelessEnd = false := by
      rw [← document.filter_events, any_eq_false]
      intro call mem
      simpa using (mem_filter.mp mem).2
    by_contra notNamed
    rw [Bool.not_eq_true] at notNamed
    rw [notNamed, Bool.not_false, any_eq_true] at anyEq
    rcases anyEq with ⟨call, mem, nameless⟩
    exact any_eq_false.mp noneCalled call (sublist.subset mem) nameless
  · intro named
    rw [named, Bool.not_true, any_eq_false] at anyEq
    have unchanged : (document.events fun _ value => value.isNumber).filter
        (fun call => !isNamelessEnd call) = document.events fun _ value => value.isNumber := by
      rw [filter_eq_self]
      intro call mem
      simpa using anyEq call mem
    rw [← unchanged, ← document.filter_events]
    exact (Document.events_sublist (fun _ _ _ => rfl) document).filter _

/-- What is in order is all that is called. -/
theorem Document.inOrder_iff (complete : trace.Perm document.called) :
    document.InOrder trace ↔ trace = document.called ∧ document.named = true := by
  constructor
  · rintro ⟨required, allowed⟩
    have noneCalled : ∀ call ∈ trace, (!isNamelessEnd call) = true := by
      intro call mem
      have called := complete.mem_iff.mp mem
      rw [← document.filter_events] at called
      exact (mem_filter.mp called).2
    have sublist := allowed.filter fun call => !isNamelessEnd call
    rw [filter_eq_self.mpr noneCalled, document.filter_events] at sublist
    have same := sublist.eq_of_length complete.length_eq
    rw [same] at required
    exact ⟨same, Document.required_sublist_called.mp required⟩
  · rintro ⟨rfl, named⟩
    exact ⟨Document.required_sublist_called.mpr named,
      Document.events_sublist (fun _ _ _ => rfl) document⟩

/-- The visitor gets all values of a document in its order exactly when no array
has an array or an object directly after a number and no member with the empty
name is a number. -/
theorem Document.visit_inOrder_iff (document : Document) :
    ∃ trace, document.visit = some trace ∧
      (document.InOrder trace ↔ (document.spaced && document.named) = true) := by
  have steady : StreamParser.Steady {} := ⟨fun _ => rfl, fun _ => rfl, fun _ => rfl⟩
  have nothing : StreamParser.pending {} = [] := rfl
  have ready : Ready document {} := Or.inl nothing
  rcases document.run_followed steady with ⟨after, run, followed⟩
  refine ⟨after.trace, by rw [Document.visit, run]; rfl, ?_⟩
  have afterNothing : after.pending = [] := by
    apply (followed.cached ready).mpr
    rintro ⟨inList, _⟩
    exact absurd inList (by simp [InList])
  have collected := followed.advance.collected
  have tracks := followed.tracks ready
  have beforeFull : StreamParser.full {} = [] := rfl
  rw [beforeFull, nil_append] at collected tracks
  rw [full_of_pending afterNothing] at collected
  have sameIff : after.trace = document.called ↔ document.spaced = true := by
    constructor
    · intro same
      by_contra notSpaced
      rw [Bool.not_eq_true] at notSpaced
      exact (tracks.2 notSpaced).ne same
    · intro spaced
      have fullEq := tracks.1 spaced
      rwa [full_of_pending afterNothing] at fullEq
  rw [Document.inOrder_iff collected, sameIff, Bool.and_eq_true]

/-- A list of a number and a list with another number. -/
def overtakenNumber : Document :=
  .array (.cons (.number (.uint 1)) (.cons (.array (.cons (.number (.uint 2)) .nil)) .nil))

/-- The first number is consumed within the inner list. -/
theorem visit_overtakes :
    ∃ trace, overtakenNumber.visit = some trace ∧ ¬overtakenNumber.InOrder trace := by
  refine ⟨[.beginList, .beginList, .consume [.uint64 1], .consume [.uint64 2], .finishList,
    .finishList], ?_, ?_⟩
  · rfl
  · intro inOrder
    have same := inOrder.1.eq_of_length rfl
    exact absurd same (by decide)

end Eagine.ValueTree
