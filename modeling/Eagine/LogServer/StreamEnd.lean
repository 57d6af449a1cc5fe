import Eagine.LogServer.StreamControl

/-!
# The end of a log stream

A finish info is handed to the sink at the end of an entry, when a stream ends without a clean
finish and when its text is no JSON. Any entry counts as a clean finish, and a text that is no
JSON is reported behind the entry for the end of the log as well.
-/

open List

namespace Eagine.LogServer

open Logging ValueTree
open StreamParser (handle run)

universe u

/-- An entry of a log. Its first member is its type. -/
structure LogEntry where
  kind : String
  others : Members
  named : others.wellNamed = true
  single : "t" ∉ others.names

namespace LogEntry

def members (entry : LogEntry) : Members :=
  .cons "t" (.string entry.kind) entry.others

def document (entry : LogEntry) : Document :=
  .object entry.members

end LogEntry

/-- The elements of an array. -/
def elementsOf : List Document → Elements
  | [] => .nil
  | document :: documents => .cons document (elementsOf documents)

/-- A stream of entries with its end: the array is closed, or the text breaks off or is malformed
somewhere in what follows the entries, or already before them. -/
inductive LogStream where
  | closed (entries : List LogEntry)
  | broken (entries : List LogEntry) (next : Document) (named : next.wellNamed = true)
      (part : List Callback) (isPart : part <+: next.callbacks) (notWhole : part ≠ next.callbacks)
  | unopened

namespace LogStream

/-- The entries that were received. -/
def entries : LogStream → List LogEntry
  | closed entries => entries
  | broken entries _ _ _ _ _ => entries
  | unopened => []

def entryElements (entries : List LogEntry) : Elements :=
  elementsOf (entries.map LogEntry.document)

def reading : LogStream → Reading
  | closed entries => ⟨(Document.array (entryElements entries)).callbacks, false⟩
  | broken entries _ _ part _ _ =>
      ⟨.startArray :: ((entryElements entries).callbacks ++ part), true⟩
  | unopened => ⟨[], true⟩

/-- The extractors that are found for the entries, one after another. -/
def found (map : ExtractorMap) : List LogEntry → List ExtractorKind
  | [] => []
  | entry :: entries => (map.lookup entry.kind).1.toList ++ found (map.lookup entry.kind).2 entries

def extractors (memory : Memory) (stream : LogStream) : List ExtractorKind :=
  found { memory := memory } stream.entries

/-- An entry for the end of the log was received. -/
def Ended (stream : LogStream) : Prop :=
  ∃ entry ∈ stream.entries, entry.kind = "end"

end LogStream

/-- The sink got one finish info, behind all other infos, and it is clean if the log ended. -/
def EndsOnce {F : Type u} (ended : Prop) (infos : List (Info F)) : Prop :=
  ∃ others finish, infos = others ++ [.finish finish] ∧
    (∀ info ∈ others, ∀ other, info ≠ .finish other) ∧ (finish.clean = true ↔ ended)

/-- What is asked of the reports. -/
def ReportsOnce (ended : Prop) (reports : List (Option Bool)) : Prop :=
  ∃ others clean, reports = others ++ [some clean] ∧ (∀ report ∈ others, report = none) ∧
    (clean = true ↔ ended)

theorem report_eq_none_iff {F : Type u} {info : Info F} :
    info.report = none ↔ ∀ other, info ≠ .finish other := by
  cases info <;> simp [Info.report]

theorem endsOnce_iff {F : Type u} {ended : Prop} {infos : List (Info F)} :
    EndsOnce ended infos ↔ ReportsOnce ended (infos.map Info.report) := by
  constructor
  · rintro ⟨others, finish, rfl, notFinish, clean⟩
    refine ⟨others.map Info.report, finish.clean, map_append, ?_, clean⟩
    exact forall_mem_map.mpr fun info within => report_eq_none_iff.mpr (notFinish info within)
  · rintro ⟨others, clean, reportsEq, allNone, cleanIff⟩
    rcases map_eq_append_iff.mp reportsEq with ⟨front, back, rfl, frontEq, backEq⟩
    rcases map_eq_singleton_iff.mp backEq with ⟨last, rfl, lastEq⟩
    cases last with
    | finish info =>
        have cleanEq : info.clean = clean := Option.some.inj lastEq
        refine ⟨front, info, rfl, ?_, cleanEq ▸ cleanIff⟩
        intro info within
        exact report_eq_none_iff.mp (allNone _ (frontEq ▸ mem_map_of_mem within))
    | _ => exact absurd lastEq.symm (Option.some_ne_none clean)

variable {memory : Memory}

/-- The parser between two entries, with the map of extractors. -/
structure BetweenEntries (memory : Memory) (map : ExtractorMap) (parser : StreamParser) :
    Prop where
  attrs : parser.attrStack = []
  lists : parser.listStack = [true]
  path_eq : (driven memory parser).path = ["_"]
  map_eq : (driven memory parser).selected.2 = map

theorem finishStruct_entry {control : Control} (path_eq : control.path = ["_"]) :
    control.finishStruct =
      { control with
        reports := control.reports ++ (control.selected.1.map ExtractorKind.report).toList
        clean := control.clean || control.selected.1.isSome } := by
  have isEntry : StringPath.like ["_"] ["_"] = true := by decide
  rw [Control.finishStruct]
  cases found : control.selected.1 with
  | none => simp
  | some kind =>
      dsimp only
      rw [path_eq, if_pos isEntry]
      simp

variable {parser : StreamParser} {map : ExtractorMap}

/-- An entry hands the info of its extractor to the sink, if it is found. -/
theorem run_entry (entry : LogEntry) (between : BetweenEntries memory map parser) :
    ∃ after, run entry.document.callbacks parser = some after ∧
      BetweenEntries memory (map.lookup entry.kind).2 after ∧
        (driven memory after).reports = (driven memory parser).reports ++
          ((map.lookup entry.kind).1.map ExtractorKind.report).toList ∧
        (driven memory after).clean =
          ((driven memory parser).clean || (map.lookup entry.kind).1.isSome) := by
  have isElement : StringPath.IsElement "t" := by decide
  have began : InMembers memory _ _ _ _ := inMembers_beginObject parser
  rw [between.path_eq] at began
  rcases handle_key began isElement with ⟨named, handledKey, attrsKey, listsKey, drivenKey⟩
  have passed : Passed memory _ _ := passed_string entry.kind named
  have selected : (driven memory (named.consumeOther (.string entry.kind))).selected =
      map.lookup entry.kind := by
    have isType : StringPath.like (["_"] ++ ["t"]) ["_", "t"] = true := by decide
    have stepped : driven memory _ = _ := driven_consumeOther (.string entry.kind) named
    change _ = (driven memory named).string entry.kind at stepped
    rw [stepped, Control.string, drivenKey, if_pos isType, driven_beginObject, between.map_eq]
  have inType := inMembers_passed began isElement.1 attrsKey listsKey drivenKey passed
  rcases passed_members entry.others entry.named inType (by decide) with
    ⟨middle, runOthers, inMiddle, selected_eq⟩
  have selectedEq : (driven memory middle).selected = map.lookup entry.kind := by
    rw [selected_eq, selected]
    intro name within
    have different : name ≠ "t" := by
      rintro rfl
      exact entry.single within
    have differs : StringPath.elementsMatch name "t" = false := by
      simp [StringPath.elementsMatch, different]
    simp [StringPath.like, differs]
  rcases handle_endObject inMiddle inMiddle.lists entry.members.length with
    ⟨after, handledEnd, attrs, lists, drivenEq⟩
  rw [finishStruct_entry rfl] at drivenEq
  refine ⟨after, ?_, ⟨attrs.trans between.attrs, lists.trans between.lists, ?_, ?_⟩, ?_, ?_⟩
  · have runMembers : run entry.members.callbacks (beginObject parser) = some middle := by
      rw [LogEntry.members, Members.callbacks, run_cons, handledKey, Option.bind_some]
      exact runOthers
    rw [LogEntry.document, Document.callbacks, run_cons]
    change StreamParser.run _ (beginObject parser) = _
    rw [run_append, runMembers, Option.bind_some, run_singleton, handledEnd]
  · rw [drivenEq]
  · rw [drivenEq]
    exact congrArg Prod.snd selectedEq
  · rw [drivenEq]
    change (driven memory middle).reports ++ ((driven memory middle).selected.1.map _).toList = _
    rw [inMiddle.reports_eq, driven_beginObject, selectedEq]
  · rw [drivenEq]
    change ((driven memory middle).clean || (driven memory middle).selected.1.isSome) = _
    rw [inMiddle.clean_eq, driven_beginObject, selectedEq]

/-- The entries hand the infos of their extractors to the sink, in their order. -/
theorem run_entries (entries : List LogEntry) (between : BetweenEntries memory map parser) :
    ∃ after, run (LogStream.entryElements entries).callbacks parser = some after ∧
      (driven memory after).path = ["_"] ∧ after.listStack = [true] ∧
        (driven memory after).reports = (driven memory parser).reports ++
          (LogStream.found map entries).map ExtractorKind.report ∧
        (driven memory after).clean =
          ((driven memory parser).clean || !(LogStream.found map entries).isEmpty) := by
  induction entries generalizing map parser with
  | nil =>
      exact ⟨parser, rfl, between.path_eq, between.lists, by simp [LogStream.found],
        by simp [LogStream.found]⟩
  | cons entry entries ih =>
      rcases run_entry entry between with ⟨middle, runEntry, betweenMiddle, reportsEq, cleanEq⟩
      rcases ih betweenMiddle with
        ⟨after, runEntries, path_eq, lists, reportsAfter, cleanAfter⟩
      refine ⟨after, ?_, path_eq, lists, ?_, ?_⟩
      · rw [LogStream.entryElements, map_cons, elementsOf, Elements.callbacks, run_append,
          runEntry, Option.bind_some]
        exact runEntries
      · rw [reportsAfter, reportsEq, LogStream.found]
        cases (map.lookup entry.kind).1 <;> simp
      · rw [cleanAfter, cleanEq, LogStream.found]
        cases (map.lookup entry.kind).1 <;> simp

theorem betweenEntries_beginArray (memory : Memory) :
    BetweenEntries memory { memory := memory } (beginArray {}) :=
  ⟨rfl, rfl, rfl, rfl⟩

/-- The reports of a stream, in the end. -/
def LogStream.reports (memory : Memory) (stream : LogStream) : List (Option Bool) :=
  (stream.extractors memory).map ExtractorKind.report ++
    match stream with
    | .closed _ => if stream.extractors memory = [] then [some false] else []
    | _ => [some false]

section

variable {F : Type u} [Conversions F]

/-- The visitor when all calls were made. -/
theorem control_begin (calls : List VisitorCall) :
    control ((BuildingVisitor.begin
      { builder := JsonDataExtractor.initial (F := F) memory }).visitAll calls) =
        Control.steps calls (.initial memory) :=
  control_visitAll calls _

theorem flags_visitAll (calls : List VisitorCall) (visitor : BuildingVisitor (JsonDataExtractor F)) :
    (visitor.visitAll calls).finishCalled = visitor.finishCalled ∧
      (visitor.visitAll calls).failCalled = visitor.failCalled := by
  induction calls generalizing visitor with
  | nil => exact ⟨rfl, rfl⟩
  | cons call calls ih =>
      have leave (name : String) : (visitor.leave name).finishCalled = visitor.finishCalled ∧
          (visitor.leave name).failCalled = visitor.failCalled := by
        unfold BuildingVisitor.leave
        split <;> exact ⟨rfl, rfl⟩
      have one : (visitor.visit call).finishCalled = visitor.finishCalled ∧
          (visitor.visit call).failCalled = visitor.failCalled := by
        cases call with
        | finishList => exact leave "_"
        | finishAttribute name => exact leave name
        | _ => exact ⟨rfl, rfl⟩
      rcases ih (visitor.visit call) with ⟨finishEq, failEq⟩
      exact ⟨finishEq.trans one.1, failEq.trans one.2⟩

variable {visitor : BuildingVisitor (JsonDataExtractor F)}

/-- What the sink has consumed in the end. -/
theorem consumed_end
    (finishFlag : visitor.finishCalled = false) (failFlag : visitor.failCalled = false)
    {hasParseError : Bool} (closed : hasParseError = false → visitor.path = []) :
    (if hasParseError then (false, visitor.failed) else visitor.finish).2.builder.consumed =
      visitor.builder.consumed ++
        if hasParseError = true ∨ visitor.builder.cleanFinish = false then
          [.finish { offset := Conversions.unset }]
        else [] := by
  cases hasParseError with
  | true =>
      have failedVisitor : visitor.failed.builder = JsonDataExtractor.failed visitor.builder := by
        rw [BuildingVisitor.failed, failFlag]
        rfl
      rw [if_pos rfl, failedVisitor, if_pos (Or.inl rfl)]
      rfl
  | false =>
      have finishEq : visitor.finish.2.builder = (JsonDataExtractor.finish visitor.builder).2 := by
        simp only [BuildingVisitor.finish, closed rfl, if_true, finishFlag]
        rfl
      rw [if_neg Bool.false_ne_true, finishEq, JsonDataExtractor.finish]
      cases visitor.builder.cleanFinish with
      | true => exact (append_nil _).symm
      | false => rfl

/-- What the end of a stream adds to the reports. -/
def endReports (hasParseError clean : Bool) : List (Option Bool) :=
  if hasParseError = true ∨ clean = false then [some false] else []

theorem reports_end
    (finishFlag : visitor.finishCalled = false) (failFlag : visitor.failCalled = false)
    {hasParseError : Bool} (closed : hasParseError = false → visitor.path = []) :
    ((if hasParseError then (false, visitor.failed) else visitor.finish).2.builder.consumed).map
        Info.report =
      visitor.builder.consumed.map Info.report ++
        endReports hasParseError visitor.builder.cleanFinish := by
  rw [consumed_end finishFlag failFlag closed, map_append, endReports]
  split_ifs <;> rfl

/-- The reports of what the sink has consumed in the end. -/
theorem received_reading {reading : Reading} (runEq : run reading.callbacks {} = some parser)
    (closed : reading.hasParseError = false → (driven memory parser).path = []) :
    (received F memory reading).map (List.map Info.report) =
      some ((driven memory parser).reports ++ endReports reading.hasParseError
        (driven memory parser).clean) := by
  have controlEq : control (F := F) _ = driven memory parser := control_begin parser.calls
  rcases flags_visitAll parser.calls
    (BuildingVisitor.begin { builder := JsonDataExtractor.initial (F := F) memory }) with
    ⟨finishFlag, failFlag⟩
  rw [received, Reading.traverse, runEq, Option.map_some, Option.map_some, Option.map_some,
    reports_end finishFlag failFlag, ← controlEq]
  · rfl
  · intro noError
    exact (congrArg Control.path controlEq).trans (closed noError)

theorem received_reports (F : Type u) [Conversions F] (memory : Memory) (stream : LogStream) :
    (received F memory stream.reading).map (List.map Info.report) =
      some (stream.reports memory) := by
  cases stream with
  | closed entries =>
      rcases run_entries entries (betweenEntries_beginArray memory) with
        ⟨middle, runEntries, path_eq, lists, reportsEq, cleanEq⟩
      have ended : driven memory (endArray [] middle) = { driven memory middle with path := [] } :=
        driven_endArray path_eq []
      have runEq : run (LogStream.closed entries).reading.callbacks {} =
          some (endArray [] middle) := by
        change StreamParser.run (Document.array _).callbacks {} = _
        rw [Document.callbacks, run_cons]
        change StreamParser.run _ (beginArray {}) = _
        rw [run_append, runEntries, Option.bind_some, run_singleton]
        simp only [handle, lists, endArray]
      rw [received_reading runEq fun _ => by rw [ended], ended]
      dsimp only
      rw [reportsEq, cleanEq]
      change some (_ ++ endReports false (!(LogStream.found _ entries).isEmpty)) =
        some (map _ (LogStream.found _ entries) ++ if LogStream.found _ entries = [] then _ else _)
      cases LogStream.found { memory := memory } entries with
      | nil => rfl
      | cons kind kinds => rfl
  | broken entries next named part isPart notWhole =>
      rcases run_entries entries (betweenEntries_beginArray memory) with
        ⟨middle, runEntries, path_eq, -, reportsEq, -⟩
      have inside : (driven memory middle).path ≠ [] := by
        rw [path_eq]
        exact cons_ne_nil _ _
      rcases unreported_document next named middle inside isPart notWhole with
        ⟨after, runPart, unreported⟩
      have runEq : run
          (LogStream.broken entries next named part isPart notWhole).reading.callbacks {} =
            some after := by
        change StreamParser.run (.startArray :: (_ ++ part)) {} = _
        rw [run_cons]
        change StreamParser.run _ (beginArray {}) = _
        rw [run_append, runEntries, Option.bind_some, runPart]
      rw [received_reading runEq fun impossible => Bool.noConfusion impossible,
        unreported.reports_eq, reportsEq]
      rfl
  | unopened =>
      have runEq : run LogStream.unopened.reading.callbacks {} = some {} := rfl
      rw [received_reading runEq fun impossible => Bool.noConfusion impossible]
      rfl

end

namespace LogStream

/-- The condition for a stream to end once. Where the array is closed, the extractor of the entry
for the end of the log is the last one that is found, and is found once, or none is found and there
is no such entry. Otherwise there is none. -/
def ReportsEnd (memory : Memory) (stream : LogStream) : Prop :=
  match stream with
  | closed _ =>
      (stream.extractors memory = [] ∧ ¬stream.Ended) ∨
        ∃ before, stream.extractors memory = before ++ [.finish] ∧ .finish ∉ before
  | _ => ¬stream.Ended

theorem eq_end {type : String} (found : extractorOf type = some .finish) : type = "end" := by
  unfold extractorOf at found
  split at found
  all_goals first | rfl | exact absurd found (by decide)

theorem exists_end {entries : List LogEntry}
    (within : .finish ∈ found map entries) : ∃ entry ∈ entries, entry.kind = "end" := by
  induction entries generalizing map with
  | nil => exact absurd within not_mem_nil
  | cons entry entries ih =>
      rw [found, mem_append, Option.mem_toList] at within
      rcases within with here | behind
      · exact ⟨entry, mem_cons_self, eq_end (ExtractorMap.lookup_eq_some here)⟩
      · rcases ih behind with ⟨other, inOthers, isEnd⟩
        exact ⟨other, mem_cons_of_mem _ inOthers, isEnd⟩

theorem ended_of_mem {stream : LogStream} (within : .finish ∈ stream.extractors memory) :
    stream.Ended :=
  exists_end within

theorem report_eq_none {kind : ExtractorKind} : kind.report = none ↔ kind ≠ .finish := by
  cases kind <;> decide

variable {kinds : List ExtractorKind}

theorem forall_report_none :
    (∀ report ∈ kinds.map ExtractorKind.report, report = none) ↔ .finish ∉ kinds := by
  rw [forall_mem_map]
  constructor
  · intro allNone within
    exact report_eq_none.mp (allNone _ within) rfl
  · intro notFinish kind within
    apply report_eq_none.mpr
    rintro rfl
    exact notFinish within

/-- A finish info behind the others that was not clean. -/
theorem reportsOnce_append {ended : Prop} :
    ReportsOnce ended (kinds.map ExtractorKind.report ++ [some false]) ↔
      .finish ∉ kinds ∧ ¬ended := by
  constructor
  · rintro ⟨others, clean, reportsEq, allNone, cleanIff⟩
    rcases append_inj' reportsEq rfl with ⟨rfl, cleanEq⟩
    cases cleanEq
    exact ⟨forall_report_none.mp allNone, fun ended => Bool.noConfusion (cleanIff.mpr ended)⟩
  · rintro ⟨notFinish, notEnded⟩
    refine ⟨_, false, rfl, forall_report_none.mpr notFinish, ?_⟩
    simp [notEnded]

/-- Only the infos of the entries. -/
theorem reportsOnce_map {ended : Prop} (ended_of : .finish ∈ kinds → ended) :
    ReportsOnce ended (kinds.map ExtractorKind.report) ↔
      ∃ before, kinds = before ++ [.finish] ∧ .finish ∉ before := by
  constructor
  · rintro ⟨others, clean, reportsEq, allNone, _⟩
    rcases map_eq_append_iff.mp reportsEq with ⟨before, last, rfl, rfl, lastEq⟩
    rcases map_eq_singleton_iff.mp lastEq with ⟨kind, rfl, kindEq⟩
    refine ⟨before, ?_, forall_report_none.mp allNone⟩
    by_contra notLast
    have different : kind ≠ .finish := by
      rintro rfl
      exact notLast rfl
    rw [report_eq_none.mpr different] at kindEq
    exact absurd kindEq.symm (Option.some_ne_none clean)
  · rintro ⟨before, rfl, notFinish⟩
    refine ⟨before.map ExtractorKind.report, true, map_append, forall_report_none.mpr notFinish, ?_⟩
    simp [ended_of]

theorem reportsOnce_iff (memory : Memory) (stream : LogStream) :
    ReportsOnce stream.Ended (stream.reports memory) ↔ stream.ReportsEnd memory := by
  have ended_of : .finish ∈ stream.extractors memory → stream.Ended := ended_of_mem
  have open_iff : (.finish ∉ stream.extractors memory ∧ ¬stream.Ended) ↔ ¬stream.Ended :=
    and_iff_right_of_imp (mt ended_of)
  cases stream with
  | closed entries =>
      rw [reports, ReportsEnd]
      by_cases none : (closed entries).extractors memory = []
      · simp only [none, if_true]
        rw [reportsOnce_append]
        simp
      · simp only [none, if_false, append_nil, false_and, false_or]
        exact reportsOnce_map ended_of
  | broken => exact reportsOnce_append.trans open_iff
  | unopened => exact reportsOnce_append.trans open_iff

/-- A stream is reported to end exactly once, behind everything else and clean if the log ended,
exactly when the condition holds. -/
theorem endsOnce_received_iff (F : Type u) [Conversions F] (memory : Memory) (stream : LogStream) :
    (∃ infos, received F memory stream.reading = some infos ∧ EndsOnce stream.Ended infos) ↔
      stream.ReportsEnd memory := by
  rcases Option.map_eq_some_iff.mp (received_reports F memory stream) with
    ⟨infos, receivedEq, reportsEq⟩
  rw [← reportsOnce_iff, ← reportsEq, ← endsOnce_iff, receivedEq]
  constructor
  · rintro ⟨others, othersEq, ends⟩
    rw [Option.some.inj othersEq]
    exact ends
  · intro ends
    exact ⟨infos, rfl, ends⟩

/-- The entry of a heartbeat, without its time. -/
def heartbeatEntry : LogEntry :=
  ⟨"hb", .nil, rfl, not_mem_nil⟩

/-- A closed array with a heartbeat in it is not reported to end. -/
theorem not_endsOnce_received : ¬∃ infos,
    received KeptNumber (fun _ _ => "") (closed [heartbeatEntry]).reading =
    some infos ∧ EndsOnce (closed [heartbeatEntry]).Ended infos := by
  have extractors_eq : (closed [heartbeatEntry]).extractors (fun _ _ => "") = [.heartbeat] := by
    rw [extractors, entries, found, (ExtractorMap.isPlain_initial _).lookup_eq
      (rfl : extractorOf heartbeatEntry.kind = some .heartbeat)]
    rfl
  rintro ⟨infos, infosEq, ends⟩
  have reportsEq := received_reports KeptNumber (fun _ _ => "") (closed [heartbeatEntry])
  rw [infosEq, Option.map_some, Option.some.injEq] at reportsEq
  rw [endsOnce_iff, reportsEq, reportsOnce_iff, ReportsEnd, extractors_eq] at ends
  rcases ends with ⟨none, -⟩ | ⟨before, last, -⟩
  · exact absurd none (cons_ne_nil _ _)
  · have lastEq := congrArg List.getLast? last
    rw [getLast?_concat] at lastEq
    exact absurd lastEq (by decide)

end LogStream

end Eagine.LogServer
