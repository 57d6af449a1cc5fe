import Eagine.Container.FlatMapRefinement
import Eagine.Identifier.Identifier
import Eagine.LogServer.JsonParser
import Eagine.Theory.Refinement
import Mathlib.Algebra.Order.BigOperators.Group.List
import Mathlib.Data.Prod.Lex

/-!
# Aggregation of intervals

The durations for a tag and an instance are aggregated until a timeout expires. The aggregate is then
consumed and reset: the sum and the count start again, and with the count the minimum, but the
maximum is kept.
-/

namespace Eagine.LogServer

open Container Theory List

/-- `timeout`, with instants of the clock in nanoseconds. -/
structure Timeout where
  period : Int
  deadline : Int

namespace Timeout

def start (period now : Int) : Timeout :=
  ⟨period, now + period⟩

def reset (t : Timeout) (now : Int) : Timeout :=
  { t with deadline := now + t.period }

def isExpired (t : Timeout) (now : Int) : Bool :=
  t.deadline ≤ now

end Timeout

/-- A sum of nanoseconds that are represented by 64 bits. -/
def addNanoseconds (a b : Int) : Option Int :=
  if -2 ^ 63 ≤ a + b ∧ a + b < 2 ^ 63 then some (a + b) else none

def minimum (a b : Int) : Int :=
  if a < b then a else b

def maximum (a b : Int) : Int :=
  if a > b then a else b

/-- What intervals are aggregated by, in lexicographic order. -/
abbrev IntervalKey :=
  Nat ×ₗ Nat

/-- The key of the value of a tag and of an instance. -/
def intervalKey (tag : Serialization.Identifier) (instanceId : BitVec 64) : IntervalKey :=
  toLex ((Eagine.BasicIdentifier.ofChars tag.name : Eagine.Identifier).value.toNat,
    instanceId.toNat)

def IntervalInfo.key (info : IntervalInfo) : IntervalKey :=
  intervalKey info.tag info.instanceId

/-- `aggregate_interval_info` -/
structure AggregateIntervalInfo where
  tag : Serialization.Identifier
  instanceId : BitVec 64
  shouldConsume : Timeout
  durationMin : Int := 0
  durationMax : Int := 0
  durationSum : Int := 0
  count : Nat := 0

namespace AggregateIntervalInfo

/-- There is no result where the sum overflows. -/
def update (a : AggregateIntervalInfo) (i : IntervalInfo) : Option AggregateIntervalInfo :=
  (addNanoseconds a.durationSum i.duration.toInt).map fun sum =>
    { a with
      durationSum := sum
      durationMin :=
        if a.count = 0 then i.duration.toInt else minimum a.durationMin i.duration.toInt
      durationMax := maximum a.durationMax i.duration.toInt
      count := a.count + 1 }

def reset (a : AggregateIntervalInfo) (now : Int) : AggregateIntervalInfo :=
  { a with shouldConsume := a.shouldConsume.reset now, durationSum := 0, count := 0 }

def key (a : AggregateIntervalInfo) : IntervalKey :=
  intervalKey a.tag a.instanceId

def hitCount (a : AggregateIntervalInfo) : Nat :=
  a.count

def minDuration (a : AggregateIntervalInfo) : Int :=
  if a.count > 0 then a.durationMin else 0

def maxDuration (a : AggregateIntervalInfo) : Int :=
  if a.count > 0 then a.durationMax else 0

def avgDuration (a : AggregateIntervalInfo) : Int :=
  if a.count > 0 then a.durationSum.tdiv a.count else 0

end AggregateIntervalInfo

/-- An info, and what the clock tells when an aggregate is constructed, asked if it should be
consumed and reset. -/
structure IntervalEvent where
  info : IntervalInfo
  constructed : Int
  asked : Int
  reset : Int

/-- `aggregate_intervals` -/
structure AggregateIntervals where
  intervalPeriod : Int
  intervals : FlatMap IntervalKey AggregateIntervalInfo := FlatMap.init

namespace AggregateIntervals

/-- A new aggregate for what there is none yet. -/
def fresh (s : AggregateIntervals) (e : IntervalEvent) : AggregateIntervalInfo where
  tag := e.info.tag
  instanceId := e.info.instanceId
  shouldConsume := .start s.intervalPeriod e.constructed

/-- The position of the aggregate for an info, which is emplaced if there is none. -/
def locate (s : AggregateIntervals) (e : IntervalEvent) :
    FlatMap IntervalKey AggregateIntervalInfo × Nat :=
  let pos := s.intervals.find e.info.key
  if pos = s.intervals.size then
    let emplaced := s.intervals.emplace e.info.key (s.fresh e)
    (emplaced.1, emplaced.2.1)
  else (s.intervals, pos)

/-- `update`, with the position of the aggregate that should be consumed. -/
def update (s : AggregateIntervals) (e : IntervalEvent) : Option (AggregateIntervals × Option Nat) :=
  let (intervals, pos) := s.locate e
  intervals.storage[pos]?.bind fun (_, aggregate) =>
    (aggregate.update e.info).map fun aggregate =>
      ({ s with intervals := intervals.assignAt pos aggregate },
        if aggregate.shouldConsume.isExpired e.asked then some pos else none)

/-- `consume` of a sink: the aggregate that is consumed is reset. -/
def consume (s : AggregateIntervals) (e : IntervalEvent) :
    Option (Option AggregateIntervalInfo × AggregateIntervals) :=
  (s.update e).bind fun (s, due) =>
    match due with
    | some pos =>
        s.intervals.storage[pos]?.map fun (_, aggregate) =>
          (some aggregate,
            { s with intervals := s.intervals.assignAt pos (aggregate.reset e.reset) })
    | none => some (none, s)

/-- Whether the aggregate for an info should be consumed. -/
def isDue (s : AggregateIntervals) (e : IntervalEvent) : Bool :=
  match s.intervals.storage[s.intervals.find e.info.key]? with
  | some (_, aggregate) => aggregate.shouldConsume.isExpired e.asked
  | none => (s.fresh e).shouldConsume.isExpired e.asked

end AggregateIntervals

/-- The durations that were received for a key before the last reset and since then. -/
structure ReceivedDurations where
  before : List Int := []
  since : List Int := []

def ReceivedDurations.note (r : ReceivedDurations) (duration : Int) (isReset : Bool) :
    ReceivedDurations :=
  if isReset then ⟨r.before ++ (r.since ++ [duration]), []⟩
  else ⟨r.before, r.since ++ [duration]⟩

/-- The aggregates together with what was received for each key. -/
structure MonitoredIntervals where
  aggregates : AggregateIntervals
  received : IntervalKey → ReceivedDurations

/-- An aggregate tells the least and the greatest duration, their number and a value between. -/
structure Summarizes (a : AggregateIntervalInfo) (key : IntervalKey) (durations : List Int) :
    Prop where
  key : a.key = key
  hitCount : a.hitCount = durations.length
  minDuration : durations.min? = some a.minDuration
  maxDuration : durations.max? = some a.maxDuration
  minLeAvg : a.minDuration ≤ a.avgDuration
  avgLeMax : a.avgDuration ≤ a.maxDuration

namespace MonitoredIntervals

def start (period : Int) : MonitoredIntervals :=
  ⟨{ intervalPeriod := period }, fun _ => {}⟩

/-- What is received for the key of an event up to it, since the last reset. -/
def durations (m : MonitoredIntervals) (e : IntervalEvent) : List Int :=
  (m.received e.info.key).since ++ [e.info.duration.toInt]

def after (m : MonitoredIntervals) (e : IntervalEvent) (isReset : Bool)
    (next : AggregateIntervals) : MonitoredIntervals :=
  ⟨next, Function.update m.received e.info.key
    ((m.received e.info.key).note e.info.duration.toInt isReset)⟩

def step (m : MonitoredIntervals) (e : IntervalEvent) : Option MonitoredIntervals :=
  (m.aggregates.consume e).map fun (returned, next) => m.after e returned.isSome next

/-- Every aggregate that is returned summarizes the durations since the last reset. -/
def AggregatesExactly : MonitoredIntervals → List IntervalEvent → Prop
  | _, [] => True
  | m, e :: events =>
      ∃ returned next, m.aggregates.consume e = some (returned, next) ∧
        (∀ a ∈ returned, Summarizes a e.info.key (m.durations e)) ∧
        AggregatesExactly (m.after e returned.isSome next) events

/-- The sum of the durations does not overflow, and if the aggregate is due, no duration from before
the last reset is greater than all those since. -/
def Suits (m : MonitoredIntervals) (e : IntervalEvent) : Prop :=
  (m.durations e).sum < 2 ^ 63 ∧
    (m.aggregates.isDue e = true →
      ∀ old ∈ (m.received e.info.key).before, ∃ duration ∈ m.durations e, old ≤ duration)

end MonitoredIntervals

theorem minimum_eq (a b : Int) : minimum a b = min a b := by
  rw [minimum]
  omega

theorem maximum_eq (a b : Int) : maximum a b = max a b := by
  rw [maximum]
  omega

/-- The accumulators of an aggregate for what was received. The maximum includes what was received
before. -/
structure AggregateIntervalInfo.Tracks (a : AggregateIntervalInfo) (r : ReceivedDurations) :
    Prop where
  count : a.count = r.since.length
  sum : a.durationSum = r.since.sum
  min : r.since ≠ [] → a.durationMin ∈ r.since ∧ ∀ duration ∈ r.since, a.durationMin ≤ duration
  max : a.durationMax ∈ 0 :: (r.before ++ r.since) ∧
    ∀ duration ∈ r.before ++ r.since, duration ≤ a.durationMax
  nonneg : ∀ duration ∈ r.before ++ r.since, 0 ≤ duration

section Concat

variable {bound : Int} {durations : List Int}

theorem min_mem_concat (mem : bound ∈ durations) (last : Int) :
    min bound last ∈ durations ++ [last] := by
  rcases min_choice bound last with old | new
  · rw [old]
    exact mem_append_left _ mem
  · rw [new]
    exact mem_append_right _ (mem_singleton_self _)

theorem min_le_concat (least : ∀ duration ∈ durations, bound ≤ duration) (last : Int) :
    ∀ duration ∈ durations ++ [last], min bound last ≤ duration := by
  refine forall_mem_append.mpr ⟨fun duration old => ?_, by simp⟩
  exact (min_le_left _ _).trans (least duration old)

theorem max_mem_concat (mem : bound ∈ durations) (last : Int) :
    max bound last ∈ durations ++ [last] := by
  rcases max_choice bound last with old | new
  · rw [old]
    exact mem_append_left _ mem
  · rw [new]
    exact mem_append_right _ (mem_singleton_self _)

theorem le_max_concat (greatest : ∀ duration ∈ durations, duration ≤ bound) (last : Int) :
    ∀ duration ∈ durations ++ [last], duration ≤ max bound last := by
  refine forall_mem_append.mpr ⟨fun duration old => ?_, by simp⟩
  exact (greatest duration old).trans (le_max_left _ _)

end Concat

namespace AggregateIntervalInfo.Tracks

variable {a updated : AggregateIntervalInfo} {r : ReceivedDurations} {info : IntervalInfo}

theorem fresh (s : AggregateIntervals) (e : IntervalEvent) : (s.fresh e).Tracks {} where
  count := rfl
  sum := rfl
  min nonempty := absurd rfl nonempty
  max := ⟨mem_cons_self, by simp⟩
  nonneg := by simp

theorem update_eq (tracks : a.Tracks r) (nonneg : 0 ≤ info.duration.toInt) :
    ((r.since ++ [info.duration.toInt]).sum < 2 ^ 63 →
      ∃ updated, a.update info = some updated ∧
        updated.Tracks ⟨r.before, r.since ++ [info.duration.toInt]⟩ ∧
        updated.shouldConsume = a.shouldConsume ∧ updated.key = a.key) ∧
      (¬(r.since ++ [info.duration.toInt]).sum < 2 ^ 63 → a.update info = none) := by
  have total : a.durationSum + info.duration.toInt = (r.since ++ [info.duration.toInt]).sum := by
    rw [sum_append, sum_singleton, tracks.sum]
  have allNonneg : ∀ duration ∈ r.since ++ [info.duration.toInt], 0 ≤ duration := by
    intro duration mem
    rcases mem_append.mp mem with old | new
    · exact tracks.nonneg duration (mem_append_right _ old)
    · rwa [mem_singleton.mp new]
  have sumNonneg := sum_nonneg allNonneg
  constructor
  · intro small
    have added : addNanoseconds a.durationSum info.duration.toInt =
        some (r.since ++ [info.duration.toInt]).sum := by
      rw [addNanoseconds, total, if_pos ⟨by omega, small⟩]
    rw [AggregateIntervalInfo.update, added]
    refine ⟨_, rfl, ⟨?_, rfl, fun _ => ?_, ?_, ?_⟩, rfl, rfl⟩
    · rw [length_append, length_singleton, tracks.count]
    · dsimp only
      split_ifs with first
      · rw [tracks.count, length_eq_zero_iff] at first
        simp [first]
      · rw [tracks.count, length_eq_zero_iff] at first
        rcases tracks.min first with ⟨mem, least⟩
        rw [minimum_eq]
        exact ⟨min_mem_concat mem _, min_le_concat least _⟩
    · dsimp only
      rw [maximum_eq, ← append_assoc]
      exact ⟨max_mem_concat tracks.max.1 _, le_max_concat tracks.max.2 _⟩
    · dsimp only
      rw [← append_assoc]
      exact forall_mem_append.mpr ⟨tracks.nonneg, by simpa using nonneg⟩
  · intro large
    have added : addNanoseconds a.durationSum info.duration.toInt = none := by
      rw [addNanoseconds, total, if_neg fun both => large both.2]
    rw [AggregateIntervalInfo.update, added]
    rfl

theorem reset (tracks : a.Tracks r) (now : Int) :
    (a.reset now).Tracks ⟨r.before ++ r.since, []⟩ where
  count := rfl
  sum := rfl
  min nonempty := absurd rfl nonempty
  max := by rw [append_nil]; exact tracks.max
  nonneg := by rw [append_nil]; exact tracks.nonneg

/-- The average is between the least and the greatest of what is summed up. -/
theorem avg_between (tracks : a.Tracks r) (nonempty : r.since ≠ []) :
    a.durationMin ≤ a.avgDuration ∧ a.avgDuration ≤ a.durationMax := by
  have positive := length_pos_iff.mpr nonempty
  have sumNonneg : 0 ≤ r.since.sum := sum_nonneg fun duration mem =>
    tracks.nonneg duration (mem_append_right _ mem)
  have least := card_nsmul_le_sum r.since a.durationMin (tracks.min nonempty).2
  have greatest := sum_le_card_nsmul r.since a.durationMax fun duration mem =>
    tracks.max.2 duration (mem_append_right _ mem)
  rw [nsmul_eq_mul] at least greatest
  rw [AggregateIntervalInfo.avgDuration, tracks.count, if_pos positive, tracks.sum,
    Int.tdiv_eq_ediv_of_nonneg sumNonneg]
  have cast : (0 : Int) < r.since.length := by omega
  constructor
  · exact (Int.le_ediv_iff_mul_le cast).mpr (by rwa [Int.mul_comm])
  · exact Int.ediv_le_of_le_mul cast (by rwa [Int.mul_comm])

/-- All but the maximum are those since the last reset. -/
theorem summarizes_iff (tracks : a.Tracks r) (nonempty : r.since ≠ []) {key : IntervalKey}
    (same : a.key = key) :
    Summarizes a key r.since ↔ ∀ old ∈ r.before, ∃ duration ∈ r.since, old ≤ duration := by
  have positive : a.count > 0 := by
    rw [tracks.count]
    exact length_pos_iff.mpr nonempty
  have avg := tracks.avg_between nonempty
  have max_eq : a.maxDuration = a.durationMax := if_pos positive
  have min_eq : a.minDuration = a.durationMin := if_pos positive
  constructor
  · intro summarizes old mem
    have greatest := max?_eq_some_iff.mp summarizes.maxDuration
    rw [max_eq] at greatest
    exact ⟨_, greatest.1, tracks.max.2 old (mem_append_left _ mem)⟩
  · intro covered
    have greatest : a.durationMax ∈ r.since := by
      have among : ∀ duration ∈ r.since, a.durationMax ≤ duration → a.durationMax ∈ r.since := by
        intro duration mem below
        have above := tracks.max.2 duration (mem_append_right _ mem)
        rwa [← le_antisymm above below]
      rcases mem_cons.mp tracks.max.1 with zero | received
      · rcases exists_mem_of_ne_nil r.since nonempty with ⟨duration, mem⟩
        have nonneg := tracks.nonneg duration (mem_append_right _ mem)
        exact among duration mem (by omega)
      · rcases mem_append.mp received with old | since
        · rcases covered a.durationMax old with ⟨duration, mem, below⟩
          exact among duration mem below
        · exact since
    refine ⟨same, tracks.count, ?_, ?_, ?_, ?_⟩
    · rw [min_eq, min?_eq_some_iff]
      exact tracks.min nonempty
    · rw [max_eq, max?_eq_some_iff]
      exact ⟨greatest, fun duration mem => tracks.max.2 duration (mem_append_right _ mem)⟩
    · rw [min_eq]
      exact avg.1
    · rw [max_eq]
      exact avg.2

end AggregateIntervalInfo.Tracks

namespace AggregateIntervals

variable {s : AggregateIntervals} {map : Finmap fun _ : IntervalKey => AggregateIntervalInfo}

/-- The aggregate for an info, or a new one. -/
def current (s : AggregateIntervals) (map : Finmap fun _ : IntervalKey => AggregateIntervalInfo)
    (e : IntervalEvent) : AggregateIntervalInfo :=
  (map.lookup e.info.key).getD (s.fresh e)

theorem locate_eq (represents : s.intervals.Represents map) (e : IntervalEvent) :
    (s.locate e).1.storage[(s.locate e).2]? = some (e.info.key, s.current map e) ∧
      (s.locate e).1.Represents (FiniteMap.insertNew map e.info.key (s.fresh e)) := by
  rcases represents.find_eq e.info.key with ⟨place, element⟩
  rcases represents.sorted.exists_place e.info.key with ⟨front, isPlace⟩
  rcases represents.emplace_eq isPlace (s.fresh e) with ⟨representsNew, position, emplaced⟩
  rw [locate, current]
  by_cases member : e.info.key ∈ map
  · rcases Finmap.mem_iff.mp member with ⟨aggregate, found⟩
    rw [found, Option.map_some] at element
    have inside : s.intervals.find e.info.key ≠ s.intervals.size :=
      (List.getElem?_eq_some_iff.mp element).1.ne
    rw [if_neg inside, found, FiniteMap.insertNew, if_pos member]
    exact ⟨element, represents⟩
  · rw [if_neg member] at place
    rw [if_pos place]
    dsimp only
    rw [position]
    exact ⟨emplaced, representsNew⟩

theorem isDue_eq (represents : s.intervals.Represents map) (e : IntervalEvent) :
    s.isDue e = (s.current map e).shouldConsume.isExpired e.asked := by
  rcases represents.find_eq e.info.key with ⟨-, element⟩
  rw [isDue, current, element]
  cases map.lookup e.info.key <;> rfl

theorem insert_insertNew (map : Finmap fun _ : IntervalKey => AggregateIntervalInfo)
    (key : IntervalKey) (old new : AggregateIntervalInfo) :
    (FiniteMap.insertNew map key old).insert key new = map.insert key new := by
  rw [FiniteMap.insertNew]
  split_ifs
  · rfl
  · exact Finmap.insert_insert map

theorem consume_eq_none (represents : s.intervals.Represents map) {e : IntervalEvent}
    (overflows : (s.current map e).update e.info = none) : s.consume e = none := by
  rw [consume, update]
  dsimp only
  rw [(locate_eq represents e).1, Option.bind_some, overflows]
  rfl

/-- The aggregate for an info is updated, and reset if it is returned. -/
theorem consume_eq (represents : s.intervals.Represents map) {e : IntervalEvent}
    {updated : AggregateIntervalInfo} (ran : (s.current map e).update e.info = some updated)
    (kept : updated.shouldConsume = (s.current map e).shouldConsume) :
    ∃ next, s.consume e = some (if s.isDue e then some updated else none, next) ∧
      next.intervals.Represents
        (map.insert e.info.key (if s.isDue e then updated.reset e.reset else updated)) := by
  rcases locate_eq represents e with ⟨element, representsNew⟩
  have assigned := representsNew.assignAt_eq element updated
  rw [insert_insertNew] at assigned
  rw [consume, update, isDue_eq represents e]
  dsimp only
  rw [element, Option.bind_some, ran, Option.map_some, Option.bind_some, kept]
  split_ifs with due
  · have present := FlatMap.getElem?_assignAt element updated
    have again := assigned.assignAt_eq present (updated.reset e.reset)
    rw [Finmap.insert_insert] at again
    dsimp only
    rw [present]
    exact ⟨_, rfl, again⟩
  · exact ⟨_, rfl, assigned⟩

end AggregateIntervals

namespace AggregateIntervals

variable {s : AggregateIntervals} {map : Finmap fun _ : IntervalKey => AggregateIntervalInfo}
  {e : IntervalEvent} {a updated : AggregateIntervalInfo}

/-- The aggregate for an info is there already. -/
theorem consume_present (represents : s.intervals.Represents (map.insert e.info.key a))
    (ran : a.update e.info = some updated) (kept : updated.shouldConsume = a.shouldConsume) :
    ∃ next,
      s.consume e = some (if a.shouldConsume.isExpired e.asked then some updated else none, next) ∧
        next.intervals.Represents (map.insert e.info.key
          (if a.shouldConsume.isExpired e.asked then updated.reset e.reset else updated)) := by
  have current : s.current (map.insert e.info.key a) e = a := by
    rw [AggregateIntervals.current, Finmap.lookup_insert, Option.getD_some]
  have due := isDue_eq represents e
  rw [← current] at ran kept
  rcases consume_eq represents ran kept with ⟨next, consumed, representsNext⟩
  rw [due, current] at consumed representsNext
  rw [Finmap.insert_insert] at representsNext
  exact ⟨next, consumed, representsNext⟩

end AggregateIntervals

namespace MonitoredIntervals

variable {m : MonitoredIntervals} {e : IntervalEvent}

/-- Every aggregate tracks what was received for its key. -/
def Consistent (m : MonitoredIntervals) : Prop :=
  ∃ map, m.aggregates.intervals.Represents map ∧ ∀ key,
    (map.lookup key = none → m.received key = {}) ∧
      ∀ a, map.lookup key = some a → a.Tracks (m.received key) ∧ a.key = key

@[simp]
theorem received_after (isReset : Bool) (next : AggregateIntervals) :
    (m.after e isReset next).received e.info.key =
      (m.received e.info.key).note e.info.duration.toInt isReset :=
  Function.update_self ..

theorem received_after_of_ne {key : IntervalKey} (other : key ≠ e.info.key) (isReset : Bool)
    (next : AggregateIntervals) : (m.after e isReset next).received key = m.received key :=
  Function.update_of_ne other ..

theorem consistent_start (period : Int) : (start period).Consistent :=
  ⟨∅, FlatMap.represents_init, fun _ => ⟨fun _ => rfl, fun _ found => by simp at found⟩⟩

/-- An event either overflows the sum, or the aggregate for it is updated and returned if it is due. -/
theorem Consistent.consume (consistent : m.Consistent) (nonneg : 0 ≤ e.info.duration.toInt) :
    ((m.durations e).sum < 2 ^ 63 →
      ∃ updated next,
        m.aggregates.consume e = some (if m.aggregates.isDue e then some updated else none, next) ∧
          (Summarizes updated e.info.key (m.durations e) ↔
            ∀ old ∈ (m.received e.info.key).before, ∃ duration ∈ m.durations e, old ≤ duration) ∧
          (m.after e (m.aggregates.isDue e) next).Consistent) ∧
      (¬(m.durations e).sum < 2 ^ 63 → m.aggregates.consume e = none) := by
  rcases consistent with ⟨map, represents, each⟩
  have tracks : (m.aggregates.current map e).Tracks (m.received e.info.key) ∧
      (m.aggregates.current map e).key = e.info.key := by
    rw [AggregateIntervals.current]
    cases found : map.lookup e.info.key with
    | none =>
        rw [(each e.info.key).1 found]
        exact ⟨AggregateIntervalInfo.Tracks.fresh m.aggregates e, rfl⟩
    | some a => exact (each e.info.key).2 a found
  have ran := tracks.1.update_eq nonneg
  constructor
  · intro small
    rcases ran.1 small with ⟨updated, updates, tracksUpdated, kept, key⟩
    rcases AggregateIntervals.consume_eq represents updates kept with
      ⟨next, consumed, representsNext⟩
    have nonempty : m.durations e ≠ [] := append_ne_nil_of_right_ne_nil _ (cons_ne_nil _ _)
    refine ⟨updated, next, consumed, tracksUpdated.summarizes_iff nonempty (key.trans tracks.2),
      _, representsNext, fun other => ?_⟩
    by_cases same : other = e.info.key
    · subst same
      rw [Finmap.lookup_insert, received_after, ReceivedDurations.note]
      refine ⟨fun none => (Option.some_ne_none _ none).elim, fun a found => ?_⟩
      cases Option.some.inj found
      split_ifs
      · exact ⟨tracksUpdated.reset e.reset, key.trans tracks.2⟩
      · exact ⟨tracksUpdated, key.trans tracks.2⟩
    · rw [Finmap.lookup_insert_of_ne map same, received_after_of_ne same]
      exact each other
  · intro large
    exact AggregateIntervals.consume_eq_none represents (ran.2 large)

/-- The aggregates that are returned are right exactly as long as the events suit. -/
theorem Consistent.aggregates_iff (consistent : m.Consistent) {events : List IntervalEvent}
    (nonneg : ∀ e ∈ events, 0 ≤ e.info.duration.toInt) :
    m.AggregatesExactly events ↔ Throughout step Suits m events := by
  induction events generalizing m with
  | nil => exact Iff.rfl
  | cons e events ih =>
      rcases forall_mem_cons.mp nonneg with ⟨nonnegHead, nonnegTail⟩
      have event := consistent.consume nonnegHead
      by_cases small : (m.durations e).sum < 2 ^ 63
      · rcases event.1 small with ⟨updated, next, consumed, summarizes_iff, consistentNext⟩
        have isSome : (if m.aggregates.isDue e then some updated else none).isSome =
            m.aggregates.isDue e := by
          split_ifs with due
          · exact due.symm
          · exact (Bool.eq_false_iff.mpr due).symm
        have stepped : m.step e = some (m.after e (m.aggregates.isDue e) next) := by
          rw [step, consumed, Option.map_some]
          dsimp only
          rw [isSome]
        have here : (∀ a ∈ if m.aggregates.isDue e then some updated else none,
            Summarizes a e.info.key (m.durations e)) ↔ m.Suits e := by
          rw [Suits, and_iff_right small, ← summarizes_iff]
          split_ifs with due
          · simp [due]
          · simp [due]
        rw [throughout_cons_iff stepped, ← ih consistentNext nonnegTail, ← here,
          AggregatesExactly, consumed]
        constructor
        · rintro ⟨returned, other, same, summarizes, rest⟩
          cases same
          rw [isSome] at rest
          exact ⟨summarizes, rest⟩
        · rintro ⟨summarizes, rest⟩
          exact ⟨_, next, rfl, summarizes, by rwa [isSome]⟩
      · refine iff_of_false ?_ fun throughout => small throughout.1.1
        rintro ⟨returned, next, consumed, -⟩
        rw [event.2 small] at consumed
        cases consumed

theorem aggregatesExactly_iff (period : Int) {events : List IntervalEvent}
    (nonneg : ∀ e ∈ events, 0 ≤ e.info.duration.toInt) :
    (start period).AggregatesExactly events ↔ Throughout step Suits (start period) events :=
  (consistent_start period).aggregates_iff nonneg

/-- Seconds in nanoseconds. -/
def seconds (s : Nat) : Int :=
  s * 1000000000

/-- An interval of some nanoseconds. It is the same second for all that the clock is asked for. -/
def eventAt (duration second : Nat) : IntervalEvent :=
  ⟨{ duration := duration }, seconds second, seconds second, seconds second⟩

theorem aggregatesExactly_two :
    (start (seconds 10)).AggregatesExactly [eventAt 3 0, eventAt 5 20] ↔
      Throughout step Suits (start (seconds 10)) [eventAt 3 0, eventAt 5 20] :=
  aggregatesExactly_iff (seconds 10) (by decide)

/-- The aggregate is returned with 9 as the maximum and reset. It is returned again with the same
maximum, but only 2 was received since then. -/
theorem not_forall_aggregatesExactly :
    ¬∀ (period : Int) (events : List IntervalEvent),
      (∀ e ∈ events, 0 ≤ e.info.duration.toInt) → (start period).AggregatesExactly events := by
  intro aggregates
  rcases aggregates (seconds 10) [eventAt 3 0, eventAt 9 20, eventAt 2 40] (by decide) with
    ⟨_, s₁, first, -, _, s₂, second, -, _, s₃, third, summarizes, -⟩
  let aggregate (min max sum : Int) (count : Nat) : AggregateIntervalInfo :=
    ⟨(eventAt 3 0).info.tag, 0, ⟨seconds 10, seconds 10⟩, min, max, sum, count⟩
  have updates₁ : ((start (seconds 10)).aggregates.current ∅ (eventAt 3 0)).update
      (eventAt 3 0).info = some (aggregate 3 3 3 1) := rfl
  rcases AggregateIntervals.consume_eq FlatMap.represents_init updates₁ rfl with
    ⟨_, consumed₁, represents₁⟩
  rw [AggregateIntervals.isDue_eq FlatMap.represents_init] at consumed₁ represents₁
  cases first.symm.trans consumed₁
  have updates₂ : (aggregate 3 3 3 1).update (eventAt 9 20).info = some (aggregate 3 9 12 2) := rfl
  rcases AggregateIntervals.consume_present (e := eventAt 9 20) represents₁ updates₂ rfl with
    ⟨_, consumed₂, represents₂⟩
  cases second.symm.trans consumed₂
  have updates₃ : ((aggregate 3 9 12 2).reset (seconds 20)).update (eventAt 2 40).info =
      some ⟨(eventAt 3 0).info.tag, 0, ⟨seconds 10, seconds 30⟩, 2, 9, 2, 1⟩ := rfl
  rcases AggregateIntervals.consume_present (e := eventAt 2 40) represents₂ updates₃ rfl with
    ⟨_, consumed₃, -⟩
  cases third.symm.trans consumed₃
  have greatest := (summarizes _ rfl).maxDuration
  rw [durations, show MonitoredIntervals.received _ (eventAt 2 40).info.key = _ from
    received_after (e := eventAt 9 20) _ s₂] at greatest
  cases greatest

end MonitoredIntervals

end Eagine.LogServer
