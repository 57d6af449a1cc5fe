import Mathlib.Algebra.BigOperators.Group.List.Lemmas
import Mathlib.Algebra.Ring.Int.Defs
import Mathlib.Data.List.DropRight
import Mathlib.Data.Nat.Cast.Basic
import Eagine.Theory.Ring

/-!
# Sliding averages

The slots of a sliding average are a ring, with a sum and a count in each. The count of the current
slot goes up before it is known if the value fits, so that a slot that is left counts one value more
than it has in its sum.
-/

namespace Eagine.Utility

open Theory

universe u

/-- The quotient of a sum and a count. It is exact for a sum of equal values. -/
structure Quotient (T : Type u) [AddMonoid T] where
  divide : T → Nat → T
  divide_nsmul : ∀ (value : T) (count : Nat), count ≠ 0 → divide (count • value) count = value

/-- `basic_sliding_average` -/
structure SlidingAverage (T : Type u) (numSlots numSlotValues : Nat) where
  values : Vector T numSlots
  counts : Vector Nat numSlots
  current : Nat

namespace SlidingAverage

variable {T : Type u} [AddCancelCommMonoid T] {numSlots numSlotValues : Nat}

def empty : SlidingAverage T numSlots numSlotValues where
  values := Vector.replicate numSlots 0
  counts := Vector.replicate numSlots 0
  current := 0

/-- There is no result if there is no current slot. -/
def add (s : SlidingAverage T numSlots numSlotValues) (value : T) :
    Option (SlidingAverage T numSlots numSlotValues) :=
  match s.counts[s.current]?, s.values[s.current]? with
  | some count, some sum =>
      let counts := s.counts.setIfInBounds s.current (count + 1)
      if count + 1 < numSlotValues then
        some
          { values := s.values.setIfInBounds s.current (sum + value)
            counts := counts
            current := s.current }
      else
        let current := (s.current + 1) % numSlots
        some
          { values := s.values.setIfInBounds current value
            counts := counts.setIfInBounds current 1
            current := current }
  | _, _ => none

def getSum (s : SlidingAverage T numSlots numSlotValues) : T :=
  s.values.toList.foldl (· + ·) 0

def getCount (s : SlidingAverage T numSlots numSlotValues) : Nat :=
  s.counts.toList.foldl (· + ·) 0

def get (quotient : Quotient T) (s : SlidingAverage T numSlots numSlotValues) : T :=
  if s.getCount ≠ 0 then quotient.divide s.getSum s.getCount else 0

/-- The values are added one after the other. -/
def addAll (s : SlidingAverage T numSlots numSlotValues) (values : List T) :
    Option (SlidingAverage T numSlots numSlotValues) :=
  values.foldlM add s

end SlidingAverage

open List

/-- The values that were added to each of the slots in turn, those of the latest slot first -/
structure SlotHistory (T : Type u) where
  latest : List T := []
  before : List (List T) := []

namespace SlotHistory

variable {T : Type u}

def add (numSlotValues : Nat) (history : SlotHistory T) (value : T) : SlotHistory T :=
  if history.latest.length + 1 < numSlotValues then
    { history with latest := history.latest ++ [value] }
  else { latest := [value], before := history.latest :: history.before }

def ofValues (numSlotValues : Nat) (values : List T) : SlotHistory T :=
  values.foldl (add numSlotValues) {}

/-- The sums of the slots -/
def sums [AddMonoid T] (history : SlotHistory T) : List T :=
  history.latest.sum :: history.before.map sum

theorem sums_mk [AddMonoid T] (latest : List T) (before : List (List T)) :
    sums { latest, before } = latest.sum :: before.map sum :=
  rfl

/-- The counts of the slots. Those that were left count one more. -/
def counts (history : SlotHistory T) : List Nat :=
  history.latest.length :: history.before.map fun slot => slot.length + 1

/-- The values in the latest slot and in some before it -/
def held (history : SlotHistory T) (others : Nat) : List T :=
  (history.before.take others).reverse.flatten ++ history.latest

/-- The values before those -/
def dropped (history : SlotHistory T) (others : Nat) : List T :=
  (history.before.drop others).reverse.flatten

theorem ofValues_concat (numSlotValues : Nat) (values : List T) (value : T) :
    ofValues numSlotValues (values ++ [value]) =
      (ofValues numSlotValues values).add numSlotValues value := by
  rw [ofValues, foldl_append]
  rfl

theorem dropped_append_held (history : SlotHistory T) (others : Nat) :
    history.dropped others ++ history.held others =
      history.before.reverse.flatten ++ history.latest := by
  rw [dropped, held, ← append_assoc, ← flatten_append, ← reverse_append,
    take_append_drop]

theorem flatten_add (numSlotValues : Nat) (history : SlotHistory T) (value : T) :
    (history.add numSlotValues value).before.reverse.flatten ++
      (history.add numSlotValues value).latest =
      history.before.reverse.flatten ++ history.latest ++ [value] := by
  rw [add]
  split
  · rw [append_assoc]
  · rw [reverse_cons, flatten_append, flatten_singleton]

theorem flatten_ofValues (numSlotValues : Nat) (values : List T) :
    (ofValues numSlotValues values).before.reverse.flatten ++ (ofValues numSlotValues values).latest =
      values := by
  induction values using reverseRecOn with
  | nil => rfl
  | append_singleton values value ih => rw [ofValues_concat, flatten_add, ih]

/-- The values are those that were dropped and those that are held. -/
theorem dropped_append_held_ofValues (numSlotValues others : Nat) (values : List T) :
    (ofValues numSlotValues values).dropped others ++ (ofValues numSlotValues values).held others =
      values := by
  rw [dropped_append_held, flatten_ofValues]

theorem latest_ofValues_ne_nil (numSlotValues : Nat) {values : List T} (nonempty : values ≠ []) :
    (ofValues numSlotValues values).latest ≠ [] := by
  rcases eq_nil_or_concat' values with rfl | ⟨front, value, rfl⟩
  · exact absurd rfl nonempty
  · rw [ofValues_concat, add]
    split
    · exact append_ne_nil_of_right_ne_nil _ (cons_ne_nil _ _)
    · exact cons_ne_nil _ _

/-! ### Lengths of the slots -/

/-- A slot has room for all but one of the values, and at least for one. -/
def slotSize (numSlotValues : Nat) : Nat :=
  max 1 (numSlotValues - 1)

/-- Each slot takes a single value, but the first takes none. -/
theorem ofValues_concat_of_le_one {numSlotValues : Nat} (small : numSlotValues ≤ 1) (values : List T)
    (value : T) :
    ofValues numSlotValues (values ++ [value]) =
      { latest := [value], before := values.reverse.map (fun value => [value]) ++ [[]] } := by
  induction values using reverseRecOn generalizing value with
  | nil => rw [ofValues_concat, add, if_neg (by omega)]; rfl
  | append_singleton values last ih =>
      rw [ofValues_concat, ih last, add, if_neg (by omega), reverse_concat, map_cons,
        cons_append]

/-- The slots that were left are full. -/
theorem full_ofValues {numSlotValues : Nat} (large : 2 ≤ numSlotValues) (values : List T) (value : T) :
    (∀ slot ∈ (ofValues numSlotValues (values ++ [value])).before, slot.length = numSlotValues - 1) ∧
      1 ≤ (ofValues numSlotValues (values ++ [value])).latest.length ∧
      (ofValues numSlotValues (values ++ [value])).latest.length ≤ numSlotValues - 1 := by
  induction values using reverseRecOn generalizing value with
  | nil =>
      rw [ofValues_concat, add, if_pos (by exact large)]
      exact ⟨forall_mem_nil _, Nat.le_refl 1, Nat.le_sub_of_add_le large⟩
  | append_singleton values last ih =>
      rcases ih last with ⟨full, nonempty, fits⟩
      rw [ofValues_concat, add]
      by_cases more : (ofValues numSlotValues (values ++ [last])).latest.length + 1 < numSlotValues
      · rw [if_pos more, length_append, length_singleton]
        exact ⟨full, Nat.le_add_left 1 _, Nat.le_sub_of_add_le more⟩
      · rw [if_neg more, length_singleton, forall_mem_cons]
        exact ⟨⟨by omega, full⟩, Nat.le_refl 1, Nat.le_sub_of_add_le large⟩

theorem length_reverse_flatten (slots : List (List T)) :
    slots.reverse.flatten.length = slots.flatten.length := by
  rw [length_flatten, map_reverse, sum_reverse, length_flatten]

theorem length_flatten_of_full {size : Nat} {slots : List (List T)}
    (full : ∀ slot ∈ slots, slot.length = size) : slots.flatten.length = slots.length * size := by
  rw [length_flatten, map_congr_left full, map_const', sum_replicate_nat]

theorem length_ofValues {numSlotValues : Nat} (large : 2 ≤ numSlotValues) (values : List T)
    (value : T) :
    values.length + 1 =
      (ofValues numSlotValues (values ++ [value])).before.length * (numSlotValues - 1) +
        (ofValues numSlotValues (values ++ [value])).latest.length := by
  have lengths := congrArg List.length (flatten_ofValues numSlotValues (values ++ [value]))
  rw [length_append, length_reverse_flatten,
    length_flatten_of_full (full_ofValues large values value).1, length_append,
    length_singleton] at lengths
  exact lengths.symm

/-- The number of values that were dropped, of as many values -/
def numDropped (numSlots numSlotValues count : Nat) : Nat :=
  ((count - 1) / slotSize numSlotValues - (numSlots - 1)) * slotSize numSlotValues

theorem length_dropped_ofValues (numSlotValues others : Nat) (values : List T) :
    ((ofValues numSlotValues values).dropped others).length =
      numDropped (others + 1) numSlotValues values.length := by
  induction values using reverseRecOn with
  | nil => simp [ofValues, dropped, numDropped]
  | append_singleton values value _ =>
      rw [dropped, length_reverse_flatten, numDropped, length_append, length_singleton,
        Nat.add_sub_cancel, Nat.add_sub_cancel]
      rcases Nat.lt_or_ge numSlotValues 2 with small | large
      · have single : slotSize numSlotValues = 1 := by
          rw [slotSize]
          omega
        have singles : (((values.reverse.map fun value => [value]).drop others).flatten).length =
            values.length - others := by
          rw [← map_drop, ← flatMap_def, length_flatMap]
          simp
        rw [single, Nat.div_one, Nat.mul_one, ofValues_concat_of_le_one (Nat.le_of_lt_succ small),
          drop_append, flatten_append, length_append, singles]
        cases others - (values.reverse.map fun value => [value]).length with
        | zero => rfl
        | succ more => rw [drop_succ_cons, drop_nil]; rfl
      · have size : slotSize numSlotValues = numSlotValues - 1 := by
          rw [slotSize]
          omega
        rcases full_ofValues large values value with ⟨full, nonempty, fits⟩
        have lengths := length_ofValues large values value
        have slots : values.length / (numSlotValues - 1) =
            (ofValues numSlotValues (values ++ [value])).before.length := by
          apply Nat.div_eq_of_lt_le
          · omega
          · rw [Nat.succ_mul]
            omega
        rw [size, slots,
          length_flatten_of_full fun slot inside => full slot (mem_of_mem_drop inside),
          length_drop]

/-- The values that were dropped are the first ones. -/
theorem take_numDropped (numSlotValues others : Nat) (values : List T) :
    values.take (numDropped (others + 1) numSlotValues values.length) =
      (ofValues numSlotValues values).dropped others := by
  rw [← length_dropped_ofValues]
  exact (prefix_iff_eq_take.mp ⟨_, dropped_append_held_ofValues numSlotValues others values⟩).symm

theorem before_ofValues_eq_nil_iff (numSlotValues : Nat) (values : List T) (value : T) :
    (ofValues numSlotValues (values ++ [value])).before = [] ↔ values.length + 1 < numSlotValues := by
  rcases Nat.lt_or_ge numSlotValues 2 with small | large
  · rw [ofValues_concat_of_le_one (Nat.le_of_lt_succ small)]
    refine iff_of_false ?_ (by omega)
    exact append_ne_nil_of_right_ne_nil _ (cons_ne_nil _ _)
  · rcases full_ofValues large values value with ⟨full, nonempty, fits⟩
    have lengths := length_ofValues large values value
    constructor
    · intro nothing
      rw [nothing, length_nil] at lengths
      omega
    · intro less
      by_contra something
      have positive := length_pos_iff.mpr something
      have filled := Nat.mul_le_mul_right (numSlotValues - 1) positive
      omega

end SlotHistory

theorem dropLast_takeD {α : Type u} (n : Nat) (l : List α) (a : α) :
    (l.takeD (n + 1) a).dropLast = l.takeD n a := by
  induction n generalizing l with
  | zero => rfl
  | succ n ih =>
      rw [takeD, takeD, ← takeD, dropLast_cons_of_ne_nil, ih]
      · rfl
      · rw [takeD]
        exact cons_ne_nil _ _

theorem sum_takeD {M : Type u} [AddMonoid M] (n : Nat) (l : List M) :
    (l.takeD n 0).sum = (l.take n).sum := by
  induction n generalizing l with
  | zero => rfl
  | succ n ih =>
      cases l with
      | nil => rw [takeD, sum_cons, ih]; simp
      | cons a l => rw [takeD, sum_cons, tail_cons, ih]; rfl

namespace SlidingAverage

open SlotHistory (dropped numDropped ofValues sums sums_mk)

variable {T : Type u} [AddCancelCommMonoid T] {numSlots numSlotValues : Nat}

/-- The slots hold the latest part of the history. -/
structure Holds (s : SlidingAverage T numSlots numSlotValues) (history : SlotHistory T) : Prop where
  current_lt : s.current < numSlots
  values_eq : Ring.view s.values.toList s.current = history.sums.takeD numSlots 0
  counts_eq : Ring.view s.counts.toList s.current = history.counts.takeD numSlots 0

theorem takeD_zero_singleton {M : Type u} [Zero M] (n : Nat) :
    ([0] : List M).takeD n 0 = List.replicate n 0 := by
  cases n with
  | zero => rfl
  | succ n => rw [takeD, tail_cons, takeD_nil]; rfl

theorem holds_empty (positive : 0 < numSlots) :
    Holds (empty : SlidingAverage T numSlots numSlotValues) {} where
  current_lt := positive
  values_eq := by
    rw [empty, Vector.toList_replicate, Ring.view_replicate]
    exact (takeD_zero_singleton numSlots).symm
  counts_eq := by
    rw [empty, Vector.toList_replicate, Ring.view_replicate]
    exact (takeD_zero_singleton numSlots).symm

variable {history : SlotHistory T} {others : Nat} {s : SlidingAverage T (others + 1) numSlotValues}

theorem exists_add_eq (holds : s.Holds history) (value : T) :
    ∃ s', s.add value = some s' ∧ s'.Holds (history.add numSlotValues value) := by
  have inValues : s.current < s.values.toList.length := holds.current_lt.trans_eq
    Vector.length_toList.symm
  have inCounts : s.current < s.counts.toList.length := holds.current_lt.trans_eq
    Vector.length_toList.symm
  have sum : s.values[s.current]? = some history.latest.sum := by
    rw [← Vector.getElem?_toList, Ring.getElem?_eq_head?_view inValues, holds.values_eq]
    rfl
  have count : s.counts[s.current]? = some history.latest.length := by
    rw [← Vector.getElem?_toList, Ring.getElem?_eq_head?_view inCounts, holds.counts_eq]
    rfl
  have counted : Ring.view (s.counts.setIfInBounds s.current (history.latest.length + 1)).toList
      s.current = takeD (others + 1)
        ((history.latest.length + 1) :: history.before.map fun slot => slot.length + 1) 0 := by
    rw [Vector.toList_setIfInBounds, Ring.view_set inCounts, holds.counts_eq]
    rfl
  rw [add, count, sum]
  dsimp only
  by_cases fits : history.latest.length + 1 < numSlotValues
  · rw [if_pos fits, SlotHistory.add, if_pos fits]
    refine ⟨_, rfl, holds.current_lt, ?_, ?_⟩
    · rw [Vector.toList_setIfInBounds, Ring.view_set inValues, holds.values_eq,
        sums_mk (history.latest ++ [value]), sum_append, sum_singleton]
      rfl
    · rw [counted, SlotHistory.counts, length_append, length_singleton]
  · rw [if_neg fits, SlotHistory.add, if_neg fits]
    have inNext : s.current <
        (s.counts.setIfInBounds s.current (history.latest.length + 1)).toList.length :=
      holds.current_lt.trans_eq Vector.length_toList.symm
    refine ⟨_, rfl, Nat.mod_lt _ (Nat.succ_pos others), ?_, ?_⟩
    · have next := Ring.view_set_next inValues value
      rw [Ring.next, Vector.length_toList, holds.values_eq, dropLast_takeD] at next
      rw [Vector.toList_setIfInBounds, next, sums_mk [value], sum_singleton]
      rfl
    · have next := Ring.view_set_next inNext 1
      rw [Ring.next, Vector.length_toList, counted, dropLast_takeD] at next
      rw [Vector.toList_setIfInBounds, next]
      rfl

theorem exists_addAll_eq (others numSlotValues : Nat) (values : List T) :
    ∃ s : SlidingAverage T (others + 1) numSlotValues,
      empty.addAll values = some s ∧ s.Holds (ofValues numSlotValues values) := by
  induction values using reverseRecOn with
  | nil => exact ⟨empty, rfl, holds_empty (Nat.succ_pos others)⟩
  | append_singleton values value ih =>
      rcases ih with ⟨s, added, holds⟩
      rcases exists_add_eq holds value with ⟨s', last, holds'⟩
      refine ⟨s', ?_, ?_⟩
      · rw [addAll, foldlM_append, ← addAll, added]
        exact congrArg (Option.bind · some) last
      · rwa [SlotHistory.ofValues_concat]

theorem getSum_eq (holds : s.Holds history) : s.getSum = (history.held others).sum := by
  rw [getSum, ← sum_eq_foldl, ← Ring.sum_view _ s.current, holds.values_eq, sum_takeD,
    sums, take_succ_cons, sum_cons, ← map_take, SlotHistory.held,
    sum_append, sum_flatten, map_reverse, sum_reverse, add_comm]

theorem getCount_eq (holds : s.Holds history) :
    s.getCount = (history.held others).length + (history.before.take others).length := by
  rw [getCount, ← sum_eq_foldl, ← Ring.sum_view _ s.current, holds.counts_eq, sum_takeD,
    SlotHistory.counts, take_succ_cons, sum_cons, ← map_take, SlotHistory.held,
    length_append, SlotHistory.length_reverse_flatten, length_flatten, sum_map_add,
    map_const', sum_replicate_nat]
  omega

/-- As many values as are counted were added, the sum is that of the last of them, and the quotient is
exact for equal values. -/
structure Averages (quotient : Quotient T) (s : SlidingAverage T numSlots numSlotValues)
    (values : List T) : Prop where
  getCount_le : s.getCount ≤ values.length
  getSum_eq : s.getSum = (values.rtake s.getCount).sum
  get_eq : ∀ value, values ≠ [] → (∀ added ∈ values, added = value) → s.get quotient = value

/-- The values can be added, and their sliding average is that of the last ones. -/
def AveragesExactly (quotient : Quotient T) (numSlots numSlotValues : Nat) (values : List T) : Prop :=
  ∃ s : SlidingAverage T numSlots numSlotValues,
    empty.addAll values = some s ∧ s.Averages quotient values

theorem sum_rtake_append_iff (front back : List T) (more : Nat) :
    back.length + more ≤ (front ++ back).length ∧
        back.sum = ((front ++ back).rtake (back.length + more)).sum ↔
      more ≤ front.length ∧ (front.rtake more).sum = 0 := by
  have enough : back.length + more ≤ (front ++ back).length ↔ more ≤ front.length := by
    rw [length_append]
    omega
  rw [enough, and_congr_right_iff]
  intro within
  have position : (front ++ back).length - (back.length + more) = front.length - more := by
    rw [length_append]
    omega
  rw [rtake, position, drop_append_of_le_length (Nat.sub_le _ _), sum_append,
    right_eq_add, rtake]

theorem averages_iff (quotient : Quotient T) {values : List T} (nonempty : values ≠ [])
    (holds : s.Holds (ofValues numSlotValues values)) :
    s.Averages quotient values ↔
      ((ofValues numSlotValues values).before.take others).length ≤
          ((ofValues numSlotValues values).dropped others).length ∧
        (((ofValues numSlotValues values).dropped others).rtake
          ((ofValues numSlotValues values).before.take others).length).sum = 0 := by
  have parts := SlotHistory.dropped_append_held_ofValues numSlotValues others values
  have counted := sum_rtake_append_iff ((ofValues numSlotValues values).dropped others)
    ((ofValues numSlotValues values).held others)
    ((ofValues numSlotValues values).before.take others).length
  rw [parts, ← getCount_eq holds, ← getSum_eq holds] at counted
  rw [← counted]
  constructor
  · intro averages
    exact ⟨averages.getCount_le, averages.getSum_eq⟩
  · rintro ⟨within, sum⟩
    refine ⟨within, sum, fun value _ constant => ?_⟩
    have positive : s.getCount ≠ 0 := by
      rw [getCount_eq holds]
      have filled := length_pos_iff.mpr (SlotHistory.latest_ofValues_ne_nil numSlotValues nonempty)
      rw [SlotHistory.held, length_append]
      omega
    have same : values.rtake s.getCount = List.replicate s.getCount value := by
      rw [eq_replicate_iff, rtake, length_drop]
      exact ⟨by omega, fun added inside => constant added (mem_of_mem_drop inside)⟩
    rw [get, if_pos positive, sum, same, sum_replicate, quotient.divide_nsmul value _ positive]

/-- The slots that were left make no difference if there are none, or if there are no other slots. -/
theorem makes_up_iff (history : SlotHistory T) (others : Nat) :
    (history.before.take others).length ≤ (history.dropped others).length ∧
        ((history.dropped others).rtake (history.before.take others).length).sum = 0 ↔
      others = 0 ∨ history.before = [] ∨ others ≤ (history.dropped others).length ∧
        ((history.dropped others).rtake others).sum = 0 := by
  rcases Nat.lt_or_ge others history.before.length with more | few
  · have some : history.before ≠ [] := ne_nil_of_length_pos (Nat.zero_lt_of_lt more)
    rw [length_take_of_le more.le, or_iff_right some]
    constructor
    · exact Or.inr
    · rintro (rfl | makesUp)
      · exact ⟨Nat.zero_le _, by rw [rtake_zero]; rfl⟩
      · exact makesUp
  · have nothing : history.dropped others = [] := by
      rw [dropped, drop_eq_nil_of_le few]
      rfl
    rw [take_of_length_le few, nothing, rtake_nil, rtake_nil, length_nil,
      Nat.le_zero, Nat.le_zero, length_eq_zero_iff]
    constructor
    · rintro ⟨blank, -⟩
      exact Or.inr (Or.inl blank)
    · rintro (rfl | blank | ⟨rfl, -⟩)
      · exact ⟨length_eq_zero_iff.mp (Nat.le_zero.mp few), rfl⟩
      · exact ⟨blank, rfl⟩
      · exact ⟨length_eq_zero_iff.mp (Nat.le_zero.mp few), rfl⟩

theorem averagesExactly_nil (quotient : Quotient T) (numSlots numSlotValues : Nat) :
    AveragesExactly quotient numSlots numSlotValues ([] : List T) := by
  have counts : (empty : SlidingAverage T numSlots numSlotValues).getCount = 0 := by
    rw [getCount, empty, Vector.toList_replicate, ← sum_eq_foldl, sum_replicate_nat,
      Nat.mul_zero]
  have sums : (empty : SlidingAverage T numSlots numSlotValues).getSum = 0 := by
    rw [getSum, empty, Vector.toList_replicate, ← sum_eq_foldl, sum_replicate, nsmul_zero]
  refine ⟨empty, rfl, counts.le, ?_, fun _ nonempty => absurd rfl nonempty⟩
  rw [sums, rtake_nil, sum_nil]

theorem addAll_of_no_slots {values : List T} (nonempty : values ≠ []) :
    (empty : SlidingAverage T 0 numSlotValues).addAll values = none := by
  cases values with
  | nil => exact absurd rfl nonempty
  | cons value values => rfl

/-- Counts and sums belong together if there is one slot, or no slot was left, or the values that were
dropped last make up for those that are counted twice. -/
theorem averagesExactly_iff (quotient : Quotient T) (numSlots numSlotValues : Nat) (values : List T) :
    AveragesExactly quotient numSlots numSlotValues values ↔
      values = [] ∨ 0 < numSlots ∧ (numSlots = 1 ∨ values.length < numSlotValues ∨
        numSlots - 1 ≤ numDropped numSlots numSlotValues values.length ∧
          ((values.take (numDropped numSlots numSlotValues values.length)).rtake
            (numSlots - 1)).sum = 0) := by
  rcases eq_nil_or_concat' values with rfl | ⟨front, value, rfl⟩
  · exact iff_of_true (averagesExactly_nil quotient numSlots numSlotValues) (Or.inl rfl)
  · have nonempty : front ++ [value] ≠ [] :=
      append_ne_nil_of_right_ne_nil _ (cons_ne_nil _ _)
    rw [or_iff_right nonempty]
    cases numSlots with
    | zero =>
        refine iff_of_false ?_ fun h => absurd h.1 (Nat.lt_irrefl 0)
        rintro ⟨s, added, -⟩
        rw [addAll_of_no_slots nonempty] at added
        cases added
    | succ others =>
        rcases exists_addAll_eq others numSlotValues (front ++ [value]) with
          ⟨s, added, holds⟩
        have exactly : AveragesExactly quotient (others + 1) numSlotValues (front ++ [value]) ↔
            s.Averages quotient (front ++ [value]) := by
          rw [AveragesExactly, added]
          simp only [Option.some.injEq, exists_eq_left']
        rw [exactly, averages_iff quotient nonempty holds, makes_up_iff,
          SlotHistory.take_numDropped, SlotHistory.length_dropped_ofValues,
          SlotHistory.before_ofValues_eq_nil_iff,
          and_iff_right (Nat.succ_pos others), Nat.add_sub_cancel, Nat.succ_inj,
          length_append, length_singleton]

def intQuotient : Quotient Int where
  divide := fun sum count => sum.tdiv count
  divide_nsmul := by
    intro value count positive
    rw [nsmul_eq_mul, Int.mul_tdiv_cancel_left _ (Int.natCast_ne_zero.mpr positive)]

/-- There are two slots for two values. The same value twice is counted three times. -/
theorem not_forall_averagesExactly :
    ¬∀ numSlots numSlotValues values, AveragesExactly intQuotient numSlots numSlotValues values := by
  intro exactly
  rcases exactly 2 2 [6, 6] with ⟨s, added, averages⟩
  have quotient : (empty.addAll [6, 6] : Option (SlidingAverage Int 2 2)).map (get intQuotient) =
      some 4 := by
    decide
  rw [added, Option.map_some, averages.get_eq 6 (by decide) (by decide)] at quotient
  exact absurd quotient (by decide)

end SlidingAverage

end Eagine.Utility
