import Eagine.Serialization.FragmentDelivery
import Eagine.Theory.LastWrite

/-!
# Reassembly of fragmented spans

Every value of the target is a cell that the delivered blocks write: with the
value of the span where a block carries it, with zero where the data of a block
ends.  Once every value is carried by some block the target is done; it equals
the span when each nonzero value that was set to zero is carried again later.
-/

namespace Eagine.Serialization

open Theory List
open FragmentDeserializeWrapper (assign isDone_iff length_assign markDone_bit markDone_counts
  markDone_dst markDone_length ofTarget)

namespace Portable

variable {width : IntWidth}

/-- The block of the fragment carries the value at the position. -/
def Fragment.Carries (src : List (BitVec width.bits)) (fragment : Fragment) (q : Nat) : Prop :=
  fragment.offset ≤ q ∧ q < fragment.offset + carriedCount src fragment.offset fragment.capacity

instance (src : List (BitVec width.bits)) (fragment : Fragment) (q : Nat) :
    Decidable (fragment.Carries src q) :=
  inferInstanceAs (Decidable (_ ∧ _))

/-- The block of the fragment has a complete header but ends before the value at
the position. -/
def Fragment.EndsBefore (src : List (BitVec width.bits)) (fragment : Fragment) (q : Nat) : Prop :=
  (fragmentHeader src fragment.offset).length ≤ fragment.capacity ∧
    q = fragment.offset + carriedCount src fragment.offset fragment.capacity

instance (src : List (BitVec width.bits)) (fragment : Fragment) (q : Nat) :
    Decidable (fragment.EndsBefore src q) :=
  inferInstanceAs (Decidable (_ ∧ _))

/-- Every value of the span is carried by some block. -/
def Covering (src : List (BitVec width.bits)) (delivered : List Fragment) : Prop :=
  ∀ q < src.length, ∃ fragment ∈ delivered, fragment.Carries src q

/-- Every nonzero value that a block ends before is carried by a later block. -/
def Recovering (src : List (BitVec width.bits)) (delivered : List Fragment) : Prop :=
  ∀ earlier fragment later, delivered = earlier ++ fragment :: later →
    ∀ q < src.length, fragment.EndsBefore src q → src.getD q 0 ≠ 0 →
      ∃ other ∈ later, other.Carries src q

/-- What the delivery of the fragment writes at the position. -/
def Fragment.event (src : List (BitVec width.bits)) (q : Nat) (fragment : Fragment) :
    Option (BitVec width.bits) :=
  if fragment.Carries src q then some (src.getD q 0)
  else if fragment.EndsBefore src q then some 0
  else none

open Fragment (block event)

/-- The fragment was written by a wrapper of the span. -/
structure Fragment.IsOf (src : List (BitVec width.bits)) (fragment : Fragment) : Prop where
  within : fragment.offset ≤ src.length
  holds : fragment.block = (fragmentHeader src fragment.offset ++
    ((src.drop fragment.offset).map valueItem).flatten).take fragment.capacity

theorem writeFragments_isOf (src : List (BitVec width.bits)) (capacities : List Nat)
    (offset : Nat) (within : offset ≤ src.length) :
    ∀ fragment ∈ writeFragments ⟨src, offset⟩ capacities, fragment.IsOf src := by
  induction capacities generalizing offset with
  | nil =>
      intro fragment mem
      exact absurd mem not_mem_nil
  | cons capacity capacities ih =>
      rcases fragmentWrite_apply src offset capacity with ⟨wrapperEq, writtenEq⟩
      have countLe := carriedCount_le src offset capacity
      intro fragment mem
      rw [writeFragments, wrapperEq, writtenEq, mem_cons] at mem
      rcases mem with rfl | mem
      · exact ⟨within, rfl⟩
      · exact ih _ (by omega) fragment mem

/-- The state of the target after some fragments are delivered. -/
structure Holding (src target : List (BitVec width.bits)) (delivered : List Fragment)
    (frag : FragmentDeserializeWrapper (BitVec width.bits)) : Prop where
  dstLength : frag.dst.length = src.length
  bitsLength : frag.doneBits.length = src.length
  counts : frag.Counts
  settled : ∀ q < src.length,
    frag.dst.getD q 0 = settle (target.getD q 0) (delivered.map (event src q))
  marked : ∀ q < src.length,
    (frag.doneBits.getD q false = true ↔ ∃ fragment ∈ delivered, fragment.Carries src q)

variable {fragment : Fragment} {src target : List (BitVec width.bits)} {delivered : List Fragment}
  {frag : FragmentDeserializeWrapper (BitVec width.bits)}

theorem carries_of_short (short : fragment.capacity < (fragmentHeader src fragment.offset).length)
    (q : Nat) : ¬fragment.Carries src q := by
  have countEq : carriedCount src fragment.offset fragment.capacity = 0 :=
    if_neg (Nat.not_le.mpr short)
  unfold Fragment.Carries
  omega

theorem event_of_short (short : fragment.capacity < (fragmentHeader src fragment.offset).length)
    (q : Nat) : fragment.event src q = none := by
  have notBefore : ¬fragment.EndsBefore src q := fun before => Nat.not_le.mpr short before.1
  rw [event, if_neg (carries_of_short short q), if_neg notBefore]

theorem getD_interrupted (values : List (BitVec width.bits)) (q : Nat) :
    (interrupted values).getD q 0 = if q = 0 then 0 else values.getD q 0 := by
  cases values with
  | nil => simp [interrupted]
  | cons value values =>
      cases q with
      | zero => rfl
      | succ q => rfl

theorem length_interrupted (values : List (BitVec width.bits)) :
    (interrupted values).length = values.length := by
  cases values <;> rfl

theorem length_delivered (within : fragment.offset ≤ src.length) {dst : List (BitVec width.bits)}
    (sameLength : dst.length = src.length) :
    ((src.drop fragment.offset).take
        (carriedCount src fragment.offset fragment.capacity) ++
      interrupted ((dst.drop fragment.offset).drop
        (carriedCount src fragment.offset fragment.capacity))).length =
      src.length - fragment.offset := by
  have countLe := carriedCount_le src fragment.offset fragment.capacity
  rw [length_append, length_interrupted, length_take, length_drop,
    length_drop, length_drop, sameLength, Nat.min_eq_left countLe]
  omega

/-- The values of the target after a delivery. -/
theorem getD_delivered (within : fragment.offset ≤ src.length)
    (long : (fragmentHeader src fragment.offset).length ≤ fragment.capacity)
    (frag : FragmentDeserializeWrapper (BitVec width.bits))
    (sameLength : frag.dst.length = src.length) (q : Nat) (inRange : q < src.length) :
    (frag.assign fragment.offset ((src.drop fragment.offset).take
        (carriedCount src fragment.offset fragment.capacity) ++
      interrupted ((frag.dst.drop fragment.offset).drop
        (carriedCount src fragment.offset fragment.capacity)))).dst.getD q 0 =
      (fragment.event src q).getD (frag.dst.getD q 0) := by
  have valuesLength := length_delivered within sameLength
  have countLe := carriedCount_le src fragment.offset fragment.capacity
  have takenLength : ((src.drop fragment.offset).take
      (carriedCount src fragment.offset fragment.capacity)).length =
      carriedCount src fragment.offset fragment.capacity := by
    rw [length_take, length_drop, Nat.min_eq_left countLe]
  have frontLength : (frag.dst.take fragment.offset).length = fragment.offset := by
    rw [length_take, sameLength, Nat.min_eq_left within]
  rw [assign, append_assoc]
  by_cases before : q < fragment.offset
  · have notCarried : ¬fragment.Carries src q := fun carries => by
      unfold Fragment.Carries at carries
      omega
    have notEnding : ¬fragment.EndsBefore src q := fun ends => by
      unfold Fragment.EndsBefore at ends
      omega
    rw [getD_append _ _ _ _ (frontLength.symm ▸ before), event, if_neg notCarried,
      if_neg notEnding, Option.getD_none, getD_eq_getElem?_getD, getElem?_take_of_lt before,
      getD_eq_getElem?_getD]
  · have behind := Nat.not_lt.mp before
    have insideValues : q - fragment.offset < ((src.drop fragment.offset).take
        (carriedCount src fragment.offset fragment.capacity) ++
      interrupted ((frag.dst.drop fragment.offset).drop
        (carriedCount src fragment.offset fragment.capacity))).length := by
      rw [valuesLength]
      omega
    rw [getD_append_right _ _ _ _ (frontLength.symm ▸ behind), frontLength,
      getD_append _ _ _ _ insideValues]
    by_cases carried : q - fragment.offset < carriedCount src fragment.offset fragment.capacity
    · have carries : fragment.Carries src q := ⟨behind, by omega⟩
      rw [getD_append _ _ _ _ (takenLength.symm ▸ carried), event, if_pos carries,
        Option.getD_some, getD_eq_getElem?_getD, getElem?_take_of_lt carried,
        getElem?_drop, Nat.add_sub_cancel' behind, getD_eq_getElem?_getD]
    · have passed := Nat.not_lt.mp carried
      have notCarried : ¬fragment.Carries src q := fun carries => by
        unfold Fragment.Carries at carries
        omega
      rw [getD_append_right _ _ _ _ (takenLength.symm ▸ passed), takenLength,
        getD_interrupted, event, if_neg notCarried]
      by_cases ending : q - fragment.offset = carriedCount src fragment.offset fragment.capacity
      · have ends : fragment.EndsBefore src q := ⟨long, by omega⟩
        rw [if_pos ends, if_pos (by omega), Option.getD_some]
      · have notEnding : ¬fragment.EndsBefore src q := fun ends => ending (by
          have positionEq := ends.2
          omega)
        have position : fragment.offset +
            (carriedCount src fragment.offset fragment.capacity + (q - fragment.offset -
              carriedCount src fragment.offset fragment.capacity)) = q := by omega
        rw [if_neg notEnding, if_neg (by omega), Option.getD_none, getD_eq_getElem?_getD,
          getElem?_drop, getElem?_drop, position, getD_eq_getElem?_getD]

/-- A delivery keeps the target holding what was delivered. -/
theorem deliver_holding (isSpan : src.length < spanSizeLimit)
    (holding : Holding src target delivered frag) (isOf : fragment.IsOf src) :
    ∃ next, deliver frag fragment.block = some next ∧
      Holding src target (delivered ++ [fragment]) next := by
  rw [isOf.holds]
  by_cases long : (fragmentHeader src fragment.offset).length ≤ fragment.capacity
  · refine ⟨_, deliver_of_long isSpan isOf.within long frag holding.dstLength, ?_⟩
    constructor
    case dstLength =>
        have valuesLength := length_delivered isOf.within holding.dstLength
        rw [markDone_dst, length_assign]
        · exact holding.dstLength
        · rw [valuesLength, holding.dstLength]
          exact (Nat.add_sub_cancel' isOf.within).le
    case bitsLength =>
        rw [markDone_length]
        exact holding.bitsLength
    case counts => exact markDone_counts _ _ holding.counts
    case settled =>
        intro q inRange
        rw [markDone_dst,
          getD_delivered isOf.within long frag holding.dstLength q inRange, map_append,
          map_singleton, settle_concat, holding.settled q inRange]
    case marked =>
        intro q inRange
        rw [markDone_bit _ _ _ _ (holding.bitsLength.symm ▸ inRange),
          Bool.or_eq_true, decide_eq_true_iff]
        simp only [mem_append, mem_singleton, or_and_right, exists_or, exists_eq_left]
        exact or_congr (holding.marked q inRange) Iff.rfl
  · have short := Nat.not_le.mp long
    refine ⟨frag, deliver_of_short isSpan isOf.within short _ frag, ?_⟩
    constructor
    case dstLength => exact holding.dstLength
    case bitsLength => exact holding.bitsLength
    case counts => exact holding.counts
    case settled =>
        intro q inRange
        rw [map_append, map_singleton, settle_concat, event_of_short short,
          Option.getD_none]
        exact holding.settled q inRange
    case marked =>
        intro q inRange
        rw [holding.marked q inRange]
        simp [carries_of_short short q]

theorem deliverAll_holding (isSpan : src.length < spanSizeLimit) (coming : List Fragment)
    (isOf : ∀ fragment ∈ coming, fragment.IsOf src) (holding : Holding src target delivered frag) :
    ∃ final, deliverAll frag (coming.map block) = some final ∧
      Holding src target (delivered ++ coming) final := by
  induction coming generalizing delivered frag with
  | nil =>
      refine ⟨frag, rfl, ?_⟩
      rwa [append_nil]
  | cons fragment coming ih =>
      rcases deliver_holding isSpan holding (isOf fragment mem_cons_self) with
        ⟨next, run, nextHolding⟩
      rcases ih (fun other mem => isOf other (mem_cons_of_mem fragment mem)) nextHolding with
        ⟨final, rest, finalHolding⟩
      refine ⟨final, ?_, ?_⟩
      · rw [deliverAll, map_cons, foldlM_cons, run]
        exact rest
      · rw [append_cons]
        exact finalHolding

theorem holding_ofTarget (sameLength : target.length = src.length) :
    Holding src target [] (.ofTarget target) := by
  constructor
  case dstLength => exact sameLength
  case bitsLength => exact (length_replicate).trans sameLength
  case counts =>
      unfold FragmentDeserializeWrapper.Counts ofTarget
      rw [count_replicate]
      rfl
  case settled =>
      intro q _
      rfl
  case marked =>
      intro q inRange
      simp [ofTarget, getD_eq_getElem?_getD, sameLength, inRange]

/-- A carried value ends up in the target when it is carried again after every
block that ends before it. -/
theorem restored_event_iff (src : List (BitVec width.bits)) (delivered : List Fragment) (q : Nat) :
    Restored (src.getD q 0) (delivered.map (event src q)) ↔
      ∀ earlier fragment later, delivered = earlier ++ fragment :: later →
        fragment.EndsBefore src q → src.getD q 0 ≠ 0 → ∃ other ∈ later, other.Carries src q := by
  constructor
  · intro restored earlier fragment later split ends nonzero
    have notCarried : ¬fragment.Carries src q := fun carries => by
      have positionEq := ends.2
      unfold Fragment.Carries at carries
      omega
    have eventEq : fragment.event src q = some 0 := by
      rw [event, if_neg notCarried, if_pos ends]
    have mem := restored (earlier.map (event src q)) 0
      (later.map (event src q)) (by rw [split, map_append, map_cons, eventEq])
      (Ne.symm nonzero)
    rcases mem_map.mp mem with ⟨other, otherMem, otherEq⟩
    refine ⟨other, otherMem, ?_⟩
    by_contra otherNot
    rw [event, if_neg otherNot] at otherEq
    split at otherEq
    · exact nonzero (Option.some.inj otherEq).symm
    · exact absurd otherEq (Option.some_ne_none _).symm
  · intro recovers before value after split differs
    rcases map_eq_append_iff.mp split with ⟨earlier, rest, deliveredEq, _, restEq⟩
    rcases map_eq_cons_iff.mp restEq with ⟨fragment, later, rfl, eventEq, rfl⟩
    have notCarried : ¬fragment.Carries src q := fun carries => by
      rw [event, if_pos carries] at eventEq
      exact differs (Option.some.inj eventEq).symm
    rw [event, if_neg notCarried] at eventEq
    by_cases ends : fragment.EndsBefore src q
    · rw [if_pos ends] at eventEq
      have valueEq := Option.some.inj eventEq
      rcases recovers earlier fragment later deliveredEq ends (fun zero => differs
        (valueEq.symm.trans zero.symm)) with ⟨other, otherMem, carries⟩
      refine mem_map.mpr ⟨other, otherMem, ?_⟩
      rw [event, if_pos carries]
    · rw [if_neg ends] at eventEq
      exact absurd eventEq (Option.some_ne_none _).symm

theorem eq_of_getD {values others : List (BitVec width.bits)}
    (sameLength : values.length = others.length)
    (pointwise : ∀ q < others.length, values.getD q 0 = others.getD q 0) : values = others := by
  apply ext_getElem sameLength
  intro q inValues inOthers
  have valueEq := pointwise q inOthers
  rwa [getD_eq_getElem _ _ inValues, getD_eq_getElem _ _ inOthers] at valueEq

theorem isDone_iff_covering (holding : Holding src target delivered frag) :
    frag.isDone = true ↔ Covering src delivered := by
  rw [isDone_iff holding.counts
    (holding.bitsLength.trans holding.dstLength.symm), holding.dstLength]
  exact forall₂_congr fun q inRange => holding.marked q inRange

theorem dst_eq_iff_recovering (holding : Holding src target delivered frag)
    (covering : Covering src delivered) : frag.dst = src ↔ Recovering src delivered := by
  have settledIff : ∀ q < src.length, (frag.dst.getD q 0 = src.getD q 0 ↔
      Restored (src.getD q 0) (delivered.map (event src q))) := by
    intro q inRange
    rcases covering q inRange with ⟨fragment, mem, carries⟩
    have written : some (src.getD q 0) ∈ delivered.map (event src q) := by
      refine mem_map.mpr ⟨fragment, mem, ?_⟩
      rw [event, if_pos carries]
    rw [holding.settled q inRange]
    exact settle_eq_iff _ _ _ written
  constructor
  · intro same earlier fragment later split q inRange ends nonzero
    have restored := (settledIff q inRange).mp (by rw [same])
    exact (restored_event_iff src delivered q).mp restored earlier fragment later split ends nonzero
  · intro recovering
    apply eq_of_getD holding.dstLength
    intro q inRange
    apply (settledIff q inRange).mpr
    apply (restored_event_iff src delivered q).mpr
    intro earlier fragment later split ends nonzero
    exact recovering earlier fragment later split q inRange ends nonzero

/-- For any splitting of a span and any deliveries of the fragments, a target
that is done equals the span exactly when every nonzero value that a block ends
before is carried again later (or not all values are carried). -/
theorem deliverAll_correct_iff (src target : List (BitVec width.bits))
    (isSpan : src.length < spanSizeLimit) (sameLength : target.length = src.length)
    (capacities : List Nat) (delivered : List Fragment)
    (produced : delivered ⊆ writeFragments (.ofSpan src) capacities) :
    ∃ frag, deliverAll (.ofTarget target) (delivered.map block) = some frag ∧
      ((frag.isDone = true → frag.dst = src) ↔
        (Covering src delivered → Recovering src delivered)) := by
  have isOf : ∀ fragment ∈ delivered, fragment.IsOf src := fun fragment mem =>
    writeFragments_isOf src capacities 0 (Nat.zero_le _) fragment (produced mem)
  rcases deliverAll_holding isSpan delivered isOf (holding_ofTarget sameLength) with
    ⟨frag, run, holding⟩
  rw [nil_append] at holding
  refine ⟨frag, run, ?_⟩
  rw [isDone_iff_covering holding]
  exact imp_congr_right (dst_eq_iff_recovering holding)

/-- A span of two bytes. -/
def twoBytes : List (BitVec IntWidth.w8.bits) :=
  [1, 2]

/-- The first block has room for the first byte only. -/
def twoFragments : List Fragment :=
  writeFragments (.ofSpan twoBytes) [9, 20]

theorem deliverAll_in_order :
    ∃ frag, deliverAll (.ofTarget [0, 0]) (twoFragments.map block) = some frag ∧
      ((frag.isDone = true → frag.dst = twoBytes) ↔
        (Covering twoBytes twoFragments → Recovering twoBytes twoFragments)) :=
  deliverAll_correct_iff twoBytes [0, 0] (by decide) rfl [9, 20] twoFragments
    (List.Subset.refl _)

/-- In the other order the first block arrives last and sets the second value to
zero. -/
theorem deliverAll_loses_value :
    ∃ frag, deliverAll (.ofTarget ([0, 0] : List (BitVec IntWidth.w8.bits)))
        (twoFragments.reverse.map block) = some frag ∧
      frag.isDone = true ∧ frag.dst ≠ twoBytes := by
  refine ⟨⟨[1, 0], [true, true], 2⟩, ?_, ?_, ?_⟩
  · decide
  · decide
  · decide

end Portable

end Eagine.Serialization
