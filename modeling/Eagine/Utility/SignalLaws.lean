import Eagine.Container.FlatMapRefinement
import Eagine.Container.SmallVector
import Mathlib.Data.Fintype.Card

/-!
# Keys of signals

The slots stay sorted by different keys that are not zero, whatever is connected and
disconnected. There is an unused key as long as there are fewer slots than keys.
-/

/-!
## Signals

The slots that are connected to a signal are kept in a flat map over a small vector, under keys
by which they can be disconnected.
-/

open List

namespace Eagine

open Container

universe u

/-- `signal_binding_key`. -/
abbrev BindingKey := Fin (2 ^ 16)

/-- A `signal` with the storage of its `_slots`. -/
structure Signal (Slot : Type u) where
  slots : SmallVector (BindingKey × Slot) 3

namespace Signal

variable {Slot : Type u}

/-- The slots as a flat map. -/
def flatMap (signal : Signal Slot) : FlatMap BindingKey Slot :=
  ⟨signal.slots.elements⟩

/-- The search for a key without a slot, from a key on. The key is an `unsigned`. -/
def findUnused (signal : Signal Slot) : Nat → Nat → Option (Nat × Nat)
  | 0, _ => none
  | fuel + 1, key =>
      let found := signal.flatMap.findInsertPos (Fin.ofNat _ key)
      if found.2 then some (found.1, key) else signal.findUnused fuel ((key + 1) % 2 ^ 32)

/-- The key that is tried first, after the last one. -/
def nextKey (back : BindingKey) : Nat :=
  if back ≠ Fin.last _ then back + 1 else 1

/-- The position and the key of a new slot. -/
def newPosition (signal : Signal Slot) (fuel : Nat) : Option (Nat × Nat) :=
  match signal.slots.elements.getLast? with
  | some back => signal.findUnused fuel (nextKey back.1)
  | none => some (0, 1)

/-- The key that is returned, and the signal. It is refused where the assertion fails. -/
def connect (fuel : Nat) (slot : Slot) (signal : Signal Slot) : Option (BindingKey × Signal Slot) :=
  (signal.newPosition fuel).bind fun (pos, key) =>
    if key = 0 then none
    else
      let key : BindingKey := Fin.ofNat _ key
      (signal.flatMap.findInsertPosNear pos key).bind fun (pos, unused) =>
        if unused then (signal.slots.insert pos (.value (key, slot))).map fun slots =>
          (key, ⟨slots⟩)
        else some (key, signal)

/-- `_call`, by the slots that it calls. -/
def call (signal : Signal Slot) : List Slot :=
  signal.slots.elements.map fun entry => entry.2

variable [Inhabited Slot]

def init : Signal Slot :=
  ⟨SmallVector.init⟩

def disconnect (key : BindingKey) (signal : Signal Slot) : Option (Signal Slot) :=
  let p := signal.flatMap.lowerBound key
  match signal.slots.elements[p]? with
  | some element =>
      if key < element.1 then some signal else (signal.slots.erase p).map Signal.mk
  | none => some signal

/-- A signal after calls that connect and disconnect slots, and what is connected to it then: the
slots with the keys that were returned for them. -/
inductive Reaches : Signal Slot → List (BindingKey × Slot) → Prop
  | init : Reaches init []
  | connect {signal after : Signal Slot} {connected : List (BindingKey × Slot)} {slot : Slot}
      {fuel : Nat} {key : BindingKey} :
      Reaches signal connected → connected.length < 65535 →
        signal.connect fuel slot = some (key, after) → Reaches after (connected ++ [(key, slot)])
  | disconnect {signal after : Signal Slot} {connected : List (BindingKey × Slot)}
      {key : BindingKey} :
      Reaches signal connected → signal.disconnect key = some after →
        Reaches after (connected.filter fun entry => entry.1 ≠ key)

end Signal

end Eagine

namespace Eagine

open Container
open SmallVector (elements step vectorStep)

universe u

variable {Slot : Type u}

namespace Signal

section Storage

variable {α : Type u} {N : Nat} [Inhabited α] {v : SmallVector α N} {front back : List α}

theorem insert_elements (whole : v.elements = front ++ back) (value : α) :
    ∃ w, v.insert front.length (.value value) = some w ∧ w.elements = front ++ value :: back := by
  have commutes : Theory.Commutes step vectorStep elements v
      (.insert front.length (.value value)) :=
    (v.commutes_iff _).mpr (by cases v <;> first | trivial | exact nofun)
  rw [Theory.Commutes, vectorStep, Argument.of, Option.bind_some, StdVector.insert,
    StdVector.insertRange, whole, if_pos (by simp), take_left, drop_left, append_assoc] at commutes
  rcases Option.map_eq_some_iff.mp commutes with ⟨w, inserted, elements⟩
  exact ⟨w, inserted, elements⟩

theorem erase_elements {value : α} (whole : v.elements = front ++ value :: back) :
    ∃ w, v.erase front.length = some w ∧ w.elements = front ++ back := by
  have commutes : Theory.Commutes step vectorStep elements v
      (.erase front.length) :=
    (v.commutes_iff _).mpr (by cases v <;> trivial)
  have rest : (front ++ value :: back).drop (front.length + 1) = back := by
    rw [← drop_drop, drop_left, drop_one, tail_cons]
  rw [Theory.Commutes, vectorStep, StdVector.erase, StdVector.eraseRange, whole,
    if_pos (by simp), take_left, rest] at commutes
  rcases Option.map_eq_some_iff.mp commutes with ⟨w, erased, elements⟩
  exact ⟨w, erased, elements⟩

end Storage

/-- A key that no slot is stored with. -/
def Unused (signal : Signal Slot) (key : BindingKey) : Prop :=
  ∀ entry ∈ signal.slots.elements, entry.1 ≠ key

variable {signal : Signal Slot} (sorted : FlatMap.IsSorted signal.slots.elements)

include sorted

theorem findInsertPos_unused {key : BindingKey} (unused : signal.Unused key) :
    ∃ front back, signal.slots.elements = front ++ back ∧ (∀ e ∈ front, e.1 < key) ∧
      (∀ e ∈ back, key < e.1) ∧ signal.flatMap.findInsertPos key = (front.length, true) := by
  rcases sorted.exists_place key with ⟨front, place⟩
  have bound : signal.flatMap.lowerBound key = front.length := FlatMap.lowerBound_of_place place
  cases place with
  | present value back whole isFront isBack =>
      have within : (key, value) ∈ signal.slots.elements := by simp [whole]
      exact absurd rfl (unused _ within)
  | absent back whole isFront isBack =>
      refine ⟨front, back, whole, isFront, isBack, ?_⟩
      rw [FlatMap.findInsertPos, bound]
      simp only [flatMap, whole, getElem?_append_right le_rfl, Nat.sub_self]
      cases back with
      | nil => rfl
      | cons first back =>
          have greater : key < first.1 := isBack first mem_cons_self
          simp [greater.ne]

theorem findInsertPos_used {key : BindingKey} (used : ¬signal.Unused key) :
    (signal.flatMap.findInsertPos key).2 = false := by
  rcases sorted.exists_place key with ⟨front, place⟩
  have bound : signal.flatMap.lowerBound key = front.length := FlatMap.lowerBound_of_place place
  cases place with
  | present value back whole isFront isBack =>
      rw [FlatMap.findInsertPos, bound]
      simp [flatMap, whole]
  | absent back whole isFront isBack =>
      refine absurd (fun e within => ?_) used
      rw [whole] at within
      rcases mem_append.mp within with inFront | inBack
      · exact (isFront e inFront).ne
      · exact (isBack e inBack).ne'

/-- The search ends at the first unused key. -/
theorem findUnused_eq {key found : Nat} (least : ∀ k, key ≤ k → k < found →
      ¬signal.Unused (Fin.ofNat _ k)) (unused : signal.Unused (Fin.ofNat _ found))
    (after : key ≤ found) (small : found < 2 ^ 16) {fuel : Nat} (enough : found - key < fuel) :
    signal.findUnused fuel key =
      some ((signal.flatMap.findInsertPos (Fin.ofNat _ found)).1, found) := by
  induction fuel generalizing key with
  | zero => exact absurd enough (Nat.not_lt_zero _)
  | succ fuel ih =>
      rw [findUnused]
      rcases Nat.eq_or_lt_of_le after with rfl | before
      · rcases findInsertPos_unused sorted unused with ⟨front, back, _, _, _, position⟩
        simp only [position, if_true]
      · have used := findInsertPos_used sorted (least key le_rfl before)
        have next : (key + 1) % 2 ^ 32 = key + 1 := Nat.mod_eq_of_lt (by omega)
        simp only [used, Bool.false_eq_true, if_false, next]
        exact ih (fun k from' => least k (Nat.le_of_succ_le from')) before (by omega)

/-- The key after the last one is unused, unless that is the greatest one. -/
theorem unused_nextKey {back : BindingKey × Slot}
    (last : signal.slots.elements.getLast? = some back) (notGreatest : back.1 ≠ Fin.last _) :
    nextKey back.1 < 2 ^ 16 ∧ signal.Unused (Fin.ofNat _ (nextKey back.1)) := by
  have below : (back.1 : Nat) < 2 ^ 16 - 1 :=
    Nat.lt_of_le_of_ne (Fin.le_last _) fun same => notGreatest (Fin.ext same)
  have next : nextKey back.1 = back.1 + 1 := if_pos notGreatest
  rw [next]
  constructor
  · omega
  · intro entry within same
    rcases getLast?_eq_some_iff.mp last with ⟨others, whole⟩
    rw [whole] at sorted within
    have value := congrArg Fin.val same
    rw [Fin.val_ofNat, Nat.mod_eq_of_lt (by omega)] at value
    rcases mem_append.mp within with inOthers | isLast
    · have less : entry.1 < back.1 :=
        (pairwise_append.mp sorted).2.2 entry inOthers back mem_cons_self
      have lessValue : (entry.1 : Nat) < back.1 := less
      omega
    · rw [mem_singleton] at isLast
      rw [isLast] at value
      omega

omit sorted in
/-- Fewer slots than keys leave a key that is not zero. -/
theorem exists_unused (few : signal.slots.elements.length < 65535) :
    ∃ key, 1 ≤ key ∧ key < 2 ^ 16 ∧ signal.Unused (Fin.ofNat _ key) := by
  by_contra allUsed
  have used : (Finset.univ.erase (0 : BindingKey)) ⊆
      (signal.slots.elements.map Prod.fst).toFinset := by
    intro key within
    have positive : 1 ≤ (key : Nat) := Nat.one_le_iff_ne_zero.mpr fun zero =>
      Finset.ne_of_mem_erase within (Fin.ext zero)
    by_contra missing
    refine allUsed ⟨key, positive, key.isLt, fun entry inSlots same => missing ?_⟩
    have sameKey : entry.1 = key := same.trans (Fin.ext (Nat.mod_eq_of_lt key.isLt))
    exact mem_toFinset.mpr (mem_map.mpr ⟨entry, inSlots, sameKey⟩)
  have count : (Finset.univ.erase (0 : BindingKey)).card = 2 ^ 16 - 1 :=
    (Finset.card_erase_of_mem (Finset.mem_univ _)).trans (congrArg (· - 1) (Finset.card_fin _))
  have many := (Finset.card_le_card used).trans (toFinset_card_le _)
  rw [count, length_map] at many
  omega

theorem newPosition_eq (few : signal.slots.elements.length < 65535) :
    ∃ pos key, pos ≤ signal.slots.elements.length ∧ 0 < key ∧ key < 2 ^ 16 ∧
      signal.Unused (Fin.ofNat _ key) ∧
        ∀ fuel, 65535 ≤ fuel → signal.newPosition fuel = some (pos, key) := by
  cases last : signal.slots.elements.getLast? with
  | none =>
      have nothing := getLast?_eq_none_iff.mp last
      refine ⟨0, 1, Nat.zero_le _, Nat.one_pos, by decide, ?_, fun fuel _ => ?_⟩
      · intro entry within
        rw [nothing] at within
        exact absurd within not_mem_nil
      · rw [newPosition, last]
  | some back =>
      have start : 1 ≤ nextKey back.1 := by
        rw [nextKey]
        split <;> omega
      have free : ∃ key, nextKey back.1 ≤ key ∧ key < 2 ^ 16 ∧
          signal.Unused (Fin.ofNat _ key) := by
        by_cases greatest : back.1 = Fin.last _
        · have first : nextKey back.1 = 1 := if_neg (not_not.mpr greatest)
          rw [first]
          exact exists_unused few
        · exact ⟨_, le_rfl, unused_nextKey sorted last greatest⟩
      classical
      rcases Nat.find_spec free with ⟨after, small, unused⟩
      rcases findInsertPos_unused sorted unused with ⟨front, rest, whole, _, _, position⟩
      refine ⟨front.length, Nat.find free, by simp [whole], start.trans after, small, unused, ?_⟩
      intro fuel enough
      rw [newPosition, last]
      refine (findUnused_eq sorted ?_ unused after small (by omega)).trans (by rw [position])
      intro key from' before unusedKey
      exact Nat.find_min free before ⟨from', before.trans small, unusedKey⟩

/-- A slot is stored at the place of a new key that is not zero. -/
theorem connect_eq [Inhabited Slot] (few : signal.slots.elements.length < 65535) (slot : Slot) :
    ∃ key after front back, key ≠ 0 ∧ signal.slots.elements = front ++ back ∧
      (∀ e ∈ front, e.1 < key) ∧ (∀ e ∈ back, key < e.1) ∧
        after.slots.elements = front ++ (key, slot) :: back ∧
          ∀ fuel, 65535 ≤ fuel → signal.connect fuel slot = some (key, after) := by
  rcases newPosition_eq sorted few with ⟨pos, key, inside, positive, small, unused, found⟩
  rcases findInsertPos_unused sorted unused with ⟨front, back, whole, isFront, isBack, _⟩
  rcases insert_elements whole (Fin.ofNat _ key, slot) with ⟨slots, inserted, elements⟩
  refine ⟨Fin.ofNat _ key, ⟨slots⟩, front, back, ?_, whole, isFront, isBack, elements, ?_⟩
  · intro zero
    have value := congrArg Fin.val zero
    rw [Fin.val_ofNat, Nat.mod_eq_of_lt small] at value
    exact positive.ne' value
  · intro fuel enough
    rw [whole] at inside
    have place := FlatMap.findInsertPosNear_of_absent isFront isBack inside
    rw [connect, found fuel enough]
    simp only [Option.bind_some, positive.ne', if_false, flatMap, whole, place, if_true, inserted,
      Option.map_some]

/-- The slot of the key is removed, if there is one. -/
theorem disconnect_eq [Inhabited Slot] (key : BindingKey) :
    ∃ after, signal.disconnect key = some after ∧
      after.slots.elements = signal.slots.elements.filter fun entry => entry.1 ≠ key := by
  rcases sorted.exists_place key with ⟨front, place⟩
  have bound : signal.flatMap.lowerBound key = front.length := FlatMap.lowerBound_of_place place
  have frontKept : ∀ (isFront : ∀ e ∈ front, e.1 < key),
      front.filter (fun entry => entry.1 ≠ key) = front := by
    intro isFront
    exact filter_eq_self.mpr fun e within => decide_eq_true (isFront e within).ne
  have backKept : ∀ {back : List (BindingKey × Slot)} (isBack : ∀ e ∈ back, key < e.1),
      back.filter (fun entry => entry.1 ≠ key) = back := by
    intro back isBack
    exact filter_eq_self.mpr fun e within => decide_eq_true (isBack e within).ne'
  rw [disconnect, bound]
  cases place with
  | present slot back whole isFront isBack =>
      rcases erase_elements whole with ⟨slots, erased, elements⟩
      refine ⟨⟨slots⟩, ?_, ?_⟩
      · simp [whole, erased]
      · rw [elements, whole, filter_append, frontKept isFront, filter_cons_of_neg (by simp),
          backKept isBack]
  | absent back whole isFront isBack =>
      refine ⟨signal, ?_, ?_⟩
      · simp only [whole, getElem?_append_right le_rfl, Nat.sub_self]
        cases back with
        | nil => rfl
        | cons first back =>
            have greater : key < first.1 := isBack first mem_cons_self
            simp [greater]
      · rw [whole, filter_append, frontKept isFront, backKept isBack]

omit sorted

theorem findUnused_of_le {fuel more key : Nat} {found : Nat × Nat}
    (run : signal.findUnused fuel key = some found) (le : fuel ≤ more) :
    signal.findUnused more key = some found := by
  induction fuel generalizing key more with
  | zero => cases run
  | succ fuel ih =>
      rcases Nat.exists_eq_succ_of_ne_zero (Nat.ne_of_gt ((Nat.succ_pos fuel).trans_le le)) with
        ⟨more, rfl⟩
      rw [findUnused] at run ⊢
      split at run
      · next unused => rwa [if_pos unused]
      · next used =>
          rw [if_neg used]
          exact ih run (Nat.le_of_succ_le_succ le)

theorem connect_of_le {fuel more : Nat} {slot : Slot} {result : BindingKey × Signal Slot}
    (run : signal.connect fuel slot = some result) (le : fuel ≤ more) :
    signal.connect more slot = some result := by
  rcases Option.bind_eq_some_iff.mp run with ⟨position, found, rest⟩
  have same : signal.newPosition more = some position := by
    rw [newPosition] at found ⊢
    cases last : signal.slots.elements.getLast? with
    | none =>
        rw [last] at found
        exact found
    | some back =>
        rw [last] at found
        exact findUnused_of_le found le
  exact Option.bind_eq_some_iff.mpr ⟨position, same, rest⟩

/-- The stored slots are those that are connected, in the order of their keys. -/
structure Holds (signal : Signal Slot) (connected : List (BindingKey × Slot)) : Prop where
  sorted : FlatMap.IsSorted signal.slots.elements
  perm : signal.slots.elements.Perm connected

variable {connected : List (BindingKey × Slot)}

theorem Holds.few (holds : signal.Holds connected) (bound : connected.length < 65535) :
    signal.slots.elements.length < 65535 :=
  holds.perm.length_eq.trans_lt bound

theorem Holds.nodup (holds : signal.Holds connected) : (connected.map Prod.fst).Nodup := by
  have distinct : (signal.slots.elements.map Prod.fst).Nodup :=
    pairwise_map.mpr (holds.sorted.imp fun less => less.ne)
  exact (holds.perm.map Prod.fst).nodup_iff.mp distinct

theorem Holds.call (holds : signal.Holds connected) :
    signal.call.Perm (connected.map Prod.snd) :=
  holds.perm.map Prod.snd

variable [Inhabited Slot]

theorem holds_init : Holds (init : Signal Slot) [] where
  sorted := List.Pairwise.nil
  perm := List.Perm.nil

theorem Holds.connect (holds : signal.Holds connected) (few : connected.length < 65535)
    (slot : Slot) :
    ∃ key after, (∀ fuel, 65535 ≤ fuel → signal.connect fuel slot = some (key, after)) ∧ key ≠ 0 ∧
      (∀ entry ∈ connected, entry.1 ≠ key) ∧ after.Holds (connected ++ [(key, slot)]) := by
  rcases connect_eq holds.sorted (holds.few few) slot with
    ⟨key, after, front, back, nonzero, whole, isFront, isBack, elements, run⟩
  have sorted := holds.sorted
  have perm := holds.perm
  rw [whole] at sorted perm
  refine ⟨key, after, run, nonzero, ?_, ?_, ?_⟩
  · intro entry within
    rcases mem_append.mp (perm.mem_iff.mpr within) with inFront | inBack
    · exact (isFront entry inFront).ne
    · exact (isBack entry inBack).ne'
  · rcases pairwise_append.mp sorted with ⟨sortedFront, sortedBack, across⟩
    rw [elements]
    apply pairwise_append.mpr
    refine ⟨sortedFront, pairwise_cons.mpr ⟨isBack, sortedBack⟩, ?_⟩
    exact fun e inFront => forall_mem_cons.mpr ⟨isFront e inFront, across e inFront⟩
  · rw [elements]
    exact (perm_middle.trans (perm.cons _)).trans (perm_append_singleton _ _).symm

theorem Holds.disconnect (holds : signal.Holds connected) (key : BindingKey) :
    ∃ after, signal.disconnect key = some after ∧
      after.Holds (connected.filter fun entry => entry.1 ≠ key) := by
  rcases disconnect_eq holds.sorted key with ⟨after, run, elements⟩
  refine ⟨after, run, ?_, ?_⟩
  · rw [elements]
    exact holds.sorted.sublist filter_sublist
  · rw [elements]
    exact holds.perm.filter _

theorem Reaches.holds (reaches : Reaches signal connected) : signal.Holds connected := by
  induction reaches with
  | init => exact holds_init
  | @connect signal after connected slot fuel key _ few run ih =>
      rcases ih.connect few slot with ⟨newKey, newAfter, connects, _, _, holds⟩
      have more := connect_of_le run (Nat.le_max_left fuel 65535)
      rw [connects _ (Nat.le_max_right _ _)] at more
      cases more
      exact holds
  | @disconnect signal after connected key _ run ih =>
      rcases ih.disconnect key with ⟨newAfter, disconnects, holds⟩
      cases disconnects.symm.trans run
      exact holds

/-- After every history of connected and disconnected slots `connect` terminates with a new key
that is not zero, `disconnect` removes the slot of its key and no other, and a call of the signal
calls the slots that are connected, each of them once. -/
theorem keys_unique (reaches : Reaches signal connected) :
    (connected.length < 65535 → ∀ slot, ∃ key after,
        (∀ fuel, 65535 ≤ fuel → signal.connect fuel slot = some (key, after)) ∧ key ≠ 0 ∧
          (∀ entry ∈ connected, entry.1 ≠ key) ∧
            after.call.Perm ((connected ++ [(key, slot)]).map Prod.snd)) ∧
      (∀ key, ∃ after, signal.disconnect key = some after ∧
        after.call.Perm ((connected.filter fun entry => entry.1 ≠ key).map Prod.snd)) ∧
      (connected.map Prod.fst).Nodup ∧ signal.call.Perm (connected.map Prod.snd) := by
  have holds := reaches.holds
  refine ⟨?_, ?_, holds.nodup, holds.call⟩
  · intro few slot
    rcases holds.connect few slot with ⟨key, after, run, nonzero, unused, afterHolds⟩
    exact ⟨key, after, run, nonzero, unused, afterHolds.call⟩
  · intro key
    rcases holds.disconnect key with ⟨after, run, afterHolds⟩
    exact ⟨after, run, afterHolds.call⟩

/-- Two slots are connected, and the first one is disconnected again. -/
theorem keys_unique_second : ∃ (signal : Signal Nat) (connected : List (BindingKey × Nat)),
    Reaches signal connected ∧ connected.map Prod.snd = [8] ∧ signal.call.Perm [8] := by
  have start : Reaches (init : Signal Nat) [] := Reaches.init
  rcases (keys_unique start).1 (by decide) 7 with ⟨first, one, runOne, _⟩
  have reachesOne : Reaches one [(first, 7)] := start.connect (by decide) (runOne _ le_rfl)
  rcases (keys_unique reachesOne).1 (by simp) 8 with ⟨second, two, runTwo, _, unused, _⟩
  have reachesTwo : Reaches two [(first, 7), (second, 8)] :=
    reachesOne.connect (by simp) (runTwo _ le_rfl)
  rcases (keys_unique reachesTwo).2.1 first with ⟨after, run, _⟩
  have different : first ≠ second := unused _ mem_cons_self
  have left : [(first, 7), (second, 8)].filter (fun entry => entry.1 ≠ first) = [(second, 8)] := by
    simp [different.symm]
  have reaches := reachesTwo.disconnect run
  rw [left] at reaches
  exact ⟨after, _, reaches, rfl, (keys_unique reaches).2.2.2⟩

end Signal

end Eagine
