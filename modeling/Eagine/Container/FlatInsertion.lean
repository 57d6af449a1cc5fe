import Eagine.Container.FlatStorage
import Eagine.Container.StaticVector

/-!
# Insertion with a hint

The search from a hint assumes that there is no element with the key yet, except at the hint.
If there is one in another place, then a second one is inserted.
-/

open List

namespace Eagine.Container

open Theory List Option
open StrictWeakOrder (asymm irrefl ofLinearOrder)
open Prod (fst)

universe u v

variable {p : Nat}

namespace FlatStorage

variable {E : Type u} {Key : Type v} {cmp : StrictWeakOrder Key} {key : E → Key}

section Place

variable {front back : List E} {k : Key} (isFront : ∀ e ∈ front, cmp.before (key e) k = true)
  (isBack : ∀ e ∈ back, cmp.before (key e) k = false)

include isFront isBack

theorem lowerBound_append : lowerBound cmp key (front ++ back) k = front.length :=
  Theory.lowerBound_append isFront isBack

variable [DecidableEq Key]

variable (cmp key) in
omit [DecidableEq Key] isFront isBack in
/-- The first element that is not before the key has the key. -/
def HoldsFirst (storage : List E) (k : Key) : Prop :=
  ∃ e, storage.find? (fun e => !cmp.before (key e) k) = some e ∧ key e = k

omit [DecidableEq Key] in
theorem holdsFirst_append :
    HoldsFirst cmp key (front ++ back) k ↔ ∃ e, back.head? = some e ∧ key e = k := by
  have nothing : front.find? (fun e => !cmp.before (key e) k) = none := by
    refine find?_eq_none.mpr fun e within => ?_
    simp [isFront e within]
  rw [HoldsFirst, find?_append, nothing, none_or]
  cases back with
  | nil => rfl
  | cons first back => simp [isBack first mem_cons_self]

theorem findInsertPos_append :
    (findInsertPos cmp key (front ++ back) k).1 = front.length ∧
      ((findInsertPos cmp key (front ++ back) k).2 = true ↔
        ¬HoldsFirst cmp key (front ++ back) k) := by
  have next : (front ++ back)[front.length]? = back.head? := by
    rw [getElem?_append_right le_rfl, Nat.sub_self, head?_eq_getElem?]
  rw [holdsFirst_append isFront isBack, findInsertPos, lowerBound_append isFront isBack, next]
  refine ⟨rfl, ?_⟩
  cases back.head? with
  | none => simp
  | some first =>
      rw [Bool.not_eq_true', decide_eq_false_iff_not]
      refine not_congr ⟨fun same => ⟨first, rfl, same.symm⟩, ?_⟩
      rintro ⟨_, ⟨⟩, same⟩
      exact same.symm

theorem insert_append_of_holdsFirst {value : E} (same : key value = k)
    (holds : HoldsFirst cmp key (front ++ back) k) :
    (insert cmp key (front ++ back) value).1 = front ++ back := by
  have found := (findInsertPos_append isFront isBack).2.not.mpr (not_not.mpr holds)
  rw [insert, doInsert, same, if_neg found]

theorem insert_append_of_not_holdsFirst {value : E} (same : key value = k)
    (missing : ¬HoldsFirst cmp key (front ++ back) k) :
    (insert cmp key (front ++ back) value).1 = front ++ value :: back := by
  rcases findInsertPos_append isFront isBack with ⟨place, found⟩
  rw [insert, doInsert, same, if_pos (found.mpr missing), place, StdVector.insertIdx_append]

/-- At the end, the search is that without a hint. -/
theorem findInsertPosNear_length :
    findInsertPosNear cmp key (front ++ back) (front ++ back).length k =
      some (findInsertPos cmp key (front ++ back) k) := by
  have bound := lowerBound_append isFront isBack
  rw [findInsertPosNear, findInsertPos, bound]
  cases back with
  | nil =>
      have ends : endsBefore cmp key front k = true := by
        rw [endsBefore]
        cases last : front.getLast? with
        | none => rfl
        | some e => exact isFront e (mem_of_getLast? last)
      simp [ends]
  | cons first back =>
      have notBefore : cmp.before (key ((first :: back).getLast (cons_ne_nil _ _))) k = false :=
        isBack _ (getLast_mem _)
      have notEnds : endsBefore cmp key (front ++ first :: back) k = false := by
        rw [endsBefore, getLast?_append, getLast?_eq_some_getLast (cons_ne_nil _ _)]
        exact notBefore
      have here : (front ++ first :: back)[front.length]? = some first := by simp
      have upTo : Theory.lowerBound (fun e => cmp.before (key e) k)
          ((front ++ first :: back).take front.length) = front.length := by
        rw [lowerBound_take_append isFront isBack, Nat.min_self]
      have from' : front.length + Theory.lowerBound (fun e => cmp.before (key e) k)
          ((front ++ first :: back).drop front.length) = front.length := by
        rw [lowerBound_drop_append isFront isBack, Nat.max_self]
      simp only [notEnds, Bool.false_eq_true, and_false, if_false, if_true, here, upTo, from']
      by_cases same : k = key first
      · simp [same]
      · simp only [same, if_false, decide_false, Bool.not_false]
        split_ifs with _ empty
        · rw [empty]
        · rfl
        · rfl

/-- At an element, the search goes on where the element and the key say. -/
theorem findInsertPosNear_of_getElem? {e : E} (here : (front ++ back)[p]? = some e) :
    findInsertPosNear cmp key (front ++ back) p k =
      some (if k = key e then (p, false)
        else if cmp.before k (key e) then (front.length, true)
        else (max p front.length, true)) := by
  have inside : p < (front ++ back).length := (List.getElem?_eq_some_iff.mp here).1
  rw [findInsertPosNear]
  simp only [inside.ne, false_and, if_false, here]
  split_ifs with _ after empty
  · rfl
  · -- there is no element in front of the first one
    have notLess : ¬p < front.length := by
      intro inFront
      rw [getElem?_append_left inFront] at here
      have less := isFront e (mem_of_getElem? here)
      exact Bool.false_ne_true ((asymm after).symm.trans less)
    have nothing : front.length = 0 := by omega
    rw [nothing, empty]
  · have behind : front.length ≤ p := by
      by_contra inFront
      rw [getElem?_append_left (Nat.lt_of_not_le inFront)] at here
      have less := isFront e (mem_of_getElem? here)
      exact Bool.false_ne_true ((asymm after).symm.trans less)
    rw [lowerBound_take_append isFront isBack, Nat.min_eq_right behind]
  · rw [lowerBound_drop_append isFront isBack]

end Place

section Hints

variable [DecidableEq Key]

variable (cmp key) in
omit [DecidableEq Key] in
/-- The hint is the end, or its element has the key exactly if the first element that is not
before the key has it. If the element is only equivalent to the key, it is the first one. -/
def HintFits (storage : List E) (p : Nat) (k : Key) : Prop :=
  p = storage.length ∨
    ∃ e, storage[p]? = some e ∧ (key e = k ↔ HoldsFirst cmp key storage k) ∧
      (key e ≠ k → cmp.Equivalent (key e) k →
        ∀ earlier ∈ storage.take p, cmp.before (key earlier) k = true)

omit [DecidableEq Key] in
theorem exists_split {storage : List E} (sorted : (cmp.on key).Sorted storage) (k : Key) :
    ∃ front back, storage = front ++ back ∧ (∀ e ∈ front, cmp.before (key e) k = true) ∧
      ∀ e ∈ back, cmp.before (key e) k = false :=
  Theory.exists_split (sorted.pairwise_before k)

section Place

variable {front back : List E} {value : E}
  (isFront : ∀ e ∈ front, cmp.before (key e) (key value) = true)
  (isBack : ∀ e ∈ back, cmp.before (key e) (key value) = false)

include isFront isBack

theorem eq_insert_iff :
    front ++ back = (insert cmp key (front ++ back) value).1 ↔
      HoldsFirst cmp key (front ++ back) (key value) := by
  by_cases holds : HoldsFirst cmp key (front ++ back) (key value)
  · rw [insert_append_of_holdsFirst isFront isBack rfl holds]
    exact iff_of_true rfl holds
  · rw [insert_append_of_not_holdsFirst isFront isBack rfl holds]
    refine iff_of_false (fun same => ?_) holds
    have lengths := congrArg List.length same
    rw [length_append, length_append, length_cons] at lengths
    omega

/-- The insertion in a place has another length if the key is there, and another element in its
place if that is not the place of the key. -/
theorem insertIdx_eq_insert_iff (behind : front.length ≤ p) (inside : p ≤ (front ++ back).length) :
    (front ++ back).insertIdx p value = (insert cmp key (front ++ back) value).1 ↔
      ¬HoldsFirst cmp key (front ++ back) (key value) ∧ p = front.length := by
  by_cases holds : HoldsFirst cmp key (front ++ back) (key value)
  · rw [insert_append_of_holdsFirst isFront isBack rfl holds]
    refine iff_of_false (fun same => ?_) (fun ⟨missing, _⟩ => missing holds)
    have lengths := congrArg List.length same
    rw [length_insertIdx_of_le_length inside] at lengths
    omega
  · rw [insert_append_of_not_holdsFirst isFront isBack rfl holds, and_iff_right holds]
    constructor
    · intro same
      by_contra notPlace
      -- the element after the front would have the key
      have here : ((front ++ back).insertIdx p value)[front.length]? = some value := by
        rw [same, getElem?_append_right le_rfl, Nat.sub_self]
        rfl
      rw [getElem?_insertIdx_of_lt (by omega), getElem?_append_right le_rfl,
        Nat.sub_self, ← head?_eq_getElem?] at here
      exact holds ((holdsFirst_append isFront isBack).mpr ⟨value, here, rfl⟩)
    · rintro rfl
      exact StdVector.insertIdx_append front back value

omit [DecidableEq Key] isFront isBack in
theorem mem_of_getElem?_append {e : E} (here : (front ++ back)[p]? = some e)
    (behind : front.length ≤ p) : e ∈ back := by
  rw [getElem?_append_right behind] at here
  exact mem_of_getElem? here

omit [DecidableEq Key] in
/-- All that is earlier than a position is before the key if the position is not behind the
place. -/
theorem forall_take_before_iff (within : p < (front ++ back).length) :
    (∀ earlier ∈ (front ++ back).take p, cmp.before (key earlier) (key value) = true) ↔
      p ≤ front.length := by
  constructor
  · intro allBefore
    by_contra behind
    have place : front.length < (front ++ back).length := by omega
    have earlier : (front ++ back)[front.length] ∈ (front ++ back).take p :=
      mem_take_iff_getElem.mpr ⟨front.length, by omega, rfl⟩
    have less := allBefore _ earlier
    rw [getElem_append_right le_rfl, isBack _ (getElem_mem _)] at less
    exact Bool.false_ne_true less
  · intro upTo e earlier
    rw [take_append_of_le_length upTo] at earlier
    exact isFront e (mem_of_mem_take earlier)

end Place

/-- A hint does not change the elements after the insertion exactly if it fits. -/
theorem insertHint_eq_insert_iff {storage : List E} (sorted : (cmp.on key).Sorted storage)
    (inside : p ≤ storage.length) (value : E) :
    (insertHint cmp key storage p value).map fst = some (insert cmp key storage value).1 ↔
      HintFits cmp key storage p (key value) := by
  rcases exists_split sorted (key value) with ⟨front, back, rfl, isFront, isBack⟩
  rcases Nat.lt_or_eq_of_le inside with within | rfl
  · have here := getElem?_eq_getElem within
    generalize (front ++ back)[p] = e at here
    have fits : HintFits cmp key (front ++ back) p (key value) ↔
        (key e = key value ↔ HoldsFirst cmp key (front ++ back) (key value)) ∧
          (key e ≠ key value → cmp.Equivalent (key e) (key value) → p ≤ front.length) := by
      rw [HintFits, or_iff_right within.ne, here,
        forall_take_before_iff isFront isBack within]
      simp
    rw [fits, insertHint, findInsertPosNear_of_getElem? isFront isBack here, map_some,
      map_some, some_inj]
    by_cases same : key e = key value
    · have atKey := eq_insert_iff isFront isBack
      simpa [same, doInsert] using atKey
    · rw [if_neg (Ne.symm same), iff_false_left same]
      cases after : cmp.before (key value) (key e) with
      | true =>
          have atPlace := insertIdx_eq_insert_iff isFront isBack le_rfl (by simp)
          simpa [doInsert, same, StrictWeakOrder.Equivalent, after] using atPlace
      | false =>
          have behind := Nat.le_max_right p front.length
          have upTo : max p front.length ≤ (front ++ back).length := by
            rw [length_append] at inside ⊢
            omega
          have atPlace := insertIdx_eq_insert_iff isFront isBack behind upTo
          have equivalent : (cmp.Equivalent (key e) (key value) → p ≤ front.length) ↔
              max p front.length = front.length := by
            rw [sup_eq_right]
            refine ⟨fun first => ?_, fun upTo _ => upTo⟩
            by_contra notUpTo
            have member := mem_of_getElem?_append here (Nat.le_of_not_le notUpTo)
            exact notUpTo (first ⟨isBack e member, after⟩)
          simpa [doInsert, same, equivalent] using atPlace
  · have fits : HintFits cmp key (front ++ back) (front ++ back).length (key value) := Or.inl rfl
    rw [iff_true_right fits, insertHint, findInsertPosNear_length isFront isBack]
    rfl

omit [DecidableEq Key] in
theorem sorted_insertIdx {storage : List E} (sorted : (cmp.on key).Sorted storage)
    (inside : p ≤ storage.length) {value : E}
    (notAfter : ∀ e ∈ storage.take p, cmp.before (key value) (key e) = false)
    (notBefore : ∀ e ∈ storage.drop p, cmp.before (key e) (key value) = false) :
    (cmp.on key).Sorted (storage.insertIdx p value) := by
  have place : (storage.take p).length = p := length_take_of_le inside
  have whole := StdVector.insertIdx_append (storage.take p) (storage.drop p) value
  rw [take_append_drop, place] at whole
  rw [whole]
  rw [← take_append_drop p storage] at sorted
  exact sorted.insert notAfter notBefore

theorem sorted_insert {storage : List E} (sorted : (cmp.on key).Sorted storage) (value : E) :
    (cmp.on key).Sorted (insert cmp key storage value).1 := by
  rcases exists_split sorted (key value) with ⟨front, back, rfl, isFront, isBack⟩
  by_cases holds : HoldsFirst cmp key (front ++ back) (key value)
  · rwa [insert_append_of_holdsFirst isFront isBack rfl holds]
  · rw [insert_append_of_not_holdsFirst isFront isBack rfl holds]
    exact sorted.insert (fun e within => asymm (isFront e within)) isBack

/-- A storage without equivalent keys stays one. -/
theorem strictlySorted_insert (equal : ∀ a b, cmp.Equivalent a b → a = b) {storage : List E}
    (strict : (cmp.on key).StrictlySorted storage) (value : E) :
    (cmp.on key).StrictlySorted (insert cmp key storage value).1 := by
  rcases exists_split strict.sorted (key value) with ⟨front, back, rfl, isFront, isBack⟩
  by_cases holds : HoldsFirst cmp key (front ++ back) (key value)
  · rwa [insert_append_of_holdsFirst isFront isBack rfl holds]
  · rw [insert_append_of_not_holdsFirst isFront isBack rfl holds]
    refine strict.insert isFront fun e within => ?_
    cases back with
    | nil => exact absurd within not_mem_nil
    | cons first back =>
        have different : key first ≠ key value :=
          fun same => holds ((holdsFirst_append isFront isBack).mpr ⟨first, rfl, same⟩)
        have greater : cmp.before (key value) (key first) = true := by
          by_contra notAfter
          rw [Bool.not_eq_true] at notAfter
          exact different (equal _ _ ⟨isBack first mem_cons_self, notAfter⟩)
        rcases mem_cons.mp within with rfl | later
        · exact greater
        · have strictBack := (pairwise_append.mp strict).2.1
          exact StrictWeakOrder.trans greater ((pairwise_cons.mp strictBack).1 e later)

theorem sorted_insertHint {storage : List E} (sorted : (cmp.on key).Sorted storage)
    (inside : p ≤ storage.length) (value : E) {result : List E × Nat}
    (inserted : insertHint cmp key storage p value = some result) :
    (cmp.on key).Sorted result.1 := by
  rcases exists_split sorted (key value) with ⟨front, back, rfl, isFront, isBack⟩
  rw [insertHint, map_eq_some_iff] at inserted
  rcases inserted with ⟨ip, found, rfl⟩
  rcases Nat.lt_or_eq_of_le inside with within | rfl
  · have here := getElem?_eq_getElem within
    have later : (front ++ back)[p] ∈ (front ++ back).drop p :=
      mem_drop_iff_getElem.mpr ⟨0, by simpa using within, by simp⟩
    generalize (front ++ back)[p] = e at here later
    rw [findInsertPosNear_of_getElem? isFront isBack here, some_inj] at found
    subst found
    split_ifs with same after
    · exact sorted
    · refine sorted_insertIdx sorted (by simp) (fun earlier member => ?_) fun behind member => ?_
      · rw [take_left] at member
        exact asymm (isFront earlier member)
      · rw [drop_left] at member
        exact isBack behind member
    · refine sorted_insertIdx sorted ?_ (fun earlier member => ?_) fun behind member => ?_
      · rw [length_append] at inside ⊢
        change max p front.length ≤ _
        omega
      · rcases Nat.le_total p front.length with upTo | behind
        · rw [Nat.max_eq_right upTo, take_left] at member
          exact asymm (isFront earlier member)
        · -- what is earlier than an element that is not after the key is not after it
          rw [Nat.max_eq_left behind] at member
          have ordered := sorted.pairwise_not_after (key value)
          rw [← take_append_drop p (front ++ back)] at ordered
          have across := (pairwise_append.mp ordered).2.2 earlier member e later
          rw [Bool.not_eq_true', Bool.not_eq_true'] at across
          exact across (Bool.not_eq_true _ ▸ after)
      · rw [drop_append, drop_eq_nil_of_le (Nat.le_max_right _ _),
          nil_append] at member
        exact isBack behind (mem_of_mem_drop member)
  · rw [findInsertPosNear_length isFront isBack, some_inj] at found
    subst found
    exact sorted_insert sorted value

omit [DecidableEq Key] in
theorem sorted_eraseKey {storage : List E} (sorted : (cmp.on key).Sorted storage) (k : Key) :
    (cmp.on key).Sorted (eraseKey cmp key storage k).1 := by
  rw [eraseKey]
  split
  · split_ifs
    · exact sorted
    · exact sorted.sublist (eraseIdx_sublist _ _)
  · exact sorted

variable {sort : SortFunction (cmp.on key)}

theorem sorted_perform {storage result : List E}
    (sorted : (cmp.on key).Sorted storage) {op : Operation E Key}
    (performed : perform sort storage op = some result) : (cmp.on key).Sorted result := by
  cases op with
  | insert value =>
      obtain rfl := some_inj.mp performed
      exact sorted_insert sorted value
  | insertHint p value =>
      rw [perform] at performed
      split_ifs at performed with inside
      rcases map_eq_some_iff.mp performed with ⟨inserted, found, rfl⟩
      exact sorted_insertHint sorted inside value found
  | erase p =>
      rw [perform] at performed
      split_ifs at performed
      obtain rfl := some_inj.mp performed
      exact sorted.sublist (eraseIdx_sublist _ _)
  | eraseRange f t =>
      rw [perform] at performed
      split_ifs at performed with inside
      obtain rfl := some_inj.mp performed
      have part : (storage.take f ++ storage.drop t).Sublist (storage.take f ++ storage.drop f) :=
        List.Sublist.append_left (drop_sublist_drop_left storage inside.1) _
      rw [take_append_drop] at part
      exact sorted.sublist part
  | eraseKey k =>
      obtain rfl := some_inj.mp performed
      exact sorted_eraseKey sorted k
  | eraseIf predicate =>
      obtain rfl := some_inj.mp performed
      exact sorted.sublist filter_sublist
  | assign list =>
      obtain rfl := some_inj.mp performed
      exact sort.sorted list
  | clear =>
      obtain rfl := some_inj.mp performed
      exact List.Pairwise.nil

/-- All reachable storages are sorted, if not strictly. -/
theorem sorted_after {ops : List (Operation E Key)}
    {storage : List E} (reached : after sort ops = some storage) :
    (cmp.on key).Sorted storage :=
  run_invariant (fun _ _ _ _ sorted performed => sorted_perform sorted performed)
    List.Pairwise.nil reached

end Hints

end FlatStorage

open FlatStorage

variable {Key : Type u} {Val : Type v} [DecidableEq Key] (cmp : StrictWeakOrder Key)

/-- The map has the same elements after an insertion with a hint as after one without, and it
stays strictly sorted if it is and equivalent keys are equal. -/
structure FlatMap.HintChangesNothing (m : FlatMap Key Val) (p : Nat) (k : Key) (value : Val) :
    Prop where
  insert : (m.insertHintBy cmp p (k, value)).map fst = some (m.insertBy cmp (k, value)).1
  emplace : (m.emplaceHint cmp p k value).map fst = some (m.emplaceBy cmp k value).1
  sorted : (∀ a b, cmp.Equivalent a b → a = b) →
    (FlatMap.valueComp Val cmp).StrictlySorted m.storage →
    ∀ inserted ∈ m.insertHintBy cmp p (k, value),
      (FlatMap.valueComp Val cmp).StrictlySorted inserted.1.storage

structure FlatSet.HintChangesNothing (s : FlatSet Key) (p : Nat) (value : Key) : Prop where
  insert : (s.insertHint cmp p value).map fst = some (s.insert cmp value).1
  sorted : (∀ a b, cmp.Equivalent a b → a = b) →
    (FlatSet.valueComp cmp).StrictlySorted s.storage →
    ∀ inserted ∈ s.insertHint cmp p value,
      (FlatSet.valueComp cmp).StrictlySorted inserted.1.storage

variable {cmp} {m : FlatMap Key Val}

theorem FlatMap.insertHintBy_eq_iff {value : Key × Val} :
    (m.insertHintBy cmp p value).map fst = some (m.insertBy cmp value).1 ↔
      (FlatStorage.insertHint cmp fst m.storage p value).map fst =
        some (FlatStorage.insert cmp fst m.storage value).1 := by
  rw [insertHintBy, insertBy]
  cases FlatStorage.insertHint cmp fst m.storage p value with
  | none => simp
  | some inserted => simp

theorem FlatSet.insertHint_eq_iff {s : FlatSet Key} {value : Key} :
    (s.insertHint cmp p value).map fst = some (s.insert cmp value).1 ↔
      (FlatStorage.insertHint cmp id s.storage p value).map fst =
        some (FlatStorage.insert cmp id s.storage value).1 := by
  rw [insertHint, insert]
  cases FlatStorage.insertHint cmp id s.storage p value with
  | none => simp
  | some inserted => simp

/-- An element that is constructed is inserted. -/
theorem FlatMap.emplaceHint_eq {k : Key} {value : Val} :
    m.emplaceHint cmp p k value = m.insertHintBy cmp p (k, value) := by
  rw [emplaceHint, insertHintBy, FlatStorage.insertHint, Option.map_map]
  rfl

theorem FlatMap.hintChangesNothing_iff
    (sorted : (FlatMap.valueComp Val cmp).Sorted m.storage) (inside : p ≤ m.size)
    (k : Key) (value : Val) :
    m.HintChangesNothing cmp p k value ↔ HintFits cmp fst m.storage p k := by
  have contents := insertHint_eq_insert_iff sorted inside (k, value)
  constructor
  · intro nothing
    exact contents.mp (insertHintBy_eq_iff.mp nothing.insert)
  · intro fits
    have same := insertHintBy_eq_iff.mpr (contents.mpr fits)
    refine ⟨same, ?_, fun equal strict inserted found => ?_⟩
    · rw [emplaceHint_eq]
      exact same
    · rw [mem_def.mp found, map_some, some_inj] at same
      rw [same]
      exact strictlySorted_insert equal strict (k, value)

theorem FlatSet.hintChangesNothing_iff {s : FlatSet Key}
    (sorted : (FlatSet.valueComp cmp).Sorted s.storage) (inside : p ≤ s.size)
    (value : Key) : s.HintChangesNothing cmp p value ↔ HintFits cmp id s.storage p value := by
  have contents := insertHint_eq_insert_iff sorted inside value
  constructor
  · intro nothing
    exact contents.mp (insertHint_eq_iff.mp nothing.insert)
  · intro fits
    have same := insertHint_eq_iff.mpr (contents.mpr fits)
    refine ⟨same, fun equal strict inserted found => ?_⟩
    rw [mem_def.mp found, map_some, some_inj] at same
    rw [same]
    exact strictlySorted_insert equal strict value

namespace FlatStorage

variable {E : Type*} {key : E → Key} (equal : ∀ a b, cmp.Equivalent a b → a = b)

include equal

omit [DecidableEq Key] in
theorem holdsFirst_iff_of_equal {storage : List E} (sorted : (cmp.on key).Sorted storage)
    (k : Key) : HoldsFirst cmp key storage k ↔ ∃ e ∈ storage, key e = k := by
  constructor
  · rintro ⟨e, found, same⟩
    exact ⟨e, mem_of_find?_eq_some found, same⟩
  · rintro ⟨e, within, rfl⟩
    rcases exists_split sorted (key e) with ⟨front, back, rfl, isFront, isBack⟩
    rw [holdsFirst_append isFront isBack]
    rcases mem_append.mp within with inFront | inBack
    · exact absurd ((irrefl _).symm.trans (isFront e inFront)) Bool.false_ne_true
    · cases back with
      | nil => exact absurd inBack not_mem_nil
      | cons first back =>
          refine ⟨first, rfl, equal _ _ ⟨isBack first mem_cons_self, ?_⟩⟩
          rcases mem_cons.mp inBack with rfl | later
          · exact irrefl _
          · have sortedBack := (pairwise_append.mp sorted).2.1
            exact (pairwise_cons.mp sortedBack).1 e later

/-- If equivalent keys are equal, a hint fits unless the key is in another place only. -/
theorem hintFits_iff_of_equal {storage : List E} (sorted : (cmp.on key).Sorted storage)
    (inside : p ≤ storage.length) (k : Key) :
    HintFits cmp key storage p k ↔
      p = storage.length ∨ (∃ e, storage[p]? = some e ∧ key e = k) ∨
        ∀ e ∈ storage, key e ≠ k := by
  rw [HintFits, holdsFirst_iff_of_equal equal sorted]
  refine or_congr_right' fun notEnd => ?_
  have isElement : p < storage.length := Nat.lt_of_le_of_ne inside notEnd
  have here := getElem?_eq_getElem isElement
  have within := getElem_mem isElement
  generalize storage[p] = e at here within
  rw [here]
  simp only [some_inj, exists_eq_left']
  constructor
  · rintro ⟨present, -⟩
    by_cases same : key e = k
    · exact Or.inl same
    · exact Or.inr fun other member same' => same (present.mpr ⟨other, member, same'⟩)
  · rintro (same | missing)
    · exact ⟨iff_of_true same ⟨e, within, same⟩, fun different => absurd same different⟩
    · refine ⟨iff_of_false (missing e within) ?_, fun different equivalent => ?_⟩
      · rintro ⟨other, member, same⟩
        exact missing other member same
      · exact absurd (equal _ _ equivalent) different

end FlatStorage

/-- In all reachable maps and sets, a hint changes nothing exactly if it fits. -/
theorem flat_hintChangesNothing_iff (sortMap : SortFunction (FlatMap.valueComp Val cmp))
    (sortSet : SortFunction (FlatSet.valueComp cmp)) :
    (∀ (ops : List (Operation (Key × Val) Key)) (m : FlatMap Key Val),
        after sortMap ops = some m.storage → ∀ p ≤ m.size, ∀ k value,
          (m.HintChangesNothing cmp p k value ↔ HintFits cmp fst m.storage p k)) ∧
      ∀ (ops : List (Operation Key Key)) (s : FlatSet Key),
        after sortSet ops = some s.storage → ∀ p ≤ s.size, ∀ value,
          (s.HintChangesNothing cmp p value ↔ HintFits cmp id s.storage p value) := by
  constructor
  · intro ops m reached p inside k value
    exact FlatMap.hintChangesNothing_iff (sorted_after reached) inside k value
  · intro ops s reached p inside value
    exact FlatSet.hintChangesNothing_iff (sorted_after reached) inside value

/-- The keys 1, 2 and 3, in a map and in a set, with the hint at the first one for the second. -/
theorem flat_hintChangesNothing_iff_sample :
    ((⟨[(1, 0), (2, 0), (3, 0)]⟩ : FlatMap Nat Nat).HintChangesNothing
        (ofLinearOrder Nat) 0 2 7 ↔
      HintFits (ofLinearOrder Nat) fst [(1, 0), (2, 0), (3, 0)] 0 2) ∧
    ((⟨[1, 2, 3]⟩ : FlatSet Nat).HintChangesNothing (ofLinearOrder Nat) 0 2 ↔
      HintFits (ofLinearOrder Nat) id [1, 2, 3] 0 2) := by
  have all := flat_hintChangesNothing_iff
    (SortFunction.insertion (FlatMap.valueComp Nat (ofLinearOrder Nat)))
    (SortFunction.insertion (FlatSet.valueComp (ofLinearOrder Nat)))
  constructor
  · exact all.1 [.assign [(3, 0), (1, 0), (2, 0)]] ⟨[(1, 0), (2, 0), (3, 0)]⟩ (by decide) 0
      (by decide) 2 7
  · exact all.2 [.assign [3, 1, 2]] ⟨[1, 2, 3]⟩ (by decide) 0 (by decide) 2

theorem not_forall_hintChangesNothing :
    ¬∀ (ops : List (Operation Nat Nat)) (s : FlatSet Nat),
      after (SortFunction.insertion (FlatSet.valueComp (ofLinearOrder Nat))) ops =
          some s.storage →
        ∀ p ≤ s.size, ∀ value,
          s.HintChangesNothing (ofLinearOrder Nat) p value := by
  intro nothing
  have sorted : (FlatSet.valueComp (ofLinearOrder Nat)).Sorted [1, 2, 3] := by
    rw [StrictWeakOrder.Sorted]
    decide
  have equal (a b : Nat) (same : (ofLinearOrder Nat).Equivalent a b) : a = b := by
    simp only [StrictWeakOrder.Equivalent, ofLinearOrder,
      decide_eq_false_iff_not] at same
    omega
  have harmless := nothing [.assign [3, 1, 2]] ⟨[1, 2, 3]⟩ (by decide) 0 (by decide) 2
  rw [FlatSet.hintChangesNothing_iff sorted (by decide),
    hintFits_iff_of_equal equal sorted (by decide)] at harmless
  simp at harmless

end Eagine.Container

/-!
## Assignment of elements

What is assigned is sorted, but nothing is removed. So the keys are unique exactly if those of
the assigned elements are.
-/

namespace Eagine.Container

open Theory

universe u v

namespace FlatStorage

variable {E : Type u} {Key : Type v} {cmp : StrictWeakOrder Key} {key : E → Key}

variable (cmp key) in
/-- No two elements have equivalent keys. -/
def KeysDiffer (list : List E) : Prop :=
  list.Pairwise fun a b => ¬cmp.Equivalent (key a) (key b)

theorem strictlySorted_sort_iff (sort : SortFunction (cmp.on key)) (list : List E) :
    (cmp.on key).StrictlySorted (sort.sort list) ↔ KeysDiffer cmp key list := by
  rw [(sort.sorted list).strictlySorted_iff]
  exact (sort.perm list).pairwise_iff fun different same => different same.symm

theorem KeysDiffer.nodup {list : List E} (differ : KeysDiffer cmp key list) :
    (list.map key).Nodup := by
  refine pairwise_map.mpr (differ.imp fun {a b} different same => different ?_)
  rw [same]
  exact StrictWeakOrder.Equivalent.refl _

theorem length_sort [DecidableEq Key] (sort : SortFunction (cmp.on key)) {list : List E}
    (differ : KeysDiffer cmp key list) :
    (sort.sort list).length = (list.map key).toFinset.card := by
  rw [(sort.perm list).length_eq, toFinset_card_of_nodup differ.nodup, length_map]

/-- Of a strictly sorted storage, everything with the key is erased. -/
theorem not_equivalent_of_mem_eraseKey {storage : List E}
    (strict : (cmp.on key).StrictlySorted storage) (k : Key) {e : E}
    (rest : e ∈ (eraseKey cmp key storage k).1) : ¬cmp.Equivalent (key e) k := by
  rcases exists_split strict.sorted k with ⟨front, back, rfl, isFront, isBack⟩
  have inFront (member : e ∈ front) : ¬cmp.Equivalent (key e) k :=
    fun same => Bool.false_ne_true (same.1.symm.trans (isFront e member))
  have next : (front ++ back)[front.length]? = back.head? := by
    rw [getElem?_append_right le_rfl, Nat.sub_self, head?_eq_getElem?]
  rw [eraseKey, lowerBound_append isFront isBack, next] at rest
  have strictBack : (cmp.on key).StrictlySorted back := (pairwise_append.mp strict).2.1
  cases back with
  | nil =>
      rw [append_nil] at rest
      exact inFront rest
  | cons first back =>
      have firstBefore := (pairwise_cons.mp strictBack).1
      cases after : cmp.before k (key first) with
      | true =>
          simp only [head?_cons, after, if_true] at rest
          rcases mem_append.mp rest with member | member
          · exact inFront member
          · intro same
            rcases mem_cons.mp member with rfl | later
            · exact Bool.false_ne_true (same.2.symm.trans after)
            · have before := StrictWeakOrder.trans after (firstBefore e later)
              exact Bool.false_ne_true (same.2.symm.trans before)
      | false =>
          -- the first element is the one that is erased
          have removed : (front ++ first :: back).eraseIdx front.length = front ++ back := by
            rw [eraseIdx_append_of_length_le le_rfl, Nat.sub_self]
            rfl
          simp only [head?_cons, after, Bool.false_eq_true, if_false, removed] at rest
          rcases mem_append.mp rest with member | later
          · exact inFront member
          · intro same
            have equivalent : cmp.Equivalent (key first) k :=
              ⟨isBack first mem_cons_self, after⟩
            have unordered := equivalent.trans same.symm
            exact Bool.false_ne_true (unordered.1.symm.trans (firstBefore e later))

end FlatStorage

open FlatStorage

variable {Key : Type u} {Val : Type v} [DecidableEq Key] (cmp : StrictWeakOrder Key)

/-- The map holds every key of the list once: it is strictly sorted, its size is the number of
the keys, and erasing a key leaves no element with it. -/
structure FlatMap.HoldsKeysOnce (m : FlatMap Key Val) (list : List (Key × Val)) : Prop where
  sorted : (FlatMap.valueComp Val cmp).StrictlySorted m.storage
  size : m.size = (list.map Prod.fst).toFinset.card
  erase : ∀ k, ∀ e ∈ (m.eraseBy cmp k).1.storage, ¬cmp.Equivalent e.1 k

structure FlatSet.HoldsKeysOnce (s : FlatSet Key) (list : List Key) : Prop where
  sorted : (FlatSet.valueComp cmp).StrictlySorted s.storage
  size : s.size = list.toFinset.card
  erase : ∀ k, ∀ e ∈ (s.erase cmp k).1.storage, ¬cmp.Equivalent e k

variable {cmp}

/-- What is assigned to a map or to a set is held once exactly if no two of the assigned keys
are equivalent. -/
theorem holdsKeysOnce_assign_iff (sortMap : SortFunction (FlatMap.valueComp Val cmp))
    (sortSet : SortFunction (FlatSet.valueComp cmp)) :
    (∀ list : List (Key × Val),
        (FlatMap.assignBy sortMap list).HoldsKeysOnce cmp list ↔
          list.Pairwise fun a b => ¬cmp.Equivalent a.1 b.1) ∧
      ∀ list : List Key,
        (FlatSet.assign sortSet list).HoldsKeysOnce cmp list ↔
          list.Pairwise fun a b => ¬cmp.Equivalent a b := by
  constructor
  · intro list
    have strict := strictlySorted_sort_iff sortMap list
    constructor
    · exact fun once => strict.mp once.sorted
    · intro differ
      have sorted := strict.mpr differ
      exact ⟨sorted, length_sort sortMap differ,
        fun k _ rest => not_equivalent_of_mem_eraseKey sorted k rest⟩
  · intro list
    have strict := strictlySorted_sort_iff sortSet list
    constructor
    · exact fun once => strict.mp once.sorted
    · intro differ
      have sorted := strict.mpr differ
      have size := length_sort sortSet differ
      rw [map_id] at size
      exact ⟨sorted, size, fun k _ rest => not_equivalent_of_mem_eraseKey sorted k rest⟩

theorem not_forall_holdsKeysOnce_assign :
    ¬∀ list : List (Nat × Nat),
      (FlatMap.assignBy
          (SortFunction.insertion (FlatMap.valueComp Nat (.ofLinearOrder Nat))) list).HoldsKeysOnce
        (.ofLinearOrder Nat) list := by
  intro once
  have size := (once [(1, 10), (1, 20)]).size
  exact absurd size (by decide)

end Eagine.Container
