import Eagine.Container.FlatMap
import Eagine.Container.StaticVector

/-!
# Flat maps as finite maps

The storage stays strictly sorted by the keys, thus a key has a single place in it.
All the lookups agree with the finite map after the same operations.
-/

namespace Eagine.Container

open Theory List Finmap

universe u v

variable {Key : Type u} {Val : Type v} [LinearOrder Key]

namespace FlatMap

def IsSorted (storage : List (Key × Val)) : Prop :=
  storage.Pairwise fun a b => a.1 < b.1

variable {storage front : List (Key × Val)} {key : Key}

/-- A sorted storage is split in front of the keys that are not less than one. -/
theorem IsSorted.exists_split (sorted : IsSorted storage) (key : Key) :
    ∃ front back, storage = front ++ back ∧ (∀ e ∈ front, e.1 < key) ∧ ∀ e ∈ back, key ≤ e.1 := by
  have ordered : storage.Pairwise fun a b =>
      decide (b.1 < key) = true → decide (a.1 < key) = true :=
    sorted.imp fun {a b} less before =>
      decide_eq_true (less.trans (of_decide_eq_true before))
  obtain ⟨front, back, whole, isFront, isBack⟩ := Theory.exists_split ordered
  exact ⟨front, back, whole, fun e within => of_decide_eq_true (isFront e within),
    fun e within => not_lt.mp (of_decide_eq_false (isBack e within))⟩

/-- The place of a key that has an element, and of one that has none. -/
inductive Place (storage : List (Key × Val)) (key : Key) (front : List (Key × Val)) : Prop
  | present (value : Val) (back : List (Key × Val)) (whole : storage = front ++ (key, value) :: back)
      (isFront : ∀ e ∈ front, e.1 < key) (isBack : ∀ e ∈ back, key < e.1)
  | absent (back : List (Key × Val)) (whole : storage = front ++ back)
      (isFront : ∀ e ∈ front, e.1 < key) (isBack : ∀ e ∈ back, key < e.1)

theorem IsSorted.exists_place (sorted : IsSorted storage) (key : Key) :
    ∃ front, Place storage key front := by
  obtain ⟨front, back, rfl, isFront, isBack⟩ := sorted.exists_split key
  have sortedBack : IsSorted back := (pairwise_append.mp sorted).2.1
  cases back with
  | nil => exact ⟨front, .absent [] rfl isFront (by simp)⟩
  | cons first back =>
      obtain ⟨firstLess, -⟩ := pairwise_cons.mp sortedBack
      obtain ⟨firstNotLess, -⟩ := forall_mem_cons.mp isBack
      rcases firstNotLess.eq_or_lt with same | greater
      · subst same
        exact ⟨front, .present first.2 back rfl isFront firstLess⟩
      · refine ⟨front, .absent (first :: back) rfl isFront ?_⟩
        exact forall_mem_cons.mpr ⟨greater, fun e within => greater.trans (firstLess e within)⟩

theorem Place.split (place : Place storage key front) :
    ∃ back, storage = front ++ back ∧ (∀ e ∈ front, e.1 < key) ∧ ∀ e ∈ back, key ≤ e.1 := by
  cases place with
  | present value back whole isFront isBack =>
      refine ⟨(key, value) :: back, whole, isFront, forall_mem_cons.mpr ⟨le_rfl, ?_⟩⟩
      exact fun e within => (isBack e within).le
  | absent back whole isFront isBack =>
      exact ⟨back, whole, isFront, fun e within => (isBack e within).le⟩

theorem lowerBound_of_place (place : Place storage key front) :
    lowerBound ⟨storage⟩ key = front.length := by
  obtain ⟨back, rfl, isFront, isBack⟩ := place.split
  exact Theory.lowerBound_append (fun e within => decide_eq_true (isFront e within))
    (fun e within => decide_eq_false (not_lt.mpr (isBack e within)))

/-- The search from an element on, or up to it. -/
def searchAt (storage : List (Key × Val)) (key : Key) (position : Nat) : Option (Nat × Bool) :=
  match storage[position]? with
  | some element =>
      if key = element.1 then some (position, false)
      else if key < element.1 then
        some (if position = 0 then position
          else Theory.lowerBound (fun e : Key × Val => decide (e.1 < key))
            (storage.take position), true)
      else some (position + Theory.lowerBound (fun e : Key × Val => decide (e.1 < key))
        (storage.drop position), true)
  | none => none

theorem findInsertPosNear_eq_searchAt (m : FlatMap Key Val) (p : Nat) (key : Key) :
    findInsertPosNear m p key =
      if p = m.size ∧ m.endsBefore key then some (p, true)
      else searchAt m.storage key (if p = m.size then m.lowerBound key else p) :=
  rfl

section Hints

variable {front back : List (Key × Val)} {key : Key} (isFront : ∀ e ∈ front, e.1 < key)
  (isBack : ∀ e ∈ back, key < e.1)

include isFront isBack

/-- A search up to a position behind the place, or from one in front of it, ends at the place. -/
theorem lowerBound_near (p : Nat) :
    (front.length ≤ p → Theory.lowerBound (fun e : Key × Val => decide (e.1 < key))
        ((front ++ back).take p) = front.length) ∧
      (p ≤ front.length → p + Theory.lowerBound (fun e : Key × Val => decide (e.1 < key))
        ((front ++ back).drop p) = front.length) := by
  have allBefore : ∀ e ∈ front, decide (e.1 < key) = true :=
    fun e within => decide_eq_true (isFront e within)
  have noneBefore : ∀ e ∈ back, decide (e.1 < key) = false :=
    fun e within => decide_eq_false (isBack e within).asymm
  constructor
  · intro behind
    rw [Theory.lowerBound_take_append allBefore noneBefore, Nat.min_eq_right behind]
  · intro before
    rw [Theory.lowerBound_drop_append allBefore noneBefore, Nat.max_eq_right before]

/-- From every element the search ends at the place of a key without an element. -/
theorem searchAt_of_absent {position : Nat} (within : position < (front ++ back).length) :
    searchAt (front ++ back) key position = some (front.length, true) := by
  have searched := lowerBound_near isFront isBack position
  rw [searchAt]
  by_cases inFront : position < front.length
  · have less : front[position].1 < key := isFront _ (getElem_mem inFront)
    rw [getElem?_append_left inFront, getElem?_eq_getElem inFront]
    simp only [less.ne', less.asymm, if_false, searched.2 inFront.le]
  · have behind := Nat.le_of_not_lt inFront
    have inBack : position - front.length < back.length := by
      rw [length_append] at within
      omega
    have greater : key < back[position - front.length].1 := isBack _ (getElem_mem inBack)
    rw [getElem?_append_right behind, getElem?_eq_getElem inBack]
    simp only [greater.ne, greater, if_false, if_true, searched.1 behind]
    split
    · next first =>
        have nothing : front.length = 0 := by omega
        rw [first, nothing]
    · rfl

/-- A hint does not change the place of a key without an element. -/
theorem findInsertPosNear_of_absent {p : Nat} (inside : p ≤ (front ++ back).length) :
    findInsertPosNear ⟨front ++ back⟩ p key = some (front.length, true) := by
  have bound : lowerBound ⟨front ++ back⟩ key = front.length :=
    lowerBound_of_place (.absent back rfl isFront isBack)
  rw [findInsertPosNear_eq_searchAt, bound, size]
  cases back using List.reverseRecOn with
  | nil =>
      have behind : endsBefore ⟨front ++ []⟩ key = true := by
        rw [endsBefore]
        cases last : (front ++ []).getLast? with
        | none => rfl
        | some e =>
            have within := mem_of_getLast? last
            rw [append_nil] at within
            exact decide_eq_true (isFront e within)
      simp only [behind, and_true]
      split
      · next atEnd => rw [atEnd, append_nil]
      · next notEnd => exact searchAt_of_absent isFront isBack (Nat.lt_of_le_of_ne inside notEnd)
  | append_singleton others last =>
      have greater : key < last.1 := isBack last (mem_append_right _ mem_cons_self)
      have notBehind : endsBefore ⟨front ++ (others ++ [last])⟩ key = false := by
        rw [endsBefore, ← append_assoc, getLast?_concat]
        exact decide_eq_false greater.asymm
      simp only [notBehind, Bool.false_eq_true, and_false, if_false]
      apply searchAt_of_absent isFront isBack
      split
      · simp
      · next notEnd => exact Nat.lt_of_le_of_ne inside notEnd

end Hints

omit [LinearOrder Key] in
theorem getElem?_assignAt {m : FlatMap Key Val} {p : Nat} {old : Val}
    (present : m.storage[p]? = some (key, old)) (value : Val) :
    (m.assignAt p value).storage[p]? = some (key, value) := by
  rw [assignAt, present]
  exact List.getElem?_set_self (List.getElem?_eq_some_iff.mp present).1

/-- A sorted map with the elements of a finite map. -/
structure Represents (m : FlatMap Key Val) (map : Finmap fun _ : Key => Val) : Prop where
  sorted : IsSorted m.storage
  mem_iff : ∀ key value, (key, value) ∈ m.storage ↔ map.lookup key = some value

theorem represents_init : Represents (init : FlatMap Key Val) ∅ where
  sorted := List.Pairwise.nil
  mem_iff key value := by simp [init]

namespace Represents

variable {m : FlatMap Key Val} {map : Finmap fun _ : Key => Val}

variable {back : List (Key × Val)}

/-- An element of a key decides the lookup of the finite map. -/
theorem lookup_of_present (represents : Represents m map) {value : Val}
    (whole : m.storage = front ++ (key, value) :: back) : map.lookup key = some value := by
  refine (represents.mem_iff key value).mp ?_
  rw [whole]
  exact mem_append_right _ mem_cons_self

theorem lookup_of_absent (represents : Represents m map) (whole : m.storage = front ++ back)
    (isFront : ∀ e ∈ front, e.1 < key) (isBack : ∀ e ∈ back, key < e.1) :
    map.lookup key = none := by
  refine Option.eq_none_iff_forall_ne_some.mpr fun value found => ?_
  have within := (represents.mem_iff key value).mpr found
  rw [whole] at within
  rcases mem_append.mp within with inFront | inBack
  · exact (isFront _ inFront).false
  · exact (isBack _ inBack).false

/-- An element with a new key is put into its place. -/
theorem put (represents : Represents m map) (whole : m.storage = front ++ back)
    (isFront : ∀ e ∈ front, e.1 < key) (isBack : ∀ e ∈ back, key < e.1) (value : Val) :
    Represents ⟨front ++ (key, value) :: back⟩ (map.insert key value) where
  sorted := by
    have sorted := represents.sorted
    rw [IsSorted, whole, pairwise_append] at sorted
    obtain ⟨sortedFront, sortedBack, across⟩ := sorted
    refine pairwise_append.mpr ⟨sortedFront, pairwise_cons.mpr ⟨isBack, sortedBack⟩, ?_⟩
    exact fun a inFront => forall_mem_cons.mpr ⟨isFront a inFront, across a inFront⟩
  mem_iff k v := by
    have others := represents.mem_iff k v
    have absent := represents.lookup_of_absent whole isFront isBack
    rw [whole, mem_append] at others
    rw [mem_append, mem_cons, or_left_comm, others]
    rcases eq_or_ne k key with rfl | other
    · rw [lookup_insert, absent, Prod.mk.injEq, eq_self_iff_true, true_and]
      simp [eq_comm]
    · rw [lookup_insert_of_ne map other, Prod.mk.injEq]
      simp [other]

/-- The place where the element of a key is or will be, and if it is new. -/
theorem findInsertPos_eq (represents : Represents m map) (place : Place m.storage key front) :
    m.findInsertPos key = (front.length, decide (key ∉ map)) := by
  have bound : m.lowerBound key = front.length := lowerBound_of_place place
  rw [findInsertPos, bound, Prod.mk.injEq, eq_self_iff_true, true_and]
  cases place with
  | present value back whole isFront isBack =>
      have member : key ∈ map := mem_of_lookup_eq_some (represents.lookup_of_present whole)
      rw [whole, getElem?_append_right le_rfl, Nat.sub_self]
      simp [member]
  | absent back whole isFront isBack =>
      have missing : key ∉ map :=
        lookup_eq_none.mp (represents.lookup_of_absent whole isFront isBack)
      rw [whole, getElem?_append_right le_rfl, Nat.sub_self, decide_eq_true missing]
      cases back with
      | nil => rfl
      | cons first back =>
          have greater : key < first.1 := isBack first mem_cons_self
          simp [greater.ne]

theorem emplace_eq (represents : Represents m map) (place : Place m.storage key front)
    (value : Val) :
    Represents (m.emplace key value).1 (FiniteMap.insertNew map key value) ∧
      (m.emplace key value).2 = (front.length, decide (key ∉ map)) ∧
      (m.emplace key value).1.storage[front.length]? =
        some (key, (map.lookup key).getD value) := by
  rw [emplace, doEmplace, represents.findInsertPos_eq place, FiniteMap.insertNew]
  cases place with
  | present old back whole isFront isBack =>
      have found := represents.lookup_of_present whole
      have member : key ∈ map := mem_of_lookup_eq_some found
      have old_kept : ¬decide (key ∉ map) = true := by simp [member]
      rw [if_neg old_kept, if_pos member, found]
      refine ⟨represents, rfl, ?_⟩
      rw [whole, getElem?_append_right le_rfl, Nat.sub_self]
      rfl
  | absent back whole isFront isBack =>
      have none_found := represents.lookup_of_absent whole isFront isBack
      have missing : key ∉ map := lookup_eq_none.mp none_found
      rw [if_pos (decide_eq_true missing), if_neg missing, none_found, whole,
        StdVector.insertIdx_append]
      refine ⟨represents.put whole isFront isBack value, rfl, ?_⟩
      rw [getElem?_append_right le_rfl, Nat.sub_self]
      rfl

/-- The value of a key that has an element is another one afterwards. -/
theorem assignAt_eq (represents : Represents m map) {p : Nat} {old : Val}
    (present : m.storage[p]? = some (key, old)) (value : Val) :
    Represents (m.assignAt p value) (map.insert key value) := by
  rcases List.getElem?_eq_some_iff.mp present with ⟨inside, element⟩
  have whole : m.storage = m.storage.take p ++ (key, old) :: m.storage.drop (p + 1) := by
    rw [← element, getElem_cons_drop, take_append_drop]
  have assigned : (m.assignAt p value).storage =
      m.storage.take p ++ (key, value) :: m.storage.drop (p + 1) := by
    rw [assignAt, present]
    exact set_eq_take_append_cons_drop.trans (if_pos inside)
  have sorted := represents.sorted
  rw [IsSorted, whole, pairwise_append, pairwise_cons] at sorted
  obtain ⟨sortedFront, ⟨isBack, sortedBack⟩, across⟩ := sorted
  constructor
  · rw [IsSorted, assigned]
    refine pairwise_append.mpr ⟨sortedFront, pairwise_cons.mpr ⟨isBack, sortedBack⟩, ?_⟩
    intro a inFront
    have less := forall_mem_cons.mp (across a inFront)
    exact forall_mem_cons.mpr less
  · intro k v
    have others := represents.mem_iff k v
    rw [whole, mem_append, mem_cons, or_left_comm, Prod.mk.injEq] at others
    rw [assigned, mem_append, mem_cons, or_left_comm, Prod.mk.injEq]
    rcases eq_or_ne k key with rfl | other
    · have elsewhere : ¬((k, v) ∈ m.storage.take p ∨ (k, v) ∈ m.storage.drop (p + 1)) := by
        rintro (inFront | inBack)
        · exact (across _ inFront _ mem_cons_self).false
        · exact (isBack _ inBack).false
      rw [or_iff_left elsewhere, lookup_insert, Option.some_inj]
      simp [eq_comm]
    · rw [lookup_insert_of_ne map other, ← others]
      simp [other]

theorem erase_eq (represents : Represents m map) (key : Key) :
    Represents (m.erase key).1 (map.erase key) ∧
      (m.erase key).2 = if key ∈ map then 1 else 0 := by
  obtain ⟨front, place⟩ := represents.sorted.exists_place key
  have bound : m.lowerBound key = front.length := lowerBound_of_place place
  have sorted := represents.sorted
  cases place with
  | present old back whole isFront isBack =>
      have found := represents.lookup_of_present whole
      have here : m.storage[front.length]? = some (key, old) := by
        rw [whole, getElem?_append_right le_rfl, Nat.sub_self]
        rfl
      have removed : m.storage.eraseIdx front.length = front ++ back := by
        rw [whole, eraseIdx_append_of_length_le le_rfl, Nat.sub_self]
        rfl
      have result : m.erase key = (⟨front ++ back⟩, 1) := by
        simp only [erase, bound, here, lt_irrefl, if_false, removed]
      rw [result, if_pos (mem_of_lookup_eq_some found)]
      refine ⟨⟨?_, fun k v => ?_⟩, rfl⟩
      · rw [IsSorted, whole] at sorted
        exact sorted.sublist (List.Sublist.append_left (sublist_cons_self _ back) front)
      · have others := represents.mem_iff k v
        rw [whole, mem_append, mem_cons, or_left_comm, ← mem_append] at others
        rcases eq_or_ne k key with rfl | other
        · rw [lookup_erase, mem_append]
          refine iff_of_false ?_ (Option.some_ne_none v).symm
          rintro (inFront | inBack)
          · exact (isFront _ inFront).false
          · exact (isBack _ inBack).false
        · rw [lookup_erase_ne other, ← others, Prod.mk.injEq]
          simp [other]
  | absent back whole isFront isBack =>
      have none_found := represents.lookup_of_absent whole isFront isBack
      have missing : key ∉ map := lookup_eq_none.mp none_found
      have result : m.erase key = (m, 0) := by
        have next : m.storage[front.length]? = back.head? := by
          rw [whole, getElem?_append_right le_rfl, Nat.sub_self, head?_eq_getElem?]
        cases back with
        | nil => simp only [erase, bound, next, head?_nil]
        | cons first back =>
            have greater : key < first.1 := isBack first mem_cons_self
            simp only [erase, bound, next, head?_cons, if_pos greater]
      have unchanged : map.erase key = map := by
        refine ext_lookup fun k => ?_
        rcases eq_or_ne k key with rfl | other
        · rw [lookup_erase, none_found]
        · rw [lookup_erase_ne other]
      rw [result, if_neg missing, unchanged]
      exact ⟨represents, rfl⟩

theorem eraseIf_eq (represents : Represents m map) (predicate : Key × Val → Bool) :
    Represents (m.eraseIf predicate).1 (FiniteMap.filter (fun e => !predicate e) map) where
  sorted := represents.sorted.sublist filter_sublist
  mem_iff key value := by
    rw [FiniteMap.lookup_filter, ← represents.mem_iff]
    exact mem_filter

theorem perform_eq [Inhabited Val] (represents : Represents m map) (op : Operation Key Val) :
    Represents (m.perform op) (FiniteMap.perform map op) := by
  have puts (key : Key) (value : Val) :
      Represents (m.emplace key value).1 (FiniteMap.insertNew map key value) := by
    obtain ⟨front, place⟩ := represents.sorted.exists_place key
    exact (represents.emplace_eq place value).1
  cases op with
  | insert key value => exact puts key value
  | emplace key value => exact puts key value
  | subscript key => exact puts key default
  | erase key => exact (represents.erase_eq key).1
  | eraseIf predicate => exact represents.eraseIf_eq predicate

theorem keys_eq (represents : Represents m map) : map.keys = (m.storage.map Prod.fst).toFinset := by
  ext key
  rw [Finmap.mem_keys, Finmap.mem_iff, mem_toFinset, mem_map]
  constructor
  · rintro ⟨value, found⟩
    exact ⟨(key, value), (represents.mem_iff key value).mpr found, rfl⟩
  · rintro ⟨⟨k, value⟩, within, rfl⟩
    exact ⟨value, (represents.mem_iff k value).mp within⟩

theorem card_of_sorted (sorted : IsSorted storage) :
    (storage.map Prod.fst).toFinset.card = storage.length := by
  have distinct : (storage.map Prod.fst).Nodup :=
    pairwise_map.mpr (sorted.imp fun less => less.ne)
  rw [toFinset_card_of_nodup distinct, length_map]

theorem size_eq (represents : Represents m map) : m.size = map.keys.card := by
  rw [represents.keys_eq, card_of_sorted represents.sorted, size]

/-- The place of a key is the number of the keys that are less. -/
theorem length_of_place (represents : Represents m map) (place : Place m.storage key front) :
    front.length = (map.keys.filter fun k => k < key).card := by
  obtain ⟨back, whole, isFront, isBack⟩ := place.split
  have sortedFront : IsSorted front := by
    have sorted := represents.sorted
    rw [whole] at sorted
    exact (pairwise_append.mp sorted).1
  have less : (map.keys.filter fun k => k < key) = (front.map Prod.fst).toFinset := by
    ext k
    rw [Finset.mem_filter, represents.keys_eq, whole, mem_toFinset, mem_toFinset,
      map_append, mem_append]
    constructor
    · rintro ⟨inFront | inBack, isLess⟩
      · exact inFront
      · obtain ⟨e, within, rfl⟩ := mem_map.mp inBack
        exact absurd isLess (not_lt.mpr (isBack e within))
    · intro inFront
      obtain ⟨e, within, rfl⟩ := mem_map.mp inFront
      exact ⟨.inl inFront, isFront e within⟩
  rw [less, card_of_sorted sortedFront]

theorem lowerBound_eq (represents : Represents m map) (key : Key) :
    m.lowerBound key = (map.keys.filter fun k => k < key).card := by
  obtain ⟨front, place⟩ := represents.sorted.exists_place key
  rw [← represents.length_of_place place]
  exact lowerBound_of_place place

/-- A key is found at its place if it has an element, and at the end otherwise. -/
theorem find_eq (represents : Represents m map) (key : Key) :
    m.find key = (if key ∈ map then (map.keys.filter fun k => k < key).card else m.size) ∧
      m.storage[m.find key]? = (map.lookup key).map fun value => (key, value) := by
  obtain ⟨front, place⟩ := represents.sorted.exists_place key
  have bound : m.lowerBound key = front.length := lowerBound_of_place place
  rw [← represents.length_of_place place]
  cases place with
  | present value back whole isFront isBack =>
      have found := represents.lookup_of_present whole
      have here : m.storage[front.length]? = some (key, value) := by
        rw [whole, getElem?_append_right le_rfl, Nat.sub_self]
        rfl
      have result : m.find key = front.length := by
        simp only [find, bound, here, lt_irrefl, if_false]
      rw [result, if_pos (mem_of_lookup_eq_some found), here, found]
      exact ⟨rfl, rfl⟩
  | absent back whole isFront isBack =>
      have none_found := represents.lookup_of_absent whole isFront isBack
      have result : m.find key = m.size := by
        have next : m.storage[front.length]? = back.head? := by
          rw [whole, getElem?_append_right le_rfl, Nat.sub_self, head?_eq_getElem?]
        cases back with
        | nil =>
            rw [append_nil] at whole
            simp only [find, bound, next, head?_nil]
            rw [size, whole]
        | cons first back =>
            have greater : key < first.1 := isBack first mem_cons_self
            simp only [find, bound, next, head?_cons, if_pos greater]
      rw [result, if_neg (lookup_eq_none.mp none_found), none_found]
      exact ⟨rfl, getElem?_eq_none le_rfl⟩

theorem contains_eq (represents : Represents m map) (key : Key) :
    m.contains key = decide (key ∈ map) := by
  obtain ⟨place, element⟩ := represents.find_eq key
  rw [contains]
  by_cases member : key ∈ map
  · obtain ⟨value, found⟩ := Finmap.mem_iff.mp member
    rw [found] at element
    have inside : m.find key < m.size := (List.getElem?_eq_some_iff.mp element).1
    rw [decide_eq_true member, bne_iff_ne]
    exact inside.ne
  · rw [place, if_neg member, decide_eq_false member, bne_self_eq_false]

end Represents

/-- A sorted storage has the elements of a finite map. -/
theorem IsSorted.exists_represents (sorted : IsSorted storage) :
    ∃ map, Represents ⟨storage⟩ map := by
  induction storage with
  | nil => exact ⟨∅, represents_init⟩
  | cons e storage ih =>
      obtain ⟨less, sortedTail⟩ := pairwise_cons.mp sorted
      obtain ⟨map, represents⟩ := ih sortedTail
      have first := represents.put (nil_append storage).symm (forall_mem_nil _) less e.2
      exact ⟨_, first⟩

/-- A map answers as a finite map does. Iterators are positions in the iteration, and
the place of a key is the number of the keys that are less. -/
structure Agrees [Inhabited Val] (m : FlatMap Key Val) (map : Finmap fun _ : Key => Val) :
    Prop where
  sorted : IsSorted m.storage
  iterate : ∀ key value, (key, value) ∈ m.storage ↔ map.lookup key = some value
  size : m.size = map.keys.card
  contains : ∀ key, m.contains key = decide (key ∈ map)
  lowerBound : ∀ key, m.lowerBound key = (map.keys.filter fun k => k < key).card
  find : ∀ key,
    m.find key = if key ∈ map then (map.keys.filter fun k => k < key).card else m.size
  found : ∀ key, m.storage[m.find key]? = (map.lookup key).map fun value => (key, value)
  insert : ∀ key value, (m.insert (key, value)).2 =
    ((map.keys.filter fun k => k < key).card, decide (key ∉ map))
  emplace : ∀ key value, (m.emplace key value).2 =
    ((map.keys.filter fun k => k < key).card, decide (key ∉ map))
  subscript : ∀ key, (m.subscript key).2 = some (key, (map.lookup key).getD default)
  erase : ∀ key, (m.erase key).2 = if key ∈ map then 1 else 0
  eraseIf : ∀ predicate, (m.eraseIf predicate).2 =
    map.keys.card - (FiniteMap.filter (fun e => !predicate e) map).keys.card

variable [Inhabited Val]

theorem Represents.agrees {m : FlatMap Key Val} {map : Finmap fun _ : Key => Val}
    (represents : Represents m map) : Agrees m map := by
  have puts (key : Key) (value : Val) : (m.emplace key value).2 =
      ((map.keys.filter fun k => k < key).card, decide (key ∉ map)) := by
    obtain ⟨front, place⟩ := represents.sorted.exists_place key
    rw [(represents.emplace_eq place value).2.1, represents.length_of_place place]
  refine ⟨represents.sorted, represents.mem_iff, represents.size_eq, represents.contains_eq,
    represents.lowerBound_eq, fun key => (represents.find_eq key).1,
    fun key => (represents.find_eq key).2, puts, puts, fun key => ?_,
    fun key => (represents.erase_eq key).2, fun predicate => ?_⟩
  · obtain ⟨front, place⟩ := represents.sorted.exists_place key
    obtain ⟨-, position, element⟩ := represents.emplace_eq place default
    have index : (m.emplace key default).2.1 = front.length := by rw [position]
    rw [← element, ← index]
    rfl
  · rw [← (represents.eraseIf_eq predicate).size_eq, ← represents.size_eq]
    rfl

theorem represents_foldl {m : FlatMap Key Val} {map : Finmap fun _ : Key => Val}
    (represents : Represents m map) (ops : List (Operation Key Val)) :
    Represents (ops.foldl perform m) (ops.foldl FiniteMap.perform map) := by
  induction ops generalizing m map with
  | nil => exact represents
  | cons op ops ih => exact ih (represents.perform_eq op)

/-- After all operations on an empty map, a flat map is strictly sorted by its keys and
answers as the finite map after the same operations does. -/
theorem flatMap_agrees (ops : List (Operation Key Val)) :
    Agrees (after ops) (FiniteMap.after ops) :=
  (represents_foldl represents_init ops).agrees

end FlatMap

end Eagine.Container
