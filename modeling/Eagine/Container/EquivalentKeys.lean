import Eagine.Container.FlatInsertion

/-!
# Keys that are equivalent but not equal

The place of a key is searched by the comparison, but that it is new is decided by equality. So a key
is inserted in front of another one that is equivalent to it, and it has to be erased before if there
is to be a single one of them.
-/

namespace Eagine.Container

open Theory List

universe u v w

namespace FlatStorage

variable {E : Type u} {Key : Type v} (cmp : StrictWeakOrder Key) (key : E → Key)

def upperBound (storage : List E) (k : Key) : Nat :=
  Theory.lowerBound (fun e => !cmp.before k (key e)) storage

/-- What is asserted when a key is erased: there is a single element with it. -/
def ErasesOne (storage : List E) (k : Key) : Prop :=
  ∀ e, storage[lowerBound cmp key storage k]? = some e → cmp.before k (key e) = false →
    upperBound cmp key storage k = lowerBound cmp key storage k + 1

/-- What a call without a hint does. Those of a map that construct an element insert it. -/
inductive Update (E : Type u) (Key : Type v)
  | insert (value : E)
  | erase (k : Key)

/-- No two of the keys that are stored after some of the calls are equivalent, and what is asserted
holds at each of them. -/
structure FollowsComparison {C : Type w} (update : C → Update E Key) (reached : List C → List E)
    (calls : List C) : Prop where
  differ : ∀ front, front <+: calls → KeysDiffer cmp key (reached front)
  erasesOne : ∀ front call k, front ++ [call] <+: calls → update call = .erase k →
    ErasesOne cmp key (reached front) k

/-- Between insertions of keys that are equivalent but not equal, a key is erased that is equivalent
to them. -/
def ErasesBetween {C : Type w} (update : C → Update E Key) (calls : List C) : Prop :=
  ∀ front first middle last back a b, calls = front ++ first :: (middle ++ last :: back) →
    update first = .insert a → update last = .insert b → cmp.Equivalent (key a) (key b) →
      key a ≠ key b → ∃ call ∈ middle, ∃ k, update call = .erase k ∧ cmp.Equivalent (key a) k

variable [DecidableEq Key]

def apply (storage : List E) : Update E Key → List E
  | .insert value => (insert cmp key storage value).1
  | .erase k => (eraseKey cmp key storage k).1

/-- The storage after some calls on an empty one -/
def reached {C : Type w} (update : C → Update E Key) (calls : List C) : List E :=
  calls.foldl (fun storage call => apply cmp key storage (update call)) []

variable {cmp key}

omit [DecidableEq Key] in
theorem KeysDiffer.strictlySorted {storage : List E} (differ : KeysDiffer cmp key storage)
    (sorted : (cmp.on key).Sorted storage) : (cmp.on key).StrictlySorted storage :=
  sorted.strictlySorted_iff.mpr differ

omit [DecidableEq Key] in
theorem KeysDiffer.eq_of_equivalent {storage : List E} (differ : KeysDiffer cmp key storage)
    {a b : E} (inA : a ∈ storage) (inB : b ∈ storage) (same : cmp.Equivalent (key a) (key b)) :
    a = b := by
  by_contra other
  have symmetric : Std.Symm fun a b : E => ¬cmp.Equivalent (key a) (key b) :=
    ⟨fun _ _ different same => different same.symm⟩
  exact List.Pairwise.forall differ inA inB other same

section Insert

variable {storage : List E} (sorted : (cmp.on key).Sorted storage) (value : E)

omit [DecidableEq Key] in
theorem HoldsFirst.exists_mem {k : Key} (holds : HoldsFirst cmp key storage k) :
    ∃ e ∈ storage, key e = k := by
  rcases holds with ⟨e, found, same⟩
  exact ⟨e, mem_of_find?_eq_some found, same⟩

include sorted

/-- The value is stored, unless the first of its equivalents has its key. -/
theorem insert_cases :
    HoldsFirst cmp key storage (key value) ∧ (insert cmp key storage value).1 = storage ∨
      ¬HoldsFirst cmp key storage (key value) ∧
        ((insert cmp key storage value).1).Perm (value :: storage) := by
  rcases exists_split sorted (key value) with ⟨front, back, rfl, isFront, isBack⟩
  by_cases holds : HoldsFirst cmp key (front ++ back) (key value)
  · exact Or.inl ⟨holds, insert_append_of_holdsFirst isFront isBack rfl holds⟩
  · refine Or.inr ⟨holds, ?_⟩
    rw [insert_append_of_not_holdsFirst isFront isBack rfl holds]
    exact perm_middle

theorem mem_keys_insert (k : Key) :
    k ∈ (insert cmp key storage value).1.map key ↔ k = key value ∨ k ∈ storage.map key := by
  rcases insert_cases sorted value with ⟨holds, same⟩ | ⟨-, perm⟩
  · rcases holds.exists_mem with ⟨e, inside, sameKey⟩
    rw [same, or_iff_right_of_imp]
    rintro rfl
    exact mem_map.mpr ⟨e, inside, sameKey⟩
  · rw [(perm.map key).mem_iff, map_cons, mem_cons]

omit [DecidableEq Key] in
/-- The first element that is not before an equivalent one is equivalent. -/
theorem holdsFirst_of_mem {k : Key} {e : E} (inside : e ∈ storage) (same : cmp.Equivalent (key e) k)
    (equal : ∀ a ∈ storage, cmp.Equivalent (key a) k → key a = k) : HoldsFirst cmp key storage k := by
  rcases exists_split sorted k with ⟨front, back, rfl, isFront, isBack⟩
  rw [holdsFirst_append isFront isBack]
  cases back with
  | nil =>
      rw [append_nil] at inside
      exact absurd (same.1.symm.trans (isFront e inside)) Bool.false_ne_true
  | cons first back =>
      have sortedBack : (cmp.on key).Sorted (first :: back) := (pairwise_append.mp sorted).2.1
      have notAfter : cmp.before k (key first) = false := by
        rcases mem_append.mp inside with inFront | inBack
        · exact absurd (same.1.symm.trans (isFront e inFront)) Bool.false_ne_true
        · rcases mem_cons.mp inBack with rfl | later
          · exact same.2
          · by_contra after
            rcases StrictWeakOrder.before_or_before (Bool.not_eq_false _ ▸ after) (key e) with
              less | less
            · exact Bool.false_ne_true (same.2.symm.trans less)
            · have ordered := (pairwise_cons.mp sortedBack).1 e later
              exact Bool.false_ne_true (ordered.symm.trans less)
      exact ⟨first, rfl, equal first (mem_append_right _ mem_cons_self)
        ⟨isBack first mem_cons_self, notAfter⟩⟩

/-- The keys differ still, if no other key is equivalent to that of the value. -/
theorem keysDiffer_insert_iff (differ : KeysDiffer cmp key storage) :
    KeysDiffer cmp key (insert cmp key storage value).1 ↔
      ∀ k ∈ storage.map key, cmp.Equivalent k (key value) → k = key value := by
  rcases insert_cases sorted value with ⟨holds, same⟩ | ⟨missing, perm⟩
  · rw [same]
    refine iff_of_true differ ?_
    rcases holds.exists_mem with ⟨first, inFirst, sameKey⟩
    rintro k inside equivalent
    rcases mem_map.mp inside with ⟨e, inE, rfl⟩
    rw [← sameKey] at equivalent ⊢
    rw [differ.eq_of_equivalent inE inFirst equivalent]
  · have whole : KeysDiffer cmp key (insert cmp key storage value).1 ↔
        KeysDiffer cmp key (value :: storage) :=
      perm.pairwise_iff fun different same => different same.symm
    have cons : KeysDiffer cmp key (value :: storage) ↔
        (∀ e ∈ storage, ¬cmp.Equivalent (key value) (key e)) ∧ KeysDiffer cmp key storage :=
      pairwise_cons
    rw [whole, cons, and_iff_left differ]
    constructor
    · intro different k inside equivalent
      rcases mem_map.mp inside with ⟨e, inE, rfl⟩
      exact absurd equivalent.symm (different e inE)
    · intro equal e inside equivalent
      refine missing (holdsFirst_of_mem sorted inside equivalent.symm fun a inA => ?_)
      exact equal (key a) (mem_map_of_mem inA)

end Insert

omit [DecidableEq Key] in
theorem eraseKey_sublist (storage : List E) (k : Key) :
    (eraseKey cmp key storage k).1.Sublist storage := by
  rw [eraseKey]
  split
  · split_ifs
    · exact List.Sublist.refl _
    · exact eraseIdx_sublist _ _
  · exact List.Sublist.refl _

section Erase

variable {storage : List E} (strict : (cmp.on key).StrictlySorted storage) (k : Key)

include strict

omit [DecidableEq Key]

/-- An element with the key is the only one. -/
theorem erasesOne_of_strictlySorted : ErasesOne cmp key storage k := by
  intro e found notAfter
  rcases exists_split strict.sorted k with ⟨front, back, rfl, isFront, isBack⟩
  rw [lowerBound_append isFront isBack] at found ⊢
  rw [getElem?_append_right le_rfl, Nat.sub_self] at found
  cases back with
  | nil => cases found
  | cons first back =>
      cases found
      have strictBack : (cmp.on key).StrictlySorted (e :: back) :=
        (pairwise_append.mp strict).2.1
      have allNotAfter : ∀ a ∈ front ++ [e], (!cmp.before k (key a)) = true := by
        rw [forall_mem_append, forall_mem_singleton]
        refine ⟨fun a inFront => ?_, ?_⟩
        · rw [StrictWeakOrder.asymm (isFront a inFront)]
          rfl
        · rw [notAfter]
          rfl
      have noneNotAfter : ∀ a ∈ back, (!cmp.before k (key a)) = false := by
        intro a inBack
        have less : cmp.before (key e) (key a) = true :=
          (pairwise_cons.mp strictBack).1 a inBack
        rcases StrictWeakOrder.before_or_before less k with before | after
        · have notBefore := isBack e mem_cons_self
          exact absurd (notBefore.symm.trans before) Bool.false_ne_true
        · rw [after]
          rfl
      rw [upperBound, append_cons, Theory.lowerBound_append allNotAfter noneNotAfter,
        length_append, length_singleton]

/-- Just the element with the key is removed. -/
theorem mem_eraseKey (e : E) :
    e ∈ (eraseKey cmp key storage k).1 ↔ e ∈ storage ∧ ¬cmp.Equivalent (key e) k := by
  constructor
  · intro rest
    exact ⟨(eraseKey_sublist storage k).mem rest, not_equivalent_of_mem_eraseKey strict k rest⟩
  · rintro ⟨inside, different⟩
    rcases exists_split strict.sorted k with ⟨front, back, rfl, isFront, isBack⟩
    have next : (front ++ back)[front.length]? = back.head? := by
      rw [getElem?_append_right le_rfl, Nat.sub_self, head?_eq_getElem?]
    rw [eraseKey, lowerBound_append isFront isBack, next]
    cases back with
    | nil => exact inside
    | cons first back =>
        cases after : cmp.before k (key first) with
        | true =>
            simp only [head?_cons, after, if_true]
            exact inside
        | false =>
            have removed : (front ++ first :: back).eraseIdx front.length = front ++ back := by
              rw [eraseIdx_append_of_length_le le_rfl, Nat.sub_self]
              rfl
            simp only [head?_cons, after, Bool.false_eq_true, if_false, removed]
            rcases mem_append.mp inside with inFront | inBack
            · exact mem_append_left _ inFront
            · rcases mem_cons.mp inBack with rfl | later
              · exact absurd ⟨isBack e mem_cons_self, after⟩ different
              · exact mem_append_right _ later

theorem mem_keys_eraseKey (a : Key) :
    a ∈ (eraseKey cmp key storage k).1.map key ↔
      a ∈ storage.map key ∧ ¬cmp.Equivalent a k := by
  simp only [mem_map, mem_eraseKey strict]
  constructor
  · rintro ⟨e, ⟨inside, different⟩, rfl⟩
    exact ⟨⟨e, inside, rfl⟩, different⟩
  · rintro ⟨⟨e, inside, rfl⟩, different⟩
    exact ⟨e, ⟨inside, different⟩, rfl⟩

end Erase

section Run

variable {C : Type w} {update : C → Update E Key}

theorem reached_concat (calls : List C) (call : C) :
    reached cmp key update (calls ++ [call]) =
      apply cmp key (reached cmp key update calls) (update call) := by
  rw [reached, foldl_append]
  rfl

theorem sorted_reached (calls : List C) : (cmp.on key).Sorted (reached cmp key update calls) := by
  induction calls using List.reverseRecOn with
  | nil => exact List.Pairwise.nil
  | append_singleton calls call ih =>
      rw [reached_concat]
      cases update call with
      | insert value => exact sorted_insert ih value
      | erase k => exact sorted_eraseKey ih k

omit [DecidableEq Key] in
theorem followsComparison_concat (reached : List C → List E) (calls : List C) (call : C) :
    FollowsComparison cmp key update reached (calls ++ [call]) ↔
      FollowsComparison cmp key update reached calls ∧
        KeysDiffer cmp key (reached (calls ++ [call])) ∧
        ∀ k, update call = .erase k → ErasesOne cmp key (reached calls) k := by
  constructor
  · intro follows
    refine ⟨⟨fun front within => ?_, fun front other k within => ?_⟩, ?_, fun k => ?_⟩
    · exact follows.differ front (within.trans (prefix_append _ _))
    · exact follows.erasesOne front other k (within.trans (prefix_append _ _))
    · exact follows.differ _ (prefix_refl _)
    · exact follows.erasesOne calls call k (prefix_refl _)
  · rintro ⟨follows, differ, erasesOne⟩
    constructor
    · intro front within
      rcases prefix_concat_iff.mp within with rfl | earlier
      · exact differ
      · exact follows.differ front earlier
    · intro front other k within erases
      rcases prefix_concat_iff.mp within with same | earlier
      · rcases append_inj' same rfl with ⟨rfl, lastSame⟩
        cases lastSame
        exact erasesOne k erases
      · exact follows.erasesOne front other k earlier erases

variable (cmp key update) in
/-- The key is inserted and not erased from then on. -/
def Lives (calls : List C) (k : Key) : Prop :=
  ∃ front call middle value, calls = front ++ call :: middle ∧ update call = .insert value ∧
    key value = k ∧ ∀ later ∈ middle, ∀ a, update later = .erase a → ¬cmp.Equivalent k a

omit [DecidableEq Key] in
theorem lives_concat (calls : List C) (call : C) (k : Key) :
    Lives cmp key update (calls ++ [call]) k ↔
      (∃ value, update call = .insert value ∧ key value = k) ∨
        Lives cmp key update calls k ∧ ∀ a, update call = .erase a → ¬cmp.Equivalent k a := by
  constructor
  · rintro ⟨front, first, middle, value, whole, inserts, same, kept⟩
    rcases eq_nil_or_concat' middle with rfl | ⟨middle, last, rfl⟩
    · rcases append_inj' whole rfl with ⟨rfl, lastSame⟩
      cases lastSame
      exact Or.inl ⟨value, inserts, same⟩
    · rw [← cons_append, ← append_assoc] at whole
      rcases append_inj' whole rfl with ⟨rfl, lastSame⟩
      cases lastSame
      rw [forall_mem_append, forall_mem_singleton] at kept
      exact Or.inr ⟨⟨front, first, middle, value, rfl, inserts, same, kept.1⟩, kept.2⟩
  · rintro (⟨value, inserts, same⟩ | ⟨⟨front, first, middle, value, rfl, inserts, same, kept⟩, last⟩)
    · exact ⟨calls, call, [], value, rfl, inserts, same, forall_mem_nil _⟩
    · refine ⟨front, first, middle ++ [call], value, ?_, inserts, same, ?_⟩
      · rw [append_assoc, cons_append]
      · rw [forall_mem_append, forall_mem_singleton]
        exact ⟨kept, last⟩

omit [DecidableEq Key] in
theorem erasesBetween_concat (calls : List C) (call : C) :
    ErasesBetween cmp key update (calls ++ [call]) ↔
      ErasesBetween cmp key update calls ∧
        ∀ value, update call = .insert value →
          ∀ k, Lives cmp key update calls k → cmp.Equivalent k (key value) → k = key value := by
  constructor
  · intro erases
    constructor
    · intro front first middle last back a b whole insertsA insertsB
      refine erases front first middle last (back ++ [call]) a b ?_ insertsA insertsB
      rw [whole]
      simp
    · rintro value inserts k ⟨front, first, middle, a, whole, insertsA, rfl, kept⟩ equivalent
      by_contra other
      rcases erases front first middle call [] a value (by rw [whole]; simp) insertsA inserts equivalent
        other with ⟨later, within, b, erasesB, same⟩
      exact kept later within b erasesB same
  · rintro ⟨erases, live⟩ front first middle last back a b whole insertsA insertsB equivalent other
    rcases eq_nil_or_concat' back with rfl | ⟨back, final, rfl⟩
    · rw [← cons_append, ← append_assoc] at whole
      rcases append_inj' whole rfl with ⟨rfl, lastSame⟩
      cases lastSame
      by_contra nothing
      refine other (live b insertsB (key a) ⟨front, first, middle, a, rfl, insertsA, rfl, ?_⟩ equivalent)
      intro later within k erasesK same
      exact nothing ⟨later, within, k, erasesK, same⟩
    · have regrouped : front ++ first :: (middle ++ last :: (back ++ [final])) =
          (front ++ first :: (middle ++ last :: back)) ++ [final] := by
        simp
      have split := (append_inj' (whole.trans regrouped) rfl).1
      exact erases front first middle last back a b split insertsA insertsB equivalent other

/-- The stored keys are those that live, as long as they differ. -/
theorem mem_keys_reached {calls : List C}
    (follows : FollowsComparison cmp key update (reached cmp key update) calls) (k : Key) :
    k ∈ (reached cmp key update calls).map key ↔ Lives cmp key update calls k := by
  induction calls using List.reverseRecOn with
  | nil =>
      refine iff_of_false not_mem_nil ?_
      rintro ⟨front, call, middle, value, whole, -⟩
      exact append_ne_nil_of_right_ne_nil _ (cons_ne_nil _ _) whole.symm
  | append_singleton calls call ih =>
      have before := ((followsComparison_concat _ calls call).mp follows).1
      have sorted : (cmp.on key).Sorted (reached cmp key update calls) := sorted_reached calls
      rw [reached_concat, lives_concat, ← ih before]
      cases updates : update call with
      | insert value =>
          rw [apply, mem_keys_insert sorted]
          simp only [Update.insert.injEq, exists_eq_left', eq_comm, reduceCtorEq, false_implies,
            implies_true, and_true]
      | erase a =>
          have strict := (before.differ calls (prefix_refl _)).strictlySorted sorted
          rw [apply, mem_keys_eraseKey strict]
          simp only [reduceCtorEq, false_and, exists_false, false_or, Update.erase.injEq, forall_eq']

/-- The comparison is followed exactly if there is no need to know that a key is equivalent to another
one. -/
theorem followsComparison_iff (calls : List C) :
    FollowsComparison cmp key update (reached cmp key update) calls ↔
      ErasesBetween cmp key update calls := by
  induction calls using List.reverseRecOn with
  | nil =>
      refine iff_of_true ⟨fun front within => ?_, fun front call k within => ?_⟩ ?_
      · obtain rfl := prefix_nil.mp within
        exact List.Pairwise.nil
      · exact absurd (prefix_nil.mp within)
          (append_ne_nil_of_right_ne_nil _ (cons_ne_nil _ _))
      · intro front first middle last back a b whole
        exact absurd whole.symm (append_ne_nil_of_right_ne_nil _ (cons_ne_nil _ _))
  | append_singleton calls call ih =>
      rw [followsComparison_concat, erasesBetween_concat, ← ih, and_congr_right_iff]
      intro follows
      have sorted : (cmp.on key).Sorted (reached cmp key update calls) := sorted_reached calls
      have differ := follows.differ calls (prefix_refl _)
      rw [reached_concat]
      cases updates : update call with
      | insert value =>
          rw [apply, keysDiffer_insert_iff sorted value differ]
          simp only [mem_keys_reached follows, Update.insert.injEq, forall_eq', reduceCtorEq,
            false_implies, implies_true, and_true]
      | erase k =>
          have strict := differ.strictlySorted sorted
          refine iff_of_true ⟨differ.sublist (eraseKey_sublist _ k), ?_⟩ ?_
          · rintro a ⟨⟩
            exact erasesOne_of_strictlySorted strict k
          · rintro value ⟨⟩

end Run

end FlatStorage

open FlatStorage

variable {Key : Type u} {Val : Type v}

/-- A call with its arguments -/
inductive FlatMap.Call (Key : Type u) (Val : Type v)
  | insert (value : Key × Val)
  | emplace (k : Key) (value : Val)
  | erase (k : Key)

def FlatMap.Call.update : FlatMap.Call Key Val → FlatStorage.Update (Key × Val) Key
  | .insert value => .insert value
  | .emplace k value => .insert (k, value)
  | .erase k => .erase k

inductive FlatSet.Call (Key : Type u)
  | insert (value : Key)
  | erase (k : Key)

def FlatSet.Call.update : FlatSet.Call Key → FlatStorage.Update Key Key
  | .insert value => .insert value
  | .erase k => .erase k

variable [DecidableEq Key] (cmp : StrictWeakOrder Key)

def FlatMap.performBy (m : FlatMap Key Val) : FlatMap.Call Key Val → FlatMap Key Val
  | .insert value => (m.insertBy cmp value).1
  | .emplace k value => (m.emplaceBy cmp k value).1
  | .erase k => (m.eraseBy cmp k).1

def FlatSet.perform (s : FlatSet Key) : FlatSet.Call Key → FlatSet Key
  | .insert value => (s.insert cmp value).1
  | .erase k => (s.erase cmp k).1

/-- The map after some calls on an empty one -/
def FlatMap.afterBy (calls : List (FlatMap.Call Key Val)) : FlatMap Key Val :=
  calls.foldl (FlatMap.performBy cmp) ⟨[]⟩

def FlatSet.after (calls : List (FlatSet.Call Key)) : FlatSet Key :=
  calls.foldl (FlatSet.perform cmp) ⟨[]⟩

def FlatMap.FollowsComparison (calls : List (FlatMap.Call Key Val)) : Prop :=
  FlatStorage.FollowsComparison cmp Prod.fst FlatMap.Call.update
    (fun front => (FlatMap.afterBy cmp front).storage) calls

def FlatSet.FollowsComparison (calls : List (FlatSet.Call Key)) : Prop :=
  FlatStorage.FollowsComparison cmp id FlatSet.Call.update
    (fun front => (FlatSet.after cmp front).storage) calls

theorem FlatMap.storage_afterBy (calls : List (FlatMap.Call Key Val)) :
    (FlatMap.afterBy cmp calls).storage = reached cmp Prod.fst FlatMap.Call.update calls := by
  refine (foldl_hom FlatMap.storage fun m call => ?_).symm
  cases call <;> rfl

theorem FlatSet.storage_after (calls : List (FlatSet.Call Key)) :
    (FlatSet.after cmp calls).storage = reached cmp id FlatSet.Call.update calls := by
  refine (foldl_hom FlatSet.storage fun s call => ?_).symm
  cases call <;> rfl

/-- The comparison is followed by a map or a set exactly if there is an erasure between insertions of
keys that are equivalent but not equal. -/
theorem flat_followsComparison_iff :
    (∀ calls : List (FlatMap.Call Key Val),
        FlatMap.FollowsComparison cmp calls ↔
          ErasesBetween cmp Prod.fst FlatMap.Call.update calls) ∧
      ∀ calls : List (FlatSet.Call Key),
        FlatSet.FollowsComparison cmp calls ↔ ErasesBetween cmp id FlatSet.Call.update calls := by
  constructor
  · intro calls
    rw [FlatMap.FollowsComparison, funext (FlatMap.storage_afterBy cmp)]
    exact followsComparison_iff calls
  · intro calls
    rw [FlatSet.FollowsComparison, funext (FlatSet.storage_after cmp)]
    exact followsComparison_iff calls

def caseInsensitive : StrictWeakOrder Char :=
  (StrictWeakOrder.ofLinearOrder Nat).on fun c => c.toLower.toNat

/-- A letter is inserted in two cases. -/
theorem not_forall_followsComparison :
    (¬∀ calls : List (FlatMap.Call Char Nat), FlatMap.FollowsComparison caseInsensitive calls) ∧
      ¬∀ calls : List (FlatSet.Call Char), FlatSet.FollowsComparison caseInsensitive calls := by
  constructor
  · intro follows
    have stored : (FlatMap.afterBy caseInsensitive [.insert ('a', 1), .emplace 'A' 2]).storage =
        [('A', 2), ('a', 1)] := by
      decide +kernel
    have differ := (follows [.insert ('a', 1), .emplace 'A' 2]).differ _ (prefix_refl _)
    rw [stored] at differ
    exact rel_of_pairwise_cons differ mem_cons_self (by decide)
  · intro follows
    have stored : (FlatSet.after caseInsensitive [.insert 'a', .insert 'A']).storage = ['A', 'a'] := by
      decide +kernel
    have differ := (follows [.insert 'a', .insert 'A']).differ _ (prefix_refl _)
    rw [stored] at differ
    exact rel_of_pairwise_cons differ mem_cons_self (by decide)

end Eagine.Container
