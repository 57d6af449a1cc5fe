import Eagine.Container.FlatMap
import Eagine.Theory.Refinement
import Eagine.Theory.StrictWeakOrder

/-!
# Flat maps and flat sets with a comparison

A `flat_map` and a `flat_set` do the same with their storages: the one compares the keys of
its elements, and the other one the elements themselves. The comparison is any strict weak
order, so keys that are not equal can be equivalent.
-/

namespace Eagine.Container

open Theory
open Prod (fst)

universe u v

namespace FlatStorage

variable {E : Type u} {Key : Type v} (cmp : StrictWeakOrder Key) (key : E → Key)

def lowerBound (storage : List E) (k : Key) : Nat :=
  Theory.lowerBound (fun e => cmp.before (key e) k) storage

variable [DecidableEq Key]

/-- The place of a key, and if an element has to be inserted there. -/
def findInsertPos (storage : List E) (k : Key) : Nat × Bool :=
  let p := lowerBound cmp key storage k
  (p, match storage[p]? with
    | some e => !decide (k = key e)
    | none => true)

/-- There is no element, or the last one is before the key. -/
def endsBefore (storage : List E) (k : Key) : Bool :=
  match storage.getLast? with
  | some back => cmp.before (key back) k
  | none => true

/-- The place of a key, searched from a position on or up to it. A hint that is not near an
element reads past the end. -/
def findInsertPosNear (storage : List E) (p : Nat) (k : Key) : Option (Nat × Bool) :=
  let isBefore := fun e => cmp.before (key e) k
  if p = storage.length ∧ endsBefore cmp key storage k then some (p, true)
  else
    let p := if p = storage.length then lowerBound cmp key storage k else p
    match storage[p]? with
    | some e =>
        if k = key e then some (p, false)
        else if cmp.before k (key e) then
          some (if p = 0 then p else Theory.lowerBound isBefore (storage.take p), true)
        else some (p + Theory.lowerBound isBefore (storage.drop p), true)
    | none => none

/-- `_do_insert`, and `_do_emplace` with the element that is constructed. -/
def doInsert (storage : List E) (ip : Nat × Bool) (value : E) : List E × (Nat × Bool) :=
  if ip.2 then (storage.insertIdx ip.1 value, ip) else (storage, ip)

def insert (storage : List E) (value : E) : List E × (Nat × Bool) :=
  doInsert storage (findInsertPos cmp key storage (key value)) value

/-- The insertion with a hint. -/
def insertHint (storage : List E) (p : Nat) (value : E) : Option (List E × Nat) :=
  (findInsertPosNear cmp key storage p (key value)).map fun ip =>
    ((doInsert storage ip value).1, ip.1)

omit [DecidableEq Key] in
/-- The key is erased once. That there is nothing else to erase is asserted only. -/
def eraseKey (storage : List E) (k : Key) : List E × Nat :=
  let p := lowerBound cmp key storage k
  match storage[p]? with
  | some e => if cmp.before k (key e) then (storage, 0) else (storage.eraseIdx p, 1)
  | none => (storage, 0)

/-- An operation with its arguments. Those of a map that construct an element insert it. -/
inductive Operation (E : Type u) (Key : Type v)
  | insert (value : E)
  | insertHint (p : Nat) (value : E)
  | erase (p : Nat)
  | eraseRange (f t : Nat)
  | eraseKey (k : Key)
  | eraseIf (predicate : E → Bool)
  | assign (list : List E)
  | clear

variable {cmp key} in
/-- There is no result if an iterator is not one of the storage. -/
def perform (sort : SortFunction (cmp.on key)) (storage : List E) :
    Operation E Key → Option (List E)
  | .insert value => some (insert cmp key storage value).1
  | .insertHint p value =>
      if p ≤ storage.length then (insertHint cmp key storage p value).map fst else none
  | .erase p => if p < storage.length then some (storage.eraseIdx p) else none
  | .eraseRange f t =>
      if f ≤ t ∧ t ≤ storage.length then some (storage.take f ++ storage.drop t) else none
  | .eraseKey k => some (eraseKey cmp key storage k).1
  | .eraseIf predicate => some (storage.filter fun e => !predicate e)
  | .assign list => some (sort.sort list)
  | .clear => some []

variable {cmp key} in
/-- The storage after operations on an empty one. -/
def after (sort : SortFunction (cmp.on key)) (ops : List (Operation E Key)) : Option (List E) :=
  run (perform sort) [] ops

end FlatStorage

namespace FlatMap

variable {Key : Type u} {Val : Type v} (cmp : StrictWeakOrder Key)

variable (Val) in
/-- `value_comp` -/
def valueComp : StrictWeakOrder (Key × Val) :=
  cmp.on fst

variable {cmp} in
/-- `assign`, with a comparison. -/
def assignBy (sort : SortFunction (valueComp Val cmp)) (list : List (Key × Val)) : FlatMap Key Val :=
  ⟨sort.sort list⟩

def eraseBy (m : FlatMap Key Val) (k : Key) : FlatMap Key Val × Nat :=
  let erased := FlatStorage.eraseKey cmp fst m.storage k
  (⟨erased.1⟩, erased.2)

variable [DecidableEq Key]

def insertBy (m : FlatMap Key Val) (value : Key × Val) : FlatMap Key Val × (Nat × Bool) :=
  let inserted := FlatStorage.insert cmp fst m.storage value
  (⟨inserted.1⟩, inserted.2)

/-- `insert` with a hint. -/
def insertHintBy (m : FlatMap Key Val) (p : Nat) (value : Key × Val) :
    Option (FlatMap Key Val × Nat) :=
  (FlatStorage.insertHint cmp fst m.storage p value).map fun inserted =>
    (⟨inserted.1⟩, inserted.2)

def emplaceBy (m : FlatMap Key Val) (k : Key) (value : Val) : FlatMap Key Val × (Nat × Bool) :=
  let ip := FlatStorage.findInsertPos cmp fst m.storage k
  let emplaced := FlatStorage.doInsert m.storage ip (k, value)
  (⟨emplaced.1⟩, emplaced.2)

def emplaceHint (m : FlatMap Key Val) (pos : Nat) (k : Key) (value : Val) :
    Option (FlatMap Key Val × Nat) :=
  (FlatStorage.findInsertPosNear cmp fst m.storage pos k).map fun ip =>
    (⟨(FlatStorage.doInsert m.storage ip (k, value)).1⟩, ip.1)

section LinearOrder

/-! A map with a linear order is one with a comparison. -/

variable {Key : Type u} [LinearOrder Key] (m : FlatMap Key Val)

theorem findInsertPos_eq_findInsertPos (k : Key) :
    m.findInsertPos k =
      FlatStorage.findInsertPos (.ofLinearOrder Key) fst m.storage k := by
  have place : m.lowerBound k =
      FlatStorage.lowerBound (.ofLinearOrder Key) fst m.storage k := rfl
  rw [findInsertPos, FlatStorage.findInsertPos, place]
  cases m.storage[FlatStorage.lowerBound (.ofLinearOrder Key) fst m.storage k]? <;> rfl

theorem insert_eq_insertBy (value : Key × Val) :
    m.insert value = m.insertBy (.ofLinearOrder Key) value := by
  rw [insert, insertBy, FlatStorage.insert, findInsertPos_eq_findInsertPos, doInsert,
    FlatStorage.doInsert]
  split_ifs <;> rfl

theorem erase_eq_eraseBy (k : Key) : m.erase k = m.eraseBy (.ofLinearOrder Key) k := by
  have place : m.lowerBound k =
      FlatStorage.lowerBound (.ofLinearOrder Key) fst m.storage k := rfl
  rw [erase, eraseBy, FlatStorage.eraseKey, place]
  cases m.storage[FlatStorage.lowerBound (.ofLinearOrder Key) fst m.storage k]? with
  | none => rfl
  | some element =>
      simp only [StrictWeakOrder.ofLinearOrder, decide_eq_true_iff]
      split_ifs <;> rfl

theorem findInsertPosNear_eq_findInsertPosNear (p : Nat) (k : Key) :
    m.findInsertPosNear p k =
      FlatStorage.findInsertPosNear (.ofLinearOrder Key) fst m.storage p k := by
  have place : m.lowerBound k =
      FlatStorage.lowerBound (.ofLinearOrder Key) fst m.storage k := rfl
  have ends : m.endsBefore k =
      FlatStorage.endsBefore (.ofLinearOrder Key) fst m.storage k := by
    rw [endsBefore, FlatStorage.endsBefore]
    cases m.storage.getLast? <;> rfl
  simp only [findInsertPosNear, FlatStorage.findInsertPosNear, ends, place, size]
  refine if_congr Iff.rfl rfl ?_
  generalize (if p = m.storage.length then _ else p) = near
  cases m.storage[near]? with
  | none => rfl
  | some element =>
      simp only [StrictWeakOrder.ofLinearOrder, decide_eq_true_iff]

end LinearOrder

end FlatMap

/-- The storage of a `flat_set`. -/
structure FlatSet (Key : Type u) where
  storage : List Key

namespace FlatSet

variable {Key : Type u} (cmp : StrictWeakOrder Key)

def size (s : FlatSet Key) : Nat :=
  s.storage.length

/-- `value_comp`: an element is its own key. -/
def valueComp : StrictWeakOrder Key :=
  cmp.on id

variable {cmp} in
def assign (sort : SortFunction (valueComp cmp)) (list : List Key) : FlatSet Key :=
  ⟨sort.sort list⟩

def erase (s : FlatSet Key) (k : Key) : FlatSet Key × Nat :=
  let erased := FlatStorage.eraseKey cmp id s.storage k
  (⟨erased.1⟩, erased.2)

variable [DecidableEq Key]

def insert (s : FlatSet Key) (value : Key) : FlatSet Key × (Nat × Bool) :=
  let inserted := FlatStorage.insert cmp id s.storage value
  (⟨inserted.1⟩, inserted.2)

/-- `insert` with a hint. -/
def insertHint (s : FlatSet Key) (p : Nat) (value : Key) : Option (FlatSet Key × Nat) :=
  (FlatStorage.insertHint cmp id s.storage p value).map fun inserted =>
    (⟨inserted.1⟩, inserted.2)

end FlatSet

end Eagine.Container
