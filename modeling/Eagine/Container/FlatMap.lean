import Eagine.Theory.LowerBound
import Mathlib.Data.Finmap

/-!
# Flat maps

A map that keeps its elements in a vector, sorted by their keys. All the operations
find the place of a key by binary search.
-/

namespace Eagine.Container

open Theory

universe u v

/-- The storage of a `flat_map`. -/
structure FlatMap (Key : Type u) (Val : Type v) where
  storage : List (Key × Val)

namespace FlatMap

variable {Key : Type u} {Val : Type v} [LinearOrder Key]

def init : FlatMap Key Val :=
  ⟨[]⟩

/-! ## Lookups

An iterator is a position in the storage. -/

def size (m : FlatMap Key Val) : Nat :=
  m.storage.length

def lowerBound (m : FlatMap Key Val) (key : Key) : Nat :=
  Theory.lowerBound (fun element => decide (element.1 < key)) m.storage

def find (m : FlatMap Key Val) (key : Key) : Nat :=
  let b := m.lowerBound key
  match m.storage[b]? with
  | some element => if key < element.1 then m.size else b
  | none => b

def contains (m : FlatMap Key Val) (key : Key) : Bool :=
  m.find key != m.size

/-- The place of a key, and if an element has to be inserted there. -/
def findInsertPos (m : FlatMap Key Val) (key : Key) : Nat × Bool :=
  let p := m.lowerBound key
  (p, match m.storage[p]? with
    | some element => !decide (key = element.1)
    | none => true)

/-- There is no element, or the last one is less. -/
def endsBefore (m : FlatMap Key Val) (key : Key) : Bool :=
  match m.storage.getLast? with
  | some back => decide (back.1 < key)
  | none => true

/-- The place of a key, searched from a position on or up to it. A hint that is not near an
element reads past the end. -/
def findInsertPosNear (m : FlatMap Key Val) (p : Nat) (key : Key) : Option (Nat × Bool) :=
  let isBefore := fun element : Key × Val => decide (element.1 < key)
  if p = m.size ∧ m.endsBefore key then some (p, true)
  else
    let p := if p = m.size then m.lowerBound key else p
    match m.storage[p]? with
    | some element =>
        if key = element.1 then some (p, false)
        else if key < element.1 then
          some (if p = 0 then p else Theory.lowerBound isBefore (m.storage.take p), true)
        else some (p + Theory.lowerBound isBefore (m.storage.drop p), true)
    | none => none

/-- The constructed value is the one that is given. -/
def doEmplace (m : FlatMap Key Val) (ip : Nat × Bool) (key : Key) (value : Val) :
    FlatMap Key Val × (Nat × Bool) :=
  if ip.2 then (⟨m.storage.insertIdx ip.1 (key, value)⟩, ip) else (m, ip)

def doInsert (m : FlatMap Key Val) (ip : Nat × Bool) (value : Key × Val) :
    FlatMap Key Val × (Nat × Bool) :=
  if ip.2 then (⟨m.storage.insertIdx ip.1 value⟩, ip) else (m, ip)

def emplace (m : FlatMap Key Val) (key : Key) (value : Val) : FlatMap Key Val × (Nat × Bool) :=
  m.doEmplace (m.findInsertPos key) key value

def insert (m : FlatMap Key Val) (value : Key × Val) : FlatMap Key Val × (Nat × Bool) :=
  m.doInsert (m.findInsertPos value.1) value

/-- `operator[]`, with the element that it refers to. -/
def subscript [Inhabited Val] (m : FlatMap Key Val) (key : Key) :
    FlatMap Key Val × Option (Key × Val) :=
  let done := m.doEmplace (m.findInsertPos key) key default
  (done.1, done.1.storage[done.2.1]?)

/-- The value of the element at a position is assigned. -/
def assignAt (m : FlatMap Key Val) (p : Nat) (value : Val) : FlatMap Key Val :=
  match m.storage[p]? with
  | some element => ⟨m.storage.set p (element.1, value)⟩
  | none => m

def erase (m : FlatMap Key Val) (key : Key) : FlatMap Key Val × Nat :=
  let p := m.lowerBound key
  match m.storage[p]? with
  | some element => if key < element.1 then (m, 0) else (⟨m.storage.eraseIdx p⟩, 1)
  | none => (m, 0)

def eraseIf (m : FlatMap Key Val) (predicate : Key × Val → Bool) : FlatMap Key Val × Nat :=
  let kept := m.storage.filter fun element => !predicate element
  (⟨kept⟩, m.storage.length - kept.length)

/-- An operation with its arguments. -/
inductive Operation (Key : Type u) (Val : Type v)
  | insert (key : Key) (value : Val)
  | emplace (key : Key) (value : Val)
  | subscript (key : Key)
  | erase (key : Key)
  | eraseIf (predicate : Key × Val → Bool)

def perform [Inhabited Val] (m : FlatMap Key Val) : Operation Key Val → FlatMap Key Val
  | .insert key value => (m.insert (key, value)).1
  | .emplace key value => (m.emplace key value).1
  | .subscript key => (m.subscript key).1
  | .erase key => (m.erase key).1
  | .eraseIf predicate => (m.eraseIf predicate).1

/-- The map after operations on an empty map. -/
def after [Inhabited Val] (ops : List (Operation Key Val)) : FlatMap Key Val :=
  ops.foldl perform init

end FlatMap

namespace FiniteMap

variable {Key : Type u} {Val : Type v}

/-- The elements of a finite map that satisfy a predicate. -/
def filter (p : Key × Val → Bool) (map : Finmap fun _ : Key => Val) :
    Finmap fun _ : Key => Val where
  entries := map.entries.filter fun entry => p (entry.1, entry.2) = true
  nodupKeys := Multiset.nodup_keys.mp
    (Multiset.nodup_of_le (Multiset.map_le_map (Multiset.filter_le _ _))
      (Multiset.nodup_keys.mpr map.nodupKeys))

theorem lookup_filter [DecidableEq Key] (p : Key × Val → Bool) (map : Finmap fun _ : Key => Val)
    (key : Key) (value : Val) :
    (filter p map).lookup key = some value ↔
      map.lookup key = some value ∧ p (key, value) = true := by
  rw [Finmap.lookup_eq_some_iff, Finmap.lookup_eq_some_iff, filter, Multiset.mem_filter]

variable [DecidableEq Key]

/-- The element of a key, unless there is one already. -/
def insertNew (map : Finmap fun _ : Key => Val) (key : Key) (value : Val) :
    Finmap fun _ : Key => Val :=
  if key ∈ map then map else map.insert key value

/-- The same operations on a finite map. -/
def perform [Inhabited Val] (map : Finmap fun _ : Key => Val) :
    FlatMap.Operation Key Val → Finmap fun _ : Key => Val
  | .insert key value => insertNew map key value
  | .emplace key value => insertNew map key value
  | .subscript key => insertNew map key default
  | .erase key => map.erase key
  | .eraseIf predicate => filter (fun element => !predicate element) map

def after [Inhabited Val] (ops : List (FlatMap.Operation Key Val)) :
    Finmap fun _ : Key => Val :=
  ops.foldl perform ∅

end FiniteMap

end Eagine.Container
