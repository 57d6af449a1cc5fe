import Mathlib.Data.List.Basic
import Mathlib.Data.Nat.Basic
import Mathlib.Order.Basic

/-!
# Static vectors

A vector with a fixed capacity: an array of as many slots and the number of those
that are in use. The slots past the size keep what was written there last. A value
that is moved stays in its slot until the slot is written again, as the values of
the trivially copyable types do.
-/

namespace Eagine.Container

open List

universe u

variable {α : Type u}

/-- Copies values into an array from a position on. -/
def overwrite (array : List α) (pos : Nat) (values : List α) : List α :=
  array.take pos ++ values ++ array.drop (pos + values.length)

/-- The values between two positions of an array. -/
def slice (array : List α) (first last : Nat) : List α :=
  (array.drop first).take (last - first)

variable {array : List α} {pos : Nat} {values : List α}

theorem length_overwrite (inside : pos + values.length ≤ array.length) :
    (overwrite array pos values).length = array.length := by
  have front : (array.take pos).length = pos :=
    length_take_of_le (Nat.le_of_add_right_le inside)
  rw [overwrite, length_append, length_append, front, length_drop]
  exact Nat.add_sub_cancel' inside

variable {first last : Nat}

theorem length_slice (inside : last ≤ array.length) :
    (slice array first last).length = last - first := by
  rw [slice, length_take, length_drop]
  exact Nat.min_eq_left (Nat.sub_le_sub_right inside first)

theorem take_overwrite_of_le {n pos : Nat} (before : n ≤ pos)
    (inside : pos ≤ array.length) (values : List α) :
    (overwrite array pos values).take n = array.take n := by
  have front : n ≤ (array.take pos).length := before.trans (length_take_of_le inside).ge
  rw [overwrite, append_assoc, take_append_of_le_length front, take_take,
    Nat.min_eq_left before]

theorem take_overwrite (inside : pos ≤ array.length) (values : List α) :
    (overwrite array pos values).take (pos + values.length) = array.take pos ++ values := by
  have front : (array.take pos ++ values).length = pos + values.length := by
    rw [length_append, length_take_of_le inside]
  exact take_left' front

theorem drop_overwrite (inside : pos ≤ array.length) (values : List α) :
    (overwrite array pos values).drop pos = values ++ array.drop (pos + values.length) := by
  rw [overwrite, append_assoc, drop_left' (length_take_of_le inside)]

theorem drop_overwrite_of_le {pos n : Nat}
    (inside : pos ≤ array.length) (after : pos + values.length ≤ n) :
    (overwrite array pos values).drop n = array.drop n := by
  obtain ⟨more, rfl⟩ := Nat.exists_eq_add_of_le after
  rw [Nat.add_assoc, ← drop_drop, drop_overwrite inside, ← drop_drop, drop_left,
    drop_drop, Nat.add_assoc]

/-- The argument of an operation that adds an element: a value, or a reference to an
element of the container itself. -/
inductive Argument (α : Type u)
  | value (value : α)
  | element (index : Nat)
  deriving DecidableEq

/-- The value that the argument has before the operation. -/
def Argument.of (values : List α) : Argument α → Option α
  | .value held => some held
  | .element index => values[index]?

/-- A `static_vector` with its array and its size. -/
@[ext]
structure StaticVector (α : Type u) (N : Nat) where
  array : List α
  size : Nat
  length_array : array.length = N
  size_le : size ≤ N
  deriving DecidableEq

namespace StaticVector

variable {N : Nat}

/-- The elements from the beginning to the end. -/
def elements (v : StaticVector α N) : List α :=
  v.array.take v.size

def full (v : StaticVector α N) : Bool :=
  v.size == N

def empty (v : StaticVector α N) : Bool :=
  v.size == 0

/-- Writes values into the slots from a position on. -/
def write (v : StaticVector α N) (pos : Nat) (values : List α)
    (inside : pos + values.length ≤ N) : StaticVector α N where
  array := overwrite v.array pos values
  size := v.size
  length_array := (length_overwrite (inside.trans_eq v.length_array.symm)).trans v.length_array
  size_le := v.size_le

def withSize (v : StaticVector α N) (size : Nat) (size_le : size ≤ N) : StaticVector α N where
  array := v.array
  size := size
  length_array := v.length_array
  size_le := size_le

theorem length_slice_le (v : StaticVector α N) (inside : last ≤ v.size) :
    (slice v.array first last).length = last - first :=
  length_slice (inside.trans (v.size_le.trans_eq v.length_array.symm))

/-! ## Operations

An operation is refused where its assertions fail. -/

def pushBack (v : StaticVector α N) (value : α) : Option (StaticVector α N) :=
  if room : v.size < N then some ((v.write v.size [value] room).withSize (v.size + 1) room)
  else none

/-- Copies the elements of a range in front of a position, after those from it on
were moved backwards. -/
def insertRange (v : StaticVector α N) (pos : Nat) (values : List α) :
    Option (StaticVector α N) :=
  if room : v.size + values.length ≤ N ∧ pos ≤ v.size then
    let moved := v.write (pos + values.length) (slice v.array pos v.size) (by
      rw [v.length_slice_le le_rfl, Nat.add_right_comm, Nat.add_sub_cancel' room.2]
      exact room.1)
    some ((moved.write pos values
      ((Nat.add_le_add_right room.2 _).trans room.1)).withSize (v.size + values.length) room.1)
  else none

/-- The insertion of a single value, also of one that is constructed in place. -/
def insert (v : StaticVector α N) (pos : Nat) (value : α) : Option (StaticVector α N) :=
  insertRange v pos [value]

/-- The array after the elements from a position on were moved backwards by a slot. -/
def movedBackward (v : StaticVector α N) (pos : Nat) : List α :=
  overwrite v.array (pos + 1) (slice v.array pos v.size)

/-- The insertion of an argument. A reference to an element is read when the elements
from the position on were moved already. -/
def insertArgument (v : StaticVector α N) (pos : Nat) : Argument α → Option (StaticVector α N)
  | .value value => v.insert pos value
  | .element index =>
      if index < v.size then (v.movedBackward pos)[index]?.bind (v.insert pos) else none

variable [Inhabited α]

/-- The static vector without elements. -/
def init : StaticVector α N where
  array := List.replicate N default
  size := 0
  length_array := length_replicate
  size_le := Nat.zero_le N

def popBack (v : StaticVector α N) : Option (StaticVector α N) :=
  if nonempty : 0 < v.size then
    some ((v.withSize (v.size - 1) ((Nat.sub_le _ 1).trans v.size_le)).write (v.size - 1) [default]
      ((Nat.sub_add_cancel nonempty).trans_le v.size_le))
  else none

def clear (v : StaticVector α N) : StaticVector α N :=
  (v.write 0 (List.replicate v.size default)
    ((Nat.zero_add _).trans_le (length_replicate.trans_le v.size_le))).withSize 0
      (Nat.zero_le N)

/-- Only the slots that are given up are reset. -/
def resize (v : StaticVector α N) (n : Nat) : Option (StaticVector α N) :=
  if fits : n ≤ N then
    some ((if less : n < v.size then
        v.write n (List.replicate (v.size - n) default) (by
          rw [length_replicate, Nat.add_sub_cancel' less.le]
          exact v.size_le)
      else v).withSize n fits)
  else none

/-- Resets the elements of a range, and moves those after it forwards. -/
def eraseRange (v : StaticVector α N) (first last : Nat) : Option (StaticVector α N) :=
  if valid : first ≤ last ∧ last ≤ v.size then
    let reset := v.write first (List.replicate (last - first) default) (by
      rw [length_replicate, Nat.add_sub_cancel' valid.1]
      exact valid.2.trans v.size_le)
    some ((reset.write first (slice reset.array last v.size) (by
        have moved : (slice reset.array last v.size).length = v.size - last :=
          reset.length_slice_le le_rfl
        rw [moved]
        exact ((Nat.add_le_add_right valid.1 _).trans_eq
          (Nat.add_sub_cancel' valid.2)).trans v.size_le)).withSize
      (v.size - (last - first)) ((Nat.sub_le _ _).trans v.size_le))
  else none

/-- The erasure of the element at a position. -/
def erase (v : StaticVector α N) (pos : Nat) : Option (StaticVector α N) :=
  eraseRange v pos (pos + 1)

/-- Moves the elements that do not satisfy the predicate to the front, and returns
the position past them. -/
def removeIf (v : StaticVector α N) (predicate : α → Bool) : StaticVector α N × Nat :=
  let kept := v.elements.filter fun value => !predicate value
  (v.write 0 kept (by
    rw [Nat.zero_add]
    exact ((length_filter_le _ _).trans (length_take_le _ _)).trans v.size_le),
    kept.length)

def eraseIf (v : StaticVector α N) (predicate : α → Bool) : Option (StaticVector α N) :=
  let removed := removeIf v predicate
  eraseRange removed.1 removed.2 v.size

/-! ## Effects of the operations

Every operation leaves certain elements, and certain slots past them. -/

/-- The slots past the size. -/
def unused (v : StaticVector α N) : List α :=
  v.array.drop v.size

/-- An operation is taken, and leaves these elements and these slots past them. -/
def Leaves (result : Option (StaticVector α N)) (elements unused : List α) : Prop :=
  ∃ w, result = some w ∧ w.elements = elements ∧ w.unused = unused

theorem init_elements : (init : StaticVector α N).elements = [] :=
  @List.take_zero _ (List.replicate N default)

omit [Inhabited α] in
theorem length_elements (v : StaticVector α N) : v.elements.length = v.size :=
  length_take_of_le (v.size_le.trans_eq v.length_array.symm)

omit [Inhabited α] in
theorem size_le_length_array (v : StaticVector α N) : v.size ≤ v.array.length :=
  v.size_le.trans_eq v.length_array.symm

variable {v : StaticVector α N}

omit [Inhabited α] in
theorem size_lt_of_not_full (notFull : v.full = false) : v.size < N :=
  Nat.lt_of_le_of_ne v.size_le (beq_eq_false_iff_ne.mp notFull)

omit [Inhabited α] in
theorem slice_array (v : StaticVector α N) (pos : Nat) :
    slice v.array pos v.size = v.elements.drop pos := by
  rw [slice, elements, drop_take]

omit [Inhabited α] in
theorem take_elements (v : StaticVector α N) (inside : pos ≤ v.size) :
    v.array.take pos = v.elements.take pos := by
  rw [elements, take_take, Nat.min_eq_left inside]

omit [Inhabited α] in
theorem insertRange_leaves (v : StaticVector α N)
    (room : v.size + values.length ≤ N) (inside : pos ≤ v.size) :
    Leaves (v.insertRange pos values) (v.elements.take pos ++ values ++ v.elements.drop pos)
      (v.unused.drop values.length) := by
  have arrayPos : pos ≤ v.array.length := inside.trans v.size_le_length_array
  have gapEnd : pos + values.length ≤ v.array.length := by
    rw [v.length_array]
    exact (Nat.add_le_add_right inside _).trans room
  have tailLength : (v.elements.drop pos).length = v.size - pos := by
    rw [length_drop, length_elements]
  have stored : pos + values.length + (v.size - pos) = v.size + values.length := by
    rw [Nat.add_right_comm, Nat.add_sub_cancel' inside]
  have array : overwrite (overwrite v.array (pos + values.length) (slice v.array pos v.size))
      pos values = v.elements.take pos ++ values ++ v.elements.drop pos ++
        v.unused.drop values.length := by
    rw [slice_array, overwrite, take_overwrite_of_le (Nat.le_add_right _ _) gapEnd,
      take_elements v inside, drop_overwrite gapEnd, tailLength, stored, unused, drop_drop,
      append_assoc, append_assoc, append_assoc]
  have whole : (v.elements.take pos ++ values ++ v.elements.drop pos).length =
      v.size + values.length := by
    rw [length_append, length_append, tailLength, length_take, length_elements,
      Nat.min_eq_left inside, stored]
  refine ⟨_, dif_pos ⟨room, inside⟩, ?_, ?_⟩
  · exact (congrArg (List.take _) array).trans (take_left' whole)
  · exact (congrArg (List.drop _) array).trans (drop_left' whole)

omit [Inhabited α] in
theorem insertRange_eq_none (refused : ¬(v.size + values.length ≤ N ∧ pos ≤ v.size)) :
    v.insertRange pos values = none :=
  dif_neg refused

omit [Inhabited α] in
/-- An element in front of the position is found where it was. -/
theorem movedBackward_front (v : StaticVector α N) {pos index : Nat} (front : index ≤ pos)
    (isElement : index < v.size) : (v.movedBackward pos)[index]? = v.elements[index]? := by
  have inFront : index < pos + 1 := Nat.lt_succ_of_le front
  have stored : index < (v.array.take (pos + 1)).length := by
    rw [length_take]
    exact lt_min inFront (isElement.trans_le v.size_le_length_array)
  rw [movedBackward, overwrite, append_assoc, getElem?_append_left stored,
    getElem?_take_of_lt inFront, elements, getElem?_take_of_lt isElement]

omit [Inhabited α] in
/-- An element behind the position is read from the slot of the element before it. -/
theorem movedBackward_behind (v : StaticVector α N) {pos index : Nat} (room : v.size < N)
    (behind : pos < index) (isElement : index < v.size) :
    (v.movedBackward pos)[index]? = v.elements[index - 1]? := by
  have arrayPos : pos + 1 ≤ v.array.length := by
    rw [v.length_array]
    omega
  have moved : index - (pos + 1) < (v.elements.drop pos).length := by
    rw [length_drop, length_elements]
    omega
  have place : pos + 1 + (index - (pos + 1)) = index := Nat.add_sub_cancel' behind
  have source : pos + (index - (pos + 1)) = index - 1 := by omega
  rw [← place, ← getElem?_drop, movedBackward, drop_overwrite arrayPos, slice_array,
    getElem?_append_left moved, getElem?_drop, source, place]

omit [Inhabited α] in
theorem pushBack_leaves (v : StaticVector α N) {value : α} (room : v.size < N) :
    Leaves (v.pushBack value) (v.elements ++ [value]) (v.unused.drop 1) := by
  refine ⟨_, dif_pos room, ?_, ?_⟩
  · exact take_overwrite v.size_le_length_array [value]
  · have after : (overwrite v.array v.size [value]).drop (v.size + 1) = v.array.drop (v.size + 1) :=
      drop_overwrite_of_le v.size_le_length_array le_rfl
    exact after.trans (drop_drop).symm

theorem popBack_leaves (v : StaticVector α N) (nonempty : 0 < v.size) :
    Leaves v.popBack v.elements.dropLast (default :: v.unused) := by
  have fewer : v.size - 1 ≤ v.array.length := (Nat.sub_le _ 1).trans v.size_le_length_array
  have next : v.size - 1 + 1 = v.size := Nat.sub_add_cancel nonempty
  refine ⟨_, dif_pos nonempty, ?_, ?_⟩
  · rw [elements, write, withSize, take_overwrite_of_le le_rfl fewer,
      take_elements v (Nat.sub_le _ 1), dropLast_eq_take, length_elements]
  · rw [unused, write, withSize, drop_overwrite fewer, length_singleton, next]
    rfl

theorem clear_elements (v : StaticVector α N) : v.clear.elements = [] :=
  take_zero

/-- A growing `resize` takes the elements that it adds from the slots past the size,
as they are. -/
theorem resize_leaves (v : StaticVector α N) {n : Nat} (fits : n ≤ N) :
    Leaves (v.resize n) (v.elements.take n ++ v.unused.take (n - v.size))
      (List.replicate (v.size - n) default ++ v.unused.drop (n - v.size)) := by
  refine ⟨_, dif_pos fits, ?_, ?_⟩
  · by_cases less : n < v.size
    · rw [dif_pos less, elements, withSize, write,
        take_overwrite_of_le le_rfl (less.le.trans v.size_le_length_array),
        take_elements v less.le, Nat.sub_eq_zero_of_le less.le, take_zero, append_nil]
    · have enough : v.size ≤ n := Nat.le_of_not_lt less
      have all : v.elements.take n = v.elements :=
        take_of_length_le (v.length_elements.trans_le enough)
      rw [dif_neg less, elements, withSize, all, elements, unused, ← take_add,
        Nat.add_sub_cancel' enough]
  · by_cases less : n < v.size
    · rw [dif_pos less, unused, withSize, write,
        drop_overwrite (less.le.trans v.size_le_length_array), length_replicate,
        Nat.add_sub_cancel' less.le, Nat.sub_eq_zero_of_le less.le, drop_zero, unused]
    · have enough : v.size ≤ n := Nat.le_of_not_lt less
      rw [dif_neg less, unused, withSize, Nat.sub_eq_zero_of_le enough, replicate_zero,
        nil_append, unused, drop_drop, Nat.add_sub_cancel' enough]

omit [Inhabited α] in
theorem drop_array (v : StaticVector α N) (inside : pos ≤ v.size) :
    v.array.drop pos = v.elements.drop pos ++ v.unused := by
  have split : v.array = v.elements ++ v.unused := (take_append_drop v.size v.array).symm
  rw [split, drop_append_of_le_length (inside.trans_eq v.length_elements.symm)]

/-- The slots that the moved elements leave keep them. -/
theorem eraseRange_leaves (v : StaticVector α N) (ordered : first ≤ last) (inside : last ≤ v.size) :
    Leaves (v.eraseRange first last) (v.elements.take first ++ v.elements.drop last)
      ((List.replicate (last - first) default ++ v.elements.drop last).drop (v.size - last) ++
        v.unused) := by
  have arrayFirst : first ≤ v.array.length :=
    (ordered.trans inside).trans v.size_le_length_array
  have gap : first + (last - first) = last := Nat.add_sub_cancel' ordered
  have tailLength : (v.elements.drop last).length = v.size - last := by
    rw [length_drop, length_elements]
  have remaining : first + (v.size - last) = v.size - (last - first) := by omega
  let reset := overwrite v.array first (List.replicate (last - first) default)
  have resetFirst : first ≤ reset.length := by
    rw [length_overwrite]
    · exact arrayFirst
    · rw [length_replicate, gap]
      exact inside.trans v.size_le_length_array
  have tail : slice reset last v.size = v.elements.drop last := by
    rw [slice, drop_overwrite_of_le arrayFirst (by rw [length_replicate, gap]), ← slice,
      slice_array]
  have stored : (overwrite reset first (v.elements.drop last)).take (v.size - (last - first)) =
      v.elements.take first ++ v.elements.drop last := by
    rw [← remaining, ← tailLength, take_overwrite resetFirst,
      take_overwrite_of_le le_rfl arrayFirst, take_elements v (ordered.trans inside)]
  have left : (overwrite reset first (v.elements.drop last)).drop (v.size - (last - first)) =
      (List.replicate (last - first) default ++ v.elements.drop last).drop (v.size - last) ++
        v.unused := by
    have short : v.size - last ≤
        (List.replicate (last - first) default ++ v.elements.drop last).length := by
      rw [length_append, tailLength]
      exact Nat.le_add_left _ _
    rw [← remaining, ← drop_drop, drop_overwrite resetFirst, ← tailLength, drop_left,
      ← drop_drop, drop_overwrite arrayFirst, length_replicate, gap,
      drop_array v inside, ← append_assoc, drop_append_of_le_length]
    exact tailLength.trans_le short
  refine ⟨_, dif_pos ⟨ordered, inside⟩, ?_, ?_⟩
  · exact (congrArg (fun moved => (overwrite reset first moved).take _) tail).trans stored
  · exact (congrArg (fun moved => (overwrite reset first moved).drop _) tail).trans left

theorem eraseRange_eq_none
    (refused : ¬(first ≤ last ∧ last ≤ v.size)) : v.eraseRange first last = none :=
  dif_neg refused

theorem eraseIf_leaves (v : StaticVector α N) (predicate : α → Bool) :
    Leaves (v.eraseIf predicate) (v.elements.filter fun value => !predicate value)
      (List.replicate (v.size - (v.elements.filter fun value => !predicate value).length) default ++
        v.unused) := by
  have fewer : (v.removeIf predicate).2 ≤ (v.removeIf predicate).1.size :=
    (length_filter_le _ _).trans_eq v.length_elements
  have kept : (v.removeIf predicate).1.elements.take (v.removeIf predicate).2 =
      v.elements.filter fun value => !predicate value := by
    rw [← take_elements _ fewer]
    exact take_left
  have others : (v.removeIf predicate).1.unused = v.unused := by
    refine drop_overwrite_of_le (Nat.zero_le _) ?_
    rw [Nat.zero_add]
    exact fewer
  have none_after : (v.removeIf predicate).1.elements.drop (v.removeIf predicate).1.size = [] :=
    drop_of_length_le (length_elements _).le
  have erased := (v.removeIf predicate).1.eraseRange_leaves fewer le_rfl
  rwa [kept, none_after, others, append_nil, append_nil, Nat.sub_self,
    drop_zero] at erased

end StaticVector

end Eagine.Container

/-!
## Plain vectors

The operations of `std::vector` on the list of its elements. An operation is refused
where its precondition does not hold.
-/

namespace Eagine.Container.StdVector

universe u

variable {α : Type u}

def pushBack (v : List α) (value : α) : List α :=
  v ++ [value]

def popBack (v : List α) : Option (List α) :=
  if 0 < v.length then some v.dropLast else none

def insertRange (v : List α) (pos : Nat) (values : List α) : Option (List α) :=
  if pos ≤ v.length then some (v.take pos ++ values ++ v.drop pos) else none

def insert (v : List α) (pos : Nat) (value : α) : Option (List α) :=
  insertRange v pos [value]

def eraseRange (v : List α) (first last : Nat) : Option (List α) :=
  if first ≤ last ∧ last ≤ v.length then some (v.take first ++ v.drop last) else none

def erase (v : List α) (pos : Nat) : Option (List α) :=
  eraseRange v pos (pos + 1)

def eraseIf (v : List α) (predicate : α → Bool) : List α :=
  v.filter fun value => !predicate value

/-- The elements that are added are the default value. -/
def resize [Inhabited α] (v : List α) (n : Nat) : List α :=
  v.take n ++ List.replicate (n - v.length) default

/-- The insertion between two parts of a vector. -/
theorem insertIdx_append (front back : List α) (value : α) :
    (front ++ back).insertIdx front.length value = front ++ value :: back := by
  induction front with
  | nil => rfl
  | cons first front ih =>
      rw [List.cons_append, List.length_cons, List.insertIdx_succ_cons, ih, List.cons_append]

end Eagine.Container.StdVector
