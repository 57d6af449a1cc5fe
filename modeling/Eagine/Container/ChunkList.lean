import Eagine.Container.StaticVector
import Mathlib.Logic.Function.Iterate

/-!
# Chunk lists

A container made of chunks with a fixed capacity. Chunks are split when they are full
and are never merged, thus any of them may be empty. An iterator is a position of a
chunk with a position of an element in it.
-/

namespace Eagine.Container

universe u

/-- A `chunk_list_iterator`, without the end of the chunks. -/
structure ChunkListIterator where
  iterC : Nat
  iterE : Nat
  deriving DecidableEq

structure ChunkList (α : Type u) (N : Nat) where
  chunks : List (StaticVector α N)
  deriving DecidableEq

namespace ChunkList

variable {α : Type u} {N : Nat}

/-- The loop of `adjust` over the chunks from the current one on. Past the last chunk
there is no element. -/
def adjustFrom : List (StaticVector α N) → Nat → Nat → ChunkListIterator
  | [], iterC, iterE => ⟨iterC, iterE⟩
  | chunk :: chunks, iterC, iterE =>
      if iterE ≠ chunk.size then ⟨iterC, iterE⟩ else adjustFrom chunks (iterC + 1) 0

def adjust (l : ChunkList α N) (pos : ChunkListIterator) : ChunkListIterator :=
  adjustFrom (l.chunks.drop pos.iterC) pos.iterC pos.iterE

def begin (l : ChunkList α N) : ChunkListIterator :=
  l.adjust ⟨0, 0⟩

def endPos (l : ChunkList α N) : ChunkListIterator :=
  ⟨l.chunks.length, 0⟩

/-- The increment of an iterator. -/
def next (l : ChunkList α N) (pos : ChunkListIterator) : ChunkListIterator :=
  l.adjust ⟨pos.iterC, pos.iterE + 1⟩

def deref (l : ChunkList α N) (pos : ChunkListIterator) : Option α :=
  l.chunks[pos.iterC]?.bind fun chunk => chunk.elements[pos.iterE]?

/-- The iterator that is a number of increments past the beginning. -/
def position (l : ChunkList α N) (k : Nat) : ChunkListIterator :=
  l.next^[k] l.begin

/-- The elements from an iterator to the end. -/
def iterateFrom (l : ChunkList α N) : Nat → ChunkListIterator → Option (List α)
  | 0, pos => if pos = l.endPos then some [] else none
  | fuel + 1, pos =>
      if pos = l.endPos then some []
      else (l.deref pos).bind fun value => (l.iterateFrom fuel (l.next pos)).map (value :: ·)

def size (l : ChunkList α N) : Nat :=
  l.chunks.foldl (fun total chunk => total + chunk.size) 0

def empty (l : ChunkList α N) : Bool :=
  l.size == 0

/-- Iterates from the beginning to the end, with a step for every element. -/
def iterate (l : ChunkList α N) : Option (List α) :=
  l.iterateFrom l.size l.begin

def front (l : ChunkList α N) : Option α :=
  (l.chunks.find? fun chunk => !chunk.empty).bind fun chunk => chunk.elements.head?

def back (l : ChunkList α N) : Option α :=
  (l.chunks.reverse.find? fun chunk => !chunk.empty).bind fun chunk => chunk.elements.getLast?

variable [Inhabited α]

def init : ChunkList α N :=
  ⟨[]⟩

def clear (l : ChunkList α N) : ChunkList α N :=
  ⟨l.chunks.map StaticVector.clear⟩

/-- The chunks with a new one at the back, if there is no room in the last one. -/
def withRoomAtBack (chunks : List (StaticVector α N)) : List (StaticVector α N) :=
  if chunks.getLast?.any StaticVector.full then chunks ++ [StaticVector.init] else chunks

def pushBack (l : ChunkList α N) (value : α) : Option (ChunkList α N) :=
  let chunks :=
    if l.empty then l.chunks ++ [StaticVector.init] else withRoomAtBack l.chunks
  chunks.getLast?.bind fun chunk =>
    (chunk.pushBack value).map fun chunk => ⟨chunks.dropLast ++ [chunk]⟩

/-- Pops from the last chunk that is not empty, given the chunks from the back. -/
def popBackReversed : List (StaticVector α N) → Option (List (StaticVector α N))
  | [] => none
  | chunk :: chunks =>
      if chunk.empty then (popBackReversed chunks).map (chunk :: ·)
      else chunk.popBack.map (· :: chunks)

def popBack (l : ChunkList α N) : Option (ChunkList α N) :=
  (popBackReversed l.chunks.reverse).map fun chunks => ⟨chunks.reverse⟩

def assignFrom (l : ChunkList α N) : List α → Option (ChunkList α N)
  | [] => some l
  | value :: values => (l.pushBack value).bind fun l => l.assignFrom values

def assign (l : ChunkList α N) (values : List α) : Option (ChunkList α N) :=
  l.clear.assignFrom values

/-- A position in a chunk with room for another element. The elements of a full chunk
are divided between it and a new one. -/
def getInsertPosition (l : ChunkList α N) (pos : ChunkListIterator) :
    Option (ChunkList α N × ChunkListIterator) :=
  if l.chunks.isEmpty then some (⟨[StaticVector.init]⟩, ⟨0, 0⟩)
  else if pos.iterC = l.chunks.length then
    let chunks := withRoomAtBack l.chunks
    chunks.getLast?.map fun chunk => (⟨chunks⟩, ⟨chunks.length - 1, chunk.size⟩)
  else
    l.chunks[pos.iterC]?.bind fun chunk =>
      if chunk.full then
        let split := N / 2
        (StaticVector.init.insertRange 0 (chunk.elements.drop split)).bind fun next =>
          (chunk.eraseRange split chunk.size).map fun first =>
            (⟨(l.chunks.set pos.iterC first).insertIdx (pos.iterC + 1) next⟩,
              if pos.iterE ≤ split then pos else ⟨pos.iterC + 1, pos.iterE - split⟩)
      else some (l, pos)

def insert (l : ChunkList α N) (pos : ChunkListIterator) (value : α) :
    Option (ChunkList α N × ChunkListIterator) :=
  (l.getInsertPosition pos).bind fun found =>
    found.1.chunks[found.2.iterC]?.bind fun chunk =>
      (chunk.insert found.2.iterE value).map fun chunk =>
        let inserted : ChunkList α N := ⟨found.1.chunks.set found.2.iterC chunk⟩
        (inserted, inserted.adjust found.2)

/-- What a reference to an element denotes when it is read: the position of the insertion
was made, and the elements from it on were moved backwards. A chunk that is inserted
there leaves the others where they are, under the next numbers. -/
def readInserting (l : ChunkList α N) (pos reference : ChunkListIterator) : Option α :=
  (l.getInsertPosition pos).bind fun found =>
    let iterC :=
      if reference.iterC ≤ pos.iterC then reference.iterC
      else reference.iterC + (found.1.chunks.length - l.chunks.length)
    found.1.chunks[iterC]?.bind fun chunk =>
      (if iterC = found.2.iterC then chunk.movedBackward found.2.iterE
        else chunk.array)[reference.iterE]?

/-- The insertion of an argument; the elements are counted from the beginning. -/
def insertArgument (l : ChunkList α N) (pos : ChunkListIterator) :
    Argument α → Option (ChunkList α N × ChunkListIterator)
  | .value value => l.insert pos value
  | .element index => (l.readInserting pos (l.position index)).bind (l.insert pos)

/-- The insertion of a value that is constructed in place from an argument. -/
def emplace (l : ChunkList α N) (pos : ChunkListIterator) (argument : Argument α) :
    Option (ChunkList α N × ChunkListIterator) :=
  l.insertArgument pos argument

def erase (l : ChunkList α N) (pos : ChunkListIterator) :
    Option (ChunkList α N × ChunkListIterator) :=
  if pos.iterC = l.chunks.length then some (l, l.endPos)
  else
    l.chunks[pos.iterC]?.bind fun chunk =>
      (chunk.erase pos.iterE).map fun chunk =>
        let erased : ChunkList α N := ⟨l.chunks.set pos.iterC chunk⟩
        (erased, erased.adjust pos)

/-- The chunks without the elements that satisfy the predicate, with the number of
these elements. -/
def eraseIfFrom (predicate : α → Bool) :
    List (StaticVector α N) → Option (List (StaticVector α N) × Nat)
  | [] => some ([], 0)
  | chunk :: chunks =>
      (chunk.eraseIf predicate).bind fun kept =>
        (eraseIfFrom predicate chunks).map fun others =>
          (kept :: others.1, chunk.size - kept.size + others.2)

def eraseIf (l : ChunkList α N) (predicate : α → Bool) : Option (ChunkList α N × Nat) :=
  (eraseIfFrom predicate l.chunks).map fun kept => (⟨kept.1⟩, kept.2)

/-- An operation with its arguments; positions are counted from the beginning. -/
inductive Operation (α : Type u)
  | pushBack (argument : Argument α)
  | popBack
  | insert (pos : Nat) (argument : Argument α)
  | emplace (pos : Nat) (argument : Argument α)
  | erase (pos : Nat)
  | eraseIf (predicate : α → Bool)
  | clear
  | assign (values : List α)

/-- The argument of `push_back`, which moves no element before it is read. -/
def argument (l : ChunkList α N) : Argument α → Option α
  | .value held => some held
  | .element index => l.deref (l.position index)

def step (l : ChunkList α N) : Operation α → Option (ChunkList α N)
  | .pushBack argument => (l.argument argument).bind l.pushBack
  | .popBack => l.popBack
  | .insert pos argument => (l.insertArgument (l.position pos) argument).map Prod.fst
  | .emplace pos argument => (l.emplace (l.position pos) argument).map Prod.fst
  | .erase pos => (l.erase (l.position pos)).map Prod.fst
  | .eraseIf predicate => (l.eraseIf predicate).map Prod.fst
  | .clear => some l.clear
  | .assign values => l.assign values

/-- The same operations on a plain list. -/
def listStep (values : List α) : Operation α → Option (List α)
  | .pushBack argument => (argument.of values).map (StdVector.pushBack values)
  | .popBack => StdVector.popBack values
  | .insert pos argument => (argument.of values).bind (StdVector.insert values pos)
  | .emplace pos argument => (argument.of values).bind (StdVector.insert values pos)
  | .erase pos => StdVector.erase values pos
  | .eraseIf predicate => some (StdVector.eraseIf values predicate)
  | .clear => some []
  | .assign values => some values

/-- An argument is read as it was: it is not an element behind the position in the chunk
of the position, and none in the rear half of this chunk if it is split. -/
def ReadsIntact (l : ChunkList α N) (pos : Nat) : Argument α → Prop
  | .value _ => True
  | .element index =>
      (l.position index).iterC = (l.position pos).iterC →
        (l.position index).iterE ≤ (l.position pos).iterE ∧
          ((l.chunks[(l.position pos).iterC]?).any StaticVector.full →
            (l.position index).iterE < N / 2)

instance (l : ChunkList α N) (pos : Nat) :
    (argument : Argument α) → Decidable (l.ReadsIntact pos argument)
  | .value _ => isTrue trivial
  | .element _ => inferInstanceAs (Decidable (_ → _ ∧ (_ → _)))

/-- The condition on a step: an insertion reads its argument as it was. -/
def IsIntact (l : ChunkList α N) : Operation α → Prop
  | .insert pos argument | .emplace pos argument => l.ReadsIntact pos argument
  | _ => True

instance (l : ChunkList α N) : (op : Operation α) → Decidable (l.IsIntact op)
  | .insert pos argument | .emplace pos argument =>
      inferInstanceAs (Decidable (l.ReadsIntact pos argument))
  | .pushBack _ | .popBack | .erase _ | .eraseIf _ | .clear | .assign _ => isTrue trivial

end ChunkList

end Eagine.Container
