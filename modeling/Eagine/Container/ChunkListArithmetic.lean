import Eagine.Container.ChunkListRefinement
import Eagine.Theory.LowerBound
import Eagine.Theory.StrictWeakOrder

/-!
# Arithmetic of iterators

Iterators are moved by a number of elements, chunk by chunk, and their distance is counted in
the same way. All of it agrees with single increments, also where chunks are empty, so that a
binary search in a chunk list ends where one in the sequence of its elements does.
-/

open List

namespace Eagine.Container.ChunkList

open Theory

universe u v

variable {α : Type u} {N : Nat}

/-- The loop of `operator+=` over the chunks that follow. -/
def advanceFrom : List (StaticVector α N) → Nat → Nat → Option ChunkListIterator
  | [], iterC, d => if d = 0 then some ⟨iterC, 0⟩ else none
  | chunk :: chunks, iterC, d =>
      if d ≤ chunk.size then some ⟨iterC, d⟩ else advanceFrom chunks (iterC + 1) (d - chunk.size)

/-- `operator+=`, for a number that is not negative. -/
def advance (l : ChunkList α N) (pos : ChunkListIterator) (d : Nat) : Option ChunkListIterator :=
  match l.chunks.drop pos.iterC with
  | [] => none
  | chunk :: chunks =>
      let currD := chunk.size - pos.iterE
      (if d ≤ currD then some ⟨pos.iterC, pos.iterE + d⟩
        else advanceFrom chunks (pos.iterC + 1) (d - currD)).map l.adjust

theorem advanceFrom_eq {before rest : List (StaticVector α N)} {d : Nat}
    (inside : d ≤ (flat rest).length) :
    (advanceFrom rest before.length d).map (adjust ⟨before ++ rest⟩) =
      some (locate (before ++ rest) ((flat before).length + d)) := by
  induction rest generalizing before d with
  | nil =>
      obtain rfl : d = 0 := Nat.le_zero.mp inside
      rw [advanceFrom, if_pos rfl, Option.map_some, append_nil, Nat.add_zero, locate_length,
        adjust, drop_length]
      rfl
  | cons chunk rest ih =>
      rw [advanceFrom]
      split_ifs with here
      · rw [Option.map_some, adjust_split here]
      · rw [flat_cons, length_append, chunk.length_elements] at inside
        have others : d - chunk.size ≤ (flat rest).length := by omega
        have moved := @ih (before ++ [chunk]) _ others
        rw [append_assoc, length_append, length_singleton, flat_concat,
          length_append, chunk.length_elements] at moved
        have total : (flat before).length + chunk.size + (d - chunk.size) =
            (flat before).length + d := by omega
        rwa [total] at moved

/-- Moving an iterator of an element. -/
theorem advance_locate (l : ChunkList α N) {k d : Nat} (start : k < l.elements.length)
    (inside : k + d ≤ l.elements.length) :
    l.advance (locate l.chunks k) d = some (locate l.chunks (k + d)) := by
  rcases l with ⟨chunks⟩
  rcases exists_chunk start with ⟨before, chunk, after, e, rfl, within, rfl⟩
  rw [locate_split within, advance]
  simp only [drop_left]
  split_ifs with here
  · have upTo : e + d ≤ chunk.size := by omega
    rw [Option.map_some, adjust_split upTo, Nat.add_assoc]
  · rw [elements, flat_split, length_append, length_append,
      chunk.length_elements] at inside
    have others : d - (chunk.size - e) ≤ (flat after).length := by omega
    have moved := @advanceFrom_eq _ _ (before ++ [chunk]) _ _ others
    rw [append_assoc, length_append, length_singleton, flat_concat,
      length_append, chunk.length_elements] at moved
    have total : (flat before).length + chunk.size + (d - (chunk.size - e)) =
        (flat before).length + e + d := by omega
    rwa [total] at moved

theorem advance_position (l : ChunkList α N) {k d : Nat} (start : k < l.size)
    (inside : k + d ≤ l.size) : l.advance (l.position k) d = some (l.position (k + d)) := by
  rw [size_eq] at start inside
  rw [position_eq l start.le, position_eq l inside, advance_locate l start inside]

/-- The order of iterators. -/
def lessEq (first second : ChunkListIterator) : Bool :=
  decide (first.iterC < second.iterC ∨ (first.iterC = second.iterC ∧ first.iterE ≤ second.iterE))

/-- The loop of `forward_distance` over the chunks that follow, up to that of the second
iterator. -/
def distanceFrom : List (StaticVector α N) → Nat → ChunkListIterator → Int → Option Int
  | [], cP, second, r => if cP = second.iterC then some r else none
  | chunk :: chunks, cP, second, r =>
      if cP = second.iterC then some (r + second.iterE)
      else distanceFrom chunks (cP + 1) second (r + chunk.size)

def forwardDistance (l : ChunkList α N) (first second : ChunkListIterator) : Option Int :=
  match l.chunks.drop first.iterC with
  | [] => some 0
  | chunk :: chunks =>
      if first.iterC = second.iterC then some (second.iterE - first.iterE)
      else distanceFrom chunks (first.iterC + 1) second (chunk.size - first.iterE)

def distance (l : ChunkList α N) (first second : ChunkListIterator) : Option Int :=
  if lessEq first second then l.forwardDistance first second
  else (l.forwardDistance second first).map fun d => -d

theorem distanceFrom_eq {rest : List (StaticVector α N)} {d : Nat}
    (inside : d ≤ (flat rest).length) (cP : Nat) (r : Int) :
    distanceFrom rest cP ⟨cP + (locate rest d).iterC, (locate rest d).iterE⟩ r = some (r + d) := by
  induction rest generalizing d cP r with
  | nil =>
      obtain rfl : d = 0 := Nat.le_zero.mp inside
      simp [distanceFrom, locate]
  | cons chunk rest ih =>
      rw [flat_cons, length_append, chunk.length_elements] at inside
      by_cases here : d < chunk.size
      · simp [distanceFrom, locate, here]
      · have others : d - chunk.size ≤ (flat rest).length := by omega
        have further : cP ≠ cP + ((locate rest (d - chunk.size)).iterC + 1) := by omega
        rw [distanceFrom, locate, if_neg here, if_neg further]
        have counted := ih others (cP + 1) (r + chunk.size)
        rw [Nat.add_right_comm] at counted
        rw [← Nat.add_assoc, counted]
        congr 1
        omega

/-- The iterators of later positions in the chunks from one on. -/
theorem locate_later {before : List (StaticVector α N)} {chunk : StaticVector α N}
    {after : List (StaticVector α N)} (d : Nat) :
    locate (before ++ chunk :: after) ((flat before).length + d) =
      if d < chunk.size then ⟨before.length, d⟩
      else ⟨before.length + 1 + (locate after (d - chunk.size)).iterC,
        (locate after (d - chunk.size)).iterE⟩ := by
  rw [locate_append, locate]
  split_ifs
  · rfl
  · simp only [ChunkListIterator.mk.injEq, and_true]
    omega

variable {i j : Nat}

theorem forwardDistance_locate (l : ChunkList α N) (ordered : i ≤ j)
    (inside : j ≤ l.elements.length) :
    l.forwardDistance (locate l.chunks i) (locate l.chunks j) = some ((j : Int) - i) := by
  rcases Nat.lt_or_eq_of_le (ordered.trans inside) with start | atEnd
  · rcases l with ⟨chunks⟩
    rcases exists_chunk start with ⟨before, chunk, after, e, rfl, within, rfl⟩
    obtain ⟨d, rfl⟩ := Nat.exists_eq_add_of_le (Nat.le_of_add_right_le ordered)
    rw [locate_split within, locate_later d, forwardDistance]
    simp only [drop_left]
    split_ifs with here same same
    · simp only [Option.some_inj]
      omega
    · exact absurd rfl same
    · simp only at same
      omega
    · rw [elements, flat_split, length_append, length_append,
        chunk.length_elements] at inside
      have others : d - chunk.size ≤ (flat after).length := by omega
      rw [distanceFrom_eq others]
      simp only [Option.some_inj]
      omega
  · obtain rfl : i = j := by omega
    rw [atEnd, elements, locate_length, forwardDistance]
    simp

theorem lessEq_locate (l : ChunkList α N) (ordered : i ≤ j)
    (inside : j ≤ l.elements.length) : lessEq (locate l.chunks i) (locate l.chunks j) = true := by
  rcases Nat.lt_or_eq_of_le (ordered.trans inside) with start | atEnd
  · rcases l with ⟨chunks⟩
    rcases exists_chunk start with ⟨before, chunk, after, e, rfl, within, rfl⟩
    obtain ⟨d, rfl⟩ := Nat.exists_eq_add_of_le (Nat.le_of_add_right_le ordered)
    rw [locate_split within, locate_later d, lessEq, decide_eq_true_iff]
    split_ifs with here
    · have upTo : e ≤ d := by omega
      exact Or.inr ⟨rfl, upTo⟩
    · have further : before.length <
          before.length + 1 + (locate after (d - chunk.size)).iterC := by omega
      exact Or.inl further
  · obtain rfl : i = j := by omega
    simp [lessEq]

/-- An iterator is not before one of an earlier position. -/
theorem lessEq_locate_of_lt (l : ChunkList α N) (ordered : i < j)
    (inside : j ≤ l.elements.length) : lessEq (locate l.chunks j) (locate l.chunks i) = false := by
  have start : i < l.elements.length := by omega
  rcases l with ⟨chunks⟩
  rcases exists_chunk start with ⟨before, chunk, after, e, rfl, within, rfl⟩
  obtain ⟨d, rfl⟩ := Nat.exists_eq_add_of_le (Nat.le_of_add_right_le ordered.le)
  rw [locate_split within, locate_later d, lessEq, decide_eq_false_iff_not]
  split_ifs with here
  · simp only
    omega
  · simp only
    omega

theorem distance_position (l : ChunkList α N) (first : i ≤ l.size)
    (second : j ≤ l.size) : l.distance (l.position i) (l.position j) = some ((j : Int) - i) := by
  rw [size_eq] at first second
  rw [position_eq l first, position_eq l second, distance]
  rcases Nat.lt_or_ge j i with inverse | ordered
  · rw [lessEq_locate_of_lt l inverse first, if_neg Bool.false_ne_true,
      forwardDistance_locate l inverse.le first, Option.map_some, Int.neg_sub]
  · rw [lessEq_locate l ordered second, if_pos rfl, forwardDistance_locate l ordered second]

/-- The loop of `lower_bound` and `upper_bound`: an element either sends it on, or it is a bound
of the rest. -/
def searchFrom (l : ChunkList α N) (goesOn : α → Bool) (first : ChunkListIterator)
    (count : Nat) : Option ChunkListIterator :=
  if count = 0 then some first
  else
    (l.advance first (count / 2)).bind fun it =>
      (l.deref it).bind fun value =>
        if goesOn value then l.searchFrom goesOn (l.next it) (count - (count / 2 + 1))
        else l.searchFrom goesOn first (count / 2)
termination_by count
decreasing_by
  · omega
  · omega

def search (l : ChunkList α N) (goesOn : α → Bool) (first last : ChunkListIterator) :
    Option ChunkListIterator :=
  (l.distance first last).bind fun count => l.searchFrom goesOn first count.toNat

def lowerBound {Key : Type v} (comp : α → Key → Bool) (l : ChunkList α N)
    (first last : ChunkListIterator) (value : Key) : Option ChunkListIterator :=
  l.search (fun e => comp e value) first last

def upperBound {Key : Type v} (comp : Key → α → Bool) (l : ChunkList α N)
    (first last : ChunkListIterator) (value : Key) : Option ChunkListIterator :=
  l.search (fun e => !comp value e) first last

/-- The loop does in the chunks what a binary search does in the sequence of elements. -/
theorem searchFrom_locate (l : ChunkList α N) (goesOn : α → Bool) {first count : Nat}
    (inside : first + count ≤ l.elements.length) :
    l.searchFrom goesOn (locate l.chunks first) count =
      some (locate l.chunks (lowerBoundFrom goesOn l.elements first count)) := by
  induction count using Nat.strong_induction_on generalizing first with
  | _ count ih =>
      rw [searchFrom, lowerBoundFrom]
      split_ifs with nothing
      · rfl
      · have middle : first + count / 2 < l.elements.length := by omega
        rw [advance_locate l (by omega) middle.le, Option.bind_some, deref_locate l middle,
          getElem?_eq_getElem middle, Option.bind_some]
        dsimp only
        split_ifs
        · rw [next_locate l middle, ih _ (by omega) (by omega), Nat.sub_sub]
        · exact ih _ (by omega) (by omega)

theorem search_position (l : ChunkList α N) {goesOn : α → Bool}
    (ordered : l.elements.Pairwise fun a b => goesOn b = true → goesOn a = true)
    (range : i ≤ j) (inside : j ≤ l.size) :
    l.search goesOn (l.position i) (l.position j) =
      some (l.position
        (i + ((l.elements.drop i).take (j - i)).findIdx fun e => !goesOn e)) := by
  have count : ((j : Int) - i).toNat = j - i := by omega
  rw [search, distance_position l (range.trans inside) inside, Option.bind_some, count]
  rw [size_eq] at inside
  have within : i + (j - i) ≤ l.elements.length := by omega
  have scanned : ((l.elements.drop i).take (j - i)).findIdx (fun e => !goesOn e) ≤
      ((l.elements.drop i).take (j - i)).length := findIdx_le_length
  rw [length_take, length_drop] at scanned
  rw [position_eq l (range.trans inside), searchFrom_locate l goesOn within,
    lowerBoundFrom_eq_findIdx ordered within, position_eq l (by omega)]

/-- Iterators are moved and counted as by single increments. In a sorted list, `lower_bound` and
`upper_bound` of a range find what a linear scan of the range does. -/
structure IteratorArithmetic (l : ChunkList α N) : Prop where
  advance : l.size ≠ 0 → ∀ k ≤ l.size, l.advance l.begin k = some (l.position k)
  distance : ∀ i ≤ l.size, ∀ j ≤ l.size,
    l.distance (l.position i) (l.position j) = some ((j : Int) - i)
  lowerBound : ∀ {Key : Type v} (order : StrictWeakOrder Key) (key : α → Key),
    (order.on key).Sorted l.elements → ∀ value i j, i ≤ j → j ≤ l.size →
      l.lowerBound (fun e value => order.before (key e) value) (l.position i) (l.position j) value =
        some (l.position (i + ((l.elements.drop i).take (j - i)).findIdx fun e =>
          !order.before (key e) value))
  upperBound : ∀ {Key : Type v} (order : StrictWeakOrder Key) (key : α → Key),
    (order.on key).Sorted l.elements → ∀ value i j, i ≤ j → j ≤ l.size →
      l.upperBound (fun value e => order.before value (key e)) (l.position i) (l.position j) value =
        some (l.position (i + ((l.elements.drop i).take (j - i)).findIdx fun e =>
          order.before value (key e)))

theorem iteratorArithmetic (l : ChunkList α N) : IteratorArithmetic.{u, v} l where
  advance nonempty k inside := by
    have moved := advance_position l (Nat.pos_of_ne_zero nonempty) (d := k) (by omega)
    rwa [Nat.zero_add] at moved
  distance i first j second := distance_position l first second
  lowerBound order key sorted value i j range inside :=
    search_position l (sorted.pairwise_before value) range inside
  upperBound order key sorted value i j range inside := by
    have found := search_position l (sorted.pairwise_not_after value) range inside
    rw [ChunkList.upperBound]
    simpa only [Bool.not_not] using found

end Eagine.Container.ChunkList
