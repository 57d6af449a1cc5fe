import Eagine.Container.ChunkList
import Eagine.Theory.Refinement
import Mathlib.Data.List.Flatten
import Mathlib.Data.List.Induction

/-!
# Chunk lists as sequences

A chunk list stands for the elements of its chunks one after another. For every
position of this sequence there is a single iterator that `adjust` leaves as it is,
and all the operations return such iterators.
-/

namespace Eagine.Container.ChunkList

open Theory List Option

universe u

variable {α : Type u} {N : Nat}

/-- The elements of chunks one after another. -/
def flat (chunks : List (StaticVector α N)) : List α :=
  chunks.flatMap StaticVector.elements

def elements (l : ChunkList α N) : List α :=
  flat l.chunks

theorem flat_cons (chunk : StaticVector α N) (chunks : List (StaticVector α N)) :
    flat (chunk :: chunks) = chunk.elements ++ flat chunks :=
  flatMap_cons

theorem flat_append (before after : List (StaticVector α N)) :
    flat (before ++ after) = flat before ++ flat after :=
  flatMap_append

theorem flat_split (before : List (StaticVector α N)) (chunk : StaticVector α N)
    (after : List (StaticVector α N)) :
    flat (before ++ chunk :: after) = flat before ++ chunk.elements ++ flat after := by
  rw [flat_append, flat_cons, append_assoc]

theorem flat_concat (chunks : List (StaticVector α N)) (chunk : StaticVector α N) :
    flat (chunks ++ [chunk]) = flat chunks ++ chunk.elements := by
  rw [flat_split]
  exact append_nil _

theorem foldl_size (chunks : List (StaticVector α N)) (total : Nat) :
    chunks.foldl (fun total chunk => total + chunk.size) total =
      total + (flat chunks).length := by
  induction chunks generalizing total with
  | nil => rfl
  | cons chunk chunks ih =>
      rw [foldl_cons, ih, flat_cons, length_append, chunk.length_elements,
        Nat.add_assoc]

theorem size_eq (l : ChunkList α N) : l.size = l.elements.length := by
  rw [size, foldl_size, Nat.zero_add, elements]

theorem empty_iff (l : ChunkList α N) : l.empty = true ↔ l.elements = [] := by
  rw [empty, beq_iff_eq, size_eq, length_eq_zero_iff]

variable {chunks : List (StaticVector α N)} {k : Nat}

/-- Every position of the sequence lies in a chunk. -/
theorem exists_chunk (inside : k < (flat chunks).length) :
    ∃ before chunk after e, chunks = before ++ chunk :: after ∧ e < chunk.size ∧
      k = (flat before).length + e := by
  induction chunks generalizing k with
  | nil => exact absurd inside (Nat.not_lt_zero k)
  | cons chunk chunks ih =>
      by_cases here : k < chunk.size
      · exact ⟨[], chunk, chunks, k, rfl, here, (Nat.zero_add k).symm⟩
      · have enough : chunk.size ≤ k := Nat.le_of_not_lt here
        rw [flat_cons, length_append, chunk.length_elements] at inside
        obtain ⟨before, found, after, e, rfl, within, position⟩ :=
          ih (Nat.sub_lt_left_of_lt_add enough inside)
        refine ⟨chunk :: before, found, after, e, rfl, within, ?_⟩
        rw [flat_cons, length_append, chunk.length_elements, Nat.add_assoc, ← position,
          Nat.add_sub_cancel' enough]

/-- The iterator of a position of the sequence. -/
def locate : List (StaticVector α N) → Nat → ChunkListIterator
  | [], _ => ⟨0, 0⟩
  | chunk :: chunks, k =>
      if k < chunk.size then ⟨0, k⟩
      else ⟨(locate chunks (k - chunk.size)).iterC + 1, (locate chunks (k - chunk.size)).iterE⟩

theorem locate_append (before rest : List (StaticVector α N)) (k : Nat) :
    locate (before ++ rest) ((flat before).length + k) =
      ⟨before.length + (locate rest k).iterC, (locate rest k).iterE⟩ := by
  induction before with
  | nil =>
      have empty_length : (flat ([] : List (StaticVector α N))).length = 0 := rfl
      rw [nil_append, empty_length, Nat.zero_add, length_nil, Nat.zero_add]
  | cons chunk before ih =>
      have past : ¬(flat (chunk :: before)).length + k < chunk.size := by
        rw [flat_cons, length_append, chunk.length_elements]
        omega
      have others : (flat (chunk :: before)).length + k - chunk.size =
          (flat before).length + k := by
        rw [flat_cons, length_append, chunk.length_elements]
        omega
      rw [cons_append, locate, if_neg past, others, ih, length_cons,
        Nat.add_right_comm]

variable {chunk : StaticVector α N} {before : List (StaticVector α N)} {e : Nat}

variable {after : List (StaticVector α N)}

theorem locate_split (within : e < chunk.size) :
    locate (before ++ chunk :: after) ((flat before).length + e) = ⟨before.length, e⟩ := by
  rw [locate_append, locate, if_pos within, Nat.add_zero]

theorem locate_length (chunks : List (StaticVector α N)) :
    locate chunks (flat chunks).length = ⟨chunks.length, 0⟩ := by
  have whole := locate_append chunks [] 0
  rwa [append_nil, Nat.add_zero] at whole

theorem endPos_eq (l : ChunkList α N) : l.endPos = locate l.chunks l.elements.length :=
  (locate_length l.chunks).symm

theorem adjustFrom_eq {rest : List (StaticVector α N)} {iterE : Nat}
    (inside : ∀ chunk ∈ rest.head?, iterE ≤ chunk.size) (past : rest = [] → iterE = 0)
    (iterC : Nat) :
    adjustFrom rest iterC iterE =
      ⟨iterC + (locate rest iterE).iterC, (locate rest iterE).iterE⟩ := by
  induction rest generalizing iterC iterE with
  | nil =>
      obtain rfl := past rfl
      rfl
  | cons chunk rest ih =>
      have upTo : iterE ≤ chunk.size := inside chunk rfl
      by_cases atEnd : iterE = chunk.size
      · subst atEnd
        rw [adjustFrom, if_neg (not_not.mpr rfl), locate, if_neg (Nat.lt_irrefl _), Nat.sub_self,
          ih (fun _ _ => Nat.zero_le _) (fun _ => rfl), Nat.add_right_comm, Nat.add_assoc]
      · rw [adjustFrom, if_pos atEnd, locate, if_pos (Nat.lt_of_le_of_ne upTo atEnd),
          Nat.add_zero]

/-- Adjusting an iterator of a chunk, also one at its end. -/
theorem adjust_split (upTo : e ≤ chunk.size) :
    adjust ⟨before ++ chunk :: after⟩ ⟨before.length, e⟩ =
      locate (before ++ chunk :: after) ((flat before).length + e) := by
  have here : (before ++ chunk :: after).drop before.length = chunk :: after := drop_left
  rw [adjust, locate_append]
  simp only [here]
  exact adjustFrom_eq (fun other found => Option.some.inj found ▸ upTo)
    (fun none_left => absurd none_left (cons_ne_nil chunk after)) before.length

theorem begin_eq (l : ChunkList α N) : l.begin = locate l.chunks 0 := by
  rw [begin, adjust, drop_zero,
    adjustFrom_eq (fun _ _ => Nat.zero_le _) (fun _ => rfl), Nat.zero_add]

theorem next_locate (l : ChunkList α N) (inside : k < l.elements.length) :
    l.next (locate l.chunks k) = locate l.chunks (k + 1) := by
  obtain ⟨chunks⟩ := l
  obtain ⟨before, chunk, after, e, rfl, within, rfl⟩ := exists_chunk inside
  rw [locate_split within, next, adjust_split within, Nat.add_assoc]

theorem getElem?_split (before : List (StaticVector α N)) (chunk : StaticVector α N)
    (after : List (StaticVector α N)) :
    (before ++ chunk :: after)[before.length]? = some chunk := by
  rw [getElem?_append_right le_rfl, Nat.sub_self]
  rfl

theorem deref_locate (l : ChunkList α N) (inside : k < l.elements.length) :
    l.deref (locate l.chunks k) = l.elements[k]? := by
  obtain ⟨chunks⟩ := l
  obtain ⟨before, chunk, after, e, rfl, within, rfl⟩ := exists_chunk inside
  have within' : e < chunk.elements.length := within.trans_eq chunk.length_elements.symm
  have here : (flat before ++ (chunk.elements ++ flat after))[(flat before).length + e]? =
      chunk.elements[e]? := by
    rw [getElem?_append_right (Nat.le_add_right _ _), Nat.add_sub_cancel_left,
      getElem?_append_left within']
  rw [locate_split within, deref, elements, flat_split, append_assoc, here, getElem?_split]
  rfl

theorem locate_ne_endPos (l : ChunkList α N) (inside : k < l.elements.length) :
    locate l.chunks k ≠ l.endPos := by
  obtain ⟨chunks⟩ := l
  obtain ⟨before, chunk, after, e, rfl, within, rfl⟩ := exists_chunk inside
  rw [locate_split within, endPos, length_append, length_cons]
  intro same
  have chunkIndex := congrArg ChunkListIterator.iterC same
  simp only at chunkIndex
  omega

theorem position_eq (l : ChunkList α N) (inside : k ≤ l.elements.length) :
    l.position k = locate l.chunks k := by
  induction k with
  | zero => exact l.begin_eq
  | succ k ih =>
      have before : l.position k = locate l.chunks k := ih (Nat.le_of_succ_le inside)
      rw [position, Function.iterate_succ_apply', ← position, before, next_locate l inside]

theorem iterateFrom_eq (l : ChunkList α N) {fuel k : Nat} (steps : k + fuel = l.elements.length) :
    l.iterateFrom fuel (locate l.chunks k) = some (l.elements.drop k) := by
  induction fuel generalizing k with
  | zero =>
      obtain rfl : k = l.elements.length := steps
      rw [iterateFrom, endPos_eq, if_pos rfl, drop_length]
  | succ fuel ih =>
      have inside : k < l.elements.length := by omega
      rw [iterateFrom, if_neg (locate_ne_endPos l inside), deref_locate l inside, next_locate l inside,
        getElem?_eq_getElem inside, bind_some, ih (by omega), map_some,
        ← drop_eq_getElem_cons inside]

theorem iterate_eq (l : ChunkList α N) : l.iterate = some l.elements := by
  rw [iterate, begin_eq, iterateFrom_eq l ((Nat.zero_add _).trans l.size_eq), drop_zero]

theorem elements_eq_nil_iff (chunk : StaticVector α N) :
    chunk.elements = [] ↔ chunk.empty = true := by
  rw [StaticVector.empty, beq_iff_eq, ← chunk.length_elements, length_eq_zero_iff]

theorem elements_ne_nil (filled : chunk.empty = false) :
    chunk.elements ≠ [] := fun none_left =>
  Bool.false_ne_true (filled.symm.trans ((elements_eq_nil_iff chunk).mp none_left))

theorem find_front (chunks : List (StaticVector α N)) :
    (chunks.find? fun chunk => !chunk.empty).bind (fun chunk => chunk.elements.head?) =
      (flat chunks).head? := by
  induction chunks with
  | nil => rfl
  | cons chunk chunks ih =>
      cases filled : chunk.empty with
      | true =>
          have none_left := (elements_eq_nil_iff chunk).mpr filled
          simp only [find?_cons, filled, Bool.not_true, ih, flat_cons, none_left,
            nil_append]
      | false =>
          simp only [find?_cons, filled, Bool.not_false, bind_some, flat_cons,
            head?_append_of_ne_nil _ (elements_ne_nil filled)]

theorem find_back (chunks : List (StaticVector α N)) :
    (chunks.reverse.find? fun chunk => !chunk.empty).bind
        (fun chunk => chunk.elements.getLast?) = (flat chunks).getLast? := by
  induction chunks using List.reverseRecOn with
  | nil => rfl
  | append_singleton chunks chunk ih =>
      rw [reverse_append, reverse_singleton, singleton_append, flat_concat]
      cases filled : chunk.empty with
      | true =>
          have none_left := (elements_eq_nil_iff chunk).mpr filled
          simp only [find?_cons, filled, Bool.not_true, ih, none_left, append_nil]
      | false =>
          simp only [find?_cons, filled, Bool.not_false, bind_some,
            getLast?_append_of_ne_nil _ (elements_ne_nil filled)]

theorem front_eq (l : ChunkList α N) : l.front = l.elements.head? :=
  find_front l.chunks

theorem back_eq (l : ChunkList α N) : l.back = l.elements.getLast? :=
  find_back l.chunks

variable [Inhabited α]

/-- Chunks with room for another element in the last one. -/
def HasRoomAtBack (chunks : List (StaticVector α N)) (values : List α) : Prop :=
  ∃ front chunk, chunks = front ++ [chunk] ∧ chunk.size < N ∧ flat chunks = values

theorem hasRoom_append_init (positive : 0 < N) (chunks : List (StaticVector α N)) :
    HasRoomAtBack (chunks ++ [StaticVector.init]) (flat chunks) := by
  refine ⟨chunks, _, rfl, positive, ?_⟩
  rw [flat_concat]
  exact append_nil _

theorem hasRoom_withRoomAtBack (positive : 0 < N)
    (nonempty : chunks ≠ []) : HasRoomAtBack (withRoomAtBack chunks) (flat chunks) := by
  obtain ⟨front, chunk, rfl⟩ : ∃ front chunk, chunks = front ++ [chunk] :=
    ⟨_, _, (dropLast_append_getLast nonempty).symm⟩
  rw [withRoomAtBack, getLast?_concat]
  cases full : chunk.full with
  | true =>
      rw [any_some, full, if_pos rfl]
      exact hasRoom_append_init positive _
  | false =>
      rw [any_some, full, if_neg Bool.false_ne_true]
      exact ⟨front, chunk, rfl, chunk.size_lt_of_not_full full, rfl⟩

theorem pushBack_eq (positive : 0 < N) (l : ChunkList α N) (value : α) :
    ∃ l', l.pushBack value = some l' ∧ l'.elements = l.elements ++ [value] := by
  have room : HasRoomAtBack
      (if l.empty = true then l.chunks ++ [StaticVector.init] else withRoomAtBack l.chunks)
      l.elements := by
    split_ifs with empty
    · exact hasRoom_append_init positive l.chunks
    · refine hasRoom_withRoomAtBack positive fun none_there => empty ?_
      rw [empty_iff, elements, none_there]
      rfl
  obtain ⟨front, chunk, chunks, space, same⟩ := room
  obtain ⟨pushed, result, pushedElements, -⟩ := chunk.pushBack_leaves space
  refine ⟨⟨front ++ [pushed]⟩, ?_, ?_⟩
  · rw [pushBack, chunks, getLast?_concat, bind_some, result, map_some,
      dropLast_concat]
  · rw [elements, flat_concat, pushedElements, ← append_assoc, ← flat_concat, ← chunks, same]

theorem popBackReversed_eq (nonempty : flat chunks.reverse ≠ []) :
    ∃ popped, popBackReversed chunks = some popped ∧
      flat popped.reverse = (flat chunks.reverse).dropLast := by
  induction chunks with
  | nil => exact absurd rfl nonempty
  | cons chunk chunks ih =>
      rw [reverse_cons, flat_concat] at nonempty ⊢
      cases filled : chunk.empty with
      | true =>
          have none_left := (elements_eq_nil_iff chunk).mpr filled
          rw [none_left, append_nil] at nonempty ⊢
          obtain ⟨popped, result, poppedElements⟩ := ih nonempty
          refine ⟨chunk :: popped, ?_, ?_⟩
          · rw [popBackReversed, filled, if_pos rfl, result, map_some]
          · rw [reverse_cons, flat_concat, none_left, append_nil, poppedElements]
      | false =>
          have some_left := elements_ne_nil filled
          have positive : 0 < chunk.size := by
            rw [← chunk.length_elements]
            exact length_pos_of_ne_nil some_left
          obtain ⟨popped, result, poppedElements, -⟩ := chunk.popBack_leaves positive
          refine ⟨popped :: chunks, ?_, ?_⟩
          · rw [popBackReversed, filled, if_neg Bool.false_ne_true, result, map_some]
          · rw [reverse_cons, flat_concat, poppedElements,
              dropLast_append_of_ne_nil some_left]

variable {l : ChunkList α N}

theorem popBack_eq (nonempty : l.elements ≠ []) :
    ∃ l', l.popBack = some l' ∧ l'.elements = l.elements.dropLast := by
  have reversed : flat l.chunks.reverse.reverse ≠ [] := by
    rw [reverse_reverse]
    exact nonempty
  obtain ⟨popped, result, poppedElements⟩ := popBackReversed_eq reversed
  rw [reverse_reverse] at poppedElements
  exact ⟨⟨popped.reverse⟩, by rw [popBack, result, map_some], poppedElements⟩

theorem clear_eq (l : ChunkList α N) : l.clear.elements = [] := by
  rw [elements, clear, flat, flatMap_map, flatMap_eq_nil_iff]
  exact fun chunk _ => chunk.clear_elements

theorem assignFrom_eq (positive : 0 < N) (l : ChunkList α N) (values : List α) :
    ∃ l', l.assignFrom values = some l' ∧ l'.elements = l.elements ++ values := by
  induction values generalizing l with
  | nil => exact ⟨l, rfl, (append_nil _).symm⟩
  | cons value values ih =>
      obtain ⟨pushed, result, pushedElements⟩ := pushBack_eq positive l value
      obtain ⟨l', assigned, assignedElements⟩ := ih pushed
      refine ⟨l', ?_, ?_⟩
      · rw [assignFrom, result, bind_some, assigned]
      · rw [assignedElements, pushedElements, append_assoc]
        rfl

theorem assign_eq (positive : 0 < N) (l : ChunkList α N) (values : List α) :
    ∃ l', l.assign values = some l' ∧ l'.elements = values := by
  have assigned := assignFrom_eq positive l.clear values
  rwa [clear_eq, nil_append] at assigned

theorem eraseIfFrom_eq (predicate : α → Bool) (chunks : List (StaticVector α N)) :
    ∃ kept count, eraseIfFrom predicate chunks = some (kept, count) ∧
      flat kept = (flat chunks).filter (fun value => !predicate value) ∧
      count + (flat kept).length = (flat chunks).length := by
  induction chunks with
  | nil => exact ⟨[], 0, rfl, rfl, rfl⟩
  | cons chunk chunks ih =>
      obtain ⟨kept, result, keptElements, -⟩ := chunk.eraseIf_leaves predicate
      obtain ⟨others, count, rest, otherElements, counted⟩ := ih
      have fewer : kept.size ≤ chunk.size := by
        rw [← kept.length_elements, ← chunk.length_elements, keptElements]
        exact length_filter_le _ _
      refine ⟨kept :: others, chunk.size - kept.size + count, ?_, ?_, ?_⟩
      · rw [eraseIfFrom, result, bind_some, rest, map_some]
      · rw [flat_cons, keptElements, otherElements, flat_cons, filter_append]
      · rw [flat_cons, flat_cons, length_append, length_append, kept.length_elements,
          chunk.length_elements]
        omega

/-- The count is the number of the elements that are erased. -/
theorem eraseIf_eq (l : ChunkList α N) (predicate : α → Bool) :
    ∃ l' count, l.eraseIf predicate = some (l', count) ∧
      l'.elements = l.elements.filter (fun value => !predicate value) ∧
      count + l'.elements.length = l.elements.length := by
  obtain ⟨kept, count, result, keptElements, counted⟩ := eraseIfFrom_eq predicate l.chunks
  exact ⟨⟨kept⟩, count, by rw [eraseIf, result, map_some], keptElements, counted⟩

omit [Inhabited α] in
theorem set_split (before : List (StaticVector α N)) (chunk : StaticVector α N)
    (after : List (StaticVector α N)) (other : StaticVector α N) :
    (before ++ chunk :: after).set before.length other = before ++ other :: after := by
  rw [set_append_right _ _ le_rfl, Nat.sub_self]
  rfl

omit [Inhabited α] in
theorem insertIdx_split (before : List (StaticVector α N)) (chunk : StaticVector α N)
    (after : List (StaticVector α N)) (other : StaticVector α N) :
    (before ++ chunk :: after).insertIdx (before.length + 1) other =
      before ++ chunk :: other :: after := by
  have inserted := StdVector.insertIdx_append (before ++ [chunk]) after other
  rwa [append_assoc, append_assoc, length_append] at inserted

/-- There is a place for another element at a position of a sequence: in a chunk that
is not full, with the other chunks around it. -/
def HasPlace (found : Option (ChunkList α N × ChunkListIterator)) (values : List α) (k : Nat) :
    Prop :=
  ∃ before chunk after e,
    found = some (⟨before ++ chunk :: after⟩, ⟨before.length, e⟩) ∧ chunk.size < N ∧
      e ≤ chunk.size ∧ k = (flat before).length + e ∧ flat (before ++ chunk :: after) = values

omit [Inhabited α] in
theorem hasPlace_back {values : List α} (room : HasRoomAtBack chunks values) :
    HasPlace (chunks.getLast?.map fun chunk => (⟨chunks⟩, ⟨chunks.length - 1, chunk.size⟩)) values
      values.length := by
  obtain ⟨front, chunk, rfl, space, rfl⟩ := room
  refine ⟨front, chunk, [], chunk.size, ?_, space, le_rfl, ?_, rfl⟩
  · rw [getLast?_concat, map_some, length_append, length_singleton,
      Nat.add_sub_cancel]
  · rw [flat_concat, length_append, chunk.length_elements]

/-- A full chunk is split in the middle, and the position is in one of its halves. -/
theorem hasPlace_split (two : 2 ≤ N)
    (full : chunk.size = N) (after : List (StaticVector α N)) (within : e < chunk.size) :
    HasPlace
      ((StaticVector.init.insertRange 0 (chunk.elements.drop (N / 2))).bind fun next =>
        (chunk.eraseRange (N / 2) chunk.size).map fun first =>
          (⟨((before ++ chunk :: after).set before.length first).insertIdx
              (before.length + 1) next⟩,
            if e ≤ N / 2 then ⟨before.length, e⟩ else ⟨before.length + 1, e - N / 2⟩))
      (flat (before ++ chunk :: after)) ((flat before).length + e) := by
  have half : N / 2 ≤ chunk.size := (Nat.div_le_self N 2).trans_eq full.symm
  have movedLength : (chunk.elements.drop (N / 2)).length = N - N / 2 := by
    rw [length_drop, chunk.length_elements, full]
  have room : (StaticVector.init : StaticVector α N).size +
      (chunk.elements.drop (N / 2)).length ≤ N := by
    rw [movedLength]
    exact (Nat.zero_add _).trans_le (Nat.sub_le N _)
  obtain ⟨next, inserted, nextElements, -⟩ :=
    (StaticVector.init : StaticVector α N).insertRange_leaves room (Nat.zero_le _)
  obtain ⟨first, erased, firstElements, -⟩ := chunk.eraseRange_leaves half le_rfl
  rw [StaticVector.init_elements, take_nil, drop_nil, append_nil,
    nil_append] at nextElements
  rw [drop_of_length_le chunk.length_elements.le, append_nil] at firstElements
  have firstSize : first.size = N / 2 := by
    rw [← first.length_elements, firstElements, length_take, chunk.length_elements]
    exact Nat.min_eq_left half
  have nextSize : next.size = N - N / 2 := by
    rw [← next.length_elements, nextElements, movedLength]
  have same : flat (before ++ first :: next :: after) = flat (before ++ chunk :: after) := by
    rw [flat_split, flat_split, flat_cons, firstElements, nextElements, append_assoc,
      ← append_assoc (chunk.elements.take _), take_append_drop, append_assoc]
  rw [inserted, bind_some, erased, map_some, set_split, insertIdx_split]
  by_cases inFirst : e ≤ N / 2
  · refine ⟨before, first, next :: after, e, ?_, ?_, ?_, rfl, same⟩
    · rw [if_pos inFirst]
    · rw [firstSize]
      omega
    · rw [firstSize]
      exact inFirst
  · refine ⟨before ++ [first], next, after, e - N / 2, ?_, ?_, ?_, ?_, ?_⟩
    · rw [if_neg inFirst, append_assoc, length_append]
      rfl
    · rw [nextSize]
      omega
    · rw [nextSize]
      omega
    · rw [flat_concat, length_append, first.length_elements, firstSize]
      omega
    · rw [append_assoc]
      exact same

theorem getInsertPosition_eq (two : 2 ≤ N) (l : ChunkList α N) (inside : k ≤ l.elements.length) :
    HasPlace (l.getInsertPosition (locate l.chunks k)) l.elements k := by
  obtain ⟨chunks⟩ := l
  have positive : 0 < N := Nat.lt_of_lt_of_le Nat.two_pos two
  rcases eq_or_ne chunks [] with rfl | nonempty
  · obtain rfl : k = 0 := Nat.le_zero.mp inside
    refine ⟨[], StaticVector.init, [], 0, rfl, positive, le_rfl, rfl, ?_⟩
    rw [flat_split, StaticVector.init_elements]
    rfl
  · rw [getInsertPosition, isEmpty_eq_false_iff.mpr nonempty, if_neg Bool.false_ne_true]
    rcases Nat.lt_or_eq_of_le inside with before_end | rfl
    · obtain ⟨before, chunk, after, e, rfl, within, rfl⟩ := exists_chunk before_end
      have notEnd : ¬before.length = (before ++ chunk :: after).length := by
        rw [length_append, length_cons]
        omega
      rw [locate_split within, if_neg notEnd, getElem?_split, bind_some]
      cases full : chunk.full with
      | true => exact hasPlace_split two (beq_iff_eq.mp full) after within
      | false =>
          exact ⟨before, chunk, after, e, if_neg Bool.false_ne_true,
            StaticVector.size_lt_of_not_full full, within.le, rfl, rfl⟩
    · rw [elements, locate_length, if_pos rfl]
      exact hasPlace_back (hasRoom_withRoomAtBack positive nonempty)

omit [Inhabited α] in
theorem take_split (before : List (StaticVector α N))
    (after : List (StaticVector α N)) (upTo : e ≤ chunk.size) :
    (flat (before ++ chunk :: after)).take ((flat before).length + e) =
      flat before ++ chunk.elements.take e := by
  rw [flat_split, append_assoc, take_length_add_append,
    take_append_of_le_length (upTo.trans_eq chunk.length_elements.symm)]

omit [Inhabited α] in
theorem drop_split (before : List (StaticVector α N))
    (after : List (StaticVector α N)) (upTo : e ≤ chunk.size) :
    (flat (before ++ chunk :: after)).drop ((flat before).length + e) =
      chunk.elements.drop e ++ flat after := by
  rw [flat_split, append_assoc, drop_length_add_append,
    drop_append_of_le_length (upTo.trans_eq chunk.length_elements.symm)]

/-- An element is inserted at the position of the iterator, and the iterator of this
position is returned. -/
theorem insert_eq (two : 2 ≤ N) (l : ChunkList α N) (inside : k ≤ l.elements.length) (value : α) :
    ∃ l', l.insert (locate l.chunks k) value = some (l', locate l'.chunks k) ∧
      l'.elements = l.elements.take k ++ [value] ++ l.elements.drop k := by
  obtain ⟨before, chunk, after, e, found, room, upTo, rfl, same⟩ :=
    getInsertPosition_eq two l inside
  obtain ⟨inserted, result, insertedElements, -⟩ :=
    @StaticVector.insertRange_leaves _ e [value] _ chunk room upTo
  have upTo' : e ≤ inserted.size := by
    rw [← inserted.length_elements, insertedElements, length_append, length_append,
      length_take_of_le (upTo.trans_eq chunk.length_elements.symm)]
    omega
  refine ⟨⟨before ++ inserted :: after⟩, ?_, ?_⟩
  · rw [insert, found, bind_some, getElem?_split, bind_some, StaticVector.insert,
      result, map_some, set_split]
    exact congrArg (fun pos => some (_, pos)) (adjust_split upTo')
  · rw [← same, take_split before after upTo, drop_split before after upTo, elements, flat_split,
      insertedElements]
    simp only [append_assoc]

/-- The element at the position of the iterator is erased, and the iterator of this
position is returned. -/
theorem erase_eq (l : ChunkList α N) (inside : k < l.elements.length) :
    ∃ l', l.erase (locate l.chunks k) = some (l', locate l'.chunks k) ∧
      l'.elements = l.elements.take k ++ l.elements.drop (k + 1) := by
  obtain ⟨chunks⟩ := l
  obtain ⟨before, chunk, after, e, rfl, within, rfl⟩ := exists_chunk inside
  obtain ⟨erased, result, erasedElements, -⟩ := chunk.eraseRange_leaves (Nat.le_succ e) within
  have upTo : e ≤ erased.size := by
    rw [← erased.length_elements, erasedElements, length_append,
      length_take_of_le (within.le.trans_eq chunk.length_elements.symm)]
    exact Nat.le_add_right _ _
  have notEnd : ¬before.length = (before ++ chunk :: after).length := by
    rw [length_append, length_cons]
    omega
  refine ⟨⟨before ++ erased :: after⟩, ?_, ?_⟩
  · rw [erase, locate_split within, if_neg notEnd, getElem?_split, bind_some,
      StaticVector.erase, result, map_some, set_split]
    exact congrArg (fun pos => some (_, pos)) (adjust_split upTo)
  · change flat (before ++ erased :: after) =
      (flat (before ++ chunk :: after)).take ((flat before).length + e) ++
        (flat (before ++ chunk :: after)).drop ((flat before).length + e + 1)
    rw [Nat.add_assoc, take_split before after within.le, drop_split before after within,
      flat_split, erasedElements]
    simp only [append_assoc]

variable {value : α}

omit [Inhabited α] in
theorem deref_eq_some_iff {pos : ChunkListIterator} :
    l.deref pos = some value ↔
      ∃ chunk, l.chunks[pos.iterC]? = some chunk ∧ chunk.elements[pos.iterE]? = some value :=
  bind_eq_some_iff

variable {found : ChunkList α N × ChunkListIterator} {pos reference : ChunkListIterator}

/-- An argument is read as it was from a chunk that holds it in front of the position. -/
theorem readInserting_of_kept (made : l.getInsertPosition pos = some found)
    (iterC : Nat) (number : (if reference.iterC ≤ pos.iterC then reference.iterC
      else reference.iterC + (found.1.chunks.length - l.chunks.length)) = iterC)
    (chunk : StaticVector α N) (isChunk : found.1.chunks[iterC]? = some chunk)
    (present : chunk.elements[reference.iterE]? = some value)
    (front : iterC = found.2.iterC → reference.iterE ≤ found.2.iterE) :
    l.readInserting pos reference = some value := by
  have within : reference.iterE < chunk.size :=
    (List.getElem?_eq_some_iff.mp present).1.trans_eq chunk.length_elements
  simp only [readInserting, made, bind_some, number, isChunk]
  split
  · next here => rw [chunk.movedBackward_front (front here) within, present]
  · rw [← present, StaticVector.elements, getElem?_take_of_lt within]

/-- An insertion reads an element that meets the condition as it was. -/
theorem readInserting_eq
    (made : l.getInsertPosition pos = some found) (present : l.deref reference = some value)
    (intact : reference.iterC = pos.iterC → reference.iterE ≤ pos.iterE ∧
      ((l.chunks[pos.iterC]?).any StaticVector.full → reference.iterE < N / 2)) :
    l.readInserting pos reference = some value := by
  obtain ⟨chunk, isChunk, isValue⟩ := deref_eq_some_iff.mp present
  have inside : reference.iterC < l.chunks.length := (List.getElem?_eq_some_iff.mp isChunk).1
  have made' := made
  rw [getInsertPosition, isEmpty_eq_false_iff.mpr (ne_nil_of_length_pos
    (Nat.zero_lt_of_lt inside)), if_neg Bool.false_ne_true] at made'
  split at made'
  · next atEnd =>
    obtain ⟨last, isLast, rfl⟩ := map_eq_some_iff.mp made'
    have kept : (withRoomAtBack l.chunks)[reference.iterC]? = some chunk := by
      rw [withRoomAtBack]
      split
      · exact (getElem?_append_left inside).trans isChunk
      · exact isChunk
    refine readInserting_of_kept made _ (if_pos (atEnd ▸ inside.le)) _ kept isValue fun here => ?_
    change reference.iterC = (withRoomAtBack l.chunks).length - 1 at here
    rw [here, ← getLast?_eq_getElem?, isLast] at kept
    obtain rfl := Option.some.inj kept
    exact (List.getElem?_eq_some_iff.mp isValue).1.le.trans_eq last.length_elements
  · obtain ⟨target, isTarget, made'⟩ := bind_eq_some_iff.mp made'
    split at made'
    · next full =>
      obtain ⟨next, -, made'⟩ := bind_eq_some_iff.mp made'
      obtain ⟨first, erased, rfl⟩ := map_eq_some_iff.mp made'
      have target_lt : pos.iterC < l.chunks.length := (List.getElem?_eq_some_iff.mp isTarget).1
      rcases lt_trichotomy reference.iterC pos.iterC with before | here | behind
      · refine readInserting_of_kept made _ (if_pos before.le) chunk ?_ isValue ?_
        · grind
        · grind
      · obtain ⟨front, rest⟩ := intact here
        have inHalf := rest (by rw [isTarget]; exact full)
        refine readInserting_of_kept made _ (if_pos here.le) first ?_ ?_ ?_
        · grind
        · have half : N / 2 ≤ target.size := by
            rw [beq_iff_eq.mp full]
            exact Nat.div_le_self N 2
          obtain ⟨_, result, firstElements, -⟩ := target.eraseRange_leaves half le_rfl
          obtain rfl := Option.some.inj (erased.symm.trans result)
          rw [here, isTarget] at isChunk
          obtain rfl := Option.some.inj isChunk
          rw [firstElements, drop_of_length_le target.length_elements.le, append_nil,
            getElem?_take_of_lt inHalf, isValue]
        · grind
      · refine readInserting_of_kept made _ (if_neg (Nat.not_le_of_lt behind)) chunk ?_ isValue
          ?_
        · grind
        · grind
    · obtain rfl := Option.some.inj made'
      refine readInserting_of_kept made reference.iterC ?_ _ isChunk isValue
        fun here => (intact here).1
      simp

/-- What a plain list inserts is inserted, if its argument is read as it was. -/
theorem insertArgument_eq (two : 2 ≤ N) (l : ChunkList α N) {pos : Nat}
    (inside : pos ≤ l.elements.length) {argument : Argument α}
    (isValue : argument.of l.elements = some value) (intact : l.ReadsIntact pos argument) :
    ∃ l', l.insertArgument (l.position pos) argument = some (l', l'.position pos) ∧
      l'.elements = l.elements.take pos ++ [value] ++ l.elements.drop pos := by
  obtain ⟨l', result, insertedElements⟩ := insert_eq two l inside value
  have inside' : pos ≤ l'.elements.length := by
    rw [insertedElements, length_append, length_append, length_take_of_le inside]
    omega
  have inserted : l.insert (l.position pos) value = some (l', l'.position pos) := by
    rw [position_eq l inside, result, position_eq l' inside']
  refine ⟨l', ?_, insertedElements⟩
  cases argument with
  | value held =>
      obtain rfl := Option.some.inj isValue
      exact inserted
  | element index =>
      have isElement : index < l.elements.length := (List.getElem?_eq_some_iff.mp isValue).1
      have present : l.deref (l.position index) = some value := by
        rw [position_eq l isElement.le, l.deref_locate isElement]
        exact isValue
      obtain ⟨found, made, -⟩ := bind_eq_some_iff.mp inserted
      rw [insertArgument, readInserting_eq made present intact, bind_some, inserted]

/-- Every operation that a plain list allows is taken, and leaves the elements of the
plain list, if it reads its argument as it was. -/
theorem step_refines (four : 4 ≤ N) :
    Refines (step : ChunkList α N → Operation α → Option (ChunkList α N)) listStep IsIntact
      (fun l values => l.elements = values) := by
  have two : 2 ≤ N := Nat.le_trans (by decide) four
  have positive : 0 < N := Nat.lt_of_lt_of_le Nat.two_pos two
  have inserts (l : ChunkList α N) (pos : Nat) (argument : Argument α) {values' : List α}
      (intact : l.ReadsIntact pos argument)
      (allowed : (argument.of l.elements).bind (StdVector.insert l.elements pos) = some values') :
      ∃ l', (l.insertArgument (l.position pos) argument).map Prod.fst = some l' ∧
        l'.elements = values' := by
    obtain ⟨value, isValue, allowed⟩ := bind_eq_some_iff.mp allowed
    obtain ⟨inside, made⟩ := ite_none_right_eq_some.mp allowed
    obtain rfl := Option.some.inj made
    obtain ⟨l', result, insertedElements⟩ := insertArgument_eq two l inside isValue intact
    exact ⟨l', by rw [result, map_some], insertedElements⟩
  rintro l _ op values' rfl intact allowed
  cases op with
  | pushBack argument =>
      obtain ⟨value, isValue, rfl⟩ := map_eq_some_iff.mp allowed
      have read : l.argument argument = some value := by
        cases argument with
        | value held => exact isValue
        | element index =>
            have isElement : index < l.elements.length := (List.getElem?_eq_some_iff.mp isValue).1
            rw [ChunkList.argument, position_eq l isElement.le, l.deref_locate isElement]
            exact isValue
      rw [step, read, bind_some]
      exact pushBack_eq positive l value
  | popBack =>
      obtain ⟨nonempty, made⟩ := ite_none_right_eq_some.mp allowed
      obtain rfl := Option.some.inj made
      exact popBack_eq (ne_nil_of_length_pos nonempty)
  | insert pos argument => exact inserts l pos argument intact allowed
  | emplace pos argument => exact inserts l pos argument intact allowed
  | erase pos =>
      obtain ⟨⟨-, inside⟩, made⟩ := ite_none_right_eq_some.mp allowed
      obtain rfl := Option.some.inj made
      obtain ⟨l', result, erasedElements⟩ := erase_eq l inside
      refine ⟨l', ?_, erasedElements⟩
      rw [step, position_eq l (Nat.le_of_lt inside), result, map_some]
  | eraseIf predicate =>
      obtain rfl := Option.some.inj allowed
      obtain ⟨l', count, result, keptElements, -⟩ := eraseIf_eq l predicate
      exact ⟨l', by rw [step, result, map_some], keptElements⟩
  | clear =>
      obtain rfl := Option.some.inj allowed
      exact ⟨l.clear, rfl, clear_eq l⟩
  | assign values =>
      obtain rfl := Option.some.inj allowed
      exact assign_eq positive l values

/-- After every run that a plain list allows and whose insertions read their arguments as
they were, a chunk list has the elements, the size and the ends of the plain list, and
`insert`, `emplace` and `erase` return the iterators of the positions where they work. -/
theorem chunkList_refines (four : 4 ≤ N) {ops : List (Operation α)} {values : List α}
    (allowed : run listStep [] ops = some values)
    (intact : Throughout step IsIntact (init : ChunkList α N) ops) :
    ∃ l : ChunkList α N, run step init ops = some l ∧
      l.iterate = some values ∧ l.size = values.length ∧ l.front = values.head? ∧
      l.back = values.getLast? ∧
      (∀ pos ≤ values.length, ∀ argument value, argument.of values = some value →
        l.ReadsIntact pos argument → ∃ l',
          l.insertArgument (l.position pos) argument = some (l', l'.position pos) ∧
            l'.iterate = StdVector.insert values pos value) ∧
      (∀ pos ≤ values.length, ∀ argument value, argument.of values = some value →
        l.ReadsIntact pos argument → ∃ l',
          l.emplace (l.position pos) argument = some (l', l'.position pos) ∧
            l'.iterate = StdVector.insert values pos value) ∧
      ∀ pos < values.length, ∃ l',
        l.erase (l.position pos) = some (l', l'.position pos) ∧
          l'.iterate = StdVector.erase values pos := by
  have two : 2 ≤ N := Nat.le_trans (by decide) four
  have start : (init : ChunkList α N).elements = [] := rfl
  obtain ⟨l, ran, rfl⟩ := (step_refines four).run start intact allowed
  have inserts : ∀ pos ≤ l.elements.length, ∀ argument value, argument.of l.elements = some value →
      l.ReadsIntact pos argument → ∃ l',
        l.insertArgument (l.position pos) argument = some (l', l'.position pos) ∧
          l'.iterate = StdVector.insert l.elements pos value := by
    intro pos inside argument value isValue intact
    obtain ⟨l', result, insertedElements⟩ := insertArgument_eq two l inside isValue intact
    refine ⟨l', result, ?_⟩
    rw [iterate_eq, insertedElements, StdVector.insert, StdVector.insertRange, if_pos inside]
  refine ⟨l, ran, l.iterate_eq, l.size_eq, l.front_eq, l.back_eq, inserts, inserts, ?_⟩
  intro pos inside
  obtain ⟨l', result, erasedElements⟩ := erase_eq l inside
  have inside' : pos ≤ l'.elements.length := by
    rw [erasedElements, length_append, length_take_of_le inside.le]
    exact Nat.le_add_right _ _
  refine ⟨l', ?_, ?_⟩
  · rw [position_eq l inside.le, result, position_eq l' inside']
  · rw [iterate_eq, erasedElements, StdVector.erase, StdVector.eraseRange,
      if_pos ⟨Nat.le_succ pos, inside⟩]

/-- The last element is inserted in front when it was moved already. -/
theorem not_chunkList_refines :
    ¬∀ (N : Nat) (ops : List (Operation Nat)) (values : List Nat), 4 ≤ N →
      run listStep [] ops = some values →
        ∃ l : ChunkList Nat N, run step init ops = some l ∧ l.iterate = some values := by
  intro refines
  obtain ⟨l, ran, iterated⟩ :=
    refines 4 [.assign [1, 2], .insert 0 (.element 1)] [2, 1, 2] le_rfl rfl
  have read : (run step (init : ChunkList Nat 4) [.assign [1, 2], .insert 0 (.element 1)]).bind
      iterate = some [1, 1, 2] := by
    decide
  rw [ran, bind_some, iterated] at read
  exact absurd read (by decide)

theorem chunkList_refines_five :
    ∃ l : ChunkList Nat 4,
      run step init [.assign [1, 2, 3, 4], .insert 3 (.element 1), .erase 0] = some l ∧
      l.iterate = some [2, 3, 2, 4] ∧ l.size = 4 ∧ l.front = some 2 ∧ l.back = some 4 ∧
      (∀ pos ≤ 4, ∀ argument value, argument.of [2, 3, 2, 4] = some value →
        l.ReadsIntact pos argument → ∃ l',
          l.insertArgument (l.position pos) argument = some (l', l'.position pos) ∧
            l'.iterate = StdVector.insert [2, 3, 2, 4] pos value) ∧
      (∀ pos ≤ 4, ∀ argument value, argument.of [2, 3, 2, 4] = some value →
        l.ReadsIntact pos argument → ∃ l',
          l.emplace (l.position pos) argument = some (l', l'.position pos) ∧
            l'.iterate = StdVector.insert [2, 3, 2, 4] pos value) ∧
      ∀ pos < 4, ∃ l',
        l.erase (l.position pos) = some (l', l'.position pos) ∧
          l'.iterate = StdVector.erase [2, 3, 2, 4] pos :=
  chunkList_refines le_rfl rfl (by decide)

end Eagine.Container.ChunkList
