import Eagine.Container.ChunkListRefinement

/-!
# The growth of chunk lists

Whether a chunk is appended is decided by the size of the whole list and by its last chunk.
Elements are popped from chunks further in front too, so there can be room that is not found.
As long as there is room in one chunk at most where another one is appended, the number of the
chunks is bounded by the largest size.
-/

namespace Eagine.Container.ChunkList

open Theory

universe u

variable {α : Type u} {N : Nat}

/-- A `push_back` appends a chunk. -/
def appendsChunk (l : ChunkList α N) : Bool :=
  l.empty || l.chunks.getLast?.any StaticVector.full

def chunksWithRoom (l : ChunkList α N) : List (StaticVector α N) :=
  l.chunks.filter fun chunk => !chunk.full

/-- The chunks without room are full. -/
theorem length_mul_le (l : ChunkList α N) :
    l.chunks.length * N ≤ l.size + l.chunksWithRoom.length * N := by
  rcases l with ⟨chunks⟩
  rw [size_eq, elements, chunksWithRoom]
  induction chunks with
  | nil => simp
  | cons chunk chunks ih =>
      rw [flat_cons, List.length_append, chunk.length_elements, List.length_cons, Nat.succ_mul]
      cases full : chunk.full with
      | true =>
          have size : chunk.size = N := beq_iff_eq.mp full
          rw [List.filter_cons_of_neg (by simp [full])]
          simp only at ih ⊢
          omega
      | false =>
          rw [List.filter_cons_of_pos (by simp [full]), List.length_cons, Nat.succ_mul]
          simp only at ih ⊢
          omega

section Operations

variable [Inhabited α] {l l' : ChunkList α N}

theorem length_pushBack {value : α} (pushed : l.pushBack value = some l') :
    l'.chunks.length = if l.appendsChunk then l.chunks.length + 1 else l.chunks.length := by
  rw [pushBack] at pushed
  rcases Option.bind_eq_some_iff.mp pushed with ⟨chunk, last, rest⟩
  rcases Option.map_eq_some_iff.mp rest with ⟨chunk', -, rfl⟩
  have nonempty := List.ne_nil_of_mem (List.mem_of_getLast? last)
  have positive := List.length_pos_of_ne_nil nonempty
  rw [List.length_append, List.length_dropLast, List.length_singleton,
    Nat.sub_add_cancel positive, appendsChunk, withRoomAtBack]
  cases l.empty with
  | true => simp
  | false =>
      simp only [Bool.false_eq_true, if_false, Bool.false_or]
      split_ifs <;> simp

theorem length_popBackReversed {chunks popped : List (StaticVector α N)}
    (result : popBackReversed chunks = some popped) : popped.length = chunks.length := by
  induction chunks generalizing popped with
  | nil => exact absurd result.symm (Option.some_ne_none popped)
  | cons chunk chunks ih =>
      rw [popBackReversed] at result
      split_ifs at result
      · rcases Option.map_eq_some_iff.mp result with ⟨others, found, rfl⟩
        rw [List.length_cons, List.length_cons, ih found]
      · rcases Option.map_eq_some_iff.mp result with ⟨chunk', -, rfl⟩
        rfl

theorem length_popBack (popped : l.popBack = some l') :
    l'.chunks.length = l.chunks.length := by
  rcases Option.map_eq_some_iff.mp popped with ⟨chunks, result, rfl⟩
  rw [List.length_reverse, length_popBackReversed result, List.length_reverse]

theorem length_clear : l.clear.chunks.length = l.chunks.length :=
  List.length_map _

end Operations

variable [Inhabited α]

inductive BackOperation (α : Type u)
  | pushBack (value : α)
  | popBack
  | clear

/-- A chunk list with the largest size that it had. -/
structure Grown (α : Type u) (N : Nat) where
  list : ChunkList α N
  largest : Nat

def stepBack (l : ChunkList α N) : BackOperation α → Option (ChunkList α N)
  | .pushBack value => l.pushBack value
  | .popBack => l.popBack
  | .clear => some l.clear

def grow (s : Grown α N) (op : BackOperation α) : Option (Grown α N) :=
  (stepBack s.list op).map fun l => ⟨l, max s.largest l.size⟩

def grown (ops : List (BackOperation α)) : Option (Grown α N) :=
  run grow ⟨init, 0⟩ ops

/-- There are no more chunks than are needed for the largest size, and another one. -/
def Bounded (s : Grown α N) : Prop :=
  s.list.chunks.length ≤ (s.largest + N - 1) / N + 1

/-- Every `push_back` of the run that appends a chunk finds no more than one chunk with room. -/
def FindsRoom (N : Nat) (ops : List (BackOperation α)) : Prop :=
  ∀ done value rest (s : Grown α N), ops = done ++ .pushBack value :: rest →
    grown done = some s → s.list.appendsChunk = true → s.list.chunksWithRoom.length ≤ 1

variable {s : Grown α N}

theorem bounded_pushBack (positive : 0 < N) {value : α} {l : ChunkList α N}
    (bounded : Bounded s) (room : s.list.appendsChunk = true → s.list.chunksWithRoom.length ≤ 1)
    (pushed : s.list.pushBack value = some l) : Bounded ⟨l, max s.largest l.size⟩ := by
  have count := length_pushBack pushed
  have size : l.size = s.list.size + 1 := by
    rcases pushBack_eq positive s.list value with ⟨l', pushed', elements⟩
    obtain rfl := Option.some.inj (pushed.symm.trans pushed')
    rw [size_eq, size_eq, elements, List.length_append, List.length_singleton]
  rw [Bounded, count]
  dsimp only
  split_ifs with appends
  · have few := room appends
    have filled := length_mul_le s.list
    have needed : s.list.chunks.length ≤ (max s.largest l.size + N - 1) / N := by
      rw [Nat.le_div_iff_mul_le positive]
      have oneMore : s.list.chunksWithRoom.length * N ≤ N := by
        simpa using Nat.mul_le_mul_right N few
      omega
    omega
  · have more : (s.largest + N - 1) / N ≤ (max s.largest l.size + N - 1) / N :=
      Nat.div_le_div_right (by omega)
    exact bounded.trans (Nat.succ_le_succ more)

omit [Inhabited α] in
/-- What does not change the number of the chunks keeps the bound. -/
theorem bounded_of_length {l : ChunkList α N} (bounded : Bounded s)
    (count : l.chunks.length = s.list.chunks.length) : Bounded ⟨l, max s.largest l.size⟩ := by
  have more : (s.largest + N - 1) / N ≤ (max s.largest l.size + N - 1) / N :=
    Nat.div_le_div_right (by omega)
  rw [Bounded, count]
  exact bounded.trans (Nat.succ_le_succ more)

theorem FindsRoom.of_append {first second : List (BackOperation α)}
    (findsRoom : FindsRoom N (first ++ second)) : FindsRoom N first := by
  intro done value rest s whole reached
  exact findsRoom done value (rest ++ second) s (by rw [whole, List.append_assoc]; rfl) reached

theorem FindsRoom.bounded (positive : 0 < N) {ops : List (BackOperation α)}
    (findsRoom : FindsRoom N ops) (reached : grown ops = some s) : Bounded s := by
  have start : Bounded (⟨init, 0⟩ : Grown α N) := Nat.zero_le _
  refine run_invariant_of_reached start ?_ reached
  intro done op rest t t' whole reached' bounded taken
  rcases Option.map_eq_some_iff.mp taken with ⟨l, performed, rfl⟩
  cases op with
  | pushBack value =>
      exact bounded_pushBack positive bounded (findsRoom done value rest t whole reached') performed
  | popBack => exact bounded_of_length bounded (length_popBack performed)
  | clear =>
      obtain rfl := Option.some.inj performed
      exact bounded_of_length bounded length_clear

/-- In all states of a run that finds its room, the number of the chunks is bounded. -/
theorem bounded_of_findsRoom (four : 4 ≤ N) {ops : List (BackOperation α)}
    (findsRoom : FindsRoom N ops) :
    ∀ done rest (s : Grown α N), ops = done ++ rest → grown done = some s → Bounded s := by
  intro done rest s whole reached
  have findsRoomBefore : FindsRoom N done := FindsRoom.of_append (whole ▸ findsRoom)
  exact findsRoomBefore.bounded (by omega) reached

/-- A second chunk is appended, emptied and used again. -/
def poppedRun : List (BackOperation Nat) :=
  [1, 2, 3, 4, 5].map .pushBack ++ [.popBack, .popBack, .pushBack 6]

theorem bounded_of_findsRoom_popped :
    ∃ s : Grown Nat 4, grown poppedRun = some s ∧ Bounded s := by
  have findsRoom : FindsRoom 4 poppedRun := by
    intro done value rest s whole reached appends
    have each : ∀ count < 8, (grown (poppedRun.take count) : Option (Grown Nat 4)).all fun s =>
        !s.list.appendsChunk || decide (s.list.chunksWithRoom.length ≤ 1) := by decide
    have short : done.length < 8 := by
      have lengths : 8 = _ := congrArg List.length whole
      rw [List.length_append, List.length_cons] at lengths
      omega
    have here := each done.length short
    rw [whole, List.take_left, reached, Option.all_some, appends] at here
    exact of_decide_eq_true here
  cases run : (grown poppedRun : Option (Grown Nat 4)) with
  | none => exact absurd (congrArg Option.isSome run) (by decide)
  | some s => exact ⟨s, rfl, bounded_of_findsRoom le_rfl findsRoom _ [] s rfl run⟩

/-- A chunk is appended whenever an element is pushed to a list that has none left. -/
theorem not_forall_bounded :
    ¬∀ (ops : List (BackOperation Nat)) (s : Grown Nat 4), grown ops = some s → Bounded s := by
  intro bounded
  let ops : List (BackOperation Nat) :=
    [.pushBack 1, .popBack, .pushBack 2, .popBack, .pushBack 3]
  have counted : (grown ops).map (fun s : Grown Nat 4 => (s.list.chunks.length, s.largest)) =
      some (3, 1) := by decide
  rcases Option.map_eq_some_iff.mp counted with ⟨s, reached, count⟩
  obtain ⟨chunks, largest⟩ := Prod.mk.inj count
  have bound := bounded ops s reached
  rw [Bounded, chunks, largest] at bound
  exact absurd bound (by decide)

end Eagine.Container.ChunkList
