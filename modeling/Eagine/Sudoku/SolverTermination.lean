import Eagine.Sudoku.Solver

/-!
# Termination of the sudoku solver

A cell with several values is searched by shifting an unsigned int by the index of every glyph.
Up to rank five all of these shifts are defined, and the loop of `solve` ends. With more glyphs
than an unsigned int has bits only a board without such a cell is searched to an end.
-/

namespace Eagine.Sudoku

open Theory Glyph

variable {S : Nat}

/-- The shift of `to_cell_type` is by less than the bits of an unsigned int. -/
def Glyph.isShift (index : Nat) : Bool :=
  index < 32

namespace SolutionState

/-- What `next` computes is defined: there is a board on the stack, and if one of its cells is
searched, then `for_each_alternative` can shift by all the indices of glyphs. -/
def isNextDefined (s : SolutionState S) : Bool :=
  match s.stack with
  | [] => false
  | current :: _ => current.findUnsolved.isNone || (List.range (S * S)).all Glyph.isShift

/-- The loop of `solve`, up to as many steps. There is no result where a step is not defined. -/
def solveFrom : Nat → SolutionState S → Option (SolutionState S)
  | 0, _ => none
  | fuel + 1, s =>
      if s.isDone then some s else if s.isNextDefined then solveFrom fuel (next s) else none

theorem isNextDefined_iff (current : Board S) (rest : List (Board S)) (done : Bool) :
    isNextDefined ⟨current :: rest, done⟩ = true ↔ current.findUnsolved = none ∨ S * S ≤ 32 := by
  rw [isNextDefined, Bool.or_eq_true, Option.isNone_iff_eq_none, List.all_eq_true]
  apply or_congr Iff.rfl
  simp only [List.mem_range, Glyph.isShift, decide_eq_true_iff]
  constructor
  · intro inside
    by_contra large
    exact Nat.lt_irrefl _ (inside 32 (Nat.lt_of_not_le large))
  · intro small index within
    exact Nat.lt_of_lt_of_le within small

/-- A step is defined when the search goes on and all the shifts are. -/
theorem isNextDefined_of_small (small : S * S ≤ 32) {s : SolutionState S}
    (more : ¬s.isDone = true) : s.isNextDefined = true := by
  rcases s with ⟨stack, done⟩
  cases stack with
  | nil => exact absurd (Bool.or_true done) more
  | cons current rest => exact (isNextDefined_iff current rest done).mpr (.inr small)

/-- With enough steps the loop ends as the search does. -/
theorem exists_solveFrom (small : S * S ≤ 32) (s : SolutionState S) :
    ∃ fuel, solveFrom fuel s = some (run small s) := by
  induction s using DepthFirst.run.induct Board.isSolved (bounded_candidates small) with
  | case1 s final =>
      refine ⟨1, ?_⟩
      rw [solveFrom, if_pos final, run_eq, if_pos final]
  | case2 s more ih =>
      rcases ih with ⟨fuel, ended⟩
      refine ⟨fuel + 1, ?_⟩
      rw [solveFrom, if_neg more, if_pos (isNextDefined_of_small small more), run_eq, if_neg more]
      exact ended

end SolutionState

open SolutionState

/-- The loop of `solve` ends. -/
def SolveTerminates (board : Board S) : Prop :=
  ∃ fuel last, solveFrom fuel (.ofBoard board) = some last

theorem isNextDefined_of_terminates {board : Board S} (terminates : SolveTerminates board) :
    isNextDefined (.ofBoard board) = true := by
  have more : ¬(ofBoard board).isDone = true := Bool.false_ne_true
  rcases terminates with ⟨fuel, last, ended⟩
  cases fuel with
  | zero => cases ended
  | succ fuel =>
      rw [solveFrom, if_neg more] at ended
      split at ended
      · assumption
      · cases ended

/-- There are at most as many glyphs as an unsigned int has bits up to rank five. -/
theorem small_iff : S * S ≤ 32 ↔ S ≤ 5 := by
  constructor
  · intro small
    by_contra large
    have square : 6 * 6 ≤ S * S := Nat.mul_le_mul (Nat.lt_of_not_le large) (Nat.lt_of_not_le large)
    omega
  · intro rank
    have square : S * S ≤ 5 * 5 := Nat.mul_le_mul rank rank
    omega

/-- The loop ends up to rank five, and where there is nothing to search. -/
theorem solve_terminates_iff (board : Board S) :
    SolveTerminates board ↔ S ≤ 5 ∨ board.findUnsolved = none := by
  have more : ¬(ofBoard board).isDone = true := Bool.false_ne_true
  rw [← small_iff, or_comm]
  constructor
  · intro terminates
    exact (isNextDefined_iff board [] false).mp (isNextDefined_of_terminates terminates)
  · rintro (nothing | small)
    · have defined : isNextDefined (.ofBoard board) = true :=
        (isNextDefined_iff board [] false).mpr (.inl nothing)
      have dropped : next (.ofBoard board) = ⟨[], false⟩ := by
        change board.candidates.foldl (DepthFirst.push Board.isSolved) ⟨[], false⟩ = _
        rw [Board.candidates, nothing]
        rfl
      refine ⟨2, ⟨[], false⟩, ?_⟩
      rw [solveFrom, if_neg more, if_pos defined, dropped]
      rfl
    · rcases exists_solveFrom small (.ofBoard board) with ⟨fuel, ended⟩
      exact ⟨fuel, _, ended⟩

/-! ## Shifts past the end

Where the shift of an unsigned int by all its bits or more gives zero, the glyphs behind the first
32 are empty cells. An empty board of such a rank is searched for ever. -/

section Large

variable (large : 32 < S * S)

namespace Glyph

/-- A cell with two glyphs is not decided. -/
theorem isSingle_of_two {g : Glyph S} {i j : Fin (S * S)} (first : g.has i = true)
    (second : g.has j = true) (apart : i ≠ j) : g.isSingle = false := by
  apply Bool.eq_false_iff.mpr
  intro single
  rcases isSingle_iff_isPowerOfTwo.mp single with ⟨k, power⟩
  rw [has, ← BitVec.testBit_toNat, power, Nat.testBit_two_pow] at first second
  exact apart (Fin.ext ((of_decide_eq_true first).symm.trans (of_decide_eq_true second)))

/-- A cell with the first 32 glyphs. -/
def full : Glyph S where
  cellVal := (BitVec.allOnes 32).setWidth (cellBits S)
  fits := by
    rw [BitVec.toNat_setWidth]
    exact (Nat.mod_le _ _).trans_lt ((BitVec.allOnes 32).isLt.trans
      (Nat.pow_lt_pow_right Nat.one_lt_two large))

theorem has_full (index : Fin (S * S)) : (full large).has index = decide (index.val < 32) := by
  have wide : cellBits S = 64 := if_pos large
  rw [has, full, BitVec.getLsbD_setWidth, wide, BitVec.getLsbD_allOnes, Bool.eq_iff_iff]
  simp only [Bool.and_eq_true, decide_eq_true_iff]
  omega

end Glyph

/-- One of the first 32 glyphs. -/
def low (i : Fin 32) : Fin (S * S) :=
  ⟨i, i.isLt.trans large⟩

theorem low_ne {i j : Fin 32} (apart : i ≠ j) : low large i ≠ low large j :=
  fun same => apart (Fin.ext (Fin.mk.inj same))

namespace Board

/-- A cell with another glyph is not decided to have this one. -/
theorem ne_ofIndex {g : Glyph S} {i j : Fin (S * S)} (member : g.has i = true) (apart : i ≠ j) :
    g ≠ .ofIndex j := by
  rintro rfl
  rw [has_ofIndex_eq, decide_eq_false apart, Bool.and_false] at member
  exact Bool.false_ne_true member

/-- Every cell is empty or has the first 32 glyphs. -/
def Unset (b : Board S) : Prop :=
  ∀ coord, b.get coord = .empty ∨ b.get coord = .full large

variable {b : Board S} {coord : Coord S}

theorem Unset.ne_ofIndex (unset : Unset large b) (coord : Coord S) (i : Fin 32) :
    b.get coord ≠ .ofIndex (low large i) := by
  rcases unset coord with empty | full
  · rw [empty]
    intro same
    have member := congrArg (Glyph.has · (low large i)) same
    simp only [has_empty, has_ofIndex_eq] at member
    simp [low] at member
  · rw [full]
    rcases exists_ne i with ⟨j, apart⟩
    refine Board.ne_ofIndex ?_ (low_ne large apart)
    rw [has_full]
    exact decide_eq_true j.isLt

theorem Unset.availableAlternatives (unset : Unset large b) (coord : Coord S) :
    b.availableAlternatives coord = .full large := by
  apply eq_of_has
  intro i
  rw [has_availableAlternatives_eq, has_full]
  by_cases inside : i.val < 32
  · have possible : b.isPossible coord (.ofIndex i) = true :=
      isPossible_iff.mpr fun other _ => unset.ne_ofIndex large other ⟨i, inside⟩
    rw [possible, Bool.true_and]
  · rw [decide_eq_false inside, Bool.and_false]

theorem isSingle_full : (Glyph.full large).isSingle = false := by
  apply isSingle_of_two (i := low large 0) (j := low large 1)
  · exact has_full large _
  · exact has_full large _
  · exact low_ne large (by decide)

/-- The board that is calculated from an empty one. -/
def fullBoard : Board S :=
  ⟨fun _ => .full large⟩

theorem Unset.calculateAt (unset : Unset large b) (coord : Coord S) :
    b.calculateAt coord = b.set coord (.full large) := by
  have undecided : (b.get coord).isSingle = false := by
    rcases unset coord with empty | full
    · rw [empty]
      rfl
    · rw [full]
      exact isSingle_full large
  rw [Board.calculateAt, if_neg (by rw [undecided]; exact Bool.false_ne_true),
    setAvailableAlternatives, unset.availableAlternatives]

theorem Unset.set (unset : Unset large b) (coord : Coord S) :
    Unset large (b.set coord (.full large)) := by
  intro other
  by_cases here : other = coord
  · rw [here, get_set_self]
    exact .inr rfl
  · rw [get_set_of_ne b here]
    exact unset other

theorem Unset.foldl_calculateAt (unset : Unset large b) (cells : List (Coord S)) (coord : Coord S) :
    (cells.foldl Board.calculateAt b).get coord =
      if coord ∈ cells then .full large else b.get coord := by
  induction cells generalizing b with
  | nil => rfl
  | cons first cells ih =>
      rw [List.foldl_cons, unset.calculateAt, ih (unset.set large first)]
      by_cases here : coord = first
      · rw [here, get_set_self, if_pos List.mem_cons_self, ite_self]
      · simp only [get_set_of_ne b here, List.mem_cons, here, false_or]

theorem Unset.calculateAlternatives (unset : Unset large b) :
    b.calculateAlternatives = fullBoard large := by
  have cells (coord : Coord S) : b.calculateAlternatives.get coord = .full large := by
    rw [Board.calculateAlternatives, unset.foldl_calculateAt, if_pos (mem_coords coord)]
  exact congrArg Board.mk (funext cells)

/-! ### A board that is searched for ever -/

/-- No cell but one is decided, and it does not have a glyph that can be set. -/
def OpenBut (coord : Coord S) (i : Fin 32) (b : Board S) : Prop :=
  b.get coord = .ofIndex (low large i) ∧
    ∀ other ≠ coord, ∀ j ≠ i, (b.get other).has (low large j) = true

theorem exists_two_ne (i : Fin 32) : ∃ j k : Fin 32, j ≠ i ∧ k ≠ i ∧ j ≠ k := by
  rcases exists_ne i with ⟨j, first⟩
  rcases Fin.exists_ne_and_ne_of_two_lt i j (by decide) with ⟨k, second, different⟩
  exact ⟨j, k, first, second, different.symm⟩

theorem OpenBut.isSingle_eq_false {other : Coord S} {i : Fin 32} (isOpen : OpenBut large coord i b)
    (apart : other ≠ coord) : (b.get other).isSingle = false := by
  rcases exists_two_ne i with ⟨j, k, first, second, different⟩
  exact isSingle_of_two (isOpen.2 other apart j first) (isOpen.2 other apart k second)
    (low_ne large different)

theorem OpenBut.calculateAt {i : Fin 32} (isOpen : OpenBut large coord i b) (other : Coord S) :
    OpenBut large coord i (b.calculateAt other) := by
  by_cases here : other = coord
  · have single : (b.get other).isSingle = true := by
      rw [here, isOpen.1]
      exact isSingle_ofIndex_of_lt i.isLt
    rw [Board.calculateAt, if_pos single]
    exact isOpen
  · have undecided : ¬(b.get other).isSingle = true := by
      rw [isOpen.isSingle_eq_false large here]
      exact Bool.false_ne_true
    rw [Board.calculateAt, if_neg undecided, setAvailableAlternatives]
    constructor
    · rw [get_set_of_ne b (Ne.symm here)]
      exact isOpen.1
    · intro third apart j different
      by_cases same : third = other
      · rw [same, get_set_self, has_availableAlternatives_eq, Bool.and_eq_true]
        refine ⟨isPossible_iff.mpr fun peer _ => ?_, decide_eq_true j.isLt⟩
        by_cases atCoord : peer = coord
        · rw [atCoord, isOpen.1]
          refine ne_ofIndex ?_ (low_ne large (Ne.symm different))
          rw [has_ofIndex_eq, Bool.and_eq_true]
          exact ⟨decide_eq_true i.isLt, decide_eq_true rfl⟩
        · rcases exists_two_ne i with ⟨k, l, first, second, unlike⟩
          by_cases atFirst : k = j
          · exact ne_ofIndex (isOpen.2 peer atCoord l second)
              (low_ne large fun equal => unlike (atFirst.trans equal.symm))
          · exact ne_ofIndex (isOpen.2 peer atCoord k first) (low_ne large atFirst)
      · rw [get_set_of_ne b same]
        exact isOpen.2 third apart j different

theorem OpenBut.calculateAlternatives {i : Fin 32} (isOpen : OpenBut large coord i b) :
    OpenBut large coord i b.calculateAlternatives :=
  List.foldlRecOn (coords S) Board.calculateAt isOpen
    fun _ before other _ => before.calculateAt large other

theorem get_fullBoard (coord : Coord S) : (fullBoard large).get coord = .full large :=
  rfl

include large in
/-- There are several cells. -/
theorem exists_other (coord : Coord S) : ∃ other, other ≠ coord := by
  have several : 1 < S := by
    by_contra one
    have square : S * S ≤ 1 * 1 :=
      Nat.mul_le_mul (Nat.le_of_not_lt one) (Nat.le_of_not_lt one)
    omega
  have many : Nontrivial (Fin S) := Fin.nontrivial_iff_two_le.mpr several
  rcases exists_ne coord.cx with ⟨cx, apart⟩
  exact ⟨{ coord with cx }, fun same => apart (congrArg Coord.cx same)⟩

theorem isSolved_eq_false (undecided : (b.get coord).isSingle = false) : b.isSolved = false := by
  apply Bool.eq_false_iff.mpr
  intro solved
  exact Bool.false_ne_true (undecided.symm.trans (isSolved_iff.mp solved coord))

theorem isSolved_fullBoard (coord : Coord S) : (fullBoard large).isSolved = false := by
  have undecided : ((fullBoard large).get coord).isSingle = false := isSingle_full large
  exact isSolved_eq_false undecided

variable {i : Fin (S * S)}

/-- A glyph behind the first 32 makes an empty cell. -/
theorem calculateAlternatives_of_le (coord : Coord S) (behind : 32 ≤ i.val) :
    (Glyph.ofIndex i : Glyph S) = .empty ∧
      ((fullBoard large).set coord (.ofIndex i)).calculateAlternatives = fullBoard large := by
  have empty : (Glyph.ofIndex i : Glyph S) = .empty := by
    apply eq_of_has
    intro j
    rw [has_ofIndex_eq, has_empty, decide_eq_false (Nat.not_lt.mpr behind),
      Bool.false_and]
  refine ⟨empty, Unset.calculateAlternatives large fun other => ?_⟩
  rw [empty]
  by_cases here : other = coord
  · rw [here, get_set_self]
    exact .inl rfl
  · rw [get_set_of_ne _ here]
    exact .inr rfl

theorem isSolved_candidate {candidate : Board S}
    (made : (fullBoard large).candidate coord i = some candidate) : candidate.isSolved = false := by
  rcases candidate_eq_some_iff.mp made with ⟨_, rfl, _⟩
  by_cases inside : i.val < 32
  · have isOpen : OpenBut large coord ⟨i, inside⟩ ((fullBoard large).set coord (.ofIndex i)) := by
      refine ⟨get_set_self _ _ _, fun other apart j _ => ?_⟩
      rw [get_set_of_ne _ apart]
      exact (has_full large _).trans (decide_eq_true j.isLt)
    rcases exists_other large coord with ⟨other, apart⟩
    exact isSolved_eq_false ((isOpen.calculateAlternatives large).isSingle_eq_false large apart)
  · rw [(calculateAlternatives_of_le large coord (Nat.le_of_not_lt inside)).2]
    exact isSolved_fullBoard large coord

/-- The last glyph gives the same board again. -/
theorem candidate_of_le (coord : Coord S) (behind : 32 ≤ i.val) :
    (fullBoard large).candidate coord i = some (fullBoard large) := by
  rcases calculateAlternatives_of_le large coord behind with ⟨empty, same⟩
  refine candidate_eq_some_iff.mpr ⟨isPossible_iff.mpr fun other peers => ?_, same, ?_⟩
  · rw [get_set_of_ne _ peers.1.symm, empty]
    intro none
    have member := congrArg (Glyph.has · (low large 0)) none
    simp only [get_fullBoard, has_full, has_empty, decide_eq_false_iff_not] at member
    exact member (by decide : (0 : Fin 32).val < 32)
  · rw [hasEmpty_eq_false_iff]
    exact fun other => not_isEmpty_of_has (has_full large (low large 0))

def firstCoord : Coord S :=
  have rank : 0 < S := Nat.pos_of_mul_pos_left (Nat.zero_lt_of_lt large)
  ⟨⟨0, rank⟩, ⟨0, rank⟩, ⟨0, rank⟩, ⟨0, rank⟩⟩

/-- The last one of the glyphs. -/
def lastGlyph : Fin (S * S) :=
  ⟨S * S - 1, Nat.sub_one_lt_of_lt large⟩

theorem le_lastGlyph : 32 ≤ (lastGlyph large).val :=
  Nat.le_sub_one_of_lt large

theorem mem_alternatives_lastGlyph :
    ((Glyph.full large).cellVal &&& toCellType S (lastGlyph large) ==
      toCellType S (lastGlyph large)) = true := by
  have bits : toCellType S (lastGlyph large) = 0#(cellBits S) :=
    congrArg Glyph.cellVal
      (calculateAlternatives_of_le large (firstCoord large) (le_lastGlyph large)).1
  rw [bits, BitVec.and_zero]
  exact beq_self_eq_true _

theorem isSome_findUnsolved_fullBoard : (fullBoard large).findUnsolved.isSome = true := by
  have several : 1 < ((fullBoard large).get (firstCoord large)).alternativeCount :=
    one_lt_alternativeCount_iff.mpr
      ⟨not_isEmpty_of_has (has_full large (low large 0)), isSingle_full large⟩
  exact isSome_findUnsolved several

theorem candidates_fullBoard :
    ∃ front, (fullBoard large).candidates = front ++ [fullBoard large] ∧
      ∀ b ∈ (fullBoard large).candidates, b.isSolved = false := by
  rcases Option.isSome_iff_exists.mp (isSome_findUnsolved_fullBoard large) with ⟨coord, found⟩
  have last : (List.finRange (S * S)).getLast? = some (lastGlyph large) := by
    have inside : (List.finRange (S * S)).length - 1 < (List.finRange (S * S)).length := by
      rw [List.length_finRange]
      omega
    rw [List.getLast?_eq_getElem?, List.getElem?_eq_getElem inside, List.getElem_finRange]
    exact congrArg some (Fin.ext (congrArg (· - 1) List.length_finRange))
  rcases List.getLast?_eq_some_iff.mp last with ⟨front, whole⟩
  refine ⟨(front.filter fun i : Fin (S * S) => (Glyph.full large).cellVal &&& toCellType S i ==
    toCellType S i).filterMap ((fullBoard large).candidate coord), ?_, ?_⟩
  · rw [candidates, found, alternatives, Glyph.alternatives, get_fullBoard, whole,
      List.filter_append, List.filterMap_append, List.filter_singleton,
      mem_alternatives_lastGlyph large]
    congr 1
    rw [cond_true, List.filterMap_cons_some (candidate_of_le large coord (le_lastGlyph large)),
      List.filterMap_nil]
  · intro b member
    rcases mem_alternatives_iff.mp member with ⟨_, _, i, _, made⟩
    exact isSolved_candidate large made

end Board

namespace SolutionState

/-- The search comes back to the same board. -/
theorem next_fullBoard (rest : List (Board S)) :
    ∃ more, next ⟨Board.fullBoard large :: rest, false⟩ =
      ⟨Board.fullBoard large :: more, false⟩ := by
  rcases Board.candidates_fullBoard large with ⟨front, whole, unsolved⟩
  refine ⟨front.reverse ++ rest, ?_⟩
  change (Board.fullBoard large).candidates.foldl (DepthFirst.push Board.isSolved) ⟨rest, false⟩ = _
  rw [DepthFirst.foldl_push_of_not_found unsolved, whole, List.reverse_concat, List.cons_append]

/-- The search never ends. -/
theorem iterate_fullBoard (count : Nat) :
    (next^[count] (.ofBoard (Board.fullBoard large))).isDone = false := by
  have kept : ∃ more, next^[count] (.ofBoard (Board.fullBoard large)) =
      ⟨Board.fullBoard large :: more, false⟩ := by
    induction count with
    | zero => exact ⟨[], rfl⟩
    | succ count ih =>
        rcases ih with ⟨rest, reached⟩
        rw [Function.iterate_succ_apply', reached]
        exact next_fullBoard large rest
  rcases kept with ⟨more, reached⟩
  rw [reached]
  rfl

end SolutionState

end Large

/-- A board of rank six is not searched to an end, also where a shift by all the bits gives zero. -/
theorem not_solve_terminates :
    ¬SolveTerminates (Board.fullBoard (S := 6) (by decide)) ∧
      ∀ count, (next^[count] (.ofBoard (Board.fullBoard (S := 6) (by decide)))).isDone = false := by
  constructor
  · intro terminates
    rcases (isNextDefined_iff _ [] false).mp (isNextDefined_of_terminates terminates) with
      nothing | small
    · have some := Board.isSome_findUnsolved_fullBoard (S := 6) (by decide)
      rw [nothing] at some
      exact Bool.false_ne_true some
    · exact absurd small (by decide)
  · exact iterate_fullBoard (by decide)

end Eagine.Sudoku
