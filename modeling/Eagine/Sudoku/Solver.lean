import Eagine.Sudoku.Propagation
import Eagine.Theory.DepthFirst
import Mathlib.Data.Fintype.Prod

/-!
# The sudoku solver

The boards that are to be searched are on a stack. A step replaces the last one by the
boards with the values of one of its cells that is not decided, and the search is done
with the first of these that is solved.
-/

namespace Eagine.Sudoku

open Theory

variable {S : Nat}

namespace Board

variable {b : Board S}

/-- The cell that is found is not decided, and the fewest values are the initial number
as long as there is none. -/
def Found (b : Board S) (found : Option (Coord S) × Nat) : Prop :=
  (∀ coord, found.1 = some coord → 1 < (b.get coord).alternativeCount) ∧
    (found.1 = none → found.2 = S * S + 1)

variable {found : Option (Coord S) × Nat} {coord : Coord S}

theorem found_findUnsolvedAt (known : Found b found) (coord : Coord S) :
    Found b (b.findUnsolvedAt found coord) := by
  rw [findUnsolvedAt]
  split_ifs with some fewer
  · refine ⟨fun other same => ?_, fun none => absurd none (Option.some_ne_none _)⟩
    obtain rfl := Option.some.inj same
    exact fewer.1
  · exact known
  · exact known

theorem isSome_findUnsolvedAt (known : Found b found)
    (undecided : found.1.isSome = true ∨ 1 < (b.get coord).alternativeCount) :
    (b.findUnsolvedAt found coord).1.isSome = true := by
  rw [findUnsolvedAt]
  split_ifs with nonzero fewer
  · rfl
  · refine undecided.elim id fun more => ?_
    have least : (b.get coord).alternativeCount ≤ S * S := (b.get coord).alternativeCount_le
    apply Option.isSome_iff_ne_none.mpr
    intro none
    have initial := known.2 none
    omega
  · exact undecided.resolve_right (by omega)

theorem one_lt_of_findUnsolved (found : b.findUnsolved = some coord) :
    1 < (b.get coord).alternativeCount := by
  have known : Found b ((coords S).foldl b.findUnsolvedAt (none, S * S + 1)) :=
    List.foldlRecOn (coords S) b.findUnsolvedAt
      ⟨fun _ some => absurd some.symm (Option.some_ne_none _), fun _ => rfl⟩
      fun _ known coord _ => found_findUnsolvedAt known coord
  exact known.1 coord found

theorem isSome_foldl_findUnsolvedAt (known : Found b found) {cells : List (Coord S)}
    (undecided : found.1.isSome = true ∨
      coord ∈ cells ∧ 1 < (b.get coord).alternativeCount) :
    (cells.foldl b.findUnsolvedAt found).1.isSome = true := by
  induction cells generalizing found with
  | nil => exact undecided.resolve_right fun member => List.not_mem_nil member.1
  | cons first cells ih =>
      refine ih (found_findUnsolvedAt known first) ?_
      rcases undecided with before | ⟨member, more⟩
      · exact .inl (isSome_findUnsolvedAt known (.inl before))
      · rcases List.mem_cons.mp member with rfl | later
        · exact .inl (isSome_findUnsolvedAt known (.inr more))
        · exact .inr ⟨later, more⟩

theorem isSome_findUnsolved (more : 1 < (b.get coord).alternativeCount) :
    b.findUnsolved.isSome = true :=
  isSome_foldl_findUnsolvedAt
    ⟨fun _ some => absurd some.symm (Option.some_ne_none _), fun _ => rfl⟩
    (.inr ⟨mem_coords coord, more⟩)

theorem candidate_eq_some_iff {alt : Fin (S * S)} {candidate : Board S} :
    b.candidate coord alt = some candidate ↔
      (b.set coord (.ofIndex alt)).isPossible coord (.ofIndex alt) = true ∧
        (b.set coord (.ofIndex alt)).calculateAlternatives = candidate ∧
          candidate.hasEmpty = false := by
  simp only [Board.candidate]
  split_ifs with possible none
  · refine iff_of_false not_false fun made => ?_
    rw [← made.2.1, none] at made
    exact Bool.false_ne_true made.2.2.symm
  · rw [Option.some.injEq]
    constructor
    · rintro rfl
      exact ⟨possible, rfl, Bool.eq_false_iff.mpr none⟩
    · exact fun made => made.2.1
  · exact iff_of_false not_false fun made => possible made.1

theorem mem_alternatives_iff {coord : Option (Coord S)} {candidate : Board S} :
    candidate ∈ b.alternatives coord ↔
      ∃ at', coord = some at' ∧ ∃ alt ∈ (b.get at').alternatives,
        b.candidate at' alt = some candidate := by
  cases coord with
  | none =>
      refine iff_of_false List.not_mem_nil ?_
      rintro ⟨_, same, _⟩
      exact Option.some_ne_none _ same.symm
  | some coord =>
      rw [Board.alternatives, List.mem_filterMap]
      constructor
      · exact fun member => ⟨coord, rfl, member⟩
      · rintro ⟨at', same, member⟩
        obtain rfl := Option.some.inj same
        exact member

/-- The boards that are searched after a board. -/
def candidates (b : Board S) : List (Board S) :=
  b.alternatives b.findUnsolved

theorem exists_of_mem_candidates {candidate : Board S} (member : candidate ∈ b.candidates) :
    ∃ coord alt, (b.get coord).isSingle = false ∧
      (b.set coord (.ofIndex alt)).isPossible coord (.ofIndex alt) = true ∧
        (b.set coord (.ofIndex alt)).calculateAlternatives = candidate := by
  obtain ⟨coord, found, alt, -, made⟩ := mem_alternatives_iff.mp member
  obtain ⟨possible, calculated, -⟩ := candidate_eq_some_iff.mp made
  have undecided := Glyph.one_lt_alternativeCount_iff.mp (one_lt_of_findUnsolved found)
  exact ⟨coord, alt, undecided.2, possible, calculated⟩

theorem extends_of_mem_candidates {candidate : Board S} (member : candidate ∈ b.candidates) :
    Extends b candidate := by
  obtain ⟨coord, alt, undecided, -, rfl⟩ := exists_of_mem_candidates member
  exact (Extends.set undecided _).trans (extends_calculateAlternatives _)

theorem length_candidates_le (b : Board S) : b.candidates.length ≤ S * S := by
  rw [candidates]
  cases b.findUnsolved with
  | none => exact Nat.zero_le _
  | some coord =>
      rw [alternatives]
      have filtered : (b.get coord).alternatives.length ≤ (List.finRange (S * S)).length :=
        List.length_filter_le _ _
      rw [List.length_finRange] at filtered
      exact (List.length_filterMap_le _ _).trans filtered

/-- The number of cells that are not decided. -/
def undecided (b : Board S) : Nat :=
  (Finset.univ.filter fun coord => (b.get coord).isSingle = false).card

variable (small : S * S ≤ 32)

include small in
theorem Consistent.candidate (consistent : Consistent b) {candidate : Board S}
    (member : candidate ∈ b.candidates) : Consistent candidate := by
  obtain ⟨coord, alt, -, possible, rfl⟩ := exists_of_mem_candidates member
  refine (consistent.set fun _ other peers => ?_).calculateAlternatives small
  have apart := isPossible_iff.mp possible other peers
  rwa [get_set_of_ne b peers.1.symm] at apart

include small in
theorem undecided_lt {candidate : Board S} (member : candidate ∈ b.candidates) :
    candidate.undecided < b.undecided := by
  have kept := extends_of_mem_candidates member
  obtain ⟨coord, alt, undecided, -, calculated⟩ := exists_of_mem_candidates member
  refine Finset.card_lt_card (Finset.ssubset_iff_of_subset (fun other => ?_) |>.mpr ?_)
  · simp only [Finset.mem_filter, Finset.mem_univ, true_and, Bool.eq_false_iff]
    intro still single
    exact still ((kept other single).symm ▸ single)
  · have decided : (candidate.get coord).isSingle = true := by
      have single : ((b.set coord (.ofIndex alt)).get coord).isSingle = true := by
        rw [get_set_self]
        exact Glyph.isSingle_ofIndex small alt
      rw [← calculated, extends_calculateAlternatives _ coord single]
      exact single
    refine ⟨coord, Finset.mem_filter.mpr ⟨Finset.mem_univ coord, undecided⟩, fun still => ?_⟩
    exact Bool.false_ne_true ((Finset.mem_filter.mp still).2.symm.trans decided)

include small in
/-- A board that is not solved has a candidate with a value in a grid. -/
theorem exists_candidate_admits {grid : Coord S → Fin (S * S)} (valid : IsGrid grid)
    (admits : Admits grid b) (unsolved : b.isSolved = false) :
    ∃ candidate ∈ b.candidates, Admits grid candidate := by
  have completed := admits.completedBy small
  obtain ⟨other, more⟩ : ∃ coord, (b.get coord).isSingle = false := by
    by_contra! all
    have solved := isSolved_iff.mpr fun coord => Bool.eq_true_of_not_eq_false (all coord)
    exact Bool.false_ne_true (unsolved.symm.trans solved)
  have several := Glyph.one_lt_alternativeCount_iff.mpr
    ⟨Glyph.not_isEmpty_of_has (admits other), more⟩
  obtain ⟨coord, found⟩ := Option.isSome_iff_exists.mp (isSome_findUnsolved several)
  have chosen : CompletedBy grid (b.set coord (.ofIndex (grid coord))) :=
    completed.set fun _ => rfl
  have admitted := chosen.admits small valid
  refine ⟨_, mem_alternatives_iff.mpr ⟨coord, found, grid coord,
    (Glyph.mem_alternatives small).mpr (admits coord), candidate_eq_some_iff.mpr
      ⟨chosen.isPossible small valid coord, rfl, ?_⟩⟩, admitted⟩
  exact hasEmpty_eq_false_iff.mpr fun coord => Glyph.not_isEmpty_of_has (admitted coord)

end Board

/-- The boards on the stack, with the last one first, and whether the last one is
solved. -/
abbrev SolutionState (S : Nat) :=
  DepthFirst (Board S)

namespace SolutionState

/-- The construction from a board. -/
def ofBoard (board : Board S) : SolutionState S :=
  ⟨[board], false⟩

def next (s : SolutionState S) : SolutionState S :=
  DepthFirst.next Board.candidates Board.isSolved s

/-- The last board, if there is one. -/
def board (s : SolutionState S) : Option (Board S) :=
  s.stack.head?

theorem bounded_candidates (small : S * S ≤ 32) :
    DepthFirst.Bounded (@Board.candidates S) (S * S) Board.undecided where
  length_le := Board.length_candidates_le
  size_lt _ _ := Board.undecided_lt small

/-- The loop of `solve`. -/
def run (small : S * S ≤ 32) (s : SolutionState S) : SolutionState S :=
  DepthFirst.run Board.isSolved (bounded_candidates small) s

theorem run_eq (small : S * S ≤ 32) (s : SolutionState S) :
    run small s = if s.isDone then s else run small (next s) :=
  DepthFirst.run.eq_def Board.isSolved (bounded_candidates small) s

end SolutionState

def solve (small : S * S ≤ 32) (board : Board S) : Option (Board S) :=
  SolutionState.board (SolutionState.run small (.ofBoard board))

end Eagine.Sudoku

/-!
## Laws of the sudoku solver

A solved board that the solver returns is a grid with the decided cells of the board
that it was given. It returns one whenever there is such a grid, except for a board that
is already solved, whose state is left without any board.
-/

namespace Eagine.Sudoku

open Theory

variable {S : Nat}

/-- A grid of rank two, whose rows are shifted. -/
def shiftedGrid (coord : Coord 2) : Fin (2 * 2) :=
  ⟨(2 * coord.cy + coord.by' + 2 * coord.bx + coord.cx) % 4, Nat.mod_lt _ (by decide)⟩

theorem isGrid_shiftedGrid : IsGrid shiftedGrid := by
  rw [IsGrid]
  decide

/-- The board of the grid. -/
def shiftedBoard : Board 2 :=
  ⟨fun coord => .ofIndex (shiftedGrid coord)⟩

/-- The board whose cells have all the values. -/
def openBoard : Board 2 :=
  ⟨fun _ => ⟨15, by decide⟩⟩

namespace Board

/-- A solved board is a grid, if it is consistent. -/
theorem Consistent.exists_grid (small : S * S ≤ 32) {b : Board S} (consistent : Consistent b)
    (solved : b.isSolved = true) :
    ∃ grid, IsGrid grid ∧ ∀ coord, b.get coord = .ofIndex (grid coord) := by
  have single := isSolved_iff.mp solved
  choose grid value using fun coord => Glyph.exists_of_isSingle small (single coord)
  refine ⟨grid, fun house => ?_, value⟩
  refine (Fintype.bijective_iff_injective_and_card _).mpr ⟨fun p q same => ?_, ?_⟩
  · by_contra apart
    have peers : Peers (house.coord p) (house.coord q) :=
      ⟨fun equal => apart (house.coord_injective equal), house, p, q, rfl, rfl⟩
    apply consistent _ _ peers (single _)
    rw [value, value]
    exact congrArg Glyph.ofIndex same
  · rw [Fintype.card_prod, Fintype.card_fin, Fintype.card_fin]

/-- Every glyph is once in every house of a solved board. -/
theorem Consistent.existsUnique (small : S * S ≤ 32) {b : Board S} (consistent : Consistent b)
    (solved : b.isSolved = true) (house : House S) (glyph : Fin (S * S)) :
    ∃! p, b.get (house.coord p) = .ofIndex glyph := by
  obtain ⟨grid, valid, value⟩ := consistent.exists_grid small solved
  obtain ⟨p, here, only⟩ := (valid house).existsUnique glyph
  refine ⟨p, (value _).trans (congrArg Glyph.ofIndex here), fun q there => only q ?_⟩
  exact Glyph.ofIndex_inj small ((value _).symm.trans there)

end Board

variable {board : Board S}

/-- All the boards that are searched are consistent and have the decided cells of the
first one. -/
theorem mem_stack_run (small : S * S ≤ 32) (consistent : board.Consistent) :
    ∀ b ∈ (SolutionState.run small (.ofBoard board)).stack,
      b.Consistent ∧ Board.Extends board b := by
  refine DepthFirst.forall_mem_run (SolutionState.bounded_candidates small) ?_ ?_
  · rintro b ⟨consistent, kept⟩ candidate member
    exact ⟨consistent.candidate small member,
      kept.trans (Board.extends_of_mem_candidates member)⟩
  · intro b member
    obtain rfl := List.mem_singleton.mp member
    exact ⟨consistent, .refl b⟩

/-- A board with cells that are not decided is solved if there is a grid for it. -/
theorem exists_solve (small : S * S ≤ 32) {grid : Coord S → Fin (S * S)}
    (valid : IsGrid grid) (admits : board.Admits grid) (unsolved : board.isSolved = false) :
    ∃ result, solve small board = some result ∧ result.isSolved = true := by
  have start : DepthFirst.Leads Board.isSolved (Board.Admits grid)
      (SolutionState.ofBoard board) :=
    fun _ => ⟨board, List.mem_singleton_self board, admits, unsolved⟩
  obtain ⟨result, rest, stack, solved⟩ := DepthFirst.run_found
    (SolutionState.bounded_candidates small)
    (fun b promises unsolved => b.exists_candidate_admits small valid promises unsolved)
    (fun done => absurd done Bool.false_ne_true) start
  refine ⟨result, ?_, solved⟩
  rw [solve, SolutionState.board, SolutionState.run, stack]
  rfl

theorem solve_sound (small : S * S ≤ 32) {board result : Board S}
    (consistent : board.Consistent) (returned : solve small board = some result)
    (solved : result.isSolved = true) :
    (∀ (house : House S) (glyph : Fin (S * S)),
        ∃! p, result.get (house.coord p) = .ofIndex glyph) ∧
      ∀ coord, (board.get coord).isSingle = true → result.get coord = board.get coord := by
  have member := List.mem_of_mem_head? (Option.mem_def.mpr returned)
  obtain ⟨consistent', kept⟩ := mem_stack_run small consistent result member
  exact ⟨consistent'.existsUnique small solved, kept⟩

theorem solve_sound_openBoard :
    ∃ result, solve (by decide) openBoard = some result ∧
      (∀ (house : House 2) (glyph : Fin (2 * 2)),
        ∃! p, result.get (house.coord p) = .ofIndex glyph) ∧
      ∀ coord, (openBoard.get coord).isSingle = true →
        result.get coord = openBoard.get coord := by
  have admits : openBoard.Admits shiftedGrid := by
    rw [Board.Admits]
    decide
  have undecided : ∀ coord, (openBoard.get coord).isSingle ≠ true := by decide
  have consistent : openBoard.Consistent := fun c _ _ single => absurd single (undecided c)
  obtain ⟨result, returned, solved⟩ :=
    exists_solve (by decide) isGrid_shiftedGrid admits (by decide)
  exact ⟨result, returned, solve_sound (by decide) consistent returned solved⟩

theorem candidates_of_isSolved (solved : board.isSolved = true) :
    board.candidates = [] := by
  have none : board.findUnsolved = none := by
    by_contra some
    obtain ⟨coord, found⟩ := Option.ne_none_iff_exists'.mp some
    have undecided := Glyph.one_lt_alternativeCount_iff.mp (Board.one_lt_of_findUnsolved found)
    exact Bool.false_ne_true (undecided.2.symm.trans (Board.isSolved_iff.mp solved coord))
  rw [Board.candidates, none]
  rfl

/-- A board that is already solved is dropped. -/
theorem solve_of_isSolved (small : S * S ≤ 32)
    (solved : board.isSolved = true) : solve small board = none := by
  have dropped : SolutionState.next (.ofBoard board) = ⟨[], false⟩ := by
    change board.candidates.foldl (DepthFirst.push Board.isSolved) ⟨[], false⟩ = ⟨[], false⟩
    rw [candidates_of_isSolved solved]
    rfl
  have more : DepthFirst.isDone (SolutionState.ofBoard board) ≠ true := Bool.false_ne_true
  rw [solve, SolutionState.run_eq, if_neg more, dropped, SolutionState.run_eq]
  rfl

theorem solve_complete_iff (small : S * S ≤ 32) (start : Board S)
    (completion : ∃ grid, IsGrid grid ∧ start.calculateAlternatives.CompletedBy grid) :
    (∃ result, solve small start.calculateAlternatives = some result ∧
        result.isSolved = true) ↔
      start.calculateAlternatives.isSolved = false := by
  constructor
  · rintro ⟨result, returned, -⟩
    apply Bool.eq_false_iff.mpr
    intro solved
    rw [solve_of_isSolved small solved] at returned
    exact Option.some_ne_none _ returned.symm
  · obtain ⟨grid, valid, completed⟩ := completion
    intro unsolved
    have completed' : start.CompletedBy grid := by
      intro coord single
      have kept := Board.extends_calculateAlternatives start coord single
      rw [← kept] at single ⊢
      exact completed coord single
    exact exists_solve small valid (completed'.admits small valid) unsolved

theorem solve_complete_iff_empty :
    (∃ result, solve (by decide) (Board.empty : Board 2).calculateAlternatives = some result ∧
        result.isSolved = true) ↔
      (Board.empty : Board 2).calculateAlternatives.isSolved = false := by
  have completed : (Board.empty : Board 2).CompletedBy shiftedGrid :=
    fun _ single => absurd single Bool.false_ne_true
  exact solve_complete_iff (by decide) Board.empty
    ⟨shiftedGrid, isGrid_shiftedGrid, completed.calculateAlternatives (by decide) isGrid_shiftedGrid⟩

/-- The board of a grid is already solved. -/
theorem not_solve_complete :
    ¬∀ (S : Nat) (small : S * S ≤ 32) (start : Board S),
      (∃ grid, IsGrid grid ∧ start.calculateAlternatives.CompletedBy grid) →
        ∃ result, solve small start.calculateAlternatives = some result ∧
          result.isSolved = true := by
  intro complete
  have completed : shiftedBoard.CompletedBy shiftedGrid := fun _ _ => rfl
  obtain ⟨result, returned, -⟩ := complete 2 (by decide) shiftedBoard
    ⟨shiftedGrid, isGrid_shiftedGrid, completed.calculateAlternatives (by decide) isGrid_shiftedGrid⟩
  have single : ∀ coord, (shiftedBoard.get coord).isSingle = true := by decide
  have solved : shiftedBoard.calculateAlternatives.isSolved = true :=
    Board.isSolved_iff.mpr fun coord =>
      (Board.extends_calculateAlternatives shiftedBoard coord (single coord)).symm ▸ single coord
  rw [solve_of_isSolved (by decide) solved] at returned
  exact Option.some_ne_none _ returned.symm

end Eagine.Sudoku
