import Eagine.Sudoku.Glyph
import Mathlib.Data.Fintype.Sigma
import Mathlib.Data.Fintype.Sum
import Mathlib.Tactic.DeriveFintype

/-!
# Propagation of decided cells

Calculating the alternatives keeps the cells that are decided, it does not decide two
cells of a house for the same value, and it does not lose a value that a cell has in a
grid that completes the board.
-/

/-!
## Sudoku boards

The cells of a board that are not decided have the values that no other cell in their
block, row or column is decided to have, as far as they are calculated.
-/

namespace Eagine.Sudoku

open List (finRange mem_finRange)

/-- The column and the row of a block, and of a cell in it. -/
structure Coord (S : Nat) where
  bx : Fin S
  by' : Fin S
  cx : Fin S
  cy : Fin S
  deriving DecidableEq, Fintype

/-- The coordinates in the order in which `for_each_coord` visits them. -/
def coords (S : Nat) : List (Coord S) :=
  (finRange S).flatMap fun by' =>
    (finRange S).flatMap fun bx =>
      (finRange S).flatMap fun cy =>
        (finRange S).map fun cx => ⟨bx, by', cx, cy⟩

structure Board (S : Nat) where
  cells : Coord S → Glyph S

namespace Board

variable {S : Nat}

/-- The default construction. -/
def empty : Board S :=
  ⟨fun _ => .empty⟩

def get (b : Board S) (coord : Coord S) : Glyph S :=
  b.cells coord

def set (b : Board S) (coord : Coord S) (value : Glyph S) : Board S :=
  ⟨Function.update b.cells coord value⟩

/-- No other cell of the block, the row and the column has the value. -/
def isPossible (b : Board S) (coord : Coord S) (value : Glyph S) : Bool :=
  ((finRange S).all fun cy => (finRange S).all fun cx =>
      !((cx != coord.cx || cy != coord.cy) &&
        (b.get ⟨coord.bx, coord.by', cx, cy⟩).cellVal == value.cellVal)) &&
    ((finRange S).all fun bx => (finRange S).all fun cx =>
      !((bx != coord.bx || cx != coord.cx) &&
        (b.get ⟨bx, coord.by', cx, coord.cy⟩).cellVal == value.cellVal)) &&
    (finRange S).all fun by' => (finRange S).all fun cy =>
      !((by' != coord.by' || cy != coord.cy) &&
        (b.get ⟨coord.bx, by', coord.cx, cy⟩).cellVal == value.cellVal)

def isSolved (b : Board S) : Bool :=
  (coords S).all fun coord => (b.get coord).isSingle

def hasEmpty (b : Board S) : Bool :=
  (coords S).any fun coord => (b.get coord).isEmpty

def availableAlternatives (b : Board S) (coord : Coord S) : Glyph S :=
  (finRange (S * S)).foldl
    (fun alternatives value =>
      if b.isPossible coord (.ofIndex value) then alternatives.add value else alternatives) .empty

def setAvailableAlternatives (b : Board S) (coord : Coord S) : Board S :=
  b.set coord (b.availableAlternatives coord)

/-- What `calculate_alternatives` does with a cell. -/
def calculateAt (b : Board S) (coord : Coord S) : Board S :=
  if (b.get coord).isSingle then b else b.setAvailableAlternatives coord

def calculateAlternatives (b : Board S) : Board S :=
  (coords S).foldl calculateAt b

/-- What `find_unsolved` does with a cell, given the one that was found and the number of
its values. -/
def findUnsolvedAt (b : Board S) (found : Option (Coord S) × Nat) (coord : Coord S) :
    Option (Coord S) × Nat :=
  let numAlt := (b.get coord).alternativeCount
  if numAlt ≠ 0 then
    if 1 < numAlt ∧ numAlt < found.2 then (some coord, numAlt) else found
  else found

/-- The first of the cells with the fewest values that are not decided, or none instead
of the invalid coordinate. -/
def findUnsolved (b : Board S) : Option (Coord S) :=
  ((coords S).foldl b.findUnsolvedAt (none, S * S + 1)).1

/-- The board with a value in a cell, unless that leaves a cell without any. -/
def candidate (b : Board S) (coord : Coord S) (alt : Fin (S * S)) : Option (Board S) :=
  let candidate := b.set coord (.ofIndex alt)
  if candidate.isPossible coord (.ofIndex alt) then
    let candidate := candidate.calculateAlternatives
    if candidate.hasEmpty then none else some candidate
  else none

/-- The boards that `for_each_alternative` calls the function with. -/
def alternatives (b : Board S) (coord : Option (Coord S)) : List (Board S) :=
  match coord with
  | none => []
  | some coord => (b.get coord).alternatives.filterMap (b.candidate coord)

end Board

theorem mem_coords {S : Nat} (coord : Coord S) : coord ∈ coords S := by
  simp only [coords, List.mem_flatMap, List.mem_map]
  exact ⟨coord.by', mem_finRange _, coord.bx, mem_finRange _, coord.cy,
    mem_finRange _, coord.cx, mem_finRange _, rfl⟩

/-- The blocks, the rows and the columns. -/
inductive House (S : Nat) where
  | block (bx by' : Fin S)
  | row (by' cy : Fin S)
  | column (bx cx : Fin S)
  deriving DecidableEq, Fintype

/-- The cells of a house. -/
def House.coord {S : Nat} : House S → Fin S × Fin S → Coord S
  | block bx by', (cx, cy) => ⟨bx, by', cx, cy⟩
  | row by' cy, (bx, cx) => ⟨bx, by', cx, cy⟩
  | column bx cx, (by', cy) => ⟨bx, by', cx, cy⟩

theorem House.coord_injective {S : Nat} (house : House S) : Function.Injective house.coord := by
  rintro ⟨x, y⟩ ⟨x', y'⟩ same
  cases house with
  | block bx by' =>
      cases same
      rfl
  | row by' cy =>
      cases same
      rfl
  | column bx cx =>
      cases same
      rfl

/-- Different cells of a house. -/
def Peers {S : Nat} (c d : Coord S) : Prop :=
  c ≠ d ∧ ∃ house : House S, ∃ p q, house.coord p = c ∧ house.coord q = d

theorem Peers.symm {S : Nat} {c d : Coord S} (peers : Peers c d) : Peers d c := by
  obtain ⟨other, house, p, q, first, second⟩ := peers
  exact ⟨other.symm, house, q, p, second, first⟩

namespace Board

variable {S : Nat} {b : Board S}

theorem get_set_self (b : Board S) (coord : Coord S) (value : Glyph S) :
    (b.set coord value).get coord = value := by
  simp only [get, set, Function.update_self]

theorem get_set_of_ne (b : Board S) {coord other : Coord S} (apart : other ≠ coord)
    (value : Glyph S) : (b.set coord value).get other = b.get other := by
  simp only [get, set, Function.update_of_ne apart]

theorem isSolved_iff : b.isSolved = true ↔ ∀ coord, (b.get coord).isSingle = true := by
  rw [isSolved, List.all_eq_true]
  exact ⟨fun all coord => all coord (mem_coords coord), fun all coord _ => all coord⟩

theorem hasEmpty_eq_false_iff :
    b.hasEmpty = false ↔ ∀ coord, (b.get coord).isEmpty = false := by
  rw [hasEmpty, List.any_eq_false]
  exact ⟨fun all coord => Bool.eq_false_iff.mpr (all coord (mem_coords coord)),
    fun all coord _ => Bool.eq_false_iff.mp (all coord)⟩

theorem isPossible_iff {coord : Coord S} {value : Glyph S} :
    b.isPossible coord value = true ↔ ∀ other, Peers coord other → b.get other ≠ value := by
  have differ (other : Coord S) :
      (b.get other).cellVal ≠ value.cellVal ↔ b.get other ≠ value := by
    rw [Ne, Ne, Glyph.mk.injEq]
  obtain ⟨bx, by', cx, cy⟩ := coord
  simp only [isPossible, Bool.and_eq_true, List.all_eq_true, mem_finRange, forall_const,
    Bool.not_eq_true', Bool.and_eq_false_iff, Bool.or_eq_false_iff, bne_eq_false_iff_eq,
    beq_eq_false_iff_ne, differ]
  constructor
  · rintro ⟨⟨block, row⟩, column⟩ other ⟨apart, house, ⟨x, y⟩, ⟨x', y'⟩, first, rfl⟩
    cases house with
    | block =>
        cases first
        exact (block y' x').resolve_left fun same => apart (by rw [same.1, same.2]; rfl)
    | row =>
        cases first
        exact (row x' y').resolve_left fun same => apart (by rw [same.1, same.2]; rfl)
    | column =>
        cases first
        exact (column x' y').resolve_left fun same => apart (by rw [same.1, same.2]; rfl)
  · intro none
    refine ⟨⟨fun y x => ?_, fun x y => ?_⟩, fun x y => ?_⟩
    · by_cases same : x = cx ∧ y = cy
      · exact .inl same
      · refine .inr (none _ ⟨?_, .block bx by', (cx, cy), (x, y), rfl, rfl⟩)
        rintro ⟨⟩
        exact same ⟨rfl, rfl⟩
    · by_cases same : x = bx ∧ y = cx
      · exact .inl same
      · refine .inr (none _ ⟨?_, .row by' cy, (bx, cx), (x, y), rfl, rfl⟩)
        rintro ⟨⟩
        exact same ⟨rfl, rfl⟩
    · by_cases same : x = by' ∧ y = cy
      · exact .inl same
      · refine .inr (none _ ⟨?_, .column bx cx, (by', cy), (x, y), rfl, rfl⟩)
        rintro ⟨⟩
        exact same ⟨rfl, rfl⟩

end Board

end Eagine.Sudoku

namespace Eagine.Sudoku

variable {S : Nat}

/-- Every glyph is once in every block, row and column. -/
def IsGrid (grid : Coord S → Fin (S * S)) : Prop :=
  ∀ house : House S, Function.Bijective fun p => grid (house.coord p)

theorem IsGrid.ne {grid : Coord S → Fin (S * S)} (valid : IsGrid grid) {c d : Coord S}
    (peers : Peers c d) : grid c ≠ grid d := by
  obtain ⟨apart, house, p, q, rfl, rfl⟩ := peers
  intro same
  exact apart (congrArg house.coord ((valid house).1 same))

namespace Board

variable {b b' : Board S} {grid : Coord S → Fin (S * S)}

/-- The cells that are decided remain. -/
def Extends (b b' : Board S) : Prop :=
  ∀ coord, (b.get coord).isSingle = true → b'.get coord = b.get coord

/-- The cells of a house that are decided have different values. -/
def Consistent (b : Board S) : Prop :=
  ∀ c d, Peers c d → (b.get c).isSingle = true → b.get c ≠ b.get d

/-- The cells that are decided have their values in the grid. -/
def CompletedBy (grid : Coord S → Fin (S * S)) (b : Board S) : Prop :=
  ∀ coord, (b.get coord).isSingle = true → b.get coord = .ofIndex (grid coord)

/-- All cells have their values in the grid among theirs. -/
def Admits (grid : Coord S → Fin (S * S)) (b : Board S) : Prop :=
  ∀ coord, (b.get coord).has (grid coord) = true

theorem Extends.refl (b : Board S) : Extends b b :=
  fun _ _ => rfl

theorem Extends.trans {b'' : Board S} (first : Extends b b') (second : Extends b' b'') :
    Extends b b'' := by
  intro coord single
  have kept := first coord single
  rw [← kept] at single
  exact (second coord single).trans kept

variable {coord : Coord S}

theorem Extends.set (undecided : (b.get coord).isSingle = false)
    (value : Glyph S) : Extends b (b.set coord value) := by
  intro other single
  by_cases here : other = coord
  · rw [here, undecided] at single
    exact absurd single Bool.false_ne_true
  · exact get_set_of_ne b here value

theorem Consistent.set (consistent : Consistent b) {value : Glyph S}
    (possible : value.isSingle = true → ∀ other, Peers coord other → b.get other ≠ value) :
    Consistent (b.set coord value) := by
  intro c d peers single
  by_cases first : c = coord
  · obtain rfl := first
    rw [get_set_self] at single ⊢
    rw [get_set_of_ne b peers.1.symm]
    exact (possible single d peers).symm
  · rw [get_set_of_ne b first] at single ⊢
    by_cases second : d = coord
    · obtain rfl := second
      rw [get_set_self]
      intro same
      exact possible (same ▸ single) c peers.symm same
    · rw [get_set_of_ne b second]
      exact consistent c d peers single

theorem CompletedBy.set (completed : CompletedBy grid b) {value : Glyph S}
    (agrees : value.isSingle = true → value = .ofIndex (grid coord)) :
    CompletedBy grid (b.set coord value) := by
  intro other single
  by_cases here : other = coord
  · obtain rfl := here
    rw [get_set_self] at single ⊢
    exact agrees single
  · rw [get_set_of_ne b here] at single ⊢
    exact completed other single

variable (small : S * S ≤ 32)

include small in
theorem Admits.completedBy (admits : Admits grid b) : CompletedBy grid b :=
  fun coord single => Glyph.has_of_isSingle small single (admits coord)

/-- Glyphs are added only as far as they have a bit. -/
theorem has_foldl_add (possible : Fin (S * S) → Bool) (values : List (Fin (S * S))) (g : Glyph S)
    (index : Fin (S * S)) :
    (values.foldl (fun alternatives value =>
        if possible value then alternatives.add value else alternatives) g).has index =
      (g.has index || (decide (index ∈ values) && possible index && decide (index.val < 32))) := by
  induction values generalizing g with
  | nil => simp
  | cons value values ih =>
      rw [List.foldl_cons, ih]
      by_cases here : index = value
      · obtain rfl := here
        cases allowed : possible index
        · simp
        · cases below : decide (index.val < 32)
          · simp [Glyph.has_add_eq, below]
          · simp [Glyph.has_add_eq, below]
      · split_ifs
        · simp [Glyph.has_add_eq, here]
        · simp [here]

theorem has_availableAlternatives_eq (b : Board S) (coord : Coord S) (index : Fin (S * S)) :
    (b.availableAlternatives coord).has index =
      (b.isPossible coord (.ofIndex index) && decide (index.val < 32)) := by
  rw [availableAlternatives, has_foldl_add fun value => b.isPossible coord (.ofIndex value),
    Glyph.has_empty, decide_eq_true (List.mem_finRange index), Bool.false_or, Bool.true_and]

include small in
theorem has_availableAlternatives (b : Board S) (coord : Coord S) (index : Fin (S * S)) :
    (b.availableAlternatives coord).has index = b.isPossible coord (.ofIndex index) := by
  rw [has_availableAlternatives_eq, decide_eq_true (index.isLt.trans_le small), Bool.and_true]

include small in
/-- The value in a grid is possible. -/
theorem CompletedBy.isPossible (valid : IsGrid grid) (completed : CompletedBy grid b)
    (coord : Coord S) : b.isPossible coord (.ofIndex (grid coord)) = true := by
  refine isPossible_iff.mpr fun other peers same => ?_
  have single : (b.get other).isSingle = true := by
    rw [same]
    exact Glyph.isSingle_ofIndex small _
  have index := Glyph.ofIndex_inj small ((completed other single).symm.trans same)
  exact valid.ne peers index.symm

theorem isSingle_calculateAt (b : Board S)
    (single : (b.get coord).isSingle = true) : b.calculateAt coord = b :=
  if_pos single

theorem calculateAt_of_not_isSingle (b : Board S) (undecided : ¬(b.get coord).isSingle = true) :
    b.calculateAt coord = b.set coord (b.availableAlternatives coord) :=
  if_neg undecided

theorem extends_calculateAt (b : Board S) (coord : Coord S) : Extends b (b.calculateAt coord) := by
  by_cases single : (b.get coord).isSingle = true
  · rw [isSingle_calculateAt b single]
    exact .refl b
  · rw [calculateAt_of_not_isSingle b single]
    exact .set (Bool.eq_false_iff.mpr single) _

include small in
theorem Consistent.calculateAt (consistent : Consistent b) (coord : Coord S) :
    Consistent (b.calculateAt coord) := by
  by_cases single : (b.get coord).isSingle = true
  · rwa [isSingle_calculateAt b single]
  · rw [calculateAt_of_not_isSingle b single]
    refine consistent.set fun decided => ?_
    obtain ⟨index, only⟩ := Glyph.exists_of_isSingle small decided
    have member := has_availableAlternatives small b coord index
    rw [only, Glyph.has_ofIndex small, decide_eq_true rfl] at member
    rw [only]
    exact isPossible_iff.mp member.symm

include small in
/-- A cell that is calculated has its value in a grid. -/
theorem CompletedBy.has_calculateAt (valid : IsGrid grid) (completed : CompletedBy grid b)
    (coord : Coord S) : ((b.calculateAt coord).get coord).has (grid coord) = true := by
  by_cases single : (b.get coord).isSingle = true
  · rw [isSingle_calculateAt b single, completed coord single, Glyph.has_ofIndex small]
    exact decide_eq_true rfl
  · rw [calculateAt_of_not_isSingle b single, get_set_self, has_availableAlternatives small]
    exact completed.isPossible small valid coord

include small in
theorem CompletedBy.calculateAt (valid : IsGrid grid) (completed : CompletedBy grid b)
    (coord : Coord S) : CompletedBy grid (b.calculateAt coord) := by
  have member := completed.has_calculateAt small valid coord
  by_cases single : (b.get coord).isSingle = true
  · rwa [isSingle_calculateAt b single]
  · rw [calculateAt_of_not_isSingle b single] at member ⊢
    rw [get_set_self] at member
    exact completed.set fun decided => Glyph.has_of_isSingle small decided member

theorem get_calculateAt_of_ne (b : Board S) {coord other : Coord S} (apart : other ≠ coord) :
    (b.calculateAt coord).get other = b.get other := by
  by_cases single : (b.get coord).isSingle = true
  · rw [isSingle_calculateAt b single]
  · rw [calculateAt_of_not_isSingle b single, get_set_of_ne b apart]

/-- What the calculation of a cell preserves holds after that of all cells. -/
theorem calculateAlternatives_invariant (invariant : Board S → Prop)
    (step : ∀ b coord, invariant b → invariant (b.calculateAt coord)) (initial : invariant b) :
    invariant b.calculateAlternatives :=
  List.foldlRecOn (coords S) calculateAt initial fun b kept coord _ => step b coord kept

theorem extends_calculateAlternatives (b : Board S) : Extends b b.calculateAlternatives :=
  calculateAlternatives_invariant (Extends b)
    (fun b' coord kept => kept.trans (extends_calculateAt b' coord)) (.refl b)

include small in
theorem Consistent.calculateAlternatives (consistent : Consistent b) :
    Consistent b.calculateAlternatives :=
  calculateAlternatives_invariant Consistent (fun _ coord kept => kept.calculateAt small coord)
    consistent

include small in
theorem CompletedBy.calculateAlternatives (valid : IsGrid grid) (completed : CompletedBy grid b) :
    CompletedBy grid b.calculateAlternatives :=
  calculateAlternatives_invariant (CompletedBy grid)
    (fun _ coord kept => kept.calculateAt small valid coord) completed

include small in
/-- All the cells that are calculated have their values in a grid. -/
theorem CompletedBy.admits_foldl (valid : IsGrid grid) (completed : CompletedBy grid b)
    (cells : List (Coord S)) (coord : Coord S)
    (calculated : coord ∈ cells ∨ (b.get coord).has (grid coord) = true) :
    ((cells.foldl Board.calculateAt b).get coord).has (grid coord) = true := by
  induction cells generalizing b with
  | nil => exact calculated.resolve_left List.not_mem_nil
  | cons first cells ih =>
      refine ih (completed.calculateAt small valid first) ?_
      by_cases here : coord = first
      · obtain rfl := here
        exact .inr (completed.has_calculateAt small valid coord)
      · rw [get_calculateAt_of_ne b here]
        exact calculated.imp_left fun member => (List.mem_cons.mp member).resolve_left here

include small in
theorem CompletedBy.admits (valid : IsGrid grid) (completed : CompletedBy grid b) :
    Admits grid b.calculateAlternatives :=
  fun coord => completed.admits_foldl small valid (coords S) coord (.inl (mem_coords coord))

end Board

end Eagine.Sudoku
