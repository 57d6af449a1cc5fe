import Mathlib.Data.BitVec

/-!
# Sudoku glyphs

The value of a cell is a set of glyphs, by the bits at their indices. There are as many
glyphs as cells in a block, and a cell is decided if its value has a single bit.
-/

namespace Eagine.Sudoku

section Bits

variable {w : Nat} {v : BitVec w}

/-- The lowest bit is removed. -/
theorem toNat_and_sub_one (nonzero : v ≠ 0) :
    (v &&& (v - 1)).toNat = v.toNat &&& (v.toNat - 1) := by
  have positive : v.toNat ≠ 0 := fun zero => nonzero (BitVec.eq_of_toNat_eq zero)
  have one : (1 : BitVec w).toNat = 1 :=
    Nat.mod_eq_of_lt (Nat.lt_of_le_of_lt (Nat.pos_of_ne_zero positive) v.isLt)
  have less : (1 : BitVec w) ≤ v := by
    rw [BitVec.le_def, one]
    exact Nat.pos_of_ne_zero positive
  rw [BitVec.toNat_and, BitVec.toNat_sub_of_le less, one]

theorem toNat_and_sub_one_lt (nonzero : v ≠ 0) : (v &&& (v - 1)).toNat < v.toNat := by
  have positive : v.toNat ≠ 0 := fun zero => nonzero (BitVec.eq_of_toNat_eq zero)
  rw [toNat_and_sub_one nonzero]
  exact Nat.lt_of_le_of_lt Nat.and_le_right (Nat.sub_lt (Nat.pos_of_ne_zero positive) Nat.one_pos)

/-- Counts the bits while there are any left. -/
def countBits (bits : BitVec w) : Nat :=
  if bits ≠ 0 then countBits (bits &&& (bits - 1)) + 1 else 0
termination_by bits.toNat
decreasing_by exact toNat_and_sub_one_lt ‹_›

theorem countBits_zero : countBits (0 : BitVec w) = 0 := by
  rw [countBits, if_neg (not_not.mpr rfl)]

theorem countBits_of_ne_zero (nonzero : v ≠ 0) :
    countBits v = countBits (v &&& (v - 1)) + 1 := by
  rw [countBits, if_pos nonzero]

theorem countBits_eq_zero_iff : countBits v = 0 ↔ v = 0 := by
  by_cases zero : v = 0
  · rw [zero]
    exact iff_of_true countBits_zero rfl
  · rw [countBits_of_ne_zero zero]
    exact iff_of_false (Nat.succ_ne_zero _) zero

theorem one_lt_countBits_iff : 1 < countBits v ↔ v ≠ 0 ∧ v &&& (v - 1) ≠ 0 := by
  by_cases zero : v = 0
  · rw [zero, countBits_zero]
    exact iff_of_false (Nat.not_lt_zero 1) fun nonzero => nonzero.1 rfl
  · rw [countBits_of_ne_zero zero, Nat.lt_succ_iff, Nat.one_le_iff_ne_zero, Ne,
      countBits_eq_zero_iff]
    exact (and_iff_right zero).symm

theorem countBits_le_card (n : Nat) (small : v.toNat < 2 ^ n) :
    countBits v ≤ ((Finset.range n).filter fun k => v.getLsbD k = true).card := by
  induction v using countBits.induct with
  | case1 v nonzero ih =>
      have less := toNat_and_sub_one_lt nonzero
      have fewer : (Finset.range n).filter (fun k => (v &&& (v - 1)).getLsbD k = true) ⊂
          (Finset.range n).filter fun k => v.getLsbD k = true := by
        refine Finset.ssubset_iff_subset_ne.mpr ⟨fun k member => ?_, fun same => ?_⟩
        · obtain ⟨inside, bit⟩ := Finset.mem_filter.mp member
          rw [BitVec.getLsbD_and, Bool.and_eq_true] at bit
          exact Finset.mem_filter.mpr ⟨inside, bit.1⟩
        · -- the lowest bit would not have been removed
          apply Nat.ne_of_lt less
          apply Nat.eq_of_testBit_eq
          intro k
          by_cases inside : k < n
          · have both := Finset.ext_iff.mp same k
            simp only [Finset.mem_filter, Finset.mem_range, inside, true_and] at both
            rw [BitVec.testBit_toNat, BitVec.testBit_toNat]
            exact Bool.eq_iff_iff.mpr both
          · have high : 2 ^ n ≤ 2 ^ k := Nat.pow_le_pow_right Nat.two_pos (Nat.le_of_not_lt inside)
            rw [Nat.testBit_lt_two_pow (small.trans_le high),
              Nat.testBit_lt_two_pow ((less.trans small).trans_le high)]
      rw [countBits_of_ne_zero nonzero]
      exact (ih (less.trans small)).trans_lt (Finset.card_lt_card fewer)
  | case2 v zero =>
      rw [countBits, if_neg zero]
      exact Nat.zero_le _

theorem countBits_le {n : Nat} (small : v.toNat < 2 ^ n) : countBits v ≤ n := by
  have atMost := Finset.card_filter_le (Finset.range n) fun k => v.getLsbD k = true
  rw [Finset.card_range] at atMost
  exact (countBits_le_card n small).trans atMost

end Bits

/-- The number of bits in `cell_type`. -/
def cellBits (S : Nat) : Nat :=
  if 32 < S * S then 64 else if 16 < S * S then 32 else if 8 < S * S then 16 else 8

def toCellType (S index : Nat) : BitVec (cellBits S) :=
  ((1 : BitVec 32) <<< index).setWidth (cellBits S)

/-- A set of glyphs, that are all below `glyph_count`. -/
structure Glyph (S : Nat) where
  cellVal : BitVec (cellBits S)
  fits : cellVal.toNat < 2 ^ (S * S)
  deriving DecidableEq

namespace Glyph

variable {S : Nat}

theorem toNat_toCellType_lt {index : Nat} (inside : index < S * S) :
    (toCellType S index).toNat < 2 ^ (S * S) := by
  have power : ((1 : BitVec 32) <<< index).toNat ≤ 2 ^ index := by
    rw [BitVec.toNat_shiftLeft, Nat.shiftLeft_eq]
    exact (Nat.mod_le _ _).trans_eq (Nat.one_mul _)
  rw [toCellType, BitVec.toNat_setWidth]
  exact ((Nat.mod_le _ _).trans power).trans_lt (Nat.pow_lt_pow_right (by decide) inside)

/-- The default construction. -/
def empty : Glyph S :=
  ⟨0, Nat.lt_of_le_of_lt (Nat.mod_le 0 _) (Nat.two_pow_pos _)⟩

/-- The construction from an index. -/
def ofIndex (index : Fin (S * S)) : Glyph S :=
  ⟨toCellType S index, toNat_toCellType_lt index.isLt⟩

def isEmpty (g : Glyph S) : Bool :=
  g.cellVal == 0

def isSingle (g : Glyph S) : Bool :=
  g.cellVal != 0 && g.cellVal &&& (g.cellVal - 1) == 0

def add (g : Glyph S) (index : Fin (S * S)) : Glyph S where
  cellVal := g.cellVal ||| toCellType S index
  fits := by
    rw [BitVec.toNat_or]
    exact Nat.or_lt_two_pow g.fits (toNat_toCellType_lt index.isLt)

/-- The indices that `for_each_alternative` calls the function with. -/
def alternatives (g : Glyph S) : List (Fin (S * S)) :=
  (List.finRange (S * S)).filter fun index =>
    g.cellVal &&& toCellType S index == toCellType S index

def alternativeCount (g : Glyph S) : Nat :=
  countBits g.cellVal

def has (g : Glyph S) (index : Fin (S * S)) : Bool :=
  g.cellVal.getLsbD index

variable {g : Glyph S} {index : Fin (S * S)}

theorem isEmpty_iff : g.isEmpty = true ↔ g.cellVal = 0 :=
  beq_iff_eq

theorem has_empty (index : Fin (S * S)) : (empty : Glyph S).has index = false :=
  BitVec.getLsbD_zero

/-- A glyph is the set of its indices. -/
theorem eq_of_has {h : Glyph S} (same : ∀ index, g.has index = h.has index) : g = h := by
  obtain ⟨v, fits⟩ := g
  obtain ⟨u, fits'⟩ := h
  have equal : v = u := by
    apply BitVec.eq_of_toNat_eq
    apply Nat.eq_of_testBit_eq
    intro k
    by_cases inside : k < S * S
    · exact same ⟨k, inside⟩
    · have high : 2 ^ (S * S) ≤ 2 ^ k :=
        Nat.pow_le_pow_right Nat.two_pos (Nat.le_of_not_lt inside)
      rw [Nat.testBit_lt_two_pow (fits.trans_le high), Nat.testBit_lt_two_pow (fits'.trans_le high)]
  cases equal
  rfl

theorem not_isEmpty_of_has (member : g.has index = true) : g.isEmpty = false := by
  apply Bool.eq_false_iff.mpr
  intro none
  rw [has, isEmpty_iff.mp none] at member
  exact Bool.false_ne_true (BitVec.getLsbD_zero.symm.trans member)

theorem isSingle_iff : g.isSingle = true ↔ g.cellVal ≠ 0 ∧ g.cellVal &&& (g.cellVal - 1) = 0 := by
  rw [isSingle, Bool.and_eq_true, bne_iff_ne, beq_iff_eq]

theorem isSingle_iff_isPowerOfTwo : g.isSingle = true ↔ g.cellVal.toNat.isPowerOfTwo := by
  have zeroIff (v : BitVec (cellBits S)) : v = 0 ↔ v.toNat = 0 :=
    ⟨fun zero => congrArg BitVec.toNat zero, fun zero => BitVec.eq_of_toNat_eq zero⟩
  rw [isSingle_iff, ← Nat.ne_zero_and_sub_one_eq_zero_iff_isPowerOfTwo, Ne, zeroIff]
  refine and_congr_right fun nonzero => ?_
  rw [zeroIff, toNat_and_sub_one (mt (zeroIff _).mp nonzero)]

theorem one_lt_alternativeCount_iff :
    1 < g.alternativeCount ↔ g.isEmpty = false ∧ g.isSingle = false := by
  rw [alternativeCount, one_lt_countBits_iff, Bool.eq_false_iff, Bool.eq_false_iff, ne_eq,
    ne_eq, ne_eq, ne_eq, isEmpty_iff, isSingle_iff, not_and]
  exact and_congr_right fun nonzero => ⟨fun more _ => more, fun more => more nonzero⟩

theorem alternativeCount_le (g : Glyph S) : g.alternativeCount ≤ S * S :=
  countBits_le g.fits

/-- The bit of a glyph, that is shifted out of 32 bits if its index is not below. -/
theorem getLsbD_toCellType_eq {index : Nat} (inside : index < S * S) (k : Nat) :
    (toCellType S index).getLsbD k = (decide (index < 32) && decide (k = index)) := by
  have wide : S * S ≤ cellBits S ∨ cellBits S = 64 := by
    rw [cellBits]
    split_ifs <;> omega
  have one : (1 : BitVec 32).getLsbD (k - index) = decide (k - index = 0) :=
    BitVec.getLsbD_one.trans (Bool.true_and _)
  rw [toCellType, BitVec.getLsbD_setWidth, BitVec.getLsbD_shiftLeft, one, Bool.eq_iff_iff]
  simp only [Bool.and_eq_true, Bool.not_eq_true', decide_eq_true_iff, decide_eq_false_iff_not]
  omega

theorem has_ofIndex_eq (i j : Fin (S * S)) :
    (ofIndex i : Glyph S).has j = (decide (i.val < 32) && decide (j = i)) := by
  rw [has, ofIndex, getLsbD_toCellType_eq i.isLt]
  exact congrArg _ (decide_eq_decide.mpr Fin.val_inj)

theorem has_add_eq (g : Glyph S) (i j : Fin (S * S)) :
    (g.add i).has j = (g.has j || (decide (i.val < 32) && decide (j = i))) := by
  rw [has, add, BitVec.getLsbD_or, getLsbD_toCellType_eq i.isLt, has]
  exact congrArg _ (congrArg _ (decide_eq_decide.mpr Fin.val_inj))

theorem isSingle_ofIndex_of_lt (below : index.val < 32) :
    (ofIndex index : Glyph S).isSingle = true := by
  refine isSingle_iff_isPowerOfTwo.mpr ⟨index, Nat.eq_of_testBit_eq fun k => ?_⟩
  rw [BitVec.testBit_toNat, ofIndex, getLsbD_toCellType_eq index.isLt, decide_eq_true below,
    Bool.true_and, Nat.testBit_two_pow]
  exact decide_eq_decide.mpr eq_comm

section Small

variable (small : S * S ≤ 32)
include small

theorem getLsbD_toCellType {index : Nat} (inside : index < S * S) (k : Nat) :
    (toCellType S index).getLsbD k = decide (k = index) := by
  rw [getLsbD_toCellType_eq inside, decide_eq_true (inside.trans_le small), Bool.true_and]

theorem has_ofIndex (i j : Fin (S * S)) : (ofIndex i : Glyph S).has j = decide (j = i) := by
  rw [has_ofIndex_eq, decide_eq_true (i.isLt.trans_le small), Bool.true_and]

theorem ofIndex_inj {i j : Fin (S * S)} (same : (ofIndex i : Glyph S) = ofIndex j) : i = j := by
  have member := has_ofIndex small i i
  rw [same, has_ofIndex small, decide_eq_true rfl] at member
  exact of_decide_eq_true member

theorem mem_alternatives : index ∈ g.alternatives ↔ g.has index = true := by
  rw [alternatives, List.mem_filter, and_iff_right (List.mem_finRange index), beq_iff_eq, has]
  constructor
  · intro masked
    have bit := congrArg (BitVec.getLsbD · index) masked
    simp only [BitVec.getLsbD_and, getLsbD_toCellType small index.isLt, decide_true,
      Bool.and_true] at bit
    exact bit
  · intro bit
    apply BitVec.eq_of_getLsbD_eq
    intro k _
    rw [BitVec.getLsbD_and, getLsbD_toCellType small index.isLt]
    by_cases here : k = index
    · rw [here, bit, Bool.true_and]
    · rw [decide_eq_false here, Bool.and_false]

theorem isSingle_ofIndex (index : Fin (S * S)) : (ofIndex index : Glyph S).isSingle = true :=
  isSingle_ofIndex_of_lt (index.isLt.trans_le small)

/-- A decided cell has a single glyph. -/
theorem exists_of_isSingle (single : g.isSingle = true) : ∃ index, g = ofIndex index := by
  obtain ⟨k, power⟩ := isSingle_iff_isPowerOfTwo.mp single
  have inside : k < S * S := by
    have fits := g.fits
    rw [power] at fits
    exact (Nat.pow_lt_pow_iff_right (by decide)).mp fits
  refine ⟨⟨k, inside⟩, eq_of_has fun index => ?_⟩
  rw [has_ofIndex small, has, ← BitVec.testBit_toNat, power, Nat.testBit_two_pow]
  exact decide_eq_decide.mpr ⟨fun same => Fin.ext same.symm, fun same => (Fin.ext_iff.mp same).symm⟩

theorem has_of_isSingle (single : g.isSingle = true) (member : g.has index = true) :
    g = ofIndex index := by
  obtain ⟨only, rfl⟩ := exists_of_isSingle small single
  rw [has_ofIndex small, decide_eq_true_iff] at member
  rw [member]

end Small

end Glyph

end Eagine.Sudoku
