import Eagine.Memory.Biteset
import Eagine.Theory.BitString
import Mathlib.Data.Nat.Digits.Defs

/-!
# Laws of bitesets

What is constructed or set is what is read, for the values that meet at most seven
bytes.
-/

open List

namespace Eagine.Biteset

open Theory Nat
open BitVec (eq_of_getLsbD_eq getLsbD_and getLsbD_setWidth getLsbD_ushiftRight getMsbD ofNat)

variable {N B w : Nat}

/-- A bit of a sequence of bytes, with the first bits being the highest ones. -/
def byteBit (bytes : List (BitVec 8)) (p : Nat) : Bool :=
  (bytes.getD (p / 8) 0).getMsbD (p % 8)

/-- A bit of a sequence of values with `B` bits. -/
def valueBit (B : Nat) (init : Nat → BitVec w) (p : Nat) : Bool :=
  (init (p / B)).getLsbD (B - 1 - p % B)

theorem getLsbD_mask (len k : Nat) :
    (ofNat w (2 ^ len - 1)).getLsbD k = (decide (k < w) && decide (k < len)) := by
  rw [BitVec.getLsbD_ofNat, testBit_two_pow_sub_one]

theorem extracts_cell (bytes : List (BitVec 8)) :
    Extracts 8 (byteBit bytes) fun cb => extractCellBits w (bytes.getD cb 0) := by
  intro cb ofs len fits k inside
  simp only [extractCellBits, getLsbD_and, getLsbD_setWidth,
    getLsbD_ushiftRight, getLsbD_mask, byteBit]
  by_cases within : k < len
  · have unit : (cb * 8 + ofs + len - 1 - k) / 8 = cb := by omega
    have position : 8 - 1 - (cb * 8 + ofs + len - 1 - k) % 8 = 8 - ofs - len + k := by omega
    have below : (cb * 8 + ofs + len - 1 - k) % 8 < 8 := mod_lt _ (by decide)
    rw [unit, getMsbD, position]
    simp [inside, within, below]
  · simp [within]

theorem extracts_init (positive : 0 < B) (init : Nat → BitVec w) :
    Extracts B (valueBit B init) fun cb => extractInitBits B (init cb) := by
  intro cb ofs len fits k inside
  simp only [extractInitBits, getLsbD_and, getLsbD_setWidth,
    getLsbD_ushiftRight, getLsbD_mask, valueBit]
  by_cases within : k < len
  · have split : cb * B + ofs + len - 1 - k = (ofs + len - 1 - k) + cb * B := by omega
    have small : ofs + len - 1 - k < B := by omega
    have position : B - 1 - (ofs + len - 1 - k) = B - ofs - len + k := by omega
    rw [split, add_mul_div_right _ _ positive, Nat.div_eq_of_lt small, zero_add,
      add_mul_mod_self_right, Nat.mod_eq_of_lt small, position]
    simp [inside, within]
  · simp [within]

theorem getCellBits_eq_collect (bytes : List (BitVec 8)) (pieces : Nat) (state : BitVec w)
    (bb be cb : Nat) :
    getCellBits bytes pieces state bb be cb =
      collect 8 (fun cb => extractCellBits w (bytes.getD cb 0)) pieces state bb be cb := by
  induction pieces generalizing state bb cb with
  | zero => rfl
  | succ pieces ih => simp only [getCellBits, collect, ih]

theorem getByteBits_eq_collect (init : Nat → BitVec w) (pieces : Nat) (state : BitVec 8)
    (bb be cb : Nat) :
    getByteBits B init pieces state bb be cb =
      collect B (fun cb => extractInitBits B (init cb)) pieces state bb be cb := by
  induction pieces generalizing state bb cb with
  | zero => rfl
  | succ pieces ih => simp only [getByteBits, collect, ih]

/-- The end of the bits of a value that the pieces reach. -/
def reached (B i : Nat) : Nat :=
  reach 8 maxPieces (i * B) ((i + 1) * B)

theorem le_next (B i : Nat) : i * B ≤ (i + 1) * B :=
  Nat.mul_le_mul_right B (le_succ i)

theorem reached_eq {i : Nat} (fits : i * B % 8 + B ≤ 56) : reached B i = (i + 1) * B := by
  refine reach_eq (le_next B i) ?_
  rw [Nat.succ_mul, maxPieces]
  omega

theorem reached_lt {i : Nat} (exceeds : 56 < i * B % 8 + B) : reached B i < (i + 1) * B := by
  rw [reached, reach, Nat.succ_mul, maxPieces]
  omega

theorem get_holds (s : Biteset N B) (i : Nat) (other : B ≠ 8) :
    HoldsBits (byteBit s.bytes) (i * B) (reached B i) (s.get i) := by
  rw [get, if_neg other, getCellBits_eq_collect]
  exact collect_holds (by decide) (extracts_cell s.bytes) maxPieces le_rfl (fun _ => rfl)
    (holdsBits_zero _ _)

/-- The bits of a value that is read. -/
theorem getLsbD_get (s : Biteset N B) {i k : Nat} (fits : i * B % 8 + B ≤ 56)
    (inside : k < cellSize B) :
    (s.get i).getLsbD k = (decide (k < B) && byteBit s.bytes ((i + 1) * B - 1 - k)) := by
  by_cases whole : B = 8
  · subst whole
    rw [get, if_pos rfl, getLsbD_setWidth, byteBit]
    by_cases within : k < 8
    · have unit : ((i + 1) * 8 - 1 - k) / 8 = i := by omega
      have position : 8 - 1 - ((i + 1) * 8 - 1 - k) % 8 = k := by omega
      have below : ((i + 1) * 8 - 1 - k) % 8 < 8 := mod_lt _ (by decide)
      rw [unit, getMsbD, position]
      simp [inside, within, below]
    · have high : (s.bytes.getD i 0).getLsbD k = false :=
        BitVec.getLsbD_of_ge _ k (Nat.le_of_not_lt within)
      rw [high, decide_eq_false within, Bool.and_false, Bool.false_and]
  · have width : (i + 1) * B - i * B = B := by
      rw [Nat.succ_mul, Nat.add_sub_cancel_left]
    have holds := s.get_holds i whole k inside
    rwa [reached_eq fits, width] at holds

/-- There are pieces for all the values that a byte meets, unless they have a single
bit. -/
theorem reach_byte (two : 2 ≤ B) (j : Nat) :
    reach B maxPieces (j * 8) ((j + 1) * 8) = (j + 1) * 8 := by
  refine reach_eq (Nat.mul_le_mul_right 8 (le_succ j)) ?_
  have split : B * (j * 8 / B) + j * 8 % B = j * 8 := div_add_mod (j * 8) B
  have remainder : j * 8 % B < B := mod_lt _ (Nat.lt_of_lt_of_le Nat.two_pos two)
  rw [mul_add, maxPieces]
  omega

theorem getByte_holds (positive : 0 < B) (init : Nat → BitVec w) (j : Nat) (other : B ≠ 8) :
    HoldsBits (valueBit B init) (j * 8) (reach B maxPieces (j * 8) ((j + 1) * 8))
      (getByte B init j) := by
  rw [getByte, if_neg other, getByteBits_eq_collect]
  exact collect_holds positive (extracts_init positive init) maxPieces le_rfl (fun _ => rfl)
    (holdsBits_zero _ _)

theorem getMsbD_getByte (two : 2 ≤ B) (init : Nat → BitVec w) (j : Nat) {r : Nat}
    (inside : r < 8) : (getByte B init j).getMsbD r = valueBit B init (j * 8 + r) := by
  rw [getMsbD, decide_eq_true inside, Bool.true_and]
  by_cases whole : B = 8
  · subst whole
    have unit : (j * 8 + r) / 8 = j := by omega
    have position : 8 - 1 - (j * 8 + r) % 8 = 8 - 1 - r := by omega
    have below : 8 - 1 - r < 8 := by omega
    rw [getByte, if_pos rfl, getLsbD_setWidth, valueBit, unit, position,
      decide_eq_true below, Bool.true_and]
  · have holds := getByte_holds (Nat.lt_of_lt_of_le Nat.two_pos two) init j whole (8 - 1 - r)
      (by omega)
    have width : 8 - 1 - r < (j + 1) * 8 - j * 8 := by omega
    have position : (j + 1) * 8 - 1 - (8 - 1 - r) = j * 8 + r := by omega
    rwa [reach_byte two, decide_eq_true width, Bool.true_and, position] at holds

/-- The bits of a construction are those of the values, one after another. -/
theorem byteBit_make (two : 2 ≤ B) (values : Fin N → BitesetCell B) {p : Nat}
    (inside : p / 8 < storeSize N B) :
    byteBit (make values).bytes p = valueBit B (initAt values) p := by
  have byte : (make values).bytes.getD (p / 8) 0 = getByte B (initAt values) (p / 8) := by
    rw [make, getD_eq_getElem _ _ (by rwa [length_map, length_range]),
      getElem_map, getElem_range]
  rw [byteBit, byte, getMsbD_getByte two _ _ (mod_lt p (by decide)), mul_comm,
    div_add_mod]

/-- All the bits of the values are stored. -/
theorem lt_storeSize {i p : Nat} (within : i < N) (before : p < (i + 1) * B) :
    p / 8 < storeSize N B := by
  have last : (i + 1) * B ≤ N * B := Nat.mul_le_mul_right B within
  rw [storeSize]
  split_ifs <;> omega

theorem getMsbD_setByteBits (v : BitVec w) (b : BitVec 8) {ofs len r : Nat}
    (fits : ofs + len ≤ 8) (wide : 8 ≤ w) (small : ∀ k, len ≤ k → v.getLsbD k = false)
    (inside : r < 8) :
    (setByteBits v b ofs len).getMsbD r =
      if ofs ≤ r ∧ r < ofs + len then v.getLsbD (ofs + len - 1 - r) else b.getMsbD r := by
  have lowest : 8 - 1 - r < 8 := by omega
  have narrow : 8 - 1 - r < w := by omega
  simp only [setByteBits, getMsbD, BitVec.getLsbD_or, BitVec.getLsbD_xor,
    getLsbD_and, BitVec.getLsbD_shiftLeft, getLsbD_setWidth, getLsbD_mask, lowest,
    narrow, inside]
  by_cases after : ofs + len ≤ r
  · have below : 8 - 1 - r < 8 - ofs - len := by omega
    have outside : ¬(ofs ≤ r ∧ r < ofs + len) := by omega
    simp [below, outside]
  · have above : ¬8 - 1 - r < 8 - ofs - len := by omega
    have position : 8 - 1 - r - (8 - ofs - len) = ofs + len - 1 - r := by omega
    by_cases before : r < ofs
    · have past : len ≤ ofs + len - 1 - r := by omega
      have outside : ¬(ofs ≤ r ∧ r < ofs + len) := by omega
      simp [above, position, small _ past, not_lt.mpr past, outside]
    · have within : ofs + len - 1 - r < len := by omega
      have bounded : ofs + len - 1 - r < 8 := by omega
      have range : ofs ≤ r ∧ r < ofs + len := by omega
      simp [above, position, within, bounded, range]

/-- A piece replaces its bits in the bytes by the highest bits of the state. -/
theorem byteBit_setPiece (wide : 8 ≤ w) (bytes : List (BitVec 8)) (state : BitVec w) {bb bl : Nat}
    (fits : bb % 8 + bl ≤ 8) (room : bb / 8 < bytes.length) (p : Nat) :
    byteBit (bytes.set (bb / 8)
        (setByteBits (state >>> (w - bl)) (bytes.getD (bb / 8) 0) (bb % 8) bl)) p =
      if bb ≤ p ∧ p < bb + bl then state.getMsbD (p - bb) else byteBit bytes p := by
  have below : p % 8 < 8 := mod_lt p (by decide)
  rw [byteBit]
  by_cases here : p / 8 = bb / 8
  · have byte : (bytes.set (bb / 8)
        (setByteBits (state >>> (w - bl)) (bytes.getD (bb / 8) 0) (bb % 8) bl)).getD (p / 8) 0 =
        setByteBits (state >>> (w - bl)) (bytes.getD (bb / 8) 0) (bb % 8) bl := by
      rw [here, getD_eq_getElem _ _ (by rwa [length_set]), getElem_set_self]
    have small : ∀ k, bl ≤ k → (state >>> (w - bl)).getLsbD k = false := by
      intro k past
      rw [getLsbD_ushiftRight]
      exact BitVec.getLsbD_of_ge _ _ (by omega)
    rw [byte, getMsbD_setByteBits _ _ fits wide small below]
    by_cases range : bb % 8 ≤ p % 8 ∧ p % 8 < bb % 8 + bl
    · have range' : bb ≤ p ∧ p < bb + bl := by omega
      have position : w - bl + (bb % 8 + bl - 1 - p % 8) = w - 1 - (p - bb) := by omega
      have inside : p - bb < w := by omega
      rw [if_pos range, if_pos range', getLsbD_ushiftRight, position, getMsbD,
        decide_eq_true inside, Bool.true_and]
    · have range' : ¬(bb ≤ p ∧ p < bb + bl) := by omega
      rw [if_neg range, if_neg range', byteBit, here]
  · have range' : ¬(bb ≤ p ∧ p < bb + bl) := by omega
    have same : (bytes.set (bb / 8)
        (setByteBits (state >>> (w - bl)) (bytes.getD (bb / 8) 0) (bb % 8) bl)).getD (p / 8) 0 =
        bytes.getD (p / 8) 0 := by
      rw [getD_eq_getElem?_getD, getElem?_set_ne (Ne.symm here),
        ← getD_eq_getElem?_getD]
    rw [same, if_neg range', byteBit]

/-- The bits that the pieces reach are replaced. -/
theorem byteBit_setCellBits (wide : 8 ≤ w) (pieces : Nat) (bytes : List (BitVec 8))
    (state : BitVec w) {bb be cb : Nat} (unit : bb < be → cb = bb / 8)
    (room : be ≤ bytes.length * 8) (p : Nat) :
    byteBit (setCellBits pieces bytes state bb be cb) p =
      if bb ≤ p ∧ p < reach 8 pieces bb be then state.getMsbD (p - bb) else byteBit bytes p := by
  induction pieces generalizing bytes state bb cb with
  | zero =>
      have nothing : ¬(bb ≤ p ∧ p < bb) := by omega
      rw [reach_zero, if_neg nothing, setCellBits]
  | succ pieces ih =>
      by_cases more : bb < be
      · obtain rfl := unit more
        have remainder : bb - bb / 8 * 8 = bb % 8 := by omega
        rw [setCellBits, if_pos more]
        simp only [remainder]
        rw [ih _ _ (fun still => by omega) (by rwa [length_set]),
          byteBit_setPiece wide bytes state (by omega) (by omega), ← reach_succ (by decide) more]
        have further : bb + min (be - bb) (8 - bb % 8) ≤ reach 8 (pieces + 1) bb be := by
          rw [reach_succ (by decide) more]
          exact le_reach
        generalize min (be - bb) (8 - bb % 8) = bl at further ⊢
        by_cases later : bb + bl ≤ p
        · have notHere : ¬(bb ≤ p ∧ p < bb + bl) := by omega
          have position : p - (bb + bl) + bl = p - bb := by omega
          have range : (bb + bl ≤ p ∧ p < reach 8 (pieces + 1) bb be) ↔
              (bb ≤ p ∧ p < reach 8 (pieces + 1) bb be) := by omega
          rw [if_neg notHere, BitVec.getMsbD_shiftLeft, position]
          exact if_congr range rfl rfl
        · have notLater : ¬(bb + bl ≤ p ∧ p < reach 8 (pieces + 1) bb be) := fun range =>
            later range.1
          have range : (bb ≤ p ∧ p < bb + bl) ↔
              (bb ≤ p ∧ p < reach 8 (pieces + 1) bb be) := by omega
          rw [if_neg notLater]
          exact if_congr range rfl rfl
      · have past : be ≤ bb := Nat.le_of_not_lt more
        have nothing : ¬(bb ≤ p ∧ p < bb) := by omega
        rw [reach_of_le past, if_neg nothing, setCellBits, if_neg more]

theorem cellSize_ge (B : Nat) : 8 ≤ cellSize B := by
  rw [cellSize]
  split_ifs <;> decide

theorem le_cellSize (upTo : B ≤ 64) : B ≤ cellSize B := by
  rw [cellSize]
  split_ifs with h8 h16 h32
  · exact h8
  · exact h16
  · exact h32
  · exact upTo

/-- The bits of the store after a value is set, as far as the pieces reach. -/
theorem byteBit_set (s : Biteset N B) {i : Nat} (within : i < N) (value : BitesetCell B)
    (upTo : B ≤ 64) (p : Nat) :
    byteBit (s.set i value).bytes p =
      if i * B ≤ p ∧ p < reached B i then value.getLsbD (B - 1 - (p - i * B))
      else byteBit s.bytes p := by
  have width := le_cellSize upTo
  have room : (i + 1) * B ≤ s.bytes.length * 8 := by
    have last : (i + 1) * B ≤ N * B := Nat.mul_le_mul_right B within
    rw [s.length_bytes, storeSize]
    split_ifs <;> omega
  by_cases whole : B = 8
  · subst whole
    have fits : i * 8 % 8 + 8 ≤ 56 := by omega
    rw [reached_eq fits, set]
    simp only [if_true]
    rw [byteBit]
    by_cases here : p / 8 = i
    · have range : i * 8 ≤ p ∧ p < (i + 1) * 8 := by omega
      have inside : i < s.bytes.length := by omega
      have position : 8 - 1 - p % 8 = 8 - 1 - (p - i * 8) := by omega
      have below : p % 8 < 8 := mod_lt p (by decide)
      have low : 8 - 1 - (p - i * 8) < 8 := by omega
      rw [if_pos range, here, getD_eq_getElem _ _ (by rwa [length_set]),
        getElem_set_self, getMsbD, getLsbD_setWidth, position,
        decide_eq_true below, decide_eq_true low, Bool.true_and, Bool.true_and]
    · have range : ¬(i * 8 ≤ p ∧ p < (i + 1) * 8) := by omega
      rw [if_neg range, getD_eq_getElem?_getD, getElem?_set_ne (Ne.symm here),
        ← getD_eq_getElem?_getD, byteBit]
  · rw [set]
    simp only [if_neg whole]
    rw [byteBit_setCellBits (cellSize_ge B) _ _ _ (fun _ => rfl) room, ← reached]
    by_cases range : i * B ≤ p ∧ p < reached B i
    · have atMost : reached B i ≤ (i + 1) * B := reach_le (le_next B i)
      rw [Nat.succ_mul] at atMost
      have inside : p - i * B + (cellSize B - B) < cellSize B := by omega
      have position : cellSize B - 1 - (p - i * B + (cellSize B - B)) = B - 1 - (p - i * B) := by
        omega
      rw [if_pos range, if_pos range, BitVec.getMsbD_shiftLeft, getMsbD,
        decide_eq_true inside, Bool.true_and, position]
    · rw [if_neg range, if_neg range]

/-- The bits of a sequence of bytes are those of its value, from the highest one. -/
theorem byteBit_eq_getLsbD_asUInt (bytes : List (BitVec 8)) (narrow : 8 * bytes.length ≤ w)
    {p : Nat} (inside : p < 8 * bytes.length) :
    byteBit bytes p = (Byteset.asUInt w bytes).getLsbD (8 * bytes.length - 1 - p) := by
  have lower : 8 * bytes.length - 1 - p < w := by omega
  have range : (8 * bytes.length - 1 - p) / 8 < bytes.length := by omega
  have unit : bytes.length - 1 - (8 * bytes.length - 1 - p) / 8 = p / 8 := by omega
  have position : (8 * bytes.length - 1 - p) % 8 = 8 - 1 - p % 8 := by omega
  rw [Byteset.getLsbD_asUInt bytes lower, unit, position, decide_eq_true range, byteBit,
    getMsbD, decide_eq_true (mod_lt p (by decide))]

theorem eq_of_bytes {s t : Biteset N B} (same : s.bytes = t.bytes) : s = t := by
  cases s
  cases t
  cases same
  rfl

/-- The construction from the value of a biteset gives the same one. -/
theorem fromValue_asUInt (s : Biteset N B) (narrow : 8 * storeSize N B ≤ w) :
    fromValue (Byteset.asUInt w s.bytes) = s := by
  have same : Byteset.ofUInt (storeSize N B) (Byteset.asUInt w s.bytes) = s.bytes := by
    rw [← s.length_bytes] at narrow ⊢
    exact Byteset.ofUInt_asUInt s.bytes narrow
  exact eq_of_bytes same

theorem valueBit_initAt (values : Fin N → BitesetCell B) (i : Fin N) {k : Nat} (within : k < B) :
    valueBit B (initAt values) ((i + 1) * B - 1 - k) = (values i).getLsbD k := by
  have split : (i + 1) * B - 1 - k = (B - 1 - k) + i * B := by
    rw [Nat.succ_mul]
    omega
  have small : B - 1 - k < B := by omega
  have lowest : B - 1 - (B - 1 - k) = k := by omega
  have positive : 0 < B := zero_lt_of_lt within
  have here : initAt values i = values i := dif_pos i.isLt
  rw [valueBit, split, add_mul_div_right _ _ positive, Nat.div_eq_of_lt small, zero_add,
    add_mul_mod_self_right, Nat.mod_eq_of_lt small, lowest, here]

/-- The value is zero only if all the values that are packed in it are. -/
theorem asUInt_make_eq_zero_iff (two : 2 ≤ B) (narrow : 8 * storeSize N B ≤ w)
    {values : Fin N → BitesetCell B} (small : ∀ i, (values i).toNat < 2 ^ B) :
    Byteset.asUInt w (make values).bytes = 0 ↔ ∀ i, values i = 0 := by
  have length := (make values).length_bytes
  have narrow' : 8 * (make values).bytes.length ≤ w := by rwa [length]
  have zeroBit (k : Nat) : (0 : BitVec w).getLsbD k = false := BitVec.getLsbD_zero
  have zeroCellBit (k : Nat) : (0 : BitesetCell B).getLsbD k = false := BitVec.getLsbD_zero
  constructor
  · intro zero i
    apply eq_of_getLsbD_eq
    intro k _
    by_cases within : k < B
    · have before : (i + 1) * B - 1 - k < (i + 1) * B := by
        rw [Nat.succ_mul]
        omega
      have stored := lt_storeSize i.isLt before
      rw [← valueBit_initAt values i within, ← byteBit_make two values stored,
        byteBit_eq_getLsbD_asUInt _ narrow' (by omega), zero, zeroBit, zeroCellBit]
    · have high := (small i).trans_le (Nat.pow_le_pow_right Nat.two_pos (Nat.le_of_not_lt within))
      rw [← BitVec.testBit_toNat, testBit_lt_two_pow high, zeroCellBit]
  · intro zeros
    apply eq_of_getLsbD_eq
    intro k inside
    rw [zeroBit]
    by_cases stored : k / 8 < storeSize N B
    · have bit : byteBit (make values).bytes (8 * storeSize N B - 1 - k) = false := by
        rw [byteBit_make two values (by omega), valueBit, initAt]
        split_ifs with range
        · rw [zeros, zeroCellBit]
        · exact zeroCellBit _
      have position : 8 * storeSize N B - 1 - (8 * storeSize N B - 1 - k) = k := by omega
      rwa [byteBit_eq_getLsbD_asUInt _ narrow' (by omega), length,
        position] at bit
    · rw [Byteset.getLsbD_asUInt _ inside, length, decide_eq_false stored, Bool.false_and]

/-- The values that a biteset of `N` values with `B` bits is constructed from or that
are set are read from it, and setting one leaves the others. -/
def Laws (N B : Nat) : Prop :=
  (∀ (values : Fin N → BitesetCell B) (i : Fin N),
      ((make values).get i).toNat = (values i).toNat % 2 ^ B) ∧
    ∀ (s : Biteset N B) (i : Fin N) (value : BitesetCell B),
      ((s.set i value).get i).toNat = value.toNat % 2 ^ B ∧
        ∀ j : Fin N, j ≠ i → (s.set i value).get j = s.get j

theorem toNat_eq_of_bits {x v : BitVec w}
    (bits : ∀ k < w, x.getLsbD k = (decide (k < B) && v.getLsbD k)) :
    x.toNat = v.toNat % 2 ^ B := by
  apply Nat.eq_of_testBit_eq
  intro k
  rw [Nat.testBit_mod_two_pow, BitVec.testBit_toNat, BitVec.testBit_toNat]
  by_cases inside : k < w
  · exact bits k inside
  · rw [BitVec.getLsbD_of_ge x k (Nat.le_of_not_lt inside),
      BitVec.getLsbD_of_ge v k (Nat.le_of_not_lt inside), Bool.and_false]

theorem get_make (two : 2 ≤ B) (values : Fin N → BitesetCell B) (i : Fin N)
    (fits : i * B % 8 + B ≤ 56) : ((make values).get i).toNat = (values i).toNat % 2 ^ B := by
  refine toNat_eq_of_bits fun k inside => ?_
  rw [getLsbD_get _ fits inside]
  by_cases within : k < B
  · have before : (i + 1) * B - 1 - k < (i + 1) * B := by
      rw [Nat.succ_mul]
      omega
    rw [byteBit_make two values (lt_storeSize i.isLt before), valueBit_initAt values i within]
  · rw [decide_eq_false within, Bool.false_and, Bool.false_and]

theorem get_set_self (upTo : B ≤ 64) (s : Biteset N B) (i : Fin N) (value : BitesetCell B)
    (fits : i * B % 8 + B ≤ 56) : ((s.set i value).get i).toNat = value.toNat % 2 ^ B := by
  refine toNat_eq_of_bits fun k inside => ?_
  rw [getLsbD_get _ fits inside]
  by_cases within : k < B
  · have range : i * B ≤ (i + 1) * B - 1 - k ∧ (i + 1) * B - 1 - k < (i + 1) * B := by
      rw [Nat.succ_mul]
      omega
    have lowest : B - 1 - ((i + 1) * B - 1 - k - i * B) = k := by
      rw [Nat.succ_mul]
      omega
    rw [byteBit_set s i.isLt value upTo, reached_eq fits, if_pos range, lowest]
  · rw [decide_eq_false within, Bool.false_and, Bool.false_and]

theorem getLsbD_zero_of_toNat {x : BitVec w} (one : x.toNat = 1) : x.getLsbD 0 = true := by
  rw [← BitVec.testBit_toNat, one]
  rfl

theorem get_set_of_ne (upTo : B ≤ 64) (s : Biteset N B) {i j : Fin N} (other : j ≠ i)
    (value : BitesetCell B) (fits : j * B % 8 + B ≤ 56) :
    (s.set i value).get j = s.get j := by
  apply eq_of_getLsbD_eq
  intro k inside
  rw [getLsbD_get _ fits inside, getLsbD_get _ fits inside]
  by_cases within : k < B
  · have outside : ¬(i * B ≤ (j + 1) * B - 1 - k ∧ (j + 1) * B - 1 - k < reached B i) := by
      have atMost : reached B i ≤ (i + 1) * B := reach_le (le_next B i)
      rcases lt_or_gt_of_ne (Fin.val_ne_of_ne other) with before | after
      · have apart : (j + 1) * B ≤ i * B := Nat.mul_le_mul_right B before
        rw [Nat.succ_mul] at apart ⊢
        omega
      · have apart : (i + 1) * B ≤ j * B := Nat.mul_le_mul_right B after
        rw [Nat.succ_mul (j : Nat)]
        omega
    rw [byteBit_set s i.isLt value upTo, if_neg outside]
  · rw [decide_eq_false within, Bool.false_and, Bool.false_and]

/-- The last one of the eight bits of a byte is not collected. -/
theorem get_make_single_bit (positive : 0 < N) (values : Fin N → BitesetCell 1) :
    ((make values).get 0).getLsbD 0 = false := by
  have room : 0 < storeSize N 1 := by
    rw [storeSize]
    split_ifs <;> omega
  have byte : (make values).bytes.getD 0 0 = getByte 1 (initAt values) 0 := by
    rw [make, getD_eq_getElem _ _ (by rwa [length_map, length_range]),
      getElem_map, getElem_range]
  have holds := getByte_holds one_pos (initAt values) 0 (by decide) 7 (by decide)
  have last : (getByte 1 (initAt values) 0).getMsbD 0 = false := holds
  rw [getLsbD_get _ (by decide) (by decide), Bool.and_eq_false_iff]
  exact .inr ((congrArg (getMsbD · 0) byte).trans last)

/-- The lowest bit of a value that meets more than seven bytes is neither written nor
read. -/
theorem get_set_one (upTo : B ≤ 64) (i : Fin N) (exceeds : 56 < i * B % 8 + B) :
    (((init : Biteset N B).set i 1).get i).getLsbD 0 = false := by
  have other : B ≠ 8 := by omega
  have inside : 0 < cellSize B := Nat.lt_of_lt_of_le (by decide) (cellSize_ge B)
  have early := reached_lt exceeds
  rw [Nat.succ_mul] at early
  have zero (p : Nat) : byteBit (init : Biteset N B).bytes p = false := by
    have byte : (init : Biteset N B).bytes.getD (p / 8) 0 = 0 := by
      rw [init, getD_eq_getElem?_getD, getElem?_replicate]
      split_ifs <;> rfl
    rw [byteBit, byte]
    exact BitVec.getMsbD_zero
  rw [get_holds _ _ other 0 inside, byteBit_set _ i.isLt _ upTo, zero, Bool.and_eq_false_iff]
  by_cases range : i * B ≤ reached B i - 1 - 0 ∧ reached B i - 1 - 0 < reached B i
  · have high : B - 1 - (reached B i - 1 - 0 - i * B) ≠ 0 := by omega
    have bit := BitVec.getLsbD_ofNat (cellSize B) 1 (B - 1 - (reached B i - 1 - 0 - i * B))
    have notLowest : Nat.testBit 1 (B - 1 - (reached B i - 1 - 0 - i * B)) = false :=
      Bool.eq_false_iff.mpr fun set => high (testBit_one_eq_true_iff_self_eq_zero.mp set)
    rw [notLowest, Bool.and_false] at bit
    rw [if_pos range]
    exact .inr bit
  · rw [if_neg range]
    exact .inr rfl

/-- The laws hold exactly if the values have more than a single bit and none of them
meets more than seven bytes. -/
theorem laws_iff (positive : 0 < N) (from1 : 1 ≤ B) (upTo : B ≤ 64) :
    Laws N B ↔ B ≠ 1 ∧ ∀ i < N, i * B % 8 + B ≤ 56 := by
  have oneMod : 1 % 2 ^ B = 1 := Nat.mod_eq_of_lt (Nat.one_lt_two_pow (Nat.ne_zero_of_lt from1))
  constructor
  · intro laws
    constructor
    · rintro rfl
      have constructed := laws.1 (fun _ => 1) ⟨0, positive⟩
      have single := get_make_single_bit positive (fun _ => 1)
      exact Bool.false_ne_true (single.symm.trans (getLsbD_zero_of_toNat constructed))
    · intro i within
      by_contra! exceeds
      have written := (laws.2 init ⟨i, within⟩ 1).1
      have value : (1 : BitesetCell B).toNat = 1 :=
        Nat.mod_eq_of_lt (Nat.one_lt_two_pow
          (Nat.ne_zero_of_lt (Nat.lt_of_lt_of_le (by decide : 0 < 8) (cellSize_ge B))))
      rw [value, oneMod] at written
      have lost := get_set_one upTo ⟨i, within⟩ exceeds
      exact Bool.false_ne_true (lost.symm.trans (getLsbD_zero_of_toNat written))
  · rintro ⟨notOne, fits⟩
    have two : 2 ≤ B := lt_of_le_of_ne from1 (Ne.symm notOne)
    refine ⟨fun values i => get_make two values i (fits i i.isLt), fun s i value => ⟨?_, ?_⟩⟩
    · exact get_set_self upTo s i value (fits i i.isLt)
    · exact fun j other => get_set_of_ne upTo s other value (fits j j.isLt)

theorem laws_iff_ten_six :
    Laws 10 6 ↔ (6 : Nat) ≠ 1 ∧ ∀ i < 10, i * 6 % 8 + 6 ≤ 56 :=
  laws_iff (by decide) (by decide) (by decide)

/-- A biteset of a single bit that is constructed from a one. -/
theorem not_laws_single_bit :
    ¬∀ N B : Nat, 0 < N → 1 ≤ B → B ≤ 64 → Laws N B := by
  intro laws
  have constructed := (laws 1 1 (by decide) (by decide) (by decide)).1 (fun _ => 1) 0
  exact absurd constructed (by decide)

end Eagine.Biteset

/-!
## Bitesets as numbers

The values of a biteset are the digits of the number that its bytes are the value of, the first
value being the highest digit. The bits behind the last value are its padding.
-/

namespace Eagine.Biteset

variable {N B w : Nat}

/-- The first values as digits, the least significant one first. -/
def cellDigits (s : Biteset N B) : Nat → List Nat
  | 0 => []
  | p + 1 => (s.get p).toNat :: cellDigits s p

/-- All the bits behind the last value are zero. -/
def IsPadded (s : Biteset N B) : Prop :=
  ∀ p, N * B ≤ p → p < 8 * storeSize N B → byteBit s.bytes p = false

theorem isPadded_make (two : 2 ≤ B) (values : Fin N → BitesetCell B) :
    (make values : Biteset N B).IsPadded := by
  intro p behind inside
  have outside : ¬p / B < N := by
    rw [Nat.div_lt_iff_lt_mul (Nat.lt_of_lt_of_le Nat.two_pos two)]
    exact not_lt.mpr behind
  rw [byteBit_make two values (by omega), valueBit, initAt, dif_neg outside]
  exact BitVec.getLsbD_zero

theorem byteBit_init (p : Nat) : byteBit (init : Biteset N B).bytes p = false := by
  rw [byteBit, init, getD_eq_getElem?_getD, getElem?_getD_replicate_default_eq]
  exact BitVec.getMsbD_zero

theorem isPadded_init : (init : Biteset N B).IsPadded :=
  fun p _ _ => byteBit_init p

variable {i : Nat}

theorem IsPadded.set {s : Biteset N B} (padded : s.IsPadded) (within : i < N)
    (value : BitesetCell B) (upTo : B ≤ 64) : (s.set i value).IsPadded := by
  intro p behind inside
  have last : (i + 1) * B ≤ N * B := Nat.mul_le_mul_right B within
  have atMost : reached B i ≤ (i + 1) * B := Theory.reach_le (le_next B i)
  have outside : ¬(i * B ≤ p ∧ p < reached B i) := by omega
  rw [byteBit_set s within value upTo, if_neg outside]
  exact padded p behind inside

theorem length_cellDigits (s : Biteset N B) (p : Nat) : (s.cellDigits p).length = p := by
  induction p with
  | zero => rfl
  | succ p ih => rw [cellDigits, length_cons, ih]

theorem testBit_get (s : Biteset N B) (fits : i * B % 8 + B ≤ 56) (k : Nat) :
    (s.get i).toNat.testBit k = (decide (k < B) && byteBit s.bytes ((i + 1) * B - 1 - k)) := by
  rw [BitVec.testBit_toNat]
  by_cases inside : k < cellSize B
  · exact getLsbD_get s fits inside
  · have above : ¬k < B := by
      have width := le_cellSize (B := B) (by omega)
      omega
    rw [BitVec.getLsbD_of_ge _ k (Nat.le_of_not_lt inside), decide_eq_false above,
      Bool.false_and]

theorem toNat_get_lt (s : Biteset N B) (fits : i * B % 8 + B ≤ 56) :
    (s.get i).toNat < 2 ^ B := by
  apply Nat.lt_pow_two_of_testBit
  intro k above
  rw [testBit_get s fits, decide_eq_false (not_lt.mpr above), Bool.false_and]

theorem toNat_get_init (fits : i * B % 8 + B ≤ 56) :
    ((init : Biteset N B).get i).toNat = 0 := by
  apply Nat.eq_of_testBit_eq
  intro k
  rw [testBit_get _ fits, byteBit_init, Bool.and_false, Nat.zero_testBit]

variable {p : Nat}

theorem cellDigits_lt (s : Biteset N B) (fits : ∀ i < N, i * B % 8 + B ≤ 56)
    (upTo : p ≤ N) : ∀ digit ∈ s.cellDigits p, digit < 2 ^ B := by
  induction p with
  | zero =>
      intro digit mem
      cases mem
  | succ p ih =>
      rw [cellDigits, forall_mem_cons]
      exact ⟨s.toNat_get_lt (fits p upTo), ih (Nat.le_of_succ_le upTo)⟩

theorem mul_le_storeSize (upTo : p ≤ N) : p * B ≤ 8 * storeSize N B := by
  have last : p * B ≤ N * B := Nat.mul_le_mul_right B upTo
  rw [storeSize]
  split_ifs <;> omega

/-- A bit of the store is the one of its value that has as many bits behind it. -/
theorem testBit_asUInt (s : Biteset N B) (narrow : 8 * storeSize N B ≤ w)
    (inside : p < 8 * storeSize N B) :
    (Byteset.asUInt w s.bytes).toNat.testBit (8 * storeSize N B - 1 - p) =
      byteBit s.bytes p := by
  rw [← s.length_bytes] at narrow inside ⊢
  rw [BitVec.testBit_toNat, byteBit_eq_getLsbD_asUInt s.bytes narrow inside]

theorem toNat_asUInt_lt (s : Biteset N B) :
    (Byteset.asUInt w s.bytes).toNat < 2 ^ (8 * storeSize N B) := by
  apply Nat.lt_pow_two_of_testBit
  intro k above
  rw [BitVec.testBit_toNat]
  by_cases inside : k < w
  · have outside : ¬k / 8 < storeSize N B := by omega
    rw [Byteset.getLsbD_asUInt _ inside, s.length_bytes, decide_eq_false outside, Bool.false_and]
  · exact BitVec.getLsbD_of_ge _ k (Nat.le_of_not_lt inside)

/-- The digits are those of the upper bits of the value. -/
theorem ofDigits_cellDigits (s : Biteset N B) (fits : ∀ i < N, i * B % 8 + B ≤ 56)
    (narrow : 8 * storeSize N B ≤ w) (upTo : p ≤ N) :
    Nat.ofDigits (2 ^ B) (s.cellDigits p) =
      (Byteset.asUInt w s.bytes).toNat / 2 ^ (8 * storeSize N B - p * B) := by
  induction p with
  | zero =>
      rw [cellDigits, Nat.ofDigits_nil, Nat.zero_mul, Nat.sub_zero,
        Nat.div_eq_of_lt s.toNat_asUInt_lt]
  | succ p ih =>
      have next : (p + 1) * B = p * B + B := Nat.succ_mul p B
      have stored : p * B + B ≤ 8 * storeSize N B := next ▸ mul_le_storeSize upTo
      have upper : 8 * storeSize N B - p * B = 8 * storeSize N B - (p + 1) * B + B := by omega
      have digit : (s.get p).toNat =
          (Byteset.asUInt w s.bytes).toNat / 2 ^ (8 * storeSize N B - (p + 1) * B) % 2 ^ B := by
        apply Nat.eq_of_testBit_eq
        intro k
        rw [Nat.testBit_mod_two_pow, Nat.testBit_div_two_pow, testBit_get s (fits p upTo)]
        by_cases within : k < B
        · have position : 8 * storeSize N B - 1 - ((p + 1) * B - 1 - k) =
              k + (8 * storeSize N B - (p + 1) * B) := by omega
          have inside : (p + 1) * B - 1 - k < 8 * storeSize N B := by omega
          rw [← testBit_asUInt s narrow inside, position]
        · rw [decide_eq_false within, Bool.false_and, Bool.false_and]
      rw [cellDigits, Nat.ofDigits_cons, ih (Nat.le_of_succ_le upTo), upper, Nat.pow_add,
        ← Nat.div_div_eq_div_mul, digit]
      exact Nat.mod_add_div _ _

theorem cellDigits_set (s : Biteset N B) (fits : ∀ i < N, i * B % 8 + B ≤ 56)
    (within : i < N) (value : BitesetCell B) (before : p ≤ i) :
    (s.set i value).cellDigits p = s.cellDigits p := by
  have upTo : B ≤ 64 := by
    have reach := fits i within
    omega
  induction p with
  | zero => rfl
  | succ p ih =>
      have inside : p < N := before.trans within.le
      have other : (⟨p, inside⟩ : Fin N) ≠ ⟨i, within⟩ := fun same =>
        absurd (Fin.val_eq_of_eq same) (ne_of_lt before)
      have kept := get_set_of_ne upTo s other value (fits p inside)
      rw [cellDigits, cellDigits, kept, ih (Nat.le_of_succ_le before)]

/-- The padding is what is below the digits. -/
theorem IsPadded.asUInt_mod {s : Biteset N B} (padded : s.IsPadded)
    (narrow : 8 * storeSize N B ≤ w) :
    (Byteset.asUInt w s.bytes).toNat % 2 ^ (8 * storeSize N B - N * B) = 0 := by
  apply Nat.eq_of_testBit_eq
  intro k
  rw [Nat.testBit_mod_two_pow, Nat.zero_testBit]
  by_cases below : k < 8 * storeSize N B - N * B
  · have position : 8 * storeSize N B - 1 - (8 * storeSize N B - 1 - k) = k := by omega
    have bit := testBit_asUInt s narrow (p := 8 * storeSize N B - 1 - k) (by omega)
    rw [position, padded _ (by omega) (by omega)] at bit
    rw [bit, Bool.and_false]
  · rw [decide_eq_false below, Bool.false_and]

end Eagine.Biteset
