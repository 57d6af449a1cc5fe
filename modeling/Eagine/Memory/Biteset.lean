import Mathlib.Data.BitVec
import Mathlib.Data.List.GetD

/-!
# Bitesets

A sequence of values with a given number of bits, packed one after another into
bytes. A value is written to the bytes and read from them by pieces: one for every
byte that it shares with other values. The recursions over the pieces have a fixed
depth.
-/

/-!
## Bytesets

A sequence of bytes that is converted to and from unsigned integers, with the first
byte being the highest one.
-/

namespace Eagine.Byteset

variable {w : Nat}

/-- The construction from an unsigned integer that is split into bytes. -/
def ofUInt (N : Nat) (init : BitVec w) : List (BitVec 8) :=
  (List.range N).map fun i => ((init >>> (8 * (N - i - 1))) &&& 0xFF).setWidth 8

/-- `as`, one byte after another. -/
def asUInt (w : Nat) (bytes : List (BitVec 8)) : BitVec w :=
  (List.range bytes.length).foldl
    (fun value i => value ||| (bytes.getD i 0).setWidth w <<< (8 * (bytes.length - i - 1))) 0

theorem length_ofUInt (N : Nat) (init : BitVec w) : (ofUInt N init).length = N := by
  rw [ofUInt, List.length_map, List.length_range]

/-- The bits of the first bytes. -/
theorem getLsbD_foldl (bytes : List (BitVec 8)) {n k : Nat} (upTo : n ≤ bytes.length)
    (inside : k < w) :
    ((List.range n).foldl (fun value i =>
        value ||| (bytes.getD i 0).setWidth w <<< (8 * (bytes.length - i - 1))) 0).getLsbD k =
      (decide (bytes.length - n ≤ k / 8 ∧ k / 8 < bytes.length) &&
        (bytes.getD (bytes.length - 1 - k / 8) 0).getLsbD (k % 8)) := by
  induction n with
  | zero =>
      have nothing : ¬(bytes.length - 0 ≤ k / 8 ∧ k / 8 < bytes.length) := by omega
      rw [decide_eq_false nothing, Bool.false_and]
      exact BitVec.getLsbD_zero
  | succ n ih =>
      rw [List.range_succ, List.foldl_append, List.foldl_cons, List.foldl_nil, BitVec.getLsbD_or,
        ih (Nat.le_of_succ_le upTo), BitVec.getLsbD_shiftLeft, BitVec.getLsbD_setWidth]
      by_cases here : k / 8 = bytes.length - n - 1
      · have before : ¬(bytes.length - n ≤ k / 8 ∧ k / 8 < bytes.length) := by omega
        have range : bytes.length - (n + 1) ≤ k / 8 ∧ k / 8 < bytes.length := by omega
        have byte : bytes.length - 1 - k / 8 = n := by omega
        have position : k - 8 * (bytes.length - n - 1) = k % 8 := by omega
        have past : ¬k < 8 * (bytes.length - n - 1) := by omega
        have within : k % 8 < w := (Nat.mod_le k 8).trans_lt inside
        simp [range, byte, position, past, inside, within]
      · have range : (bytes.length - n ≤ k / 8 ∧ k / 8 < bytes.length) ↔
            (bytes.length - (n + 1) ≤ k / 8 ∧ k / 8 < bytes.length) := by omega
        rw [decide_eq_decide.mpr range]
        by_cases past : k < 8 * (bytes.length - n - 1)
        · simp [past]
        · rw [BitVec.getLsbD_of_ge (bytes.getD n 0) _ (by omega), Bool.and_false, Bool.and_false,
            Bool.or_false]

theorem getLsbD_asUInt (bytes : List (BitVec 8)) {k : Nat} (inside : k < w) :
    (asUInt w bytes).getLsbD k =
      (decide (k / 8 < bytes.length) &&
        (bytes.getD (bytes.length - 1 - k / 8) 0).getLsbD (k % 8)) := by
  have range : (bytes.length - bytes.length ≤ k / 8 ∧ k / 8 < bytes.length) ↔
      k / 8 < bytes.length := by omega
  rw [asUInt, getLsbD_foldl bytes (Nat.le_refl bytes.length) inside, decide_eq_decide.mpr range]

/-- The bytes of the unsigned integer that is made from a byteset are those of the
byteset. -/
theorem ofUInt_asUInt (bytes : List (BitVec 8)) (fits : 8 * bytes.length ≤ w) :
    ofUInt bytes.length (asUInt w bytes) = bytes := by
  apply List.ext_getElem (length_ofUInt _ _)
  intro i _ within
  simp only [ofUInt, List.getElem_map, List.getElem_range]
  apply BitVec.eq_of_getLsbD_eq
  intro k inside
  have lower : 8 * (bytes.length - i - 1) + k < w := by omega
  have unit : (8 * (bytes.length - i - 1) + k) / 8 = bytes.length - i - 1 := by omega
  have position : (8 * (bytes.length - i - 1) + k) % 8 = k := by omega
  have range : bytes.length - i - 1 < bytes.length := by omega
  have byte : bytes.length - 1 - (bytes.length - i - 1) = i := by omega
  have mask : (0xFF : BitVec w).getLsbD k = true := by
    have low := BitVec.getLsbD_ofNat w (2 ^ 8 - 1) k
    rwa [Nat.testBit_two_pow_sub_one, decide_eq_true inside,
      decide_eq_true (show k < w by omega)] at low
  rw [BitVec.getLsbD_setWidth, BitVec.getLsbD_and, BitVec.getLsbD_ushiftRight, mask,
    getLsbD_asUInt bytes lower, unit, position, byte, List.getD_eq_getElem _ _ within,
    decide_eq_true inside, decide_eq_true range, Bool.and_true, Bool.true_and, Bool.true_and]

end Eagine.Byteset

namespace Eagine

/-- The number of all bits in `biteset_cell_type`. -/
def cellSize (B : Nat) : Nat :=
  if B ≤ 8 then 8 else if B ≤ 16 then 16 else if B ≤ 32 then 32 else 64

abbrev BitesetCell (B : Nat) :=
  BitVec (cellSize B)

namespace Biteset

def storeSize (N B : Nat) : Nat :=
  N * B / 8 + if N * B % 8 ≠ 0 then 1 else 0

end Biteset

structure Biteset (N B : Nat) where
  bytes : List (BitVec 8)
  length_bytes : bytes.length = Biteset.storeSize N B
  deriving DecidableEq

namespace Biteset

variable {N B w : Nat}

/-- The pieces that the recursions with the depth from one to the number of bits in a
byte make. -/
def maxPieces : Nat :=
  7

def extractInitBits (B : Nat) (init : BitVec w) (ofs len : Nat) : BitVec 8 :=
  (init >>> (B - ofs - len)).setWidth 8 &&& BitVec.ofNat 8 (2 ^ len - 1)

/-- Collects the bits of a byte from the values, as long as there are pieces left. -/
def getByteBits (B : Nat) (init : Nat → BitVec w) :
    Nat → BitVec 8 → Nat → Nat → Nat → BitVec 8
  | 0, state, _, _, _ => state
  | pieces + 1, state, bb, be, cb =>
      if be ≤ bb then state
      else
        let bo := bb - cb * B
        let bl := min (be - bb) (B - bo)
        getByteBits B init pieces (state <<< bl ||| extractInitBits B (init cb) bo bl)
          (bb + bl) be (cb + 1)

def getByte (B : Nat) (init : Nat → BitVec w) (i : Nat) : BitVec 8 :=
  if B = 8 then (init i).setWidth 8
  else getByteBits B init maxPieces 0 (i * 8) ((i + 1) * 8) (i * 8 / B)

/-- The values of the pack, and zeros after them. -/
def initAt (values : Fin N → BitVec w) (cb : Nat) : BitVec w :=
  if inside : cb < N then values ⟨cb, inside⟩ else 0

/-- The construction from a pack of values. -/
def make (values : Fin N → BitesetCell B) : Biteset N B where
  bytes := (List.range (storeSize N B)).map (getByte B (initAt values))
  length_bytes := by rw [List.length_map, List.length_range]

/-- The default construction. -/
def init : Biteset N B where
  bytes := List.replicate (storeSize N B) 0
  length_bytes := List.length_replicate

/-- The construction from the bytes of an unsigned integer. -/
def fromValue (value : BitVec w) : Biteset N B where
  bytes := Byteset.ofUInt (storeSize N B) value
  length_bytes := Byteset.length_ofUInt _ _

def extractCellBits (w : Nat) (b : BitVec 8) (ofs len : Nat) : BitVec w :=
  (b >>> (8 - ofs - len)).setWidth w &&& BitVec.ofNat w (2 ^ len - 1)

/-- Collects the bits of a value from the bytes, as long as there are pieces left. -/
def getCellBits (bytes : List (BitVec 8)) : Nat → BitVec w → Nat → Nat → Nat → BitVec w
  | 0, state, _, _, _ => state
  | pieces + 1, state, bb, be, cb =>
      if be ≤ bb then state
      else
        let bo := bb - cb * 8
        let bl := min (be - bb) (8 - bo)
        getCellBits bytes pieces (state <<< bl ||| extractCellBits w (bytes.getD cb 0) bo bl)
          (bb + bl) be (cb + 1)

def get (s : Biteset N B) (i : Nat) : BitesetCell B :=
  if B = 8 then (s.bytes.getD i 0).setWidth _
  else getCellBits s.bytes maxPieces 0 (i * B) ((i + 1) * B) (i * B / 8)

/-- Replaces some of the bits of a byte. -/
def setByteBits (v : BitVec w) (b : BitVec 8) (ofs len : Nat) : BitVec 8 :=
  let msk := BitVec.ofNat 8 (2 ^ len - 1) <<< (8 - ofs - len)
  (b ^^^ (b &&& msk)) ||| (v <<< (8 - ofs - len)).setWidth 8

/-- Writes the highest bits of the state to the bytes, as long as there are pieces
left. -/
def setCellBits : Nat → List (BitVec 8) → BitVec w → Nat → Nat → Nat → List (BitVec 8)
  | 0, bytes, _, _, _, _ => bytes
  | pieces + 1, bytes, state, bb, be, cb =>
      if bb < be then
        let bo := bb - cb * 8
        let bl := min (be - bb) (8 - bo)
        setCellBits pieces
          (bytes.set cb (setByteBits (state >>> (w - bl)) (bytes.getD cb 0) bo bl))
          (state <<< bl) (bb + bl) be (cb + 1)
      else bytes

theorem length_setCellBits (pieces : Nat) (bytes : List (BitVec 8)) (state : BitVec w)
    (bb be cb : Nat) : (setCellBits pieces bytes state bb be cb).length = bytes.length := by
  induction pieces generalizing bytes state bb cb with
  | zero => rfl
  | succ pieces ih =>
      rw [setCellBits]
      split_ifs
      · exact (ih _ _ _ _).trans List.length_set
      · rfl

def set (s : Biteset N B) (i : Nat) (value : BitesetCell B) : Biteset N B where
  bytes :=
    if B = 8 then s.bytes.set i (value.setWidth 8)
    else
      setCellBits maxPieces s.bytes (value <<< (cellSize B - B)) (i * B) ((i + 1) * B) (i * B / 8)
  length_bytes := by
    split_ifs
    · exact List.length_set.trans s.length_bytes
    · exact (length_setCellBits _ _ _ _ _ _).trans s.length_bytes

end Biteset

end Eagine
