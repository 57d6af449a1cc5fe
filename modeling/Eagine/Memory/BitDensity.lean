import Eagine.Theory.BitString
import Mathlib.Tactic.NormNum

/-!
# Bit density

The bits of a sequence of bytes are regrouped into groups of fewer bits, and such groups
back into bytes, by shifting them through a register. The source is the sequence that
the getter produces; the putter may refuse what it is given, which ends the regrouping.
The register has the width of `double_byte`, which depends on the platform.
-/

namespace Eagine.BitDensity

open Theory List Nat
open BitVec (getLsbD_and getLsbD_setWidth ofNat)

variable {W : Nat} {σ : Type}

/-- The number of bits in a byte. -/
def byteBits : Nat :=
  8

/-- The number of bits in a group, as the regrouping asserts it. -/
structure GroupSize where
  bits : Nat
  one_le : 1 ≤ bits
  le_byteBits : bits ≤ byteBits

def dissolvedBitsLength (originalLength : Nat) (size : GroupSize) : Nat :=
  originalLength * byteBits / size.bits +
    if originalLength * byteBits % size.bits ≠ 0 then 1 else 0

def concentratedBitsLength (originalLength : Nat) (size : GroupSize) : Nat :=
  originalLength * size.bits / byteBits +
    if originalLength * size.bits % byteBits ≠ 0 then 1 else 0

/-- The groups that are complete are passed on. Every round takes bits from the `r` bits
in the register, so that there are no more than `r` rounds. -/
def push (put : BitVec 8 → StateM σ Bool) (size : GroupSize) (m : BitVec 8) (w : BitVec W) :
    Nat → Nat → StateM σ (Bool × Nat)
  | 0, r => pure (true, r)
  | rounds + 1, r =>
      if size.bits ≤ r then do
        let stored ← put ((w >>> (r - size.bits)).setWidth 8 &&& m)
        if stored then push put size m w rounds (r - size.bits) else pure (false, r)
      else pure (true, r)

/-- The loop of `do_dissolve_bits`. After a push there is less than a group in the
register, so that a byte is taken in every round. -/
def dissolveFrom (put : BitVec 8 → StateM σ Bool) (size : GroupSize) (m : BitVec 8) :
    BitVec W → Nat → List (BitVec 8) → StateM σ Bool
  | w, r, [] =>
      if 0 < r then put ((w <<< (size.bits - r)).setWidth 8 &&& m) else pure true
  | w, r, src :: rest => do
      let w := w <<< byteBits ||| src.setWidth W
      let (pushed, r) ← push put size m w (r + byteBits) (r + byteBits)
      if pushed then dissolveFrom put size m w r rest else pure false

def doDissolveBits (W : Nat) (put : BitVec 8 → StateM σ Bool) (size : GroupSize)
    (source : List (BitVec 8)) : StateM σ Bool :=
  dissolveFrom put size (ofNat 8 (2 ^ size.bits - 1)) (0 : BitVec W) 0 source

/-- The loops of `do_concentrate_bits`. There is less than a byte in the register before
a group is taken, so that at most one byte is put after it. -/
def concentrateFrom (put : BitVec 8 → StateM σ Bool) (size : GroupSize) (m : BitVec W) :
    BitVec W → Nat → List (BitVec 8) → StateM σ Bool
  | _, _, [] => pure true
  | w, r, src :: rest => do
      let w := w <<< size.bits
      let w := w &&& ~~~m ||| src.setWidth W &&& m
      let r := r + size.bits
      if byteBits ≤ r then
        let stored ← put ((w >>> (r - byteBits)).setWidth 8)
        if stored then concentrateFrom put size m w (r - byteBits) rest else pure false
      else concentrateFrom put size m w r rest

def doConcentrateBits (W : Nat) (put : BitVec 8 → StateM σ Bool) (size : GroupSize)
    (source : List (BitVec 8)) : StateM σ Bool :=
  concentrateFrom put size (ofNat W (2 ^ size.bits - 1)) (0 : BitVec W) 0 source

/-- The putter that accepts everything and keeps it. -/
def accept (b : BitVec 8) : StateM (List (BitVec 8)) Bool := fun out =>
  (true, out ++ [b])

@[simp]
theorem putter_bind_apply {α β : Type} (first : StateM σ α) (next : α → StateM σ β) (state : σ) :
    (first >>= next) state = next (first state).1 (first state).2 :=
  rfl

/-- The putter of `make_span_putter`, by the elements of the span that are set. -/
def putWithin (length : Nat) (b : BitVec 8) : StateM (List (BitVec 8)) Bool := fun out =>
  if out.length < length then (true, out ++ [b]) else (false, out)

section Preserving

variable {P : σ → Prop} {put : BitVec 8 → StateM σ Bool}
  (preserves : ∀ b state, P state → P (put b state).2)

include preserves

theorem push_preserves (size : GroupSize) (m : BitVec 8) (w : BitVec W) (rounds r : Nat)
    {state : σ} (holds : P state) : P (push put size m w rounds r state).2 := by
  induction rounds generalizing r state with
  | zero => exact holds
  | succ rounds ih =>
      rw [push]
      split
      · have stored := preserves ((w >>> (r - size.bits)).setWidth 8 &&& m) state holds
        rw [putter_bind_apply]
        split
        · exact ih _ stored
        · exact stored
      · exact holds

theorem dissolveFrom_preserves (size : GroupSize) (m : BitVec 8) (w : BitVec W) (r : Nat)
    (source : List (BitVec 8)) {state : σ} (holds : P state) :
    P (dissolveFrom put size m w r source state).2 := by
  induction source generalizing w r state with
  | nil =>
      rw [dissolveFrom]
      split
      · exact preserves _ _ holds
      · exact holds
  | cons src rest ih =>
      rw [dissolveFrom]
      have pushed := push_preserves preserves size m (w <<< byteBits ||| src.setWidth W)
        (r + byteBits) (r + byteBits) holds
      rw [putter_bind_apply]
      generalize push put size m (w <<< byteBits ||| src.setWidth W) (r + byteBits)
        (r + byteBits) state = result at pushed ⊢
      rcases result with ⟨⟨complete, left⟩, after⟩
      cases complete with
      | true => exact ih _ _ pushed
      | false => exact pushed

end Preserving

theorem getLsbD_mask (w n k : Nat) :
    (ofNat w (2 ^ n - 1)).getLsbD k = (decide (k < w) && decide (k < n)) := by
  rw [BitVec.getLsbD_ofNat, testBit_two_pow_sub_one]

/-- The lowest bits of a vector as a group. -/
theorem lowBits_masked {n : Nat} (x : BitVec W) (small : n ≤ 8) :
    lowBits n (x.setWidth 8 &&& ofNat 8 (2 ^ n - 1)) = lowBits n x := by
  rw [lowBits_eq_iff]
  intro k inside
  have inByte : k < 8 := by omega
  rw [getLsbD_and, getLsbD_mask, getLsbD_setWidth]
  simp [inside, inByte]

theorem masked_lt {n : Nat} (b : BitVec 8) (small : n ≤ 8) :
    (b &&& ofNat 8 (2 ^ n - 1)).toNat < 2 ^ n := by
  have fits : 2 ^ n - 1 < 2 ^ 8 :=
    lt_of_lt_of_le (Nat.sub_lt (Nat.two_pow_pos n) Nat.one_pos)
      (Nat.pow_le_pow_right (by decide) small)
  rw [BitVec.toNat_and, BitVec.toNat_ofNat, mod_eq_of_lt fits]
  exact lt_of_le_of_lt Nat.and_le_right (Nat.sub_lt (Nat.two_pow_pos n) Nat.one_pos)

/-- What is shifted in below a register that was shifted up is appended to its bits. -/
theorem lowBits_shifted {r n : Nat} (w src : BitVec W) (wide : r + n ≤ W) :
    let m := ofNat W (2 ^ n - 1)
    lowBits (r + n) (w <<< n &&& ~~~m ||| src &&& m) = lowBits r w ++ lowBits n src := by
  intro m
  have kept : w <<< n &&& ~~~m = w <<< n := by
    apply BitVec.eq_of_getLsbD_eq
    intro k inside
    rw [getLsbD_and, BitVec.getLsbD_not, getLsbD_mask, BitVec.getLsbD_shiftLeft]
    by_cases below : k < n <;> simp [below, inside]
  have low : lowBits n (src &&& m) = lowBits n src := by
    rw [lowBits_eq_iff]
    intro k inside
    have inWord : k < W := by omega
    rw [getLsbD_and, getLsbD_mask]
    simp [inside, inWord]
  rw [kept, lowBits_append w (src &&& m) wide, low]
  intro k above
  rw [getLsbD_and, getLsbD_mask]
  simp [not_lt.mpr above]

/-- A push takes all the groups that are complete from the front of the bits in the
register. -/
theorem push_accept (size : GroupSize) (w : BitVec W) (rounds r : Nat) (enough : r ≤ rounds)
    (out : List (BitVec 8)) :
    ∃ groups left,
      push accept size (ofNat 8 (2 ^ size.bits - 1)) w rounds r out =
        ((true, left), out ++ groups) ∧
      left < size.bits ∧ (∀ group ∈ groups, group.toNat < 2 ^ size.bits) ∧
      groups.flatMap (lowBits size.bits) ++ lowBits left w = lowBits r w := by
  have positive := size.one_le
  induction rounds generalizing r out with
  | zero =>
      obtain rfl := le_zero.mp enough
      exact ⟨[], 0, by rw [append_nil]; rfl, positive, by simp, rfl⟩
  | succ rounds ih =>
      by_cases complete : size.bits ≤ r
      · let group := (w >>> (r - size.bits)).setWidth 8 &&&
          ofNat 8 (2 ^ size.bits - 1)
        rcases ih (r - size.bits) (by omega) (out ++ [group]) with
          ⟨groups, left, run, less, small, bits⟩
        refine ⟨group :: groups, left, ?_, less, ?_, ?_⟩
        · rw [push, if_pos complete]
          rw [append_cons, ← run]
          rfl
        · intro other mem
          rcases mem_cons.mp mem with rfl | later
          · exact masked_lt _ size.le_byteBits
          · exact small other later
        · have split : size.bits + (r - size.bits) = r := by omega
          have parts := lowBits_add size.bits (r - size.bits) w
          rw [split] at parts
          rw [flatMap_cons, append_assoc, bits, parts,
            lowBits_masked _ size.le_byteBits]
      · refine ⟨[], r, ?_, by omega, by simp, rfl⟩
        rw [push, if_neg complete, append_nil]
        rfl

/-- The groups carry the bits of the register and of the bytes behind it, and less than
a group of zeros. -/
theorem dissolveFrom_accept (wide : 16 ≤ W) (size : GroupSize) (w : BitVec W) (r : Nat)
    (less : r < size.bits) (source out : List (BitVec 8)) :
    ∃ groups padding,
      dissolveFrom accept size (ofNat 8 (2 ^ size.bits - 1)) w r source out =
        (true, out ++ groups) ∧
      padding < size.bits ∧ (∀ group ∈ groups, group.toNat < 2 ^ size.bits) ∧
      groups.flatMap (lowBits size.bits) =
        lowBits r w ++ source.flatMap (lowBits byteBits) ++ List.replicate padding false := by
  have small := size.le_byteBits
  unfold byteBits at small
  induction source generalizing w r out with
  | nil =>
      by_cases pending : 0 < r
      · refine ⟨[(w <<< (size.bits - r)).setWidth 8 &&& ofNat 8 (2 ^ size.bits - 1)],
          size.bits - r, ?_, by omega, ?_, ?_⟩
        · rw [dissolveFrom, if_pos pending]
          rfl
        · intro group mem
          rw [mem_singleton.mp mem]
          exact masked_lt _ size.le_byteBits
        · have split : r + (size.bits - r) = size.bits := by omega
          have shifted := lowBits_shiftLeft (m := r) (n := size.bits - r) w (by omega)
          rw [split] at shifted
          rw [flatMap_singleton, lowBits_masked _ small, shifted, flatMap_nil,
            append_nil]
      · obtain rfl : r = 0 := by omega
        refine ⟨[], 0, ?_, size.one_le, by simp, rfl⟩
        rw [dissolveFrom, if_neg pending, append_nil]
        rfl
  | cons src rest ih =>
      have taken : lowBits (r + byteBits) (w <<< byteBits ||| src.setWidth W) =
          lowBits r w ++ lowBits byteBits src := by
        rw [lowBits_append w (src.setWidth W) (by unfold byteBits; omega)]
        · congr 1
          rw [lowBits_eq_iff]
          intro k inside
          unfold byteBits at inside
          have inWord : k < W := by omega
          rw [getLsbD_setWidth]
          simp [inWord]
        · intro k above
          rw [getLsbD_setWidth, BitVec.getLsbD_of_ge src k above, Bool.and_false]
      rcases push_accept size (w <<< byteBits ||| src.setWidth W) (r + byteBits) (r + byteBits)
          le_rfl out with ⟨groups, left, pushed, leftLess, groupsSmall, groupsBits⟩
      rcases ih (w <<< byteBits ||| src.setWidth W) left leftLess (out ++ groups) with
        ⟨others, padding, run, paddingLess, othersSmall, othersBits⟩
      refine ⟨groups ++ others, padding, ?_, paddingLess, ?_, ?_⟩
      · rw [← append_assoc, ← run, dissolveFrom]
        simp only [putter_bind_apply, pushed, if_true]
      · intro group mem
        rcases mem_append.mp mem with first | second
        · exact groupsSmall group first
        · exact othersSmall group second
      · rw [flatMap_append, othersBits, flatMap_cons]
        simp only [← append_assoc]
        rw [groupsBits, taken, append_assoc (lowBits r w)]

/-- The bytes carry the bits of the register and of the groups behind it, but for less
than a byte. -/
theorem concentrateFrom_accept (wide : 16 ≤ W) (size : GroupSize) (w : BitVec W) (r : Nat)
    (less : r < byteBits) (source out : List (BitVec 8)) :
    ∃ bytes left,
      concentrateFrom accept size (ofNat W (2 ^ size.bits - 1)) w r source out =
        (true, out ++ bytes) ∧
      left.length < byteBits ∧
      bytes.flatMap (lowBits byteBits) ++ left =
        lowBits r w ++ source.flatMap (lowBits size.bits) := by
  have small := size.le_byteBits
  unfold byteBits at small less
  induction source generalizing w r out with
  | nil =>
      refine ⟨[], lowBits r w, ?_, ?_, ?_⟩
      · rw [concentrateFrom, append_nil]
        rfl
      · rwa [length_lowBits]
      · rw [flatMap_nil, flatMap_nil, append_nil, nil_append]
  | cons src rest ih =>
      let w' := w <<< size.bits &&& ~~~ofNat W (2 ^ size.bits - 1) |||
        src.setWidth W &&& ofNat W (2 ^ size.bits - 1)
      have taken : lowBits (r + size.bits) w' = lowBits r w ++ lowBits size.bits src := by
        have low : lowBits size.bits (src.setWidth W) = lowBits size.bits src := by
          rw [lowBits_eq_iff]
          intro k inside
          have inWord : k < W := by omega
          rw [getLsbD_setWidth]
          simp [inWord]
        rw [lowBits_shifted w (src.setWidth W) (by omega), low]
      by_cases complete : byteBits ≤ r + size.bits
      · have complete' := complete
        unfold byteBits at complete'
        let byte := (w' >>> (r + size.bits - byteBits)).setWidth 8
        rcases ih w' (r + size.bits - byteBits) (by unfold byteBits; omega) (out ++ [byte]) with
          ⟨bytes, left, run, leftLess, bits⟩
        refine ⟨byte :: bytes, left, ?_, leftLess, ?_⟩
        · rw [append_cons, ← run, concentrateFrom]
          simp only [complete, if_true]
          rfl
        · have split : byteBits + (r + size.bits - byteBits) = r + size.bits := by
            unfold byteBits
            omega
          have parts := lowBits_add byteBits (r + size.bits - byteBits) w'
          rw [split, taken] at parts
          have byteBitsEq : lowBits byteBits byte =
              lowBits byteBits (w' >>> (r + size.bits - byteBits)) := by
            rw [lowBits_eq_iff]
            intro k inside
            rw [getLsbD_setWidth]
            unfold byteBits at inside
            simp [inside]
          rw [flatMap_cons, append_assoc, bits, byteBitsEq, ← append_assoc,
            ← parts, flatMap_cons, append_assoc]
      · rcases ih w' (r + size.bits) (by unfold byteBits at complete; omega) out with
          ⟨bytes, left, run, leftLess, bits⟩
        refine ⟨bytes, left, ?_, leftLess, ?_⟩
        · rw [← run, concentrateFrom]
          simp only [complete, if_false]
          rfl
        · rw [bits, taken, flatMap_cons, append_assoc]

/-- A span that has room for the bits in the register takes all the groups. -/
theorem push_putWithin {length : Nat} (size : GroupSize) (m : BitVec 8) (w : BitVec W)
    (rounds r : Nat) (out : List (BitVec 8))
    (room : out.length * size.bits + r ≤ length * size.bits) :
    push (putWithin length) size m w rounds r out = push accept size m w rounds r out := by
  induction rounds generalizing r out with
  | zero => rfl
  | succ rounds ih =>
      rw [push, push]
      by_cases complete : size.bits ≤ r
      · have less : (out.length + 1) * size.bits ≤ length * size.bits := by
          rw [succ_mul]
          omega
        have stored (b : BitVec 8) : putWithin length b out = (true, out ++ [b]) :=
          if_pos (le_of_mul_le_mul_right less size.one_le)
        simp only [if_pos complete, putter_bind_apply, stored, accept, if_true]
        apply ih
        rw [length_append, length_singleton, succ_mul]
        omega
      · simp only [if_neg complete]

/-- A span that has room for the bits takes all the groups, the last of them padded. -/
theorem dissolveFrom_putWithin {length : Nat} (size : GroupSize) (w : BitVec W) (r : Nat)
    (source out : List (BitVec 8))
    (room : out.length * size.bits + (r + source.length * byteBits) ≤ length * size.bits) :
    let m := ofNat 8 (2 ^ size.bits - 1)
    dissolveFrom (putWithin length) size m w r source out =
      dissolveFrom accept size m w r source out := by
  intro m
  induction source generalizing w r out with
  | nil =>
      rw [dissolveFrom, dissolveFrom]
      split
      · have less : out.length * size.bits < length * size.bits := by omega
        exact if_pos (Nat.lt_of_mul_lt_mul_right less)
      · rfl
  | cons src rest ih =>
      rw [length_cons, succ_mul] at room
      rcases push_accept size (w <<< byteBits ||| src.setWidth W) (r + byteBits) (r + byteBits)
          le_rfl out with ⟨groups, left, pushed, -, -, bits⟩
      have taken : groups.length * size.bits + left = r + byteBits := by
        simpa using congrArg List.length bits
      rw [dissolveFrom, dissolveFrom]
      simp only [putter_bind_apply]
      rw [push_putWithin size m _ _ _ out (by omega), pushed]
      apply ih
      rw [length_append, add_mul]
      change _ + (left + _) ≤ _
      omega

/-- A span that has room for the bits takes all the bytes. -/
theorem concentrateFrom_putWithin {length : Nat} (size : GroupSize) (m w : BitVec W) (r : Nat)
    (source out : List (BitVec 8))
    (room : out.length * byteBits + r + source.length * size.bits ≤ length * byteBits) :
    concentrateFrom (putWithin length) size m w r source out =
        concentrateFrom accept size m w r source out ∧
      (concentrateFrom accept size m w r source out).1 = true := by
  unfold byteBits at room
  induction source generalizing w r out with
  | nil => exact ⟨rfl, rfl⟩
  | cons src rest ih =>
      rw [length_cons, succ_mul] at room
      rw [concentrateFrom, concentrateFrom]
      by_cases complete : byteBits ≤ r + size.bits
      · have enough := complete
        unfold byteBits at enough
        have free : out.length < length := by omega
        have stored (b : BitVec 8) : putWithin length b out = (true, out ++ [b]) := if_pos free
        simp only [if_pos complete, putter_bind_apply, stored, accept, if_true]
        apply ih
        rw [length_append, length_singleton]
        unfold byteBits
        omega
      · simp only [if_neg complete]
        apply ih
        omega

/-- The bytes for a number of groups have room for all their bits. -/
theorem le_concentratedBitsLength (originalLength : Nat) (size : GroupSize) :
    originalLength * size.bits ≤ concentratedBitsLength originalLength size * byteBits := by
  rw [concentratedBitsLength]
  unfold byteBits
  split
  · omega
  · omega

/-- As many groups as carry all the bits, the last of them padded. -/
theorem eq_dissolvedBitsLength {size : GroupSize} {n groups padding : Nat}
    (total : groups * size.bits = n * byteBits + padding) (less : padding < size.bits) :
    groups = dissolvedBitsLength n size := by
  unfold dissolvedBitsLength
  rcases Nat.eq_zero_or_pos padding with rfl | padded
  · rw [← Nat.add_zero (n * byteBits), ← total, Nat.mul_div_cancel _ size.one_le,
      mul_mod_left]
    rfl
  · rcases exists_eq_add_one_of_ne_zero (n := groups) (by rintro rfl; omega) with
      ⟨others, rfl⟩
    have bits : n * byteBits = size.bits - padding + size.bits * others := by
      rw [succ_mul, mul_comm others] at total
      omega
    rw [bits, add_mul_div_left _ _ size.one_le, add_mul_mod_self_left,
      div_eq_of_lt (by omega), mod_eq_of_lt (by omega), if_pos (by omega), zero_add]

/-- Regrouping is lossless: the groups are as many as announced, each of them has the
bits it may have, and they are regrouped into the same bytes. -/
theorem doConcentrateBits_doDissolveBits (wide : 16 ≤ W) (size : GroupSize)
    (bytes : List (BitVec 8)) :
    ∃ groups, doDissolveBits W accept size bytes [] = (true, groups) ∧
      groups.length = dissolvedBitsLength bytes.length size ∧
      (∀ group ∈ groups, group.toNat < 2 ^ size.bits) ∧
      doConcentrateBits W accept size groups [] = (true, bytes) := by
  rcases dissolveFrom_accept wide size 0 0 size.one_le bytes [] with
    ⟨groups, padding, dissolved, paddingLess, small, bits⟩
  rcases concentrateFrom_accept wide size 0 0 (by decide) groups [] with
    ⟨restored, left, concentrated, leftLess, restoredBits⟩
  rw [lowBits, nil_append] at bits restoredBits
  refine ⟨groups, dissolved, ?_, small, ?_⟩
  · have lengths := congrArg List.length bits
    have total : groups.length * size.bits = bytes.length * byteBits + padding := by
      simpa using lengths
    exact eq_dissolvedBitsLength total paddingLess
  · have padded : (List.replicate padding false).length < byteBits := by
      rw [length_replicate]
      exact lt_of_lt_of_le paddingLess size.le_byteBits
    have same : restored = bytes :=
      eq_of_flatMap_lowBits (restoredBits.trans bits) leftLess padded
    rw [doConcentrateBits, concentrated, same, nil_append]

def fiveBits : GroupSize :=
  ⟨5, by decide, by decide⟩

/-- Groups of five bits on a platform with a register of 16 bits. -/
theorem doConcentrateBits_doDissolveBits_five :
    ∃ groups, doDissolveBits 16 accept fiveBits [0xA7#8, 0x01#8] [] = (true, groups) ∧
      groups.length = 4 ∧ (∀ group ∈ groups, group.toNat < 2 ^ 5) ∧
      doConcentrateBits 16 accept fiveBits groups [] = (true, [0xA7#8, 0x01#8]) :=
  doConcentrateBits_doDissolveBits le_rfl fiveBits [0xA7#8, 0x01#8]

example : (doDissolveBits 16 accept fiveBits [0xA7#8, 0x01#8] []).2 =
    [0x14#8, 0x1C#8, 0x00#8, 0x10#8] := by
  decide

end Eagine.BitDensity
