import Eagine.Theory.SortingNetwork

/-!
# Bitonic networks

A row of a bitonic network compares the elements whose indices differ in one bit. It is
cut to the number of elements: those that would be compared with one past the end are
kept. The stage of a power of two sorts all the blocks of that size that are whole, in
alternating directions.
-/

/-!
## Bitonic sequences of truth values

The true elements of a bitonic sequence form an interval, or the false ones do. If the
elements of its halves are compared, then one of the halves is constant and the other
one is bitonic, so that it is sorted by comparing the halves of the halves.
-/

namespace Theory

variable {n : Nat} {g : Nat → Bool}

/-- The elements below `n` that are in an interval, or those that are not. -/
def Bitonic (n : Nat) (g : Nat → Bool) : Prop :=
  ∃ (c : Bool) (p q : Nat), ∀ i < n, g i = (decide (p ≤ i ∧ i < q) ^^ c)

/-- The elements below `n` from some one on. -/
def Ascending (n : Nat) (g : Nat → Bool) : Prop :=
  ∃ p, ∀ i < n, g i = decide (p ≤ i)

def lowHalf (n : Nat) (g : Nat → Bool) (i : Nat) : Bool :=
  g i && g (n + i)

def highHalf (n : Nat) (g : Nat → Bool) (i : Nat) : Bool :=
  g i || g (n + i)

/-- Compares the halves, and then those of the halves. -/
def merge : Nat → (Nat → Bool) → Nat → Bool
  | 0, g, i => g i
  | s + 1, g, i =>
      if i < 2 ^ s then merge s (lowHalf (2 ^ s) g) i
      else merge s (highHalf (2 ^ s) g) (i - 2 ^ s)

section Interval

variable {p q : Nat}

theorem bitonic_inter (n p q : Nat) :
    Bitonic n fun i => decide (p ≤ i ∧ i < q) && decide (p ≤ n + i ∧ n + i < q) := by
  simp only [← Bool.decide_and]
  refine ⟨false, p, q - n, fun i inside => ?_⟩
  rw [Bool.xor_false, decide_eq_decide]
  omega

theorem bitonic_union (n p q : Nat) :
    Bitonic n fun i => decide (p ≤ i ∧ i < q) || decide (p ≤ n + i ∧ n + i < q) := by
  simp only [← Bool.decide_or]
  by_cases first : q ≤ n
  · refine ⟨false, p, q, fun i inside => ?_⟩
    rw [Bool.xor_false, decide_eq_decide]
    omega
  · by_cases second : n ≤ p
    · refine ⟨false, p - n, q - n, fun i inside => ?_⟩
      rw [Bool.xor_false, decide_eq_decide]
      omega
    · by_cases overlap : p ≤ q - n
      · refine ⟨false, 0, n, fun i inside => ?_⟩
        rw [Bool.xor_false, decide_eq_decide]
        omega
      · refine ⟨true, q - n, p, fun i inside => ?_⟩
        rw [Bool.xor_true, ← decide_not, decide_eq_decide]
        omega

/-- If both halves have an element in the interval at one position, then one of them has
at every position. -/
theorem inter_or_union (n p q : Nat) :
    (∀ i < n, (decide (p ≤ i ∧ i < q) && decide (p ≤ n + i ∧ n + i < q)) = false) ∨
      ∀ i < n, (decide (p ≤ i ∧ i < q) || decide (p ≤ n + i ∧ n + i < q)) = true := by
  by_cases wide : p + n < q ∧ p < n
  · right
    intro i inside
    rw [← Bool.decide_or, decide_eq_true_iff]
    omega
  · left
    intro i inside
    rw [← Bool.decide_and, decide_eq_false_iff_not]
    omega

end Interval

variable {h : Nat → Bool}

theorem Bitonic.congr (bitonic : Bitonic n g) (same : ∀ i < n, h i = g i) :
    Bitonic n h := by
  obtain ⟨c, p, q, value⟩ := bitonic
  exact ⟨c, p, q, fun i inside => (same i inside).trans (value i inside)⟩

theorem Bitonic.not (bitonic : Bitonic n g) : Bitonic n fun i => !g i := by
  obtain ⟨c, p, q, value⟩ := bitonic
  refine ⟨!c, p, q, fun i inside => ?_⟩
  simp only [value i inside, Bool.xor_not]

/-- Both halves are bitonic, and one of them is constant. -/
theorem Bitonic.halves (bitonic : Bitonic (n + n) g) :
    Bitonic n (lowHalf n g) ∧ Bitonic n (highHalf n g) ∧
      ((∀ i < n, lowHalf n g i = false) ∨ ∀ i < n, highHalf n g i = true) := by
  obtain ⟨c, p, q, value⟩ := bitonic
  have first (i : Nat) (inside : i < n) := value i (Nat.lt_add_right n inside)
  have second (i : Nat) (inside : i < n) := value (n + i) (Nat.add_lt_add_left inside n)
  cases c with
  | false =>
      simp only [Bool.xor_false] at first second
      have low (i : Nat) (inside : i < n) : lowHalf n g i =
          (decide (p ≤ i ∧ i < q) && decide (p ≤ n + i ∧ n + i < q)) := by
        rw [lowHalf, first i inside, second i inside]
      have high (i : Nat) (inside : i < n) : highHalf n g i =
          (decide (p ≤ i ∧ i < q) || decide (p ≤ n + i ∧ n + i < q)) := by
        rw [highHalf, first i inside, second i inside]
      refine ⟨(bitonic_inter n p q).congr low, (bitonic_union n p q).congr high, ?_⟩
      exact (inter_or_union n p q).imp (fun none i inside => (low i inside).trans (none i inside))
        fun all i inside => (high i inside).trans (all i inside)
  | true =>
      -- the complement of the lower half is the union of the false elements
      simp only [Bool.xor_true] at first second
      have low (i : Nat) (inside : i < n) : lowHalf n g i =
          !(decide (p ≤ i ∧ i < q) || decide (p ≤ n + i ∧ n + i < q)) := by
        rw [lowHalf, first i inside, second i inside, Bool.not_or]
      have high (i : Nat) (inside : i < n) : highHalf n g i =
          !(decide (p ≤ i ∧ i < q) && decide (p ≤ n + i ∧ n + i < q)) := by
        rw [highHalf, first i inside, second i inside, Bool.not_and]
      refine ⟨(bitonic_union n p q).not.congr low, (bitonic_inter n p q).not.congr high, ?_⟩
      refine (inter_or_union n p q).symm.imp (fun all i inside => ?_) fun none i inside => ?_
      · rw [low i inside, all i inside]
        rfl
      · rw [high i inside, none i inside]
        rfl

theorem Bitonic.xor (bitonic : Bitonic n g) (c : Bool) : Bitonic n fun i => g i ^^ c := by
  cases c with
  | false => exact bitonic.congr fun i _ => Bool.xor_false (g i)
  | true => exact bitonic.not.congr fun i _ => Bool.xor_true (g i)

theorem merge_congr {s : Nat} (same : ∀ i < 2 ^ s, g i = h i) :
    ∀ i < 2 ^ s, merge s g i = merge s h i := by
  induction s generalizing g h with
  | zero => exact same
  | succ s ih =>
      intro i inside
      rw [Nat.two_pow_succ] at inside same
      have lower (i : Nat) (inside : i < 2 ^ s) := same i (Nat.lt_add_right _ inside)
      have upper (i : Nat) (inside : i < 2 ^ s) := same _ (Nat.add_lt_add_left inside (2 ^ s))
      rw [merge, merge]
      split_ifs with first
      · refine ih (fun j inside => ?_) i first
        rw [lowHalf, lowHalf, lower j inside, upper j inside]
      · refine ih (fun j inside => ?_) _ (by omega)
        rw [highHalf, highHalf, lower j inside, upper j inside]

theorem merge_of_const {s : Nat} {c : Bool} (const : ∀ i < 2 ^ s, g i = c) :
    ∀ i < 2 ^ s, merge s g i = c := by
  induction s generalizing g with
  | zero => exact const
  | succ s ih =>
      intro i inside
      rw [Nat.two_pow_succ] at inside const
      have lower (i : Nat) (inside : i < 2 ^ s) : g i = c := const i (Nat.lt_add_right _ inside)
      have upper (i : Nat) (inside : i < 2 ^ s) : g (2 ^ s + i) = c :=
        const _ (Nat.add_lt_add_left inside _)
      rw [merge]
      split_ifs with first
      · refine ih (fun j inside => ?_) i first
        rw [lowHalf, lower j inside, upper j inside, Bool.and_self]
      · refine ih (fun j inside => ?_) _ (by omega)
        rw [highHalf, lower j inside, upper j inside, Bool.or_self]

theorem Ascending.congr (ascending : Ascending n g)
    (same : ∀ i < n, h i = g i) : Ascending n h := by
  obtain ⟨p, value⟩ := ascending
  exact ⟨p, fun i inside => (same i inside).trans (value i inside)⟩

theorem ascending_one (g : Nat → Bool) : Ascending 1 g := by
  refine ⟨if g 0 then 0 else 1, fun i inside => ?_⟩
  obtain rfl : i = 0 := Nat.lt_one_iff.mp inside
  cases g 0 <;> rfl

/-- Merging sorts a bitonic sequence. -/
theorem Bitonic.ascending_merge {s : Nat} (bitonic : Bitonic (2 ^ s) g) :
    Ascending (2 ^ s) (merge s g) := by
  induction s generalizing g with
  | zero => exact ascending_one _
  | succ s ih =>
      rw [Nat.two_pow_succ] at bitonic
      obtain ⟨low, high, constant⟩ := bitonic.halves
      rcases constant with zeros | ones
      · obtain ⟨p, value⟩ := ih high
        refine ⟨2 ^ s + p, fun i inside => ?_⟩
        rw [Nat.two_pow_succ] at inside
        rw [merge]
        split_ifs with first
        · rw [merge_of_const zeros i first, decide_eq_false (by omega)]
        · rw [value _ (by omega), decide_eq_decide]
          omega
      · obtain ⟨p, value⟩ := ih low
        refine ⟨min p (2 ^ s), fun i inside => ?_⟩
        rw [Nat.two_pow_succ] at inside
        rw [merge]
        split_ifs with first
        · rw [value i first, decide_eq_decide]
          omega
        · rw [merge_of_const ones _ (by omega), decide_eq_true (by omega)]

/-- An ascending sequence and a descending one after it are bitonic. -/
theorem Ascending.bitonic (first : Ascending n g) (second : Ascending n fun i => !g (n + i)) :
    Bitonic (n + n) g := by
  obtain ⟨p, lower⟩ := first
  obtain ⟨q, upper⟩ := second
  refine ⟨false, min p n, n + q, fun i inside => ?_⟩
  rw [Bool.xor_false]
  by_cases before : i < n
  · rw [lower i before, decide_eq_decide]
    omega
  · have value : (!g (n + (i - n))) = decide (q ≤ i - n) := upper (i - n) (by omega)
    have split : n + (i - n) = i := by omega
    rw [split] at value
    rw [← Bool.not_not (g i), value, ← decide_not, decide_eq_decide]
    omega

end Theory

namespace Theory

section Pairs

variable {s c r : Nat}

theorem exists_pair (s i : Nat) :
    ∃ c r, r < 2 ^ s ∧ (i = 2 ^ (s + 1) * c + r ∨ i = 2 ^ (s + 1) * c + (2 ^ s + r)) := by
  have split := Nat.div_add_mod i (2 ^ (s + 1))
  have inside := Nat.mod_lt i (Nat.two_pow_pos (s + 1))
  rw [Nat.two_pow_succ] at inside
  by_cases lower : i % 2 ^ (s + 1) < 2 ^ s
  · exact ⟨i / 2 ^ (s + 1), i % 2 ^ (s + 1), lower, Or.inl split.symm⟩
  · refine ⟨i / 2 ^ (s + 1), i % 2 ^ (s + 1) - 2 ^ s, by omega, Or.inr ?_⟩
    rw [Nat.add_sub_cancel' (Nat.le_of_not_lt lower), split]

theorem lower_lt (inside : r < 2 ^ s) : r < 2 ^ (s + 1) :=
  inside.trans (Nat.pow_lt_pow_succ Nat.one_lt_two)

theorem upper_lt (inside : r < 2 ^ s) : 2 ^ s + r < 2 ^ (s + 1) := by
  rw [Nat.two_pow_succ]
  exact Nat.add_lt_add_left inside _

theorem testBit_lower (inside : r < 2 ^ s) : (2 ^ (s + 1) * c + r).testBit s = false := by
  rw [Nat.testBit_two_pow_mul_add c (lower_lt inside), if_pos (Nat.lt_succ_self s)]
  exact Nat.testBit_lt_two_pow inside

theorem testBit_upper (inside : r < 2 ^ s) :
    (2 ^ (s + 1) * c + (2 ^ s + r)).testBit s = true := by
  rw [Nat.testBit_two_pow_mul_add c (upper_lt inside), if_pos (Nat.lt_succ_self s),
    Nat.testBit_two_pow_add_eq, Nat.testBit_lt_two_pow inside]
  rfl

/-- The bits above those of a block are the bits of the number of the block. -/
theorem testBit_above (k : Nat) (inside : r < 2 ^ s) (above : s ≤ k) :
    (2 ^ s * c + r).testBit k = c.testBit (k - s) := by
  rw [Nat.testBit_two_pow_mul_add c inside, if_neg (Nat.not_lt.mpr above)]

/-- The first half of a block is the block of half the size with the double number. -/
theorem two_pow_mul_even (s c : Nat) : 2 ^ s * (2 * c) = 2 ^ (s + 1) * c := by
  rw [← Nat.mul_assoc, ← Nat.pow_succ]

theorem two_pow_mul_odd (s c : Nat) : 2 ^ s * (2 * c + 1) = 2 ^ (s + 1) * c + 2 ^ s := by
  rw [Nat.mul_add, Nat.mul_one, two_pow_mul_even]

end Pairs

/-- The index with the other bit, if both are indices of elements. -/
def mate (N s i : Nat) : Nat :=
  let j := if i.testBit s then i - 2 ^ s else i + 2 ^ s
  if i < N ∧ j < N then j else i

section Mates

variable {N s c r : Nat}

theorem mate_lower (inside : r < 2 ^ s) (within : 2 ^ (s + 1) * c + (2 ^ s + r) < N) :
    mate N s (2 ^ (s + 1) * c + r) = 2 ^ (s + 1) * c + (2 ^ s + r) := by
  have sum : 2 ^ (s + 1) * c + r + 2 ^ s = 2 ^ (s + 1) * c + (2 ^ s + r) := by omega
  simp only [mate, testBit_lower inside, Bool.false_eq_true, if_false, sum]
  exact if_pos ⟨by omega, within⟩

theorem mate_upper (inside : r < 2 ^ s) (within : 2 ^ (s + 1) * c + (2 ^ s + r) < N) :
    mate N s (2 ^ (s + 1) * c + (2 ^ s + r)) = 2 ^ (s + 1) * c + r := by
  have difference : 2 ^ (s + 1) * c + (2 ^ s + r) - 2 ^ s = 2 ^ (s + 1) * c + r := by omega
  simp only [mate, testBit_upper inside, if_true, difference]
  exact if_pos ⟨within, by omega⟩

theorem mate_past (inside : r < 2 ^ s) (past : N ≤ 2 ^ (s + 1) * c + (2 ^ s + r)) :
    mate N s (2 ^ (s + 1) * c + r) = 2 ^ (s + 1) * c + r ∧
      mate N s (2 ^ (s + 1) * c + (2 ^ s + r)) = 2 ^ (s + 1) * c + (2 ^ s + r) := by
  constructor
  · have sum : 2 ^ (s + 1) * c + r + 2 ^ s = 2 ^ (s + 1) * c + (2 ^ s + r) := by omega
    simp only [mate, testBit_lower inside, Bool.false_eq_true, if_false, sum]
    exact if_neg fun both => Nat.not_lt.mpr past both.2
  · simp only [mate]
    exact if_neg fun both => Nat.not_lt.mpr past both.1

/-- The mate of the mate is the element, and they are in the same block. -/
theorem mate_mate (N s i : Nat) :
    mate N s (mate N s i) = i ∧ ∀ k, s < k → (mate N s i).testBit k = i.testBit k := by
  obtain ⟨c, r, inside, place⟩ := exists_pair s i
  have same (k : Nat) (above : s < k) : (2 ^ (s + 1) * c + r).testBit k =
      (2 ^ (s + 1) * c + (2 ^ s + r)).testBit k := by
    rw [testBit_above k (lower_lt inside) above, testBit_above k (upper_lt inside) above]
  by_cases within : 2 ^ (s + 1) * c + (2 ^ s + r) < N
  · rcases place with rfl | rfl
    · rw [mate_lower inside within, mate_upper inside within]
      exact ⟨rfl, fun k above => (same k above).symm⟩
    · rw [mate_upper inside within, mate_lower inside within]
      exact ⟨rfl, same⟩
  · obtain ⟨lower, upper⟩ := mate_past inside (Nat.le_of_not_lt within)
    rcases place with rfl | rfl
    · rw [lower, lower]
      exact ⟨rfl, fun _ _ => rfl⟩
    · rw [upper, upper]
      exact ⟨rfl, fun _ _ => rfl⟩

end Mates

/-- Compares the mates in the direction of the block that has the bit. -/
def rowRound (N k s : Nat) : SortingRound Nat :=
  SortingRound.compare (mate N s) fun i => i.testBit (k + 1)

theorem balanced_rowRound {k s : Nat} (N : Nat) (below : s ≤ k) :
    (rowRound N k s).Balanced := by
  apply SortingRound.balanced_compare
  · exact fun i => (mate_mate N s i).1
  · exact fun i => (mate_mate N s i).2 (k + 1) (Nat.lt_succ_of_le below)

section Rows

variable {N k s c r : Nat} (g : Nat → Bool)

/-- The truth values are those relative to the direction. -/
theorem apply_rowRound (below : s ≤ k) (inside : r < 2 ^ s)
    (within : 2 ^ (s + 1) * c + (2 ^ s + r) < N) :
    ((rowRound N k s).apply g (2 ^ (s + 1) * c + r) ^^ c.testBit (k - s)) =
        ((g (2 ^ (s + 1) * c + r) ^^ c.testBit (k - s)) &&
          (g (2 ^ (s + 1) * c + (2 ^ s + r)) ^^ c.testBit (k - s))) ∧
      ((rowRound N k s).apply g (2 ^ (s + 1) * c + (2 ^ s + r)) ^^ c.testBit (k - s)) =
        ((g (2 ^ (s + 1) * c + r) ^^ c.testBit (k - s)) ||
          (g (2 ^ (s + 1) * c + (2 ^ s + r)) ^^ c.testBit (k - s))) := by
  have less : 2 ^ (s + 1) * c + r < 2 ^ (s + 1) * c + (2 ^ s + r) := by
    have positive := Nat.two_pow_pos s
    omega
  have above : s + 1 ≤ k + 1 := Nat.succ_le_succ below
  simp only [SortingRound.apply, rowRound, SortingRound.compare, mate_lower inside within,
    mate_upper inside within, testBit_above _ (lower_lt inside) above,
    testBit_above _ (upper_lt inside) above, Nat.add_sub_add_right, less, less.not_gt,
    decide_true, decide_false]
  generalize g (2 ^ (s + 1) * c + r) = x
  generalize g (2 ^ (s + 1) * c + (2 ^ s + r)) = y
  generalize c.testBit (k - s) = direction
  revert x y direction
  decide

theorem apply_rowRound_past (inside : r < 2 ^ s)
    (past : N ≤ 2 ^ (s + 1) * c + (2 ^ s + r)) :
    (rowRound N k s).apply g (2 ^ (s + 1) * c + r) = g (2 ^ (s + 1) * c + r) ∧
      (rowRound N k s).apply g (2 ^ (s + 1) * c + (2 ^ s + r)) =
        g (2 ^ (s + 1) * c + (2 ^ s + r)) := by
  obtain ⟨lower, upper⟩ := mate_past inside past
  simp only [SortingRound.apply, rowRound, SortingRound.compare, lower, upper, lt_irrefl,
    decide_false, ite_self, Bool.false_eq_true, if_false, and_self]

end Rows

/-- The rows that merge the blocks of a size. -/
def mergeRounds (N k : Nat) : Nat → List (SortingRound Nat)
  | 0 => []
  | t + 1 => rowRound N k t :: mergeRounds N k t

/-- The stages from the least blocks on. -/
def bitonicRounds (N : Nat) : Nat → List (SortingRound Nat)
  | 0 => []
  | k + 1 => bitonicRounds N k ++ mergeRounds N k (k + 1)

/-- The rows merge every block that is whole, in its direction. -/
theorem runRounds_mergeRounds {N k t : Nat} (below : t ≤ k + 1) {c : Nat}
    (within : 2 ^ t * c + 2 ^ t ≤ N) (g : Nat → Bool) :
    ∀ i < 2 ^ t, (runRounds (mergeRounds N k t) g (2 ^ t * c + i) ^^ c.testBit (k + 1 - t)) =
      merge t (fun i => g (2 ^ t * c + i) ^^ c.testBit (k + 1 - t)) i := by
  induction t generalizing c g with
  | zero => exact fun i _ => rfl
  | succ t ih =>
      have below' := Nat.le_of_succ_le below
      have row := Nat.le_of_succ_le_succ below
      have first := two_pow_mul_even t c
      have second := two_pow_mul_odd t c
      have double := Nat.two_pow_succ t
      have index : k + 1 - t = k - t + 1 := Nat.succ_sub row
      have lowDirection : (2 * c).testBit (k + 1 - t) = c.testBit (k - t) := by
        rw [index, Nat.testBit_add_one, Nat.mul_div_cancel_left c Nat.two_pos]
      have highDirection : (2 * c + 1).testBit (k + 1 - t) = c.testBit (k - t) := by
        rw [index, Nat.testBit_add_one]
        congr 1
        omega
      have cleaned (j : Nat) (inside : j < 2 ^ t) :=
        @apply_rowRound N k t c j g row inside (by omega)
      intro i inside
      rw [mergeRounds, runRounds_cons, Nat.add_sub_add_right, merge]
      split_ifs with lower
      · have block := ih below' (c := 2 * c) (by omega) ((rowRound N k t).apply g) i lower
        rw [first, lowDirection] at block
        rw [block]
        exact merge_congr (fun j inside => (cleaned j inside).1) i lower
      · have block := ih below' (c := 2 * c + 1) (by omega) ((rowRound N k t).apply g)
          (i - 2 ^ t) (by omega)
        rw [second, highDirection, Nat.add_assoc,
          Nat.add_sub_cancel' (Nat.le_of_not_lt lower)] at block
        rw [block]
        refine merge_congr (fun j inside => ?_) _ (by omega)
        rw [Nat.add_assoc]
        exact (cleaned j inside).2

/-- The stages sort the blocks that are whole, every other one inversely. -/
theorem ascending_bitonicRounds {N k c : Nat} (within : 2 ^ k * c + 2 ^ k ≤ N)
    (g : Nat → Bool) :
    Ascending (2 ^ k) fun i =>
      runRounds (bitonicRounds N k) g (2 ^ k * c + i) ^^ c.testBit 0 := by
  induction k generalizing c with
  | zero => exact ascending_one _
  | succ k ih =>
      have first := two_pow_mul_even k c
      have second := two_pow_mul_odd k c
      have double := Nat.two_pow_succ k
      have positive := Nat.two_pow_pos k
      have lower := ih (c := 2 * c) (by omega)
      have upper := ih (c := 2 * c + 1) (by omega)
      have even : (2 * c).testBit 0 = false := by simp
      have odd : (2 * c + 1).testBit 0 = true := by simp
      simp only [first, second, even, odd, Bool.xor_false, Bool.xor_true, Nat.add_assoc]
        at lower upper
      have bitonic := lower.bitonic upper
      rw [← double] at bitonic
      refine (bitonic.xor (c.testBit 0)).ascending_merge.congr fun i inside => ?_
      have merged := runRounds_mergeRounds le_rfl within (runRounds (bitonicRounds N k) g) i inside
      rw [Nat.sub_self] at merged
      rw [bitonicRounds, runRounds_append]
      exact merged

/-! ## Networks that are cut

If the number of elements is between two powers of two, then the last stage compares the
elements of the first block with some of those after it only, and moves true ones from
the front of the block to its end although there are false ones after it.
-/

section Cut

variable {N K k s : Nat} {g : Nat → Bool}

/-- A row whose mates are in order keeps the elements. -/
theorem rowRound_eq_self (below : s ≤ k)
    (ordered : ∀ c r, r < 2 ^ s → 2 ^ (s + 1) * c + (2 ^ s + r) < N →
      (g (2 ^ (s + 1) * c + r) ^^ c.testBit (k - s)) ≤
        (g (2 ^ (s + 1) * c + (2 ^ s + r)) ^^ c.testBit (k - s))) :
    (rowRound N k s).apply g = g := by
  funext i
  obtain ⟨c, r, inside, place⟩ := exists_pair s i
  by_cases within : 2 ^ (s + 1) * c + (2 ^ s + r) < N
  · have order := ordered c r inside within
    obtain ⟨lower, upper⟩ := apply_rowRound g below inside within
    rcases place with rfl | rfl
    · rw [← Bool.xor_left_inj, lower, ← Bool.min_eq_and]
      exact min_eq_left order
    · rw [← Bool.xor_left_inj, upper, ← Bool.max_eq_or]
      exact max_eq_right order
  · obtain ⟨lower, upper⟩ := @apply_rowRound_past N k s c r g inside (Nat.le_of_not_lt within)
    rcases place with rfl | rfl
    · exact lower
    · exact upper

theorem mergeRounds_eq_self {t : Nat} (kept : ∀ s < t, (rowRound N k s).apply g = g) :
    runRounds (mergeRounds N k t) g = g := by
  induction t with
  | zero => rfl
  | succ t ih =>
      rw [mergeRounds, runRounds_cons, kept t (Nat.lt_succ_self t)]
      exact ih fun s below => kept s (Nat.lt_succ_of_lt below)

/-- The mates of a row are on the same side of a block that is not less than those of the
row. -/
theorem lt_block_iff {c r : Nat} (less : s < K) (inside : r < 2 ^ s) :
    2 ^ (s + 1) * c + r < 2 ^ K ↔ 2 ^ (s + 1) * c + (2 ^ s + r) < 2 ^ K := by
  obtain ⟨e, rfl⟩ := Nat.exists_eq_add_of_le (Nat.succ_le_of_lt less)
  rw [Nat.succ_eq_add_one, Nat.pow_add 2 (s + 1) e]
  have bound := lower_lt inside
  have bound' := upper_lt inside
  constructor
  · intro before
    have number : c < 2 ^ e :=
      Nat.lt_of_mul_lt_mul_left (Nat.lt_of_le_of_lt (Nat.le_add_right ..) before)
    calc
      _ < 2 ^ (s + 1) * (c + 1) := by rw [Nat.mul_succ]; omega
      _ ≤ 2 ^ (s + 1) * 2 ^ e := Nat.mul_le_mul_left _ number
  · omega

/-- All elements of the first block but the first one. -/
def allButFirst (K i : Nat) : Bool :=
  decide (1 ≤ i ∧ i < 2 ^ K)

/-- What becomes of them in the last stage. -/
def cutResult (N K i : Nat) : Bool :=
  if i < 2 ^ K then decide (1 ≤ i ∧ N ≤ 2 ^ K + i) else decide (2 ^ K + 1 ≤ i ∧ i < N)

theorem rowRound_allButFirst (below : s ≤ k) (less : s < K) :
    (rowRound N k s).apply (allButFirst K) = allButFirst K := by
  apply rowRound_eq_self below
  intro c r inside within
  have side := @lt_block_iff K s c r less inside
  by_cases first : 2 ^ (s + 1) * c + r = 0
  · have positive := Nat.two_pow_pos (s + 1)
    have zero : c = 0 := by
      rcases Nat.mul_eq_zero.mp (Nat.eq_zero_of_add_eq_zero first).1 with absurd | zero
      · omega
      · exact zero
    have least : allButFirst K (2 ^ (s + 1) * c + r) = false := by
      rw [first]
      rfl
    rw [least, zero, Nat.zero_testBit]
    exact Bool.false_le _
  · have same : allButFirst K (2 ^ (s + 1) * c + r) =
        allButFirst K (2 ^ (s + 1) * c + (2 ^ s + r)) := by
      rw [allButFirst, allButFirst, decide_eq_decide, side]
      omega
    rw [same]

theorem rowRound_last (above : 2 ^ K < N) (below : N < 2 ^ (K + 1)) :
    (rowRound N K K).apply (allButFirst K) = cutResult N K := by
  funext i
  have double := Nat.two_pow_succ K
  obtain ⟨c, r, inside, place⟩ := exists_pair K i
  -- there are only elements in the first of the blocks of twice the size
  have first : c = 0 ∨ N ≤ 2 ^ (K + 1) * c := by
    apply (Nat.eq_zero_or_pos c).imp_right
    intro later
    exact below.le.trans (Nat.le_mul_of_pos_right _ later)
  by_cases within : 2 ^ (K + 1) * c + (2 ^ K + r) < N
  · obtain rfl : c = 0 := first.resolve_right (by omega)
    obtain ⟨lower, upper⟩ := apply_rowRound (allButFirst K) le_rfl inside within
    simp only [Nat.mul_zero, Nat.zero_add, Nat.zero_testBit, Bool.xor_false]
      at place within lower upper
    have past : allButFirst K (2 ^ K + r) = false := decide_eq_false (by omega)
    rw [past] at lower upper
    rcases place with rfl | rfl
    · rw [lower, Bool.and_false, cutResult, if_pos inside]
      exact (decide_eq_false (by omega)).symm
    · rw [upper, Bool.or_false, cutResult, if_neg (by omega), allButFirst, decide_eq_decide]
      omega
  · have past := Nat.le_of_not_lt within
    obtain ⟨lower, upper⟩ := @apply_rowRound_past N K K c r (allButFirst K) inside past
    have kept : (rowRound N K K).apply (allButFirst K) i = allButFirst K i := by
      rcases place with rfl | rfl
      · exact lower
      · exact upper
    rw [kept, allButFirst, cutResult]
    split_ifs with before
    · obtain rfl : c = 0 := first.resolve_right (by omega)
      rw [decide_eq_decide]
      omega
    · rw [decide_eq_decide]
      rcases first with rfl | later
      · omega
      · omega

theorem rowRound_cutResult (below : N < 2 ^ (K + 1)) (less : s < K) :
    (rowRound N K s).apply (cutResult N K) = cutResult N K := by
  apply rowRound_eq_self less.le
  intro c r inside within
  have side := @lt_block_iff K s c r less inside
  have direction : c.testBit (K - s) = false := by
    have bit := @testBit_above (s + 1) c r (K + 1) (lower_lt inside) (by omega)
    rw [Nat.add_sub_add_right] at bit
    rw [← bit]
    exact Nat.testBit_lt_two_pow (by omega)
  rw [direction, Bool.xor_false, Bool.xor_false, Bool.le_iff_imp]
  simp only [cutResult, side]
  split_ifs with before
  · simp only [decide_eq_true_iff]
    omega
  · simp only [decide_eq_true_iff]
    omega

/-- The last element of the first block is true, and the first one after it is false. -/
theorem bitonicRounds_cut (above : 2 ^ K < N) (below : N < 2 ^ (K + 1)) :
    runRounds (bitonicRounds N (K + 1)) (allButFirst K) (2 ^ K - 1) = true ∧
      runRounds (bitonicRounds N (K + 1)) (allButFirst K) (2 ^ K) = false := by
  have stages (k : Nat) (upTo : k ≤ K) :
      runRounds (bitonicRounds N k) (allButFirst K) = allButFirst K := by
    induction k with
    | zero => rfl
    | succ k ih =>
        rw [bitonicRounds, runRounds_append, ih (Nat.le_of_succ_le upTo)]
        apply mergeRounds_eq_self
        intro s less
        exact rowRound_allButFirst (Nat.le_of_lt_succ less) (Nat.lt_of_lt_of_le less upTo)
  have last : runRounds (bitonicRounds N (K + 1)) (allButFirst K) = cutResult N K := by
    rw [bitonicRounds, runRounds_append, stages K le_rfl, mergeRounds, runRounds_cons,
      rowRound_last above below]
    exact mergeRounds_eq_self fun s less => rowRound_cutResult below less
  have double := Nat.two_pow_succ K
  rw [last, cutResult, cutResult, if_pos (by omega), if_neg (lt_irrefl _)]
  exact ⟨decide_eq_true (by omega), decide_eq_false (by omega)⟩

end Cut

end Theory
