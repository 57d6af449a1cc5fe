import Mathlib.Order.MinMax
import Mathlib.Data.Nat.Bitwise
import Mathlib.Data.List.FinRange

/-!
# Sorting networks

In a round, every element is replaced by the lesser or by the greater one of itself and
its partner, or it is kept. A network sorts all sequences if it sorts those of truth
values, and it permutes them if one of two partners takes the lesser and the other one
the greater.
-/

namespace Theory

universe u v w

structure SortingRound (ι : Type u) where
  partner : ι → ι
  low : ι → Bool
  high : ι → Bool

namespace SortingRound

variable {ι : Type u} {α : Type v} {β : Type w} [LinearOrder α] [LinearOrder β]

def apply (round : SortingRound ι) (a : ι → α) (i : ι) : α :=
  if round.low i then min (a i) (a (round.partner i))
  else if round.high i then max (a i) (a (round.partner i))
  else a i

/-- A round commutes with a monotone map. -/
theorem apply_comp (round : SortingRound ι) {f : α → β} (monotone : Monotone f) (a : ι → α) :
    round.apply (f ∘ a) = f ∘ round.apply a := by
  funext i
  simp only [apply, Function.comp_apply]
  split_ifs
  · exact (Monotone.map_min monotone).symm
  · exact (Monotone.map_max monotone).symm
  · rfl

/-- If one of two partners takes the lesser element, the other one takes the greater. -/
structure Balanced (round : SortingRound ι) : Prop where
  involutive : Function.Involutive round.partner
  of_low : ∀ i, round.low i = true →
    round.low (round.partner i) = false ∧ round.high (round.partner i) = true
  of_high : ∀ i, round.low i = false → round.high i = true →
    round.low (round.partner i) = true

/-- Where an element is taken from. -/
def origin (round : SortingRound ι) (a : ι → α) (i : ι) : ι :=
  if round.low i then if a (round.partner i) < a i then round.partner i else i
  else if round.high i then if a i < a (round.partner i) then round.partner i else i
  else i

theorem apply_eq_origin (round : SortingRound ι) (a : ι → α) (i : ι) :
    round.apply a i = a (round.origin a i) := by
  rw [apply, origin]
  split_ifs with _ less _ greater
  · exact min_eq_right less.le
  · exact min_eq_left (not_lt.mp less)
  · exact max_eq_right greater.le
  · exact max_eq_left (not_lt.mp greater)
  · rfl

theorem origin_involutive {round : SortingRound ι} (balanced : Balanced round) (a : ι → α) :
    Function.Involutive (round.origin a) := by
  intro i
  have back := balanced.involutive i
  by_cases low : round.low i = true
  · by_cases less : a (round.partner i) < a i
    · obtain ⟨notLow, high⟩ := balanced.of_low i low
      have moved : round.origin a i = round.partner i := by
        rw [origin, if_pos low, if_pos less]
      rw [moved, origin, notLow, high, if_neg Bool.false_ne_true, if_pos rfl, back, if_pos less]
    · have kept : round.origin a i = i := by
        rw [origin, if_pos low, if_neg less]
      rw [kept, kept]
  · by_cases high : round.high i = true
    · by_cases greater : a i < a (round.partner i)
      · have partnerLow := balanced.of_high i (Bool.eq_false_iff.mpr low) high
        have moved : round.origin a i = round.partner i := by
          rw [origin, if_neg low, if_pos high, if_pos greater]
        rw [moved, origin, if_pos partnerLow, back, if_pos greater]
      · have kept : round.origin a i = i := by
          rw [origin, if_neg low, if_pos high, if_neg greater]
        rw [kept, kept]
    · have kept : round.origin a i = i := by
        rw [origin, if_neg low, if_neg high]
      rw [kept, kept]

theorem exists_perm {round : SortingRound ι} (balanced : Balanced round) (a : ι → α) :
    ∃ permutation : Equiv.Perm ι, round.apply a = a ∘ permutation :=
  ⟨Function.Involutive.toPerm _ (origin_involutive balanced a), funext (round.apply_eq_origin a)⟩

/-- The round does with some of the elements what the other one does with all. -/
structure Restricts {κ : Type*} (e : ι → κ) (round : SortingRound ι) (whole : SortingRound κ) :
    Prop where
  partner : ∀ i, e (round.partner i) = whole.partner (e i)
  low : ∀ i, round.low i = whole.low (e i)
  high : ∀ i, round.high i = whole.high (e i)

section Restricts

variable {κ : Type*} {e : ι → κ} {round : SortingRound ι} {whole : SortingRound κ}

theorem Restricts.apply_comp (restricts : Restricts e round whole) (a : κ → α) :
    round.apply (a ∘ e) = whole.apply a ∘ e := by
  funext i
  simp only [apply, Function.comp_apply, restricts.partner, restricts.low, restricts.high]

theorem Restricts.balanced (restricts : Restricts e round whole)
    (injective : Function.Injective e) (balanced : whole.Balanced) : round.Balanced where
  involutive i := by
    apply injective
    rw [restricts.partner, restricts.partner, balanced.involutive]
  of_low i low := by
    rw [restricts.low, restricts.high, restricts.partner]
    exact balanced.of_low (e i) (restricts.low i ▸ low)
  of_high i low high := by
    rw [restricts.low, restricts.partner]
    exact balanced.of_high (e i) (restricts.low i ▸ low) (restricts.high i ▸ high)

end Restricts

/-- Partners are compared in their order, or inversely. -/
def compare [LinearOrder ι] (partner : ι → ι) (inverse : ι → Bool) : SortingRound ι where
  partner := partner
  low i := if inverse i then decide (partner i < i) else decide (i < partner i)
  high i := if inverse i then decide (i < partner i) else decide (partner i < i)

theorem balanced_compare [LinearOrder ι] {partner : ι → ι} {inverse : ι → Bool}
    (involutive : Function.Involutive partner) (same : ∀ i, inverse (partner i) = inverse i) :
    (compare partner inverse).Balanced where
  involutive := involutive
  of_low i low := by
    simp only [compare, same, involutive i] at low ⊢
    generalize inverse i = direction at low ⊢
    cases direction
    · have less : i < partner i := of_decide_eq_true low
      exact ⟨decide_eq_false less.not_gt, decide_eq_true less⟩
    · have less : partner i < i := of_decide_eq_true low
      exact ⟨decide_eq_false less.not_gt, decide_eq_true less⟩
  of_high i _ high := by
    simp only [compare, same, involutive i] at high ⊢
    generalize inverse i = direction at high ⊢
    cases direction
    · exact high
    · exact high

end SortingRound

section Network

variable {ι : Type u} {α : Type v} {β : Type w} [LinearOrder α] [LinearOrder β]

/-- The rounds of a network, one after another. -/
def runRounds (rounds : List (SortingRound ι)) (a : ι → α) : ι → α :=
  rounds.foldl (fun a round => round.apply a) a

theorem runRounds_cons (round : SortingRound ι) (rounds : List (SortingRound ι)) (a : ι → α) :
    runRounds (round :: rounds) a = runRounds rounds (round.apply a) :=
  rfl

theorem runRounds_append (first second : List (SortingRound ι)) (a : ι → α) :
    runRounds (first ++ second) a = runRounds second (runRounds first a) :=
  List.foldl_append

variable {rounds : List (SortingRound ι)}

theorem runRounds_restricts {κ : Type*} {e : ι → κ} {wholes : List (SortingRound κ)}
    (restricts : List.Forall₂ (SortingRound.Restricts e) rounds wholes) (a : κ → α) :
    runRounds rounds (a ∘ e) = runRounds wholes a ∘ e := by
  induction restricts generalizing a with
  | nil => rfl
  | cons restrict _ ih =>
      rw [runRounds_cons, runRounds_cons, restrict.apply_comp, ih]

theorem runRounds_comp (rounds : List (SortingRound ι)) {f : α → β} (monotone : Monotone f)
    (a : ι → α) : runRounds rounds (f ∘ a) = f ∘ runRounds rounds a := by
  induction rounds generalizing a with
  | nil => rfl
  | cons round rounds ih => rw [runRounds_cons, runRounds_cons, round.apply_comp monotone, ih]

/-- What sorts all sequences of truth values sorts all sequences. -/
theorem monotone_runRounds [Preorder ι] (sorts : ∀ b : ι → Bool, Monotone (runRounds rounds b))
    (a : ι → α) : Monotone (runRounds rounds a) := by
  intro i j ordered
  by_contra misplaced
  have less : runRounds rounds a j < runRounds rounds a i := not_le.mp misplaced
  -- the truth values that tell the two elements apart
  have monotone : Monotone fun x => decide (runRounds rounds a i ≤ x) := by
    intro x y below
    change decide (_ ≤ x) ≤ decide (_ ≤ y)
    by_cases above : runRounds rounds a i ≤ x
    · rw [decide_eq_true above, decide_eq_true (above.trans below)]
    · rw [decide_eq_false above]
      exact Bool.false_le _
  have sorted := sorts ((fun x => decide (runRounds rounds a i ≤ x)) ∘ a) ordered
  rw [runRounds_comp rounds monotone] at sorted
  simp only [Function.comp_apply, decide_eq_true le_rfl, decide_eq_false less.not_ge] at sorted
  exact absurd sorted (by decide)

theorem exists_perm_runRounds (balanced : ∀ round ∈ rounds, round.Balanced) (a : ι → α) :
    ∃ permutation : Equiv.Perm ι, runRounds rounds a = a ∘ permutation := by
  induction rounds generalizing a with
  | nil => exact ⟨Equiv.refl ι, rfl⟩
  | cons round rounds ih =>
      obtain ⟨first, moved⟩ := SortingRound.exists_perm (balanced round List.mem_cons_self) a
      obtain ⟨others, rest⟩ := ih
        (fun other member => balanced other (List.mem_cons_of_mem _ member)) (round.apply a)
      refine ⟨others.trans first, ?_⟩
      rw [runRounds_cons, rest, moved]
      rfl

end Network

end Theory

/-!
## Truth tables of sorting networks

A network is run with all sequences of truth values at once. The bits of a number are
the values of an element for all the sequences, and the sequences are numbered by their
values.
-/

namespace Theory

/-- The values of an element, by the numbers of the sequences of length `n`. -/
def column : Nat → Nat → Nat
  | 0, _ => 0
  | n + 1, i =>
      if i = n then (2 ^ 2 ^ n - 1) <<< 2 ^ n else column n i ||| column n i <<< 2 ^ n

theorem column_lt (n i : Nat) : column n i < 2 ^ 2 ^ n := by
  induction n with
  | zero => exact Nat.two_pow_pos _
  | succ n ih =>
      have double : 2 ^ 2 ^ (n + 1) = 2 ^ 2 ^ n * 2 ^ 2 ^ n := by
        rw [Nat.pow_succ, Nat.mul_two, Nat.pow_add]
      have positive : 0 < 2 ^ 2 ^ n := Nat.two_pow_pos _
      rw [column]
      split_ifs
      · rw [Nat.shiftLeft_eq, double]
        exact Nat.mul_lt_mul_of_pos_right (Nat.sub_lt positive Nat.one_pos) positive
      · refine Nat.or_lt_two_pow (ih.trans_le ?_) ?_
        · rw [double]
          exact Nat.le_mul_of_pos_left _ positive
        · rw [Nat.shiftLeft_eq, double]
          exact Nat.mul_lt_mul_of_pos_right ih positive

/-- The value of an element is the bit of the number of the sequence. -/
theorem testBit_column {n i k : Nat} (inside : i < n) (numbered : k < 2 ^ n) :
    (column n i).testBit k = k.testBit i := by
  induction n generalizing k with
  | zero => exact absurd inside (Nat.not_lt_zero i)
  | succ n ih =>
      rw [Nat.pow_succ, Nat.mul_two] at numbered
      rw [column]
      by_cases last : i = n
      · rw [if_pos last, last, Nat.testBit_shiftLeft, Nat.testBit_two_pow_sub_one]
        by_cases upper : 2 ^ n ≤ k
        · have bit : k.testBit n = true := by
            have split : k = 2 ^ n + (k - 2 ^ n) := by omega
            rw [split, Nat.testBit_two_pow_add_eq, Nat.testBit_lt_two_pow (by omega)]
            rfl
          have rest : k - 2 ^ n < 2 ^ n := by omega
          rw [bit, decide_eq_true upper, decide_eq_true rest, Bool.and_self]
        · rw [decide_eq_false upper, Bool.false_and, Nat.testBit_lt_two_pow (by omega)]
      · have before : i < n := by omega
        rw [if_neg last, Nat.testBit_or, Nat.testBit_shiftLeft]
        by_cases upper : 2 ^ n ≤ k
        · have split : k = 2 ^ n + (k - 2 ^ n) := by omega
          have bit : k.testBit i = (k - 2 ^ n).testBit i := by
            rw [split, Nat.testBit_two_pow_add_gt before, Nat.add_sub_cancel_left]
          have high : (column n i).testBit k = false :=
            Nat.testBit_lt_two_pow ((column_lt n i).trans_le
              (Nat.pow_le_pow_right Nat.two_pos upper))
          rw [high, bit, decide_eq_true upper, ih before (by omega), Bool.true_and, Bool.false_or]
        · rw [decide_eq_false upper, Bool.false_and, Bool.or_false, ih before (by omega)]

variable {n : Nat}

def applyWords (round : SortingRound (Fin n)) (words : List Nat) : List Nat :=
  (List.finRange n).map fun i =>
    if round.low i then words.getD i 0 &&& words.getD (round.partner i) 0
    else if round.high i then words.getD i 0 ||| words.getD (round.partner i) 0
    else words.getD i 0

def sortsAll (rounds : List (SortingRound (Fin n))) : Bool :=
  let words := rounds.foldl (fun words round => applyWords round words)
    ((List.range n).map (column n))
  (List.range (n - 1)).all fun i => words.getD i 0 &&& words.getD (i + 1) 0 == words.getD i 0

/-- The bits of the words for a sequence are its elements. -/
def Represents (words : List Nat) (k : Nat) (b : Fin n → Bool) : Prop :=
  ∀ i : Fin n, (words.getD i 0).testBit k = b i

theorem getD_applyWords (round : SortingRound (Fin n)) (words : List Nat) (i : Fin n) :
    (applyWords round words).getD i 0 =
      if round.low i then words.getD i 0 &&& words.getD (round.partner i) 0
      else if round.high i then words.getD i 0 ||| words.getD (round.partner i) 0
      else words.getD i 0 := by
  have inside : (i : Nat) < (List.finRange n).length := by
    rw [List.length_finRange]
    exact i.isLt
  rw [applyWords, List.getD_eq_getElem?_getD, List.getElem?_map, List.getElem?_eq_getElem inside,
    List.getElem_finRange]
  rfl

theorem Represents.apply {words : List Nat} {k : Nat} {b : Fin n → Bool}
    (represents : Represents words k b) (round : SortingRound (Fin n)) :
    Represents (applyWords round words) k (round.apply b) := by
  intro i
  rw [getD_applyWords, SortingRound.apply]
  split_ifs
  · rw [Nat.testBit_and, represents i, represents (round.partner i)]
    rfl
  · rw [Nat.testBit_or, represents i, represents (round.partner i)]
    rfl
  · exact represents i

theorem Represents.foldl {rounds : List (SortingRound (Fin n))} {words : List Nat} {k : Nat}
    {b : Fin n → Bool} (represents : Represents words k b) :
    Represents (rounds.foldl (fun words round => applyWords round words) words) k
      (runRounds rounds b) := by
  induction rounds generalizing words b with
  | nil => exact represents
  | cons round rounds ih => exact ih (represents.apply round)

theorem represents_columns (b : Fin n → Bool) :
    Represents ((List.range n).map (column n)) (Nat.ofBits b) b := by
  intro i
  have inside : (i : Nat) < ((List.range n).map (column n)).length := by
    rw [List.length_map, List.length_range]
    exact i.isLt
  rw [List.getD_eq_getElem _ _ inside, List.getElem_map, List.getElem_range,
    testBit_column i.isLt (Nat.ofBits_lt_two_pow b), Nat.testBit_ofBits_lt b i i.isLt]

/-- A network sorts all sequences of truth values if all the rows of the table are
sorted. -/
theorem monotone_of_sortsAll {rounds : List (SortingRound (Fin n))}
    (sorts : sortsAll rounds = true) (b : Fin n → Bool) : Monotone (runRounds rounds b) := by
  rw [sortsAll] at sorts
  have represents : Represents (rounds.foldl (fun words round => applyWords round words)
    ((List.range n).map (column n))) (Nat.ofBits b) (runRounds rounds b) :=
    (represents_columns b).foldl
  generalize rounds.foldl (fun words round => applyWords round words)
    ((List.range n).map (column n)) = words at represents sorts
  have next (i : Nat) (more : i + 1 < n) :
      (words.getD i 0).testBit (Nat.ofBits b) ≤ (words.getD (i + 1) 0).testBit (Nat.ofBits b) := by
    have row := List.all_eq_true.mp sorts i (List.mem_range.mpr (by omega))
    have bit := congrArg (Nat.testBit · (Nat.ofBits b)) (beq_iff_eq.mp row)
    simp only [Nat.testBit_and] at bit
    rw [← bit]
    exact Bool.and_le_right _ _
  have upTo (i d : Nat) (inside : i + d < n) :
      (words.getD i 0).testBit (Nat.ofBits b) ≤ (words.getD (i + d) 0).testBit (Nat.ofBits b) := by
    induction d with
    | zero => exact le_rfl
    | succ d ih => exact (ih (by omega)).trans (next (i + d) inside)
  intro i j ordered
  have split : (i : Nat) + (j - i) = j := Nat.add_sub_cancel' ordered
  have sorted := upTo i (j - i) (by rw [split]; exact j.isLt)
  rwa [split, represents i, represents j] at sorted

end Theory
