import Eagine.Sorting.NetworkSort
import Eagine.Theory.BitonicNetwork
import Eagine.Theory.StrictWeakOrder
import Mathlib.Data.Nat.Log
import Mathlib.Data.Set.Card
import Mathlib.Tactic.IntervalCases

/-!
# Which sizes are sorted

There is a table or the size is a power of two, except for the table that loses an
element.
-/

/-!
## Generated sorting networks

The rounds of the network that is generated for a size are the rows of the bitonic network
of the next power of two, cut to the size. So it sorts if the size is a power of two, and
only then.
-/

open List

namespace Eagine

open Theory SortingNetwork Nat

universe u

namespace BitonicSortingNetwork

/-- The least number of times that a power is doubled to reach `n`. -/
theorem nextLog_spec {n pot : Nat} (positive : 0 < pot) :
    n ≤ pot * 2 ^ nextLog n pot positive ∧ ∀ l < nextLog n pot positive, pot * 2 ^ l < n := by
  fun_induction nextLog n pot positive with
  | case1 pot positive less ih =>
      obtain ⟨reached, least⟩ := ih
      have double (l : Nat) : pot <<< 1 * 2 ^ l = pot * 2 ^ (1 + l) := by
        rw [shiftLeft_eq, pow_add, mul_assoc]
      rw [double] at reached
      refine ⟨reached, fun l below => ?_⟩
      cases l with
      | zero => rwa [pow_zero, mul_one]
      | succ l =>
          have smaller := least l (by omega)
          rwa [double, add_comm] at smaller
  | case2 pot positive notLess =>
      rw [pow_zero, mul_one]
      exact ⟨Nat.le_of_not_lt notLess, fun l below => absurd below (Nat.not_lt_zero l)⟩

theorem length_stages (n : Nat) :
    ((List.range n).flatMap fun k => (List.range (k + 1)).map fun m => (k, m)).length =
      triangle n := by
  induction n with
  | zero => rfl
  | succ n ih =>
      rw [range_succ, flatMap_append, length_append, ih, triangle]
      simp [add_comm]

theorem length_rows (N : Nat) : (rows N).length = numRoundsFor N :=
  length_stages _

theorem mem_rows {N : Nat} {row : Nat × Nat} :
    row ∈ rows N ↔ row.1 < nextLog N 1 one_pos ∧ row.2 ≤ row.1 := by
  rcases row with ⟨k, m⟩
  simp only [rows, mem_flatMap, mem_map, mem_range, Prod.mk.injEq]
  constructor
  · rintro ⟨_, stage, _, within, rfl, rfl⟩
    exact ⟨stage, Nat.le_of_lt_succ within⟩
  · rintro ⟨stage, within⟩
    exact ⟨k, stage, m, lt_succ_of_le within, rfl, rfl⟩

/-- The first row of the last stage has the greatest distance. -/
theorem shiftsDefined_iff {N : Nat} : ShiftsDefined N ↔ N ≤ 2 ^ 32 := by
  have spec := @nextLog_spec N 1 one_pos
  simp only [one_mul] at spec
  rcases spec with ⟨reached, least⟩
  constructor
  · intro defined
    have stages : nextLog N 1 one_pos ≤ 32 := by
      by_contra more
      have first := defined (32, 0) (mem_rows.mpr ⟨Nat.lt_of_not_le more, Nat.zero_le 32⟩)
      exact lt_irrefl 32 first
    exact reached.trans (Nat.pow_le_pow_right Nat.two_pos stages)
  · intro few row member
    have stage := (mem_rows.mp member).1
    by_contra far
    have next : 32 < nextLog N 1 one_pos := by omega
    exact absurd few (not_le.mpr (least 32 next))

theorem partner_eq_mate {N i : Nat} (s : Nat) (inside : i < N) :
    partner N (1 <<< s) i = mate N s i := by
  have bit : i &&& 2 ^ s = 0 ↔ i.testBit s = false := by
    rw [and_two_pow]
    cases i.testBit s <;> simp
  simp only [partner, mate, one_shiftLeft, bit, inside, true_and]
  cases i.testBit s with
  | false => simp only [if_true, Bool.false_eq_true, if_false]; split_ifs <;> omega
  | true => simp only [Bool.true_eq_false, if_true, if_false]; split_ifs <;> omega

theorem rowElem_and_one (N k m i : Nat) : (rowElem N k m i &&& 1 == 1) = i.testBit (k + 1) := by
  have lowest (x : Nat) : (x &&& 1 == 1) = x.testBit 0 := by
    rw [testBit_zero, and_one_is_mod]
    rfl
  have two : Nat.testBit 2 1 = true := by decide
  rw [lowest, rowElem, testBit_or, testBit_shiftLeft, testBit_shiftRight,
    testBit_and, testBit_shiftRight]
  simp [two]

theorem restricts_round {N r k m : Nat} (row : (rows N)[r]? = some (k, m)) :
    SortingRound.Restricts Fin.val ((bitonicSortingNetwork N).round r)
      (rowRound N k (k - m)) := by
  have elem (i : Nat) : c N r i = rowElem N k m i := by
    rw [c, getD_eq_getElem?_getD, row]
    rfl
  have index_eq (i : Fin N) : (index r i).val = mate N (k - m) i := by
    rw [← partner_eq_mate (k - m) i.isLt, ← rowElem_shiftRight N k m, ← elem]
    rfl
  have inv_eq (i : Fin N) : inv r i = (i : Nat).testBit (k + 1) := by
    rw [inv, elem, rowElem_and_one]
  constructor
  · exact index_eq
  · intro i
    simp only [SortingNetwork.round, bitonicSortingNetwork, rowRound, SortingRound.compare, inv_eq,
      Fin.lt_def, index_eq]
  · intro i
    simp only [SortingNetwork.round, bitonicSortingNetwork, rowRound, SortingRound.compare, inv_eq,
      Fin.lt_def, index_eq]

theorem map_mergeRounds (N k t : Nat) (below : t ≤ k + 1) :
    (List.range' (k + 1 - t) t).map (fun m => rowRound N k (k - m)) = mergeRounds N k t := by
  induction t with
  | zero => rfl
  | succ t ih =>
      have next : k + 1 - (t + 1) + 1 = k + 1 - t := by omega
      have place : k - (k + 1 - (t + 1)) = t := by omega
      rw [range'_succ, map_cons, place, next, ih (le_of_succ_le below), mergeRounds]

theorem map_stages (N n : Nat) :
    ((List.range n).flatMap fun k => (List.range (k + 1)).map fun m => (k, m)).map
        (fun row => rowRound N row.1 (row.1 - row.2)) =
      bitonicRounds N n := by
  induction n with
  | zero => rfl
  | succ n ih =>
      have stage := map_mergeRounds N n (n + 1) le_rfl
      rw [Nat.sub_self, ← range_eq_range'] at stage
      rw [range_succ, flatMap_append, map_append, ih, bitonicRounds, ← stage]
      simp [Function.comp_def]

/-- The rounds are those of a bitonic network that is cut. -/
theorem restricts_roundList (N : Nat) :
    List.Forall₂ (SortingRound.Restricts Fin.val) (bitonicSortingNetwork N).roundList
      (bitonicRounds N (nextLog N 1 one_pos)) := by
  rw [← map_stages, roundList, forall₂_map_left_iff, forall₂_map_right_iff,
    forall₂_iff_get]
  constructor
  · rw [length_range]
    exact (length_rows N).symm
  · intro r inside inside'
    rw [get_eq_getElem, getElem_range]
    exact restricts_round (getElem?_eq_getElem inside')

theorem balanced_round {N r : Nat} (inside : r < numRoundsFor N) :
    ((bitonicSortingNetwork N).round r).Balanced := by
  rw [← length_rows] at inside
  have row : (rows N)[r]? = some ((rows N)[r].1, (rows N)[r].2) := getElem?_eq_getElem inside
  have balanced := balanced_rowRound N (sub_le (rows N)[r].1 (rows N)[r].2)
  exact (restricts_round row).balanced Fin.val_injective balanced

/-- The number of stages is that of the least power of two that has room. -/
theorem nextLog_eq {N K : Nat} (reached : N ≤ 2 ^ K) (least : ∀ l < K, 2 ^ l < N) :
    nextLog N 1 one_pos = K := by
  have spec := @nextLog_spec N 1 one_pos
  simp only [one_mul] at spec
  apply le_antisymm
  · exact Nat.le_of_not_lt fun more => Nat.not_lt.mpr reached (spec.2 K more)
  · exact Nat.le_of_not_lt fun fewer => Nat.not_lt.mpr spec.1 (least _ fewer)

variable {N K : Nat}

/-- The network of a power of two sorts truth values. -/
theorem monotone_of_power (power : N = 2 ^ K) (b : Fin N → Bool) :
    Monotone (runRounds (bitonicSortingNetwork N).roundList b) := by
  have stages : nextLog N 1 one_pos = K :=
    nextLog_eq power.le fun l below => power ▸ Nat.pow_lt_pow_right Nat.one_lt_two below
  have whole : 2 ^ K * 0 + 2 ^ K ≤ N := by omega
  obtain ⟨p, value⟩ := ascending_bitonicRounds whole (Function.extend Fin.val b fun _ => false)
  have run := runRounds_restricts (restricts_roundList N)
    (Function.extend Fin.val b fun _ => false)
  rw [Function.extend_comp Fin.val_injective, stages] at run
  rw [run]
  intro i j ordered
  have ordered' : (i : Nat) ≤ j := ordered
  have first := value i (power ▸ i.isLt)
  have second := value j (power ▸ j.isLt)
  simp only [mul_zero, zero_add, zero_testBit, Bool.xor_false] at first second
  rw [Function.comp_apply, Function.comp_apply, first, second, Bool.le_iff_imp]
  simp only [decide_eq_true_iff]
  exact fun reached => reached.trans ordered'

theorem sortsArrays_of_power (power : N = 2 ^ K) : SortsArrays.{u} (bitonicSortingNetwork N) := by
  apply sortsArrays_of_bool
  · exact fun r inside => balanced_round inside
  · exact monotone_of_power power

/-- The networks of the powers of two sort, as long as an unsigned int has room for their
distances. -/
theorem shiftsDefined_and_sortsArrays_iff (k : Nat) :
    ShiftsDefined (2 ^ k) ∧ SortsArrays.{u} (bitonicSortingNetwork (2 ^ k)) ↔ k ≤ 32 := by
  have sorts : SortsArrays.{u} (bitonicSortingNetwork (2 ^ k)) := sortsArrays_of_power rfl
  rw [and_iff_left sorts, shiftsDefined_iff]
  exact Nat.pow_le_pow_iff_right Nat.one_lt_two

theorem not_forall_shiftsDefined_and_sortsArrays :
    ¬∀ k, 1 ≤ k →
      ShiftsDefined (2 ^ k) ∧ SortsArrays.{0} (bitonicSortingNetwork (2 ^ k)) := by
  intro all
  have defined := shiftsDefined_iff.mp (all 33 (by decide)).1
  exact absurd defined (by decide)

/-- The network of another size does not. -/
theorem not_monotone_of_between (above : 2 ^ K < N) (below : N < 2 ^ (K + 1)) :
    ¬Monotone (runRounds (bitonicSortingNetwork N).roundList fun i => allButFirst K i) := by
  have stages : nextLog N 1 one_pos = K + 1 :=
    nextLog_eq below.le fun l upTo =>
      (Nat.pow_le_pow_right Nat.two_pos (Nat.le_of_lt_succ upTo)).trans_lt above
  have run := runRounds_restricts (restricts_roundList N) (allButFirst K)
  rw [stages] at run
  obtain ⟨last, next⟩ := bitonicRounds_cut above below
  intro monotone
  have positive := Nat.two_pow_pos K
  have ordered : (⟨2 ^ K - 1, by omega⟩ : Fin N) ≤ ⟨2 ^ K, above⟩ := sub_le _ _
  have order := monotone ordered
  change runRounds _ (allButFirst K ∘ Fin.val) _ ≤ runRounds _ (allButFirst K ∘ Fin.val) _ at order
  rw [run] at order
  simp only [Function.comp_apply, last, next] at order
  exact absurd order (by decide)

end BitonicSortingNetwork

end Eagine

/-!
## Manual sorting networks

The networks with tables are checked for all sequences of truth values at once, and they
sort all arrays except for that of 16 elements: two of the entries of its last round are
exchanged, and an element is lost.
-/

namespace Eagine

open Theory SortingNetwork

universe u

namespace ManualSortingNetworkBase

variable {N : Nat}

/-- The partners of a round are each other's, and truth values are sorted. -/
def IsValid (base : ManualSortingNetworkBase N) : Prop :=
  (∀ r < base.rounds, ∀ i, base.index r (base.index r i) = i) ∧
    sortsAll (manualSortingNetwork base).roundList = true

instance (base : ManualSortingNetworkBase N) : Decidable base.IsValid :=
  inferInstanceAs (Decidable (_ ∧ _))

theorem balanced_round {base : ManualSortingNetworkBase N} (valid : base.IsValid) {r : Nat}
    (inside : r < base.rounds) : ((manualSortingNetwork base).round r).Balanced := by
  have involutive : Function.Involutive (base.index r) := valid.1 r inside
  exact @SortingRound.balanced_compare _ _ _ (fun _ => false) involutive fun _ => rfl

end ManualSortingNetworkBase

theorem sorts_of_isValid {N : Nat} {base : ManualSortingNetworkBase N}
    (manual : manualSortingNetworkBase N = some base) (valid : base.IsValid) :
    Sorts.{u} N := by
  have network : sortingNetwork N = manualSortingNetwork base := by rw [sortingNetwork, manual]
  rw [sorts_iff_sortsArrays, network]
  apply sortsArrays_of_bool
  · exact fun r inside => ManualSortingNetworkBase.balanced_round valid inside
  · exact monotone_of_sortsAll valid.2

/-- The tables other than that of 16 elements are correct. -/
theorem sorts_of_table {N : Nat} (positive : 1 ≤ N) (table : N ≤ 12 ∨ N = 14) :
    Sorts.{u} N := by
  have upTo : N ≤ 14 := by omega
  have between : N ≠ 13 := by omega
  interval_cases N <;> first
    | exact absurd rfl between
    | exact sorts_of_isValid rfl (by decide +kernel)

theorem manualSortingNetworkBase_eq_none {N : Nat} (above : 12 < N) (other : N ≠ 14)
    (other' : N ≠ 16) : manualSortingNetworkBase N = none := by
  rw [manualSortingNetworkBase] <;> omega

/-- The multiples of three, that the network of 16 elements does not permute. -/
def multiplesOfThree (i : Fin 16) : Nat :=
  3 * i % 16

theorem not_sorts_sixteen : ¬Sorts.{u} 16 := by
  intro sorts
  obtain ⟨-, permutation, permuted⟩ := sorts.runRounds multiplesOfThree
  have twice : runRounds (sortingNetwork 16).roundList multiplesOfThree 9 =
      runRounds (sortingNetwork 16).roundList multiplesOfThree 10 := by decide +kernel
  have injective : Function.Injective multiplesOfThree := by
    rw [Function.Injective]
    decide
  rw [permuted] at twice
  have same : (9 : Fin 16) = 10 := permutation.injective (injective twice)
  exact absurd same (by decide)

end Eagine

namespace Eagine

open Theory SortingNetwork BitonicSortingNetwork

universe u

theorem sortingNetwork_eq_bitonic {N : Nat} (generated : manualSortingNetworkBase N = none) :
    sortingNetwork N = bitonicSortingNetwork N := by
  rw [sortingNetwork, generated]

theorem sorts_of_power {N K : Nat} (generated : manualSortingNetworkBase N = none)
    (power : N = 2 ^ K) : Sorts.{u} N := by
  rw [sorts_iff_sortsArrays, sortingNetwork_eq_bitonic generated]
  exact sortsArrays_of_power power

theorem not_sorts_of_between {N K : Nat} (generated : manualSortingNetworkBase N = none)
    (above : 2 ^ K < N) (below : N < 2 ^ (K + 1)) : ¬Sorts.{u} N := by
  intro sorts
  obtain ⟨sorted, -⟩ := sorts.runRounds fun i => allButFirst K i
  rw [sortingNetwork_eq_bitonic generated] at sorted
  exact not_monotone_of_between above below sorted

theorem sorts_iff_of_generated {N : Nat} (generated : manualSortingNetworkBase N = none)
    (several : 1 < N) : Sorts.{u} N ↔ ∃ k, N = 2 ^ k := by
  constructor
  · intro sorts
    refine ⟨Nat.log 2 N, ?_⟩
    by_contra between
    have reached : 2 ^ Nat.log 2 N ≤ N := Nat.pow_log_le_self 2 (by omega)
    have next : N < 2 ^ (Nat.log 2 N + 1) := Nat.lt_pow_succ_log_self Nat.one_lt_two N
    exact not_sorts_of_between generated (by omega) next sorts
  · rintro ⟨K, power⟩
    exact sorts_of_power generated power

theorem tableDefined_of_small {N : Nat} (small : N ≤ 2 ^ 32) : TableDefined N :=
  fun _ => shiftsDefined_iff.mpr small

/-- The sizes that are sorted: those of the correct tables, and the powers of two for which
there is no table and an unsigned int has room for the distances. -/
theorem sorts_iff {N : Nat} (positive : 1 ≤ N) :
    TableDefined N ∧ Sorts.{u} N ↔ N ≤ 12 ∨ N = 14 ∨ (N ≠ 16 ∧ ∃ k ≤ 32, N = 2 ^ k) := by
  by_cases table : N ≤ 12 ∨ N = 14
  · have sorts : Sorts.{u} N := sorts_of_table positive table
    have defined : TableDefined N := tableDefined_of_small (by omega)
    exact ⟨fun _ => table.imp_right Or.inl, fun _ => ⟨defined, sorts⟩⟩
  · obtain ⟨above, other⟩ := not_or.mp table
    by_cases sixteen : N = 16
    · subst sixteen
      exact ⟨fun sorts => absurd sorts.2 not_sorts_sixteen, by simp⟩
    · have generated := manualSortingNetworkBase_eq_none (by omega) other sixteen
      rw [sorts_iff_of_generated generated (by omega)]
      constructor
      · rintro ⟨defined, k, power⟩
        have few := shiftsDefined_iff.mp (defined generated)
        rw [power] at few
        have exponent := (Nat.pow_le_pow_iff_right Nat.one_lt_two).mp few
        exact Or.inr (Or.inr ⟨sixteen, k, exponent, power⟩)
      · rintro (small | fourteen | ⟨-, k, exponent, power⟩)
        · exact absurd small above
        · exact absurd fourteen other
        · have few : N ≤ 2 ^ 32 := power ▸ Nat.pow_le_pow_right Nat.two_pos exponent
          exact ⟨tableDefined_of_small few, k, power⟩

theorem sorts_iff_five :
    TableDefined 5 ∧ Sorts.{0} 5 ↔ 5 ≤ 12 ∨ 5 = 14 ∨ (5 ≠ 16 ∧ ∃ k ≤ 32, 5 = 2 ^ k) :=
  sorts_iff (by decide)

theorem not_forall_sorts : ¬∀ N, 1 ≤ N → Sorts.{0} N := by
  intro sorts
  exact not_sorts_sixteen (sorts 16 (by decide))

end Eagine

/-!
## Equivalent elements

Of two partners, each one decides on its own which of the two elements it takes. If none of
the elements is before the other one, then both of the partners take that of the greater
index, and the other element is lost. So what is sorted is a permutation of the array in all
networks if, and only if, its equivalent elements are equal.
-/

namespace Eagine

open Theory SortingNetwork

universe u v

variable {N : Nat} {T : Type u}

namespace SortingNetwork

/-- The rounds of the network are involutions, where one of two partners takes the lesser
element and the other one the greater. -/
def RoundsBalanced (sn : SortingNetwork N) : Prop :=
  ∀ r < sn.rounds, (sn.round r).Balanced

/-- A sort step does not look at more than the comparison. -/
theorem singleSortStep_comp {S : Type v} {before : T → T → Bool} (f : S → T)
    (sn : SortingNetwork N) (src : Fin N → S) (r : Nat) :
    singleSortStep before sn (f ∘ src) r =
      f ∘ singleSortStep (fun x y => before (f x) (f y)) sn src r := by
  funext i
  simp only [singleSortStep, minMaxCpy, minOf, maxOf, Function.comp_apply, apply_ite f]

theorem networkSorter_comp {S : Type v} {before : T → T → Bool} (f : S → T)
    (sn : SortingNetwork N) (a : Fin N → S) :
    networkSorter sn before (f ∘ a) =
      f ∘ networkSorter sn (fun x y => before (f x) (f y)) a := by
  rw [networkSorter_eq, networkSorter_eq]
  induction List.range sn.rounds generalizing a with
  | nil => rfl
  | cons r rest ih =>
      rw [foldl_cons, foldl_cons, ← ih, ← singleSortStep_comp]

theorem exists_perm_networkSorter [LinearOrder T] {sn : SortingNetwork N}
    (balanced : sn.RoundsBalanced) (a : Fin N → T) :
    ∃ permutation : Equiv.Perm (Fin N),
      networkSorter sn (fun x y => decide (x < y)) a = a ∘ permutation := by
  rw [networkSorter_eq_runRounds]
  refine exists_perm_runRounds (fun round member => ?_) a
  rcases mem_map.mp member with ⟨r, inside, rfl⟩
  exact balanced r (mem_range.mp inside)

variable {a : Fin N → T} {order : StrictWeakOrder T}

/-- The elements of the array have a linear order if the equivalent ones are equal. -/
theorem exists_perm_of_equal {sn : SortingNetwork N}
    (balanced : sn.RoundsBalanced) (equal : ∀ i j, order.Equivalent (a i) (a j) → a i = a j) :
    ∃ permutation : Equiv.Perm (Fin N),
      networkSorter sn order.before a = a ∘ permutation := by
  have total : IsStrictTotalOrder (Set.range a)
      fun x y => (order.on Subtype.val).before x y = true := by
    apply StrictWeakOrder.isStrictTotalOrder
    rintro ⟨_, i, rfl⟩ ⟨_, j, rfl⟩ same
    exact Subtype.ext (equal i j same)
  let _ := linearOrderOfSTO fun x y : Set.range a => (order.on Subtype.val).before x y = true
  rcases exists_perm_networkSorter balanced (Set.rangeFactorization a) with
    ⟨permutation, permuted⟩
  refine ⟨permutation, ?_⟩
  have comparison : (fun x y : Set.range a => order.before x.1 y.1) =
      fun x y => decide (x < y) := by
    funext x y
    rw [Bool.eq_iff_iff, decide_eq_true_iff]
    rfl
  have whole : a = Subtype.val ∘ Set.rangeFactorization a := rfl
  conv_lhs => rw [whole, networkSorter_comp, comparison, permuted]
  rfl

/-- One round that compares two elements. -/
def comparator (i j : Fin N) : SortingNetwork N :=
  manualSortingNetwork ⟨1, fun _ => Equiv.swap i j⟩

theorem roundsBalanced_comparator (i j : Fin N) : (comparator i j).RoundsBalanced := by
  intro r _
  have involutive : Function.Involutive (Equiv.swap i j) :=
    Equiv.swap_apply_self i j
  exact @SortingRound.balanced_compare _ _ _ (fun _ => false) involutive fun _ => rfl

/-- Both of the partners have the element of the greater index. -/
theorem networkSorter_comparator {i j : Fin N} (ordered : i < j)
    (same : order.Equivalent (a i) (a j)) :
    networkSorter (comparator i j) order.before a = Function.update a i (a j) := by
  rw [networkSorter_eq]
  funext l
  change minMaxCpy order.before (a l) (a (Equiv.swap i j l)) (decide (l < Equiv.swap i j l))
    (decide (Equiv.swap i j l < l)) = _
  by_cases first : l = i
  · subst first
    rw [Equiv.swap_apply_left, Function.update_self]
    simp [minMaxCpy, minOf, ordered, same.1]
  · rw [Function.update_of_ne first]
    by_cases second : l = j
    · subst second
      rw [Equiv.swap_apply_right]
      simp [minMaxCpy, maxOf, ordered, ordered.not_gt, same.2]
    · rw [Equiv.swap_apply_of_ne_of_ne first second]
      simp [minMaxCpy]

/-- There is one element less of those that are equal to the one that is replaced. -/
theorem not_exists_perm_update {i j : Fin N} (different : a i ≠ a j) :
    ¬∃ permutation : Equiv.Perm (Fin N), Function.update a i (a j) = a ∘ permutation := by
  rintro ⟨permutation, permuted⟩
  have fewer : {l | Function.update a i (a j) l = a i} ⊂ {l | a l = a i} := by
    refine (Set.ssubset_iff_of_subset fun l member => ?_).mpr ⟨i, rfl, ?_⟩
    · by_cases here : l = i
      · exact here ▸ rfl
      · rwa [Set.mem_ofPred_eq, Function.update_of_ne here] at member
    · rw [Set.mem_ofPred_eq, Function.update_self]
      exact different.symm
  have count := Set.ncard_lt_ncard fewer
  rw [permuted] at count
  have moved : {l | (a ∘ permutation) l = a i} = Set.preimage permutation {l | a l = a i} := rfl
  rw [moved, Set.ncard_preimage_of_injective_subset_range permutation.injective
    fun l _ => permutation.surjective l] at count
  exact lt_irrefl _ count

/-- No element of the array is lost in any network if, and only if, its equivalent elements
are equal. -/
theorem permutes_iff (order : StrictWeakOrder T) (a : Fin N → T) :
    (∀ sn : SortingNetwork N, sn.RoundsBalanced →
        ∃ permutation : Equiv.Perm (Fin N),
          networkSorter sn order.before a = a ∘ permutation) ↔
      ∀ i j, order.Equivalent (a i) (a j) → a i = a j := by
  constructor
  · intro permutes
    have equal (i j : Fin N) (ordered : i < j) (same : order.Equivalent (a i) (a j)) :
        a i = a j := by
      by_contra different
      have permuted := permutes (comparator i j) (roundsBalanced_comparator i j)
      rw [networkSorter_comparator ordered same] at permuted
      exact not_exists_perm_update different permuted
    intro i j same
    rcases lt_trichotomy i j with ordered | rfl | inverse
    · exact equal i j ordered same
    · rfl
    · exact (equal j i inverse same.symm).symm
  · intro equal sn balanced
    exact exists_perm_of_equal balanced equal

theorem not_forall_permutes :
    ¬∀ (N : Nat) (T : Type) (order : StrictWeakOrder T) (a : Fin N → T) (sn : SortingNetwork N),
      sn.RoundsBalanced →
        ∃ permutation : Equiv.Perm (Fin N),
          networkSorter sn order.before a = a ∘ permutation := by
  intro permutes
  -- two entries with the same key
  let order : StrictWeakOrder (Nat × Nat) := (StrictWeakOrder.ofLinearOrder Nat).on Prod.fst
  let a (i : Fin 2) : Nat × Nat := (7, i)
  have balanced : (sortingNetwork 2).RoundsBalanced := by
    intro r inside
    obtain rfl := Nat.lt_one_iff.mp inside
    have involutive : ∀ i, (sortingNetwork 2).index 0 ((sortingNetwork 2).index 0 i) = i := by
      decide
    exact { involutive := involutive, of_low := by decide, of_high := by decide }
  rcases permutes 2 (Nat × Nat) order a (sortingNetwork 2) balanced with ⟨permutation, permuted⟩
  rw [networkSorter_eq] at permuted
  have twice : (a ∘ permutation) 0 = (a ∘ permutation) 1 := by
    rw [← permuted]
    decide
  have injective : Function.Injective a := by decide
  exact absurd (permutation.injective (injective twice)) (by decide)

end SortingNetwork

end Eagine
