import Eagine.Theory.SortingNetwork

/-!
# Sorting by networks

The sorter has two arrays. A round reads one of them and writes the other one, element by
element, and the rounds alternate between them.
-/

/-!
## Sorting networks

In every round of a network an element is compared with another one, and it is replaced
by the lesser or by the greater of the two. There are tables for some sizes, and bitonic
networks that are cut to their sizes for all others.
-/

namespace Eagine

/-- What a network has for a round and an element. -/
structure SortingNetwork (N : Nat) where
  rounds : Nat
  index (round : Nat) (elem : Fin N) : Fin N
  min (round : Nat) (i j : Fin N) : Bool
  max (round : Nat) (i j : Fin N) : Bool

namespace BitonicSortingNetwork

/-- The number of times that a power is doubled to reach `n`. -/
def nextLog (n pot : Nat) (positive : 0 < pot) : Nat :=
  if pot < n then 1 + nextLog n (pot <<< 1) (Nat.lt_of_lt_of_le positive (Nat.le_shiftLeft ..))
  else 0
termination_by n - pot
decreasing_by
  rw [Nat.shiftLeft_eq]
  omega

/-- `_hlp` -/
def triangle (n : Nat) : Nat :=
  match n with
  | 0 => 0
  | n + 1 => (n + 1) + triangle n

def numRoundsFor (n : Nat) : Nat :=
  triangle (nextLog n 1 Nat.one_pos)

/-- The index at the distance, if it is one of an element. -/
def partner (N d i : Nat) : Nat :=
  let j := if i &&& d = 0 then i + d else i - d
  if N ≤ j then i else j

/-- An element of the row that is filled for `k` and `m`: twice the index of the element
that it is compared with, and one more if they are ordered inversely. -/
def rowElem (N k m i : Nat) : Nat :=
  -- the shift of an unsigned int, if it is defined
  let d := 1 <<< (k - m)
  let inv := ((i >>> k) &&& 2) >>> 1
  (partner N d i <<< 1) ||| inv

/-- The rows in the order in which `_fill_idx` fills them. -/
def rows (N : Nat) : List (Nat × Nat) :=
  (List.range (nextLog N 1 Nat.one_pos)).flatMap fun k =>
    (List.range (k + 1)).map fun m => (k, m)

/-- Every `1U << (k - m)` of `_fill_idx` is a shift by less than the 32 bits of an unsigned
int. -/
def ShiftsDefined (N : Nat) : Prop :=
  ∀ row ∈ rows N, row.1 - row.2 < 32

/-- `_c` -/
def c (N r i : Nat) : Nat :=
  let row := (rows N).getD r (0, 0)
  rowElem N row.1 row.2 i

theorem partner_lt {N d i : Nat} (inside : i < N) : partner N d i < N := by
  simp only [partner]
  generalize (if i &&& d = 0 then i + d else i - d) = j
  split_ifs with past
  · exact inside
  · exact Nat.lt_of_not_le past

theorem inv_lt (k i : Nat) : ((i >>> k) &&& 2) >>> 1 < 2 := by
  rw [Nat.shiftRight_eq_div_pow]
  have atMost : (i >>> k) &&& 2 ≤ 2 := Nat.and_le_right
  omega

theorem rowElem_shiftRight (N k m i : Nat) :
    rowElem N k m i >>> 1 = partner N (1 <<< (k - m)) i := by
  rw [rowElem, Nat.shiftRight_or_distrib, Nat.shiftLeft_shiftRight,
    Nat.shiftRight_eq_div_pow _ 1, Nat.pow_one, Nat.div_eq_of_lt (inv_lt k i), Nat.or_zero]

theorem c_shiftRight_lt (r : Nat) {N i : Nat} (inside : i < N) : c N r i >>> 1 < N := by
  rw [c, rowElem_shiftRight]
  exact partner_lt inside

def index {N : Nat} (r : Nat) (i : Fin N) : Fin N :=
  ⟨c N r i >>> 1, c_shiftRight_lt r i.isLt⟩

def inv {N : Nat} (r : Nat) (i : Fin N) : Bool :=
  c N r i &&& 1 == 1

end BitonicSortingNetwork

def bitonicSortingNetwork (N : Nat) : SortingNetwork N where
  rounds := BitonicSortingNetwork.numRoundsFor N
  index := BitonicSortingNetwork.index
  min r i j := if BitonicSortingNetwork.inv r i then decide (j < i) else decide (i < j)
  max r i j := if BitonicSortingNetwork.inv r i then decide (i < j) else decide (j < i)

/-- What a network for a specific number of elements has. -/
structure ManualSortingNetworkBase (N : Nat) where
  rounds : Nat
  index (round : Nat) (elem : Fin N) : Fin N

/-- A network with a table of its rounds. -/
def ManualSortingNetworkBase.ofTable {N : Nat} (idx : List (List (Fin N))) :
    ManualSortingNetworkBase N where
  rounds := idx.length
  index round elem := (idx.getD round []).getD elem elem

def idx3 : List (List (Fin 3)) :=
  [[1, 0, 2],
    [0, 2, 1],
    [1, 0, 2]]

def idx4 : List (List (Fin 4)) :=
  [[1, 0, 3, 2],
    [2, 3, 0, 1],
    [0, 2, 1, 3]]

def idx5 : List (List (Fin 5)) :=
  [[1, 0, 3, 2, 4],
    [0, 3, 4, 1, 2],
    [2, 4, 0, 3, 1],
    [0, 2, 1, 4, 3],
    [0, 1, 3, 2, 4]]

def idx6 : List (List (Fin 6)) :=
  [[1, 0, 3, 2, 5, 4],
    [2, 4, 0, 5, 1, 3],
    [1, 0, 3, 2, 5, 4],
    [0, 2, 1, 4, 3, 5],
    [0, 1, 3, 2, 4, 5]]

def idx7 : List (List (Fin 7)) :=
  [[1, 0, 3, 2, 5, 4, 6],
    [2, 3, 0, 1, 6, 5, 4],
    [4, 5, 6, 3, 0, 1, 2],
    [0, 4, 2, 6, 1, 5, 3],
    [0, 1, 4, 5, 2, 3, 6],
    [0, 2, 1, 4, 3, 6, 5]]

def idx8 : List (List (Fin 8)) :=
  [[1, 0, 3, 2, 5, 4, 7, 6],
    [2, 3, 0, 1, 6, 7, 4, 5],
    [4, 2, 1, 7, 0, 6, 5, 3],
    [0, 5, 6, 3, 4, 1, 2, 7],
    [0, 1, 4, 5, 2, 3, 6, 7],
    [0, 2, 1, 4, 3, 6, 5, 7]]

def idx9 : List (List (Fin 9)) :=
  [[7, 6, 5, 4, 3, 2, 1, 0, 8],
    [3, 2, 1, 0, 7, 5, 8, 4, 6],
    [1, 0, 6, 4, 3, 8, 2, 7, 5],
    [0, 2, 1, 5, 6, 3, 4, 8, 7],
    [0, 3, 4, 1, 2, 7, 6, 5, 8],
    [1, 0, 3, 2, 5, 4, 7, 6, 8],
    [0, 1, 2, 4, 3, 6, 5, 7, 8]]

def idx10 : List (List (Fin 10)) :=
  [[1, 0, 3, 2, 5, 4, 7, 6, 9, 8],
    [5, 8, 6, 7, 9, 0, 2, 3, 1, 4],
    [2, 4, 0, 6, 1, 8, 3, 9, 5, 7],
    [1, 0, 7, 5, 6, 3, 4, 2, 9, 8],
    [0, 3, 4, 1, 2, 7, 8, 5, 6, 9],
    [0, 2, 1, 4, 3, 6, 5, 8, 7, 9],
    [0, 1, 3, 2, 5, 4, 7, 6, 8, 9]]

def idx11 : List (List (Fin 11)) :=
  [[0, 10, 9, 8, 7, 6, 5, 4, 3, 2, 1],
    [6, 4, 3, 2, 1, 5, 0, 10, 9, 8, 7],
    [1, 0, 5, 4, 3, 2, 6, 8, 7, 10, 9],
    [2, 5, 0, 3, 6, 1, 4, 7, 9, 8, 10],
    [0, 8, 3, 2, 7, 9, 10, 4, 1, 5, 6],
    [0, 4, 2, 5, 1, 3, 9, 8, 7, 6, 10],
    [0, 2, 1, 4, 3, 7, 8, 5, 6, 9, 10],
    [0, 1, 3, 2, 5, 4, 7, 6, 8, 9, 10]]

def idx12 : List (List (Fin 12)) :=
  [[6, 7, 8, 9, 10, 11, 0, 1, 2, 3, 4, 5],
    [3, 4, 5, 0, 1, 2, 9, 10, 11, 6, 7, 8],
    [1, 0, 2, 6, 5, 4, 3, 8, 7, 9, 11, 10],
    [0, 2, 1, 4, 3, 8, 7, 6, 5, 10, 9, 11],
    [1, 0, 9, 6, 5, 4, 3, 8, 7, 2, 11, 10],
    [0, 3, 6, 1, 7, 9, 2, 4, 10, 5, 8, 11],
    [0, 1, 3, 2, 6, 7, 4, 5, 9, 8, 10, 11],
    [0, 1, 2, 4, 3, 6, 5, 8, 7, 9, 10, 11]]

def idx14 : List (List (Fin 14)) :=
  [[13, 12, 11, 10, 9, 8, 7, 6, 5, 4, 3, 2, 1, 0],
    [5, 4, 3, 2, 1, 0, 6, 7, 13, 12, 11, 10, 9, 8],
    [1, 0, 2, 6, 5, 4, 3, 10, 9, 8, 7, 11, 13, 12],
    [0, 7, 8, 4, 3, 11, 12, 1, 2, 10, 9, 5, 6, 13],
    [3, 2, 1, 0, 9, 8, 7, 6, 5, 4, 13, 12, 11, 10],
    [1, 0, 3, 2, 8, 7, 9, 5, 4, 6, 11, 10, 13, 12],
    [0, 2, 1, 5, 6, 3, 4, 9, 10, 7, 8, 12, 11, 13],
    [0, 1, 2, 4, 3, 6, 5, 8, 7, 10, 9, 11, 12, 13],
    [0, 1, 3, 2, 5, 4, 7, 6, 9, 8, 11, 10, 12, 13]]

def idx16 : List (List (Fin 16)) :=
  [[15, 14, 13, 12, 11, 10, 9, 8, 7, 6, 5, 4, 3, 2, 1, 0],
    [7, 6, 5, 4, 3, 2, 1, 0, 15, 14, 13, 12, 11, 10, 9, 8],
    [3, 2, 1, 0, 7, 6, 5, 4, 11, 10, 9, 8, 15, 14, 13, 12],
    [1, 0, 8, 9, 5, 4, 12, 13, 2, 3, 11, 10, 6, 7, 15, 14],
    [0, 4, 3, 2, 1, 10, 9, 8, 7, 6, 5, 14, 13, 12, 11, 15],
    [0, 2, 1, 4, 3, 9, 8, 10, 6, 5, 7, 12, 11, 14, 13, 15],
    [0, 1, 3, 2, 6, 7, 4, 5, 10, 11, 8, 9, 13, 12, 14, 15],
    [0, 1, 2, 3, 5, 4, 7, 6, 9, 8, 11, 10, 12, 13, 14, 15],
    [0, 1, 2, 4, 3, 6, 5, 8, 7, 11, 9, 12, 11, 13, 14, 15]]

/-- The specializations of `manual_sorting_network_base`. -/
def manualSortingNetworkBase : (N : Nat) → Option (ManualSortingNetworkBase N)
  | 1 => some ⟨1, fun _ _ => 0⟩
  | 2 => some ⟨1, fun _ elem => if elem = 0 then 1 else 0⟩
  | 3 => some (.ofTable idx3)
  | 4 => some (.ofTable idx4)
  | 5 => some (.ofTable idx5)
  | 6 => some (.ofTable idx6)
  | 7 => some (.ofTable idx7)
  | 8 => some (.ofTable idx8)
  | 9 => some (.ofTable idx9)
  | 10 => some (.ofTable idx10)
  | 11 => some (.ofTable idx11)
  | 12 => some (.ofTable idx12)
  | 14 => some (.ofTable idx14)
  | 16 => some (.ofTable idx16)
  | _ => none

def manualSortingNetwork {N : Nat} (base : ManualSortingNetworkBase N) : SortingNetwork N where
  rounds := base.rounds
  index := base.index
  min _ i j := decide (i < j)
  max _ i j := decide (j < i)

def sortingNetwork (N : Nat) : SortingNetwork N :=
  match manualSortingNetworkBase N with
  | some base => manualSortingNetwork base
  | none => bitonicSortingNetwork N

/-- The table of the network is given, or it can be filled. -/
def TableDefined (N : Nat) : Prop :=
  manualSortingNetworkBase N = none → BitonicSortingNetwork.ShiftsDefined N

open Theory

universe u

variable {N : Nat} {T : Type u}

namespace SortingNetwork

variable (before : T → T → Bool)

/-- `_min` -/
def minOf (a b : T) : T :=
  if before a b then a else b

/-- `_max` -/
def maxOf (a b : T) : T :=
  if before a b then b else a

def minMaxCpy (a b : T) (min max : Bool) : T :=
  if min then minOf before a b else if max then maxOf before a b else a

/-- What `single_sort_step` assigns to the element. -/
def singleSortStep (sn : SortingNetwork N) (src : Fin N → T) (r : Nat) (i : Fin N) : T :=
  let j := sn.index r i
  minMaxCpy before (src i) (src j) (sn.min r i j) (sn.max r i j)

end SortingNetwork

/-- The array that a round reads. The next one writes it. -/
def slot (round : Nat) : Fin 2 :=
  ⟨round % 2, Nat.mod_lt round Nat.two_pos⟩

theorem slot_ne_succ (round : Nat) : slot round ≠ slot (round + 1) := by
  intro same
  have remainder : round % 2 = (round + 1) % 2 := congrArg Fin.val same
  omega

/-- The next round, and the two arrays. -/
structure NetworkSorter (N : Nat) (T : Type u) where
  round : Nat
  a : Fin 2 → Fin N → T

namespace NetworkSorter

open SortingNetwork

variable (sn : SortingNetwork N) (before : T → T → Bool)

/-- The construction from an array. -/
def ofArray (a : Fin N → T) : NetworkSorter N T :=
  ⟨0, fun _ => a⟩

def done (s : NetworkSorter N T) : Bool :=
  decide (sn.rounds ≤ s.round)

/-- Goes to the next round, and says if there is one. -/
def nextRound (s : NetworkSorter N T) : NetworkSorter N T × Bool :=
  if s.done sn then (s, false)
  else ({ s with round := s.round + 1 }, decide (s.round + 1 < sn.rounds))

def sortSingle (s : NetworkSorter N T) (i : Fin N) : NetworkSorter N T :=
  let src := slot s.round
  let dst := slot (s.round + 1)
  { s with
    a := Function.update s.a dst
      (Function.update (s.a dst) i (singleSortStep before sn (s.a src) s.round i)) }

def sortRound (s : NetworkSorter N T) : NetworkSorter N T :=
  (List.finRange N).foldl (sortSingle sn before) s

/-- The elements that are sorted are those of the array that is read, in the other one. -/
theorem foldl_sortSingle (s : NetworkSorter N T) (elements : List (Fin N)) :
    elements.foldl (sortSingle sn before) s =
      { s with
        a := Function.update s.a (slot (s.round + 1)) fun i =>
          if i ∈ elements then singleSortStep before sn (s.a (slot s.round)) s.round i
          else s.a (slot (s.round + 1)) i } := by
  have apart := slot_ne_succ s.round
  induction elements generalizing s with
  | nil => simp
  | cons first elements ih =>
      rw [List.foldl_cons, ih (sortSingle sn before s first) apart]
      simp only [sortSingle, Function.update_of_ne apart, Function.update_self,
        Function.update_idem]
      congr 2
      funext i
      by_cases here : i = first
      · simp [here]
      · simp [here]

theorem sortRound_eq (s : NetworkSorter N T) :
    s.sortRound sn before =
      { s with
        a := Function.update s.a (slot (s.round + 1))
          (singleSortStep before sn (s.a (slot s.round)) s.round) } := by
  rw [sortRound, foldl_sortSingle]
  simp

/-- There are fewer rounds left after going to the next one. -/
theorem nextRound_lt (s : NetworkSorter N T) (more : (s.nextRound sn).2 = true) :
    sn.rounds - (s.nextRound sn).1.round < sn.rounds - s.round := by
  rw [nextRound] at more ⊢
  split_ifs at more ⊢
  have within := of_decide_eq_true more
  change sn.rounds - (s.round + 1) < sn.rounds - s.round
  omega

/-- Sorts rounds while there is a next one. -/
def sort (s : NetworkSorter N T) : NetworkSorter N T :=
  let next := (s.sortRound sn before).nextRound sn
  if next.2 then sort next.1 else next.1
termination_by sn.rounds - s.round
decreasing_by
  rename_i more
  have less := nextRound_lt sn (s.sortRound sn before) more
  rw [sortRound_eq] at less
  rwa [sortRound_eq]

def result (s : NetworkSorter N T) : Fin N → T :=
  s.a (slot sn.rounds)

/-- The rounds that are left are those of the array that is to be read. -/
theorem result_sort (s : NetworkSorter N T) {left : Nat} (rest : s.round + 1 + left = sn.rounds) :
    (s.sort sn before).result sn =
      (List.range' s.round (left + 1)).foldl (singleSortStep before sn)
        (s.a (slot s.round)) := by
  have within : ¬sn.rounds ≤ s.round := by omega
  induction left generalizing s with
  | zero =>
      have last : ¬s.round + 1 < sn.rounds := by omega
      rw [sort, sortRound_eq, result, ← rest]
      simp [nextRound, done, within, last]
  | succ left ih =>
      have more : s.round + 1 < sn.rounds := by omega
      rw [sort, sortRound_eq]
      simp only [nextRound, done, decide_eq_true_iff, within, if_false, more, decide_true, if_true]
      have rest' : s.round + 1 + 1 + left = sn.rounds := by omega
      rw [ih ⟨s.round + 1, _⟩ rest' (Nat.not_le.mpr more), List.range'_succ (n := left + 1)]
      simp

end NetworkSorter

/-- `operator()` of the sorter of an array. -/
def networkSorter (sn : SortingNetwork N) (before : T → T → Bool) (a : Fin N → T) : Fin N → T :=
  ((NetworkSorter.ofArray a).sort sn before).result sn

/-- The sorter does the rounds of the network, one after another. -/
theorem networkSorter_eq (sn : SortingNetwork N) (before : T → T → Bool) (a : Fin N → T) :
    networkSorter sn before a =
      (List.range sn.rounds).foldl (SortingNetwork.singleSortStep before sn) a := by
  rw [networkSorter, List.range_eq_range']
  cases rounds : sn.rounds with
  | zero =>
      rw [NetworkSorter.sort, NetworkSorter.sortRound_eq, NetworkSorter.result, rounds]
      simp [NetworkSorter.nextRound, NetworkSorter.done, NetworkSorter.ofArray, rounds,
        Function.update_of_ne (slot_ne_succ 0)]
  | succ left =>
      have rest : 0 + 1 + left = sn.rounds := by omega
      exact NetworkSorter.result_sort sn before (NetworkSorter.ofArray a) rest

def networkSort (before : T → T → Bool) (a : Fin N → T) : Fin N → T :=
  ((NetworkSorter.ofArray a).sort (sortingNetwork N) before).result (sortingNetwork N)

namespace SortingNetwork

/-- A round of a network. -/
def round (sn : SortingNetwork N) (r : Nat) : SortingRound (Fin N) where
  partner := sn.index r
  low i := sn.min r i (sn.index r i)
  high i := sn.max r i (sn.index r i)

def roundList (sn : SortingNetwork N) : List (SortingRound (Fin N)) :=
  (List.range sn.rounds).map sn.round

theorem minMaxCpy_eq [LinearOrder T] (a b : T) (low high : Bool) :
    minMaxCpy (fun x y => decide (x < y)) a b low high =
      if low then Min.min a b else if high then Max.max a b else a := by
  simp only [minMaxCpy, minOf, maxOf, decide_eq_true_iff]
  by_cases less : a < b
  · rw [if_pos less, if_pos less, min_eq_left less.le, max_eq_right less.le]
  · have notLess := not_lt.mp less
    rw [if_neg less, if_neg less, min_eq_right notLess, max_eq_left notLess]

/-- A sort step with a linear order is a round. -/
theorem singleSortStep_eq [LinearOrder T] (sn : SortingNetwork N) (src : Fin N → T) (r : Nat) :
    singleSortStep (fun x y => decide (x < y)) sn src r = (sn.round r).apply src :=
  funext fun _ => minMaxCpy_eq _ _ _ _

/-- Sorting runs the rounds of the network. -/
theorem networkSorter_eq_runRounds [LinearOrder T] (sn : SortingNetwork N) (a : Fin N → T) :
    networkSorter sn (fun x y => decide (x < y)) a = runRounds sn.roundList a := by
  rw [networkSorter_eq, runRounds, roundList, List.foldl_map]
  congr 1
  funext a r
  exact singleSortStep_eq sn a r

theorem networkSort_eq [LinearOrder T] (a : Fin N → T) :
    networkSort (fun x y => decide (x < y)) a = runRounds (sortingNetwork N).roundList a :=
  networkSorter_eq_runRounds (sortingNetwork N) a

end SortingNetwork

/-- The network gives a sorted permutation of every array, in every linear order. -/
def SortingNetwork.SortsArrays (sn : SortingNetwork N) : Prop :=
  ∀ (T : Type u) [LinearOrder T] (a : Fin N → T),
    Monotone (networkSorter sn (fun x y => decide (x < y)) a) ∧
      ∃ permutation : Equiv.Perm (Fin N),
        networkSorter sn (fun x y => decide (x < y)) a = a ∘ permutation

/-- Sorting gives a sorted permutation of every array, in every linear order. -/
def Sorts (N : Nat) : Prop :=
  ∀ (T : Type u) [LinearOrder T] (a : Fin N → T),
    Monotone (networkSort (fun x y => decide (x < y)) a) ∧
      ∃ permutation : Equiv.Perm (Fin N),
        networkSort (fun x y => decide (x < y)) a = a ∘ permutation

open SortingNetwork

/-- A network sorts if it sorts truth values and its rounds are balanced. -/
theorem SortingNetwork.sortsArrays_of_bool {sn : SortingNetwork N}
    (balanced : ∀ r < sn.rounds, (sn.round r).Balanced)
    (sorts : ∀ b : Fin N → Bool, Monotone (runRounds sn.roundList b)) :
    SortsArrays.{u} sn := by
  intro T _ a
  rw [networkSorter_eq_runRounds]
  refine ⟨monotone_runRounds sorts a, exists_perm_runRounds (fun round member => ?_) a⟩
  obtain ⟨r, inside, rfl⟩ := List.mem_map.mp member
  exact balanced r (List.mem_range.mp inside)

theorem sorts_iff_sortsArrays : Sorts.{u} N ↔ SortsArrays.{u} (sortingNetwork N) :=
  Iff.rfl

/-- The arrays can be in any universe. -/
theorem Sorts.runRounds {T : Type} [LinearOrder T] (sorts : Sorts.{u} N) (a : Fin N → T) :
    Monotone (Theory.runRounds (sortingNetwork N).roundList a) ∧
      ∃ permutation : Equiv.Perm (Fin N),
        Theory.runRounds (sortingNetwork N).roundList a = a ∘ permutation := by
  have lift : Monotone (ULift.up.{u} : T → ULift T) := fun _ _ below => below
  obtain ⟨sorted, permutation, permuted⟩ := sorts (ULift T) (ULift.up ∘ a)
  rw [networkSort_eq, runRounds_comp _ lift] at sorted permuted
  refine ⟨fun i j ordered => sorted ordered, permutation, funext fun i => ?_⟩
  exact congrArg ULift.down (congrFun permuted i)

end Eagine
