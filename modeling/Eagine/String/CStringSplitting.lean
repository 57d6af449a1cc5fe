import Eagine.String.StringSplitting
import Mathlib.Data.List.TakeWhile

/-!
# Splitting C strings

A C string is what is in the memory from its pointer on, and the loops over it read until
they break. What is behind the last separator is no element of the list, and where NUL is the
separator, a string with one character ends the list.
-/

namespace Eagine.StringList

open MultiByte List

section Separators

variable {σ : Type*} (func : σ → StringView → Option σ)

/-- The call for an element, which is counted. -/
def callCounted (state : σ × Nat) (elem : StringView) : Option (σ × Nat) :=
  (func state.1 elem).map fun next => (next, state.2 + 1)

/-- The loop of `for_each_separated_c_str` for a separator other than NUL, over the memory from
`pos` on. The element is what is from `bgn` up to `pos`. -/
def scanSeparated (sep : UInt8) :
    StringView → StringView → σ × Nat → Option (σ × Nat)
  | [], _, _ => none
  | c :: memory, elem, state =>
      if c ≠ 0 then
        if c = sep then
          if 0 < elem.length then
            (callCounted func state elem).bind (scanSeparated sep memory [])
          else some state
        else scanSeparated sep memory (elem ++ [c]) state
      else some state

/-- The loop for NUL as the separator. -/
def scanTerminated (sep : UInt8) :
    StringView → StringView → σ × Nat → Option (σ × Nat)
  | [], _, _ => none
  | c :: memory, elem, state =>
      if c = sep ∨ c = 0 then
        if 1 < elem.length then
          (callCounted func state elem).bind (scanTerminated sep memory [])
        else some state
      else scanTerminated sep memory (elem ++ [c]) state

/-- A null pointer is no memory at all. -/
def forEachSeparatedCStr (str : Option StringView) (sep : UInt8) (state : σ) :
    Option (σ × Nat) :=
  match str with
  | none => some (state, 0)
  | some memory =>
      if sep ≠ 0 then scanSeparated func sep memory [] (state, 0)
      else scanTerminated func sep memory [] (state, 0)

end Separators

def splitCStrInto (dst : StringView) (str : Option StringView) (sep : UInt8) :
    Option (StringView × Nat) :=
  forEachSeparatedCStr pushBack? str sep dst

def splitCStr (str : Option StringView) (sep : UInt8) : Option (StringView × Nat) :=
  splitCStrInto [] str sep

/-- The strings that can be told apart: neither the separator nor NUL is in them. -/
def IsSeparable (sep : UInt8) (v : StringView) : Prop :=
  v ≠ [] ∧ 0 ∉ v ∧ sep ∉ v

/-- The text of strings: joined by the separator and terminated, or each of them terminated
and a NUL behind the last one. -/
def cText (sep : UInt8) (values : List StringView) : StringView :=
  if sep = 0 then values.flatMap (· ++ [0]) ++ [0] else [sep].intercalate values ++ [0]

section Separators

variable {σ : Type*} (func : σ → StringView → Option σ) {sep : UInt8} {v : StringView}

theorem scanSeparated_value (noNul : 0 ∉ v) (noSep : sep ∉ v)
    (memory elem : StringView) (state : σ × Nat) :
    scanSeparated func sep (v ++ memory) elem state =
      scanSeparated func sep memory (elem ++ v) state := by
  induction v generalizing elem with
  | nil => rw [nil_append, append_nil]
  | cons c v ih =>
      rw [mem_cons, not_or] at noNul noSep
      have notNul : c ≠ 0 := fun eq => noNul.1 eq.symm
      have notSep : ¬c = sep := fun eq => noSep.1 eq.symm
      rw [cons_append, scanSeparated, if_pos notNul, if_neg notSep, ih noNul.2 noSep.2,
        append_assoc]
      rfl

variable {values : List StringView}

/-- The last string is not passed. -/
theorem scanSeparated_eq (notNul : sep ≠ 0)
    (separable : ∀ other ∈ v :: values, IsSeparable sep other) (junk : StringView)
    (state : σ × Nat) :
    scanSeparated func sep ([sep].intercalate (v :: values) ++ 0 :: junk) [] state =
      (v :: values).dropLast.foldlM (callCounted func) state := by
  induction values generalizing v state with
  | nil =>
      rcases separable v (mem_singleton_self v) with ⟨_, noNul, noSep⟩
      rw [intercalate_singleton, scanSeparated_value func noNul noSep, scanSeparated,
        if_neg (not_not_intro rfl)]
      rfl
  | cons next values ih =>
      rcases forall_mem_cons.mp separable with ⟨⟨nonempty, noNul, noSep⟩, others⟩
      have positive : 0 < ([] ++ v).length := length_pos_of_ne_nil nonempty
      rw [intercalate_cons_cons, append_assoc, append_assoc,
        scanSeparated_value func noNul noSep, singleton_append, scanSeparated,
        if_pos notNul, if_pos rfl, if_pos positive, dropLast_cons_cons, foldlM_cons]
      apply congrArg (Option.bind _)
      funext after
      exact ih others after

theorem scanTerminated_value (noNul : 0 ∉ v) (memory elem : StringView) (state : σ × Nat) :
    scanTerminated func 0 (v ++ memory) elem state =
      scanTerminated func 0 memory (elem ++ v) state := by
  induction v generalizing elem with
  | nil => rw [nil_append, append_nil]
  | cons c v ih =>
      rw [mem_cons, not_or] at noNul
      have notNul : ¬(c = 0 ∨ c = 0) := by
        rw [or_self]
        exact fun eq => noNul.1 eq.symm
      rw [cons_append, scanTerminated, if_neg notNul, ih noNul.2, append_assoc]
      rfl

/-- The strings up to the first one with a single character are passed. -/
theorem scanTerminated_eq (separable : ∀ v ∈ values, IsSeparable 0 v) (junk : StringView)
    (state : σ × Nat) :
    scanTerminated func 0 (values.flatMap (· ++ [0]) ++ 0 :: junk) [] state =
      (values.takeWhile fun v => decide (1 < v.length)).foldlM (callCounted func) state := by
  induction values generalizing state with
  | nil => rfl
  | cons v values ih =>
      rcases forall_mem_cons.mp separable with ⟨⟨_, noNul, _⟩, others⟩
      rw [flatMap_cons, append_assoc, append_assoc,
        scanTerminated_value func noNul, singleton_append, scanTerminated,
        if_pos (Or.inl rfl), nil_append]
      by_cases long : 1 < v.length
      · rw [if_pos long, takeWhile_cons, if_pos (decide_eq_true long), foldlM_cons]
        apply congrArg (Option.bind _)
        funext after
        exact ih others after
      · have notLong : ¬decide (1 < v.length) = true := by
          rwa [decide_eq_true_iff]
        rw [if_neg long, takeWhile_cons, if_neg notLong]
        rfl

/-- The strings that are passed to the function. -/
def passed (sep : UInt8) (values : List StringView) : List StringView :=
  if sep = 0 then values.takeWhile fun v => decide (1 < v.length) else values.dropLast

theorem forEachSeparatedCStr_eq (separable : ∀ v ∈ values, IsSeparable sep v) (junk : StringView)
    (state : σ) :
    forEachSeparatedCStr func (some (cText sep values ++ junk)) sep state =
      (passed sep values).foldlM (callCounted func) (state, 0) := by
  by_cases isNul : sep = 0
  · subst isNul
    have terminated := scanTerminated_eq func separable junk (state, 0)
    rw [forEachSeparatedCStr, cText, passed, if_pos rfl, if_pos rfl, append_assoc,
      singleton_append]
    exact terminated
  · rw [cText, passed, if_neg isNul, if_neg isNul, append_assoc, singleton_append]
    cases values with
    | nil =>
        simp only [forEachSeparatedCStr, if_pos isNul]
        rfl
    | cons v values =>
        simp only [forEachSeparatedCStr, if_pos isNul]
        exact scanSeparated_eq func isNul separable junk (state, 0)

/-- The strings are counted where all the calls return. -/
theorem foldlM_callCounted_count {state after : σ × Nat}
    (returns : values.foldlM (callCounted func) state = some after) :
    after.2 = state.2 + values.length := by
  induction values generalizing state with
  | nil =>
      cases returns
      rfl
  | cons v values ih =>
      rw [foldlM_cons] at returns
      rcases Option.bind_eq_some_iff.mp returns with ⟨next, called, others⟩
      rcases Option.map_eq_some_iff.mp called with ⟨result, _, rfl⟩
      rw [ih others, length_cons, Nat.add_right_comm, Nat.add_assoc]

end Separators

theorem toNat_lt_of_doDecodeCodePoint {src : List UInt8} {vl : Option Nat} {cp : CodePoint}
    (decoded : doDecodeCodePoint src vl = some cp) : cp.toNat < 0x7FFFFFFF := by
  unfold doDecodeCodePoint at decoded
  split at decoded
  · split at decoded
    · rw [doDecodeCodePointFrom, codePoint] at decoded
      split at decoded
      · rename_i valid
        cases decoded
        exact of_decide_eq_true valid
      · cases decoded
    · cases decoded
  · cases decoded

/-- A value that is read has a length that is a valid code point. -/
theorem isShort_value (elem : StringView) : IsShort (Element.value elem) := by
  have size (l : Nat) : elementValueSize (Element.header elem) l < 0x7FFFFFFF := by
    rw [elementValueSize]
    split
    · rename_i cp decoded
      exact toNat_lt_of_doDecodeCodePoint decoded
    · decide
  rw [IsShort, Element.value, length_take]
  exact (Nat.min_le_left _ _).trans_lt (size _)

theorem isShort_of_valuesOf {list : StringView} {values : List StringView}
    (read : valuesOf list = some values) : ∀ v ∈ values, IsShort v := by
  rcases Option.map_eq_some_iff.mp read with ⟨elems, _, rfl⟩
  intro v mem
  rcases mem_map.mp mem with ⟨elem, _, rfl⟩
  exact isShort_value elem

/-- The strings of a text are the values of the list that is made of it, and they are
counted. -/
def SplitsAll (sep : UInt8) (values : List StringView) (junk : StringView) : Prop :=
  ∃ list, splitCStr (some (cText sep values ++ junk)) sep = some (list, values.length) ∧
    forEach list (fun visited v => visited ++ [v]) [] = some values

theorem isPrefix_passed (sep : UInt8) (values : List StringView) :
    passed sep values <+: values := by
  rw [passed]
  split
  · exact takeWhile_prefix _
  · exact dropLast_prefix values

theorem passed_eq_iff {sep : UInt8} {values : List StringView} :
    passed sep values = values ↔
      (sep ≠ 0 → values = []) ∧ (sep = 0 → ∀ v ∈ values, 2 ≤ v.length) := by
  by_cases isNul : sep = 0
  · have vacuous : sep ≠ 0 → values = [] := fun notNul => absurd isNul notNul
    rw [passed, if_pos isNul, takeWhile_eq_self_iff, and_iff_right vacuous,
      forall_prop_of_true isNul]
    exact forall₂_congr fun v _ => decide_eq_true_iff
  · have vacuous : sep = 0 → ∀ v ∈ values, 2 ≤ v.length := fun eq => absurd eq isNul
    rw [passed, if_neg isNul, and_iff_left vacuous, forall_prop_of_true isNul]
    constructor
    · intro same
      by_contra nonempty
      have fewer := congrArg List.length same
      rw [length_dropLast] at fewer
      have positive := length_pos_of_ne_nil nonempty
      omega
    · rintro rfl
      rfl

/-- The strings are split at NUL if they have two characters or more and a length that is a
code point. At another separator, only an empty list of strings is split. -/
theorem splitsAll_iff (sep : UInt8) (values : List StringView)
    (separable : ∀ v ∈ values, IsSeparable sep v) (junk : StringView) :
    SplitsAll sep values junk ↔
      (sep ≠ 0 → values = []) ∧
        (sep = 0 → ∀ v ∈ values, 2 ≤ v.length ∧ v.length < 2 ^ 31 - 1) := by
  constructor
  · rintro ⟨list, splits, visited⟩
    rw [splitCStr, splitCStrInto, forEachSeparatedCStr_eq pushBack? separable] at splits
    have counted := foldlM_callCounted_count pushBack? splits
    have all : passed sep values = values := by
      apply (isPrefix_passed sep values).eq_of_length
      exact (counted.trans (Nat.zero_add _)).symm
    rcases passed_eq_iff.mp all with ⟨ifSeparated, ifTerminated⟩
    rw [forEach_collect] at visited
    refine ⟨ifSeparated, ?_⟩
    intro isNul v mem
    exact ⟨ifTerminated isNul v mem, isShort_of_valuesOf visited v mem⟩
  · rintro ⟨ifSeparated, ifTerminated⟩
    have all : passed sep values = values :=
      passed_eq_iff.mpr ⟨ifSeparated, fun isNul v mem => (ifTerminated isNul v mem).1⟩
    have short : ∀ v ∈ values, IsShort v := by
      by_cases isNul : sep = 0
      · intro v mem
        exact (ifTerminated isNul v mem).2
      · rw [ifSeparated isNul]
        intro v mem
        cases mem
    have pushed := foldlM_pushPiece values short ([], 0)
    rw [nil_append, Nat.zero_add] at pushed
    refine ⟨elements values, ?_, ?_⟩
    · rw [splitCStr, splitCStrInto, forEachSeparatedCStr_eq pushBack? separable, all]
      exact pushed
    · rw [forEach_collect, valuesOf_elements short]

/-- Two strings in a text that are terminated. -/
theorem splitsAll_terminated :
    SplitsAll 0 [[0x61, 0x62], [0x63, 0x64]] [] := by
  apply (splitsAll_iff 0 _ _ []).mpr
  · constructor
    · intro notNul
      exact absurd rfl notNul
    · intro _
      decide
  · unfold IsSeparable
    decide

/-- The string behind the only separator of a text. -/
theorem not_forall_splitsAll :
    ¬∀ sep values junk, (∀ v ∈ values, IsSeparable sep v) → SplitsAll sep values junk := by
  intro all
  have separable : ∀ v ∈ ([[0x61], [0x62]] : List StringView), IsSeparable 0x2C v := by
    unfold IsSeparable
    decide
  rcases all 0x2C [[0x61], [0x62]] [] separable with ⟨list, splits, _⟩
  rw [splitCStr, splitCStrInto, forEachSeparatedCStr_eq pushBack? separable] at splits
  cases foldlM_callCounted_count pushBack? splits

end Eagine.StringList
