import Eagine.Memory.SpanAlgorithm
import Eagine.String.VariableSubstitution
import Eagine.Theory.Brackets

/-!
# Slices inside brackets

From the first left bracket on the loop counts the depth of the brackets, up to the right bracket
that matches it. The end of the span stops the loop as well, and then the last element is cut off
as if it was that bracket.
-/

namespace Eagine.Memory

open Theory List

variable {α : Type*} [DecidableEq α]

/-- The loop of `find_element` over what is at the positions and behind them. -/
def findElementFrom (what : α) : List α → Nat → Option Nat
  | [], _ => none
  | e :: spn, pos => if e = what then some pos else findElementFrom what spn (pos + 1)

def findElement (spn : List α) (what : α) : Option Nat :=
  findElementFrom what spn 0

/-- The greatest `int`, which cannot be incremented. Fewer brackets than that may be open at once
inside the first ones. -/
def depthLimit : Nat :=
  2 ^ 31 - 1

def increment (depth : Nat) : Option Nat :=
  if depth < depthLimit then some (depth + 1) else none

/-- The number of elements that the loop goes on for, until the depth is zero or there are no more. -/
def bracketLength (left right : α) : Nat → List α → Option Nat
  | _, [] => some 0
  | 0, _ => some 0
  | depth + 1, e :: spn =>
      (if e = left then increment (depth + 1)
        else if e = right then some depth
        else some (depth + 1)).bind fun next => (bracketLength left right next spn).map (· + 1)

omit [DecidableEq α] in
/-- `shrink` of the elements in front of a position, by one element on both sides. -/
def shrunkHead (spn : List α) (pos : Nat) : List α :=
  let kept := (spn.take pos).drop 1
  kept.take (kept.length - 1)

/-- `slice_inside_brackets`. There is no result where the depth gets too great. -/
def sliceInsideBrackets (spn : List α) (left right : α) : Option (List α) :=
  match findElement spn left with
  | some found =>
      let spn := spn.drop found
      (bracketLength left right 1 (spn.drop 1)).map fun length => shrunkHead spn (length + 1)
  | none => some []

/-- What an element is among the brackets. -/
def bracketMark (left right e : α) : Mark Unit :=
  if e = left then .opens () else if e = right then .closes () else .neither

/-- These elements are between the first left bracket and the right one that matches it. -/
def IsInside (left right : α) (spn inside : List α) : Prop :=
  ∃ before after, spn = before ++ left :: (inside ++ right :: after) ∧ left ∉ before ∧
    WellBracketed (inside.map (bracketMark left right))

/-- The slice is what is inside the brackets, and empty if there is no such thing. -/
def SlicesExactly (left right : α) (spn : List α) : Prop :=
  ∃ slice, sliceInsideBrackets spn left right = some slice ∧
    (IsInside left right spn slice ∨ slice = [] ∧ ∀ inside, ¬IsInside left right spn inside)

theorem findElementFrom_of_notMem {what : α} {spn : List α} (absent : what ∉ spn) (pos : Nat) :
    findElementFrom what spn pos = none := by
  induction spn generalizing pos with
  | nil => rfl
  | cons e spn ih =>
      rw [findElementFrom, if_neg (ne_of_not_mem_cons absent).symm,
        ih (not_mem_of_not_mem_cons absent)]

theorem findElementFrom_append {what : α} {before : List α} (absent : what ∉ before)
    (rest : List α) (pos : Nat) :
    findElementFrom what (before ++ what :: rest) pos = some (pos + before.length) := by
  induction before generalizing pos with
  | nil => rw [nil_append, findElementFrom, if_pos rfl]; rfl
  | cons e before ih =>
      rw [cons_append, findElementFrom, if_neg (ne_of_not_mem_cons absent).symm,
        ih (not_mem_of_not_mem_cons absent), length_cons, Nat.add_assoc, Nat.add_comm 1]

/-- The loop starts behind the first left bracket. -/
theorem sliceInsideBrackets_append {left : α} {before : List α} (absent : left ∉ before)
    (rest : List α) (right : α) :
    sliceInsideBrackets (before ++ left :: rest) left right =
      (bracketLength left right 1 rest).map fun length => shrunkHead (left :: rest) (length + 1) := by
  rw [sliceInsideBrackets, findElement, findElementFrom_append absent, Nat.zero_add]
  dsimp only
  rw [drop_left]
  rfl

omit [DecidableEq α] in
theorem shrunkHead_all (e : α) (rest : List α) :
    shrunkHead (e :: rest) (rest.length + 1) = rest.dropLast := by
  rw [shrunkHead, take_succ_cons, take_length, drop_succ_cons, drop_zero,
    dropLast_eq_take]

omit [DecidableEq α] in
theorem shrunkHead_inside (left right : α) (inside after : List α) :
    shrunkHead (left :: (inside ++ right :: after)) (inside.length + 1 + 1) = inside := by
  have kept : (inside ++ right :: after).take (inside.length + 1) = inside ++ [right] := by
    rw [append_cons, take_left' (by rw [length_append]; rfl)]
  rw [shrunkHead, take_succ_cons, kept, drop_succ_cons, drop_zero,
    ← dropLast_eq_take, dropLast_concat]

theorem bracketLength_zero (left right : α) (spn : List α) :
    bracketLength left right 0 spn = some 0 := by
  cases spn <;> rfl

variable {rest : List α}

section

variable {left right : α} (distinct : left ≠ right)

include distinct

theorem mark_right : bracketMark left right right = .closes () := by
  rw [bracketMark, if_neg (Ne.symm distinct), if_pos rfl]

theorem bracketLength_right (depth : Nat) (rest : List α) :
    bracketLength left right (depth + 1) (right :: rest) =
      (bracketLength left right depth rest).map (· + 1) := by
  rw [bracketLength, if_neg (Ne.symm distinct), if_pos rfl]
  rfl

/-- The depth is one more than the number of brackets that are open inside the first one. -/
theorem bracketLength_step {e : α} {stack next : List Unit}
    (stepped : (bracketMark left right e).step stack = some next)
    (shallow : stack.length < depthLimit) (rest : List α) :
    bracketLength left right (stack.length + 1) (e :: rest) =
      if next.length < depthLimit then
        (bracketLength left right (next.length + 1) rest).map (· + 1)
      else none := by
  by_cases isLeft : e = left
  · subst isLeft
    rw [bracketMark, if_pos rfl] at stepped
    cases stepped
    rw [bracketLength, if_pos rfl, increment, length_cons]
    split_ifs <;> rfl
  by_cases isRight : e = right
  · subst isRight
    rw [mark_right distinct] at stepped
    obtain rfl := Mark.eq_cons_of_step_closes stepped
    rw [length_cons] at shallow ⊢
    rw [bracketLength_right distinct, if_pos ((Nat.lt_succ_self _).trans shallow)]
  · rw [bracketMark, if_neg isLeft, if_neg isRight] at stepped
    have same : stack = next := by cases stack <;> exact Option.some.inj stepped
    subst same
    rw [bracketLength, if_neg isLeft, if_neg isRight, if_pos shallow]
    rfl

/-- The loop ends behind the right bracket that closes all that is open, unless the depth gets too
great on the way. -/
theorem bracketLength_matched {inside : List α} {stack : List Unit}
    (closes : run Mark.step stack (inside.map (bracketMark left right)) = some [])
    (shallow : stack.length < depthLimit) (after : List α) :
    (DepthBelow depthLimit stack (inside.map (bracketMark left right)) →
        bracketLength left right (stack.length + 1) (inside ++ right :: after) =
          some (inside.length + 1)) ∧
      (¬DepthBelow depthLimit stack (inside.map (bracketMark left right)) →
        bracketLength left right (stack.length + 1) (inside ++ right :: after) = none) := by
  induction inside generalizing stack with
  | nil =>
      cases closes
      refine ⟨fun _ => ?_, fun deep => absurd shallow deep⟩
      rw [nil_append, bracketLength_right distinct, length_nil, bracketLength_zero]
      rfl
  | cons e inside ih =>
      rcases Option.bind_eq_some_iff.mp closes with ⟨next, stepped, closesNext⟩
      have onlyNext : ∀ other, (bracketMark left right e).step stack = some other → other = next := by
        intro other steppedOther
        exact Option.some.inj (steppedOther.symm.trans stepped)
      rw [map_cons, cons_append, length_cons,
        bracketLength_step distinct stepped shallow]
      constructor
      · rintro ⟨-, below⟩
        have belowNext := below next stepped
        rw [if_pos belowNext.lt, (ih closesNext belowNext.lt).1 belowNext]
        rfl
      · intro deep
        split_ifs with shallowNext
        · have deepNext : ¬DepthBelow depthLimit next (inside.map (bracketMark left right)) := by
            intro below
            refine deep ⟨shallow, fun other steppedOther => ?_⟩
            rwa [onlyNext other steppedOther]
          rw [(ih closesNext shallowNext).2 deepNext]
          rfl
        · rfl

/-- Without such a bracket the loop goes on to the end, if the depth permits. -/
theorem bracketLength_unmatched {stack : List Unit}
    (unmatched : ∀ inside after, rest = inside ++ right :: after →
      run Mark.step stack (inside.map (bracketMark left right)) ≠ some [])
    (shallow : stack.length < depthLimit) {length : Nat}
    (reached : bracketLength left right (stack.length + 1) rest = some length) :
    length = rest.length := by
  induction rest generalizing stack length with
  | nil => exact (Option.some.inj reached).symm
  | cons e rest ih =>
      obtain ⟨next, stepped⟩ : ∃ next, (bracketMark left right e).step stack = some next := by
        rw [bracketMark]
        split_ifs with isLeft isRight
        · exact ⟨_, rfl⟩
        · rcases stack with _ | ⟨_, stack⟩
          · exact absurd rfl (unmatched [] rest (by rw [isRight, nil_append]))
          · exact ⟨stack, rfl⟩
        · exact ⟨stack, by cases stack <;> rfl⟩
      rw [bracketLength_step distinct stepped shallow] at reached
      split_ifs at reached with shallowNext
      rcases Option.map_eq_some_iff.mp reached with ⟨fewer, reachedNext, rfl⟩
      rw [length_cons, ih ?_ shallowNext reachedNext]
      intro inside after split closes
      apply unmatched (e :: inside) after (by rw [split, cons_append])
      rw [map_cons, run, stepped]
      exact closes

end

/-- The depth cannot get too great within a few elements. -/
theorem isSome_bracketLength (left right : α) {depth : Nat}
    (few : depth + rest.length ≤ depthLimit) : (bracketLength left right depth rest).isSome := by
  induction rest generalizing depth with
  | nil => cases depth <;> rfl
  | cons e rest ih =>
      rw [length_cons] at few
      cases depth with
      | zero => rfl
      | succ depth =>
          have next : ∀ d, d + rest.length ≤ depthLimit →
              ((bracketLength left right d rest).map (· + 1)).isSome := by
            intro d fewer
            rw [Option.isSome_map]
            exact ih fewer
          rw [bracketLength]
          split_ifs
          · rw [increment, if_pos (by omega)]
            exact next _ (by omega)
          · exact next _ (by omega)
          · exact next _ (by omega)

/-- There is no left bracket, or the one that matches the first is found without too great a depth,
or there is at most one element that can be cut off. -/
def SliceIsFound (left right : α) (spn : List α) : Prop :=
  left ∉ spn ∨
    (∃ inside, IsInside left right spn inside ∧
      DepthBelow depthLimit [] (inside.map (bracketMark left right))) ∨
    ∃ before rest, spn = before ++ left :: rest ∧ left ∉ before ∧ rest.length ≤ 1

/-- The first left bracket is at one place only. -/
theorem eq_of_append_eq {left : α} {before front rest few : List α} (absent : left ∉ before)
    (absentFront : left ∉ front) (split : before ++ left :: rest = front ++ left :: few) :
    before = front ∧ rest = few := by
  have first := congrArg (findElementFrom left · 0) split
  simp only [findElementFrom_append absent, findElementFrom_append absentFront,
    Option.some.injEq, Nat.zero_add] at first
  rcases append_inj split first with ⟨same, behind⟩
  exact ⟨same, (List.cons.inj behind).2⟩

/-- What is behind the first left bracket decides. -/
theorem isInside_append_iff {left right : α} {before : List α} (absent : left ∉ before)
    (rest inside : List α) :
    IsInside left right (before ++ left :: rest) inside ↔
      ∃ after, rest = inside ++ right :: after ∧
        WellBracketed (inside.map (bracketMark left right)) := by
  constructor
  · rintro ⟨other, after, split, absentOther, matched⟩
    exact ⟨after, (eq_of_append_eq absent absentOther split).2, matched⟩
  · rintro ⟨after, rfl, matched⟩
    exact ⟨before, after, rfl, absent, matched⟩

/-- Without a left bracket there is nothing to slice. -/
theorem slicesExactly_of_notMem {left : α} {spn : List α} (nowhere : left ∉ spn) (right : α) :
    SlicesExactly left right spn := by
  refine ⟨[], ?_, Or.inr ⟨rfl, ?_⟩⟩
  · rw [sliceInsideBrackets, findElement, findElementFrom_of_notMem nowhere]
  · rintro inside ⟨before, after, rfl, -⟩
    exact nowhere (mem_append_right before mem_cons_self)

section

variable {left right : α} (distinct : left ≠ right) {before : List α} (absent : left ∉ before)

include distinct absent

/-- Where the first left bracket is matched, only the depth between the two matters. -/
theorem slicesExactly_matched_iff {inside : List α}
    (closes : WellBracketed (inside.map (bracketMark left right))) (after : List α) :
    SlicesExactly left right (before ++ left :: (inside ++ right :: after)) ↔
      SliceIsFound left right (before ++ left :: (inside ++ right :: after)) := by
  have positive : ([] : List Unit).length < depthLimit := by decide
  have sliced := sliceInsideBrackets_append absent (inside ++ right :: after) right
  have found := bracketLength_matched distinct closes positive after
  have isInside := (isInside_append_iff absent _ inside).mpr ⟨after, rfl, closes⟩
  by_cases shallow : DepthBelow depthLimit [] (inside.map (bracketMark left right))
  · refine iff_of_true ⟨inside, ?_, Or.inl isInside⟩ (Or.inr (Or.inl ⟨inside, isInside, shallow⟩))
    have length := found.1 shallow
    rw [length_nil, Nat.zero_add] at length
    rw [sliced, length, Option.map_some, shrunkHead_inside]
  · have none := found.2 shallow
    rw [length_nil, Nat.zero_add] at none
    refine iff_of_false ?_ ?_
    · rintro ⟨slice, made, -⟩
      rw [sliced, none] at made
      cases made
    · rintro (nowhere | ⟨other, isOther, shallowOther⟩ | ⟨front, few, split, absentFront, short⟩)
      · exact nowhere (mem_append_right before mem_cons_self)
      · rcases (isInside_append_iff absent _ other).mp isOther with ⟨behind, split, closesOther⟩
        have length := (bracketLength_matched distinct closesOther positive behind).1 shallowOther
        rw [length_nil, Nat.zero_add, ← split, none] at length
        cases length
      · have few_le : 1 + few.length ≤ depthLimit :=
          (Nat.add_le_add_left short 1).trans (by decide)
        have some := isSome_bracketLength left right few_le
        rw [← (eq_of_append_eq absent absentFront split).2, none] at some
        cases some

/-- Where it is not matched, the slice has everything behind it but the last element. -/
theorem slicesExactly_unmatched_iff (unmatched : ∀ inside after, rest = inside ++ right :: after →
      ¬WellBracketed (inside.map (bracketMark left right))) :
    SlicesExactly left right (before ++ left :: rest) ↔
      SliceIsFound left right (before ++ left :: rest) := by
  have positive : ([] : List Unit).length < depthLimit := by decide
  have sliced := sliceInsideBrackets_append absent rest right
  have nothing : ∀ inside, ¬IsInside left right (before ++ left :: rest) inside := by
    intro inside isInside
    rcases (isInside_append_iff absent rest inside).mp isInside with ⟨after, split, closes⟩
    exact unmatched inside after split closes
  constructor
  · rintro ⟨slice, made, isInside | ⟨rfl, -⟩⟩
    · exact absurd isInside (nothing slice)
    · rw [sliced] at made
      rcases Option.map_eq_some_iff.mp made with ⟨length, reached, cut⟩
      rw [bracketLength_unmatched distinct unmatched positive reached, shrunkHead_all,
        ← length_eq_zero_iff, length_dropLast] at cut
      exact Or.inr (Or.inr ⟨before, rest, rfl, absent, Nat.sub_eq_zero_iff_le.mp cut⟩)
  · rintro (nowhere | ⟨inside, isInside, -⟩ | ⟨front, few, split, absentFront, short⟩)
    · exact slicesExactly_of_notMem nowhere right
    · exact absurd isInside (nothing inside)
    · obtain rfl := (eq_of_append_eq absent absentFront split).2
      have rest_le : 1 + rest.length ≤ depthLimit :=
        (Nat.add_le_add_left short 1).trans (by decide)
      rcases Option.isSome_iff_exists.mp (isSome_bracketLength left right rest_le) with
        ⟨length, reached⟩
      refine ⟨[], ?_, Or.inr ⟨rfl, nothing⟩⟩
      rw [sliced, reached, Option.map_some,
        bracketLength_unmatched distinct unmatched positive reached, shrunkHead_all]
      apply congrArg some
      rw [← length_eq_zero_iff, length_dropLast]
      exact Nat.sub_eq_zero_of_le short

end

/-- The slice is right exactly if the bracket is found, or if there is nothing to cut off. -/
theorem slicesExactly_iff {left right : α} (distinct : left ≠ right) (spn : List α) :
    SlicesExactly left right spn ↔ SliceIsFound left right spn := by
  by_cases present : left ∈ spn
  · rcases eq_append_cons_of_mem present with ⟨before, rest, rfl, absent⟩
    by_cases matched : ∃ inside after, rest = inside ++ right :: after ∧
        WellBracketed (inside.map (bracketMark left right))
    · rcases matched with ⟨inside, after, rfl, closes⟩
      exact slicesExactly_matched_iff distinct absent closes after
    · refine slicesExactly_unmatched_iff distinct absent ?_
      intro inside after split closes
      exact matched ⟨inside, after, split, closes⟩
  · exact iff_of_true (slicesExactly_of_notMem present right) (Or.inl present)

/-- Both brackets of the first pair are there, and nothing is too deep. -/
theorem slicesExactly_pair : SlicesExactly 1 2 [0, 1, 3, 2, 4] := by
  apply (slicesExactly_iff (by decide) _).mpr
  refine Or.inr (Or.inl ⟨[3], ⟨[0], [4], rfl, by decide, by decide⟩, ?_⟩)
  refine ⟨by decide, fun next stepped => ?_⟩
  cases stepped
  exact (by decide : ([] : List Unit).length < depthLimit)

/-- The right bracket is missing, and what is inside has lost its last element. -/
theorem not_forall_slicesExactly :
    ¬∀ (left right : Nat) (spn : List Nat), left ≠ right → SlicesExactly left right spn := by
  intro exact
  rcases exact 1 2 [1, 3, 4] (by decide) with ⟨slice, made, isInside | ⟨rfl, -⟩⟩
  · rcases isInside with ⟨before, after, split, -, -⟩
    have closing : 2 ∈ [1, 3, 4] := by
      rw [split]
      simp
    exact absurd closing (by decide)
  · exact absurd made (by decide)

section Bytes

open Serialization

theorem findElementFrom_eq (what : UInt8) (spn : Block) (pos : Nat) :
    findElementFrom what spn pos = (Substitution.findElement spn what).map (· + pos) := by
  induction spn generalizing pos with
  | nil => rfl
  | cons e spn ih =>
      rw [findElementFrom, Substitution.findElement, findIdx?_cons]
      by_cases same : e = what
      · rw [if_pos same, if_pos (beq_iff_eq.mpr same), Option.map_some, Nat.zero_add]
      · rw [if_neg same, if_neg (mt beq_iff_eq.mp same), ih, Substitution.findElement,
          Option.map_map]
        apply congrArg (Option.map · _)
        funext position
        rw [Function.comp_apply, Nat.add_assoc, Nat.add_comm 1]

theorem bracketLength_eq {left right : UInt8} {depth : Nat} {spn : Block} {length : Nat}
    (reached : bracketLength left right depth spn = some length) :
    Substitution.bracketLength left right depth spn = length := by
  induction spn generalizing depth length with
  | nil =>
      cases reached
      rw [Substitution.bracketLength]
  | cons e spn ih =>
      cases depth with
      | zero =>
          cases reached
          rfl
      | succ depth =>
          rw [bracketLength] at reached
          rcases Option.bind_eq_some_iff.mp reached with ⟨next, stepped, rest⟩
          rcases Option.map_eq_some_iff.mp rest with ⟨fewer, reachedNext, rfl⟩
          have behind := ih reachedNext
          rw [Substitution.bracketLength]
          split_ifs at stepped ⊢
          · rw [increment] at stepped
            split_ifs at stepped
            cases stepped
            rw [behind]
          · cases stepped
            rw [behind]
          · cases stepped
            rw [behind]

/-- The names in format strings are cut out in the same way. -/
theorem sliceInsideBrackets_eq {left right : UInt8} {spn slice : Block}
    (made : sliceInsideBrackets spn left right = some slice) :
    Substitution.sliceInsideBrackets spn left right = slice := by
  rw [sliceInsideBrackets, findElement, findElementFrom_eq] at made
  rw [Substitution.sliceInsideBrackets]
  generalize Substitution.findElement spn left = position at made
  cases position with
  | none => exact Option.some.inj made
  | some found =>
      rcases Option.map_eq_some_iff.mp made with ⟨length, reached, cut⟩
      dsimp only [Nat.add_zero] at reached cut ⊢
      rw [Substitution.skip, bracketLength_eq reached]
      exact cut

end Bytes

end Eagine.Memory
