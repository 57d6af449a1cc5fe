import Eagine.Theory.Delimited

/-!
# Span algorithms

Spans are the lists of their elements. The parts of a span between the occurrences of a
delimiter are its pieces with the delimiter as their separator.
-/

open List

namespace Eagine.Memory

open Theory

variable {α : Type*} [DecidableEq α]

def startsWith (spn what : List α) : Bool :=
  spn.take what.length = what

/-- The loop of `find_position` over what is at the positions and behind them. -/
def findPositionFrom (what : List α) : List α → Nat → Option Nat
  | [], _ => none
  | e :: spn, pos =>
      if startsWith (e :: spn) what then some pos else findPositionFrom what spn (pos + 1)

def findPosition (spn what : List α) : Option Nat :=
  findPositionFrom what spn 0

section Delimiters

variable {σ : Type*} (delim : List α) (unaryOp : σ → List α → Option σ)

/-- The loop of `for_each_delimited` over what remains. It does not end where the delimiter is
empty, nor does it go on where the function does not return. -/
def forEachDelimitedFrom : Nat → List α → σ → Option σ
  | 0, tmp, state =>
      match findPosition tmp delim with
      | some _ => none
      | none => unaryOp state tmp
  | fuel + 1, tmp, state =>
      match findPosition tmp delim with
      | some pos =>
          (unaryOp state (tmp.take pos)).bind
            (forEachDelimitedFrom fuel (tmp.drop (pos + delim.length)))
      | none => unaryOp state tmp

/-- Every step takes a delimiter, thus there are not more steps than elements. -/
def forEachDelimited (spn : List α) (state : σ) : Option σ :=
  forEachDelimitedFrom delim unaryOp spn.length spn state

end Delimiters

theorem startsWith_iff {spn what : List α} : startsWith spn what = true ↔ what <+: spn := by
  rw [startsWith, decide_eq_true_iff, prefix_iff_eq_take, eq_comm]

theorem findPositionFrom_leftmost {what piece rest : List α} (nonempty : what ≠ [])
    (leftmost : NoneBefore what (piece ++ (what ++ rest)) piece.length) (pos : Nat) :
    findPositionFrom what (piece ++ (what ++ rest)) pos = some (pos + piece.length) := by
  induction piece generalizing pos with
  | nil =>
      rcases exists_cons_of_ne_nil nonempty with ⟨e, others, rfl⟩
      have here : startsWith (e :: others ++ rest) (e :: others) = true :=
        startsWith_iff.mpr (prefix_append _ rest)
      rw [nil_append, cons_append, findPositionFrom, ← cons_append, if_pos here]
      rfl
  | cons e piece ih =>
      have notHere : ¬startsWith (e :: (piece ++ (what ++ rest))) what = true := by
        rw [startsWith_iff]
        exact leftmost 0 (Nat.zero_lt_succ _)
      have leftmostBehind : NoneBefore what (piece ++ (what ++ rest)) piece.length :=
        fun i before => leftmost (i + 1) (Nat.succ_lt_succ before)
      rw [cons_append, findPositionFrom, if_neg notHere, ih leftmostBehind,
        length_cons, Nat.add_right_comm, Nat.add_assoc]

theorem findPositionFrom_none {what spn : List α} (none : ¬what <:+: spn) (pos : Nat) :
    findPositionFrom what spn pos = .none := by
  induction spn generalizing pos with
  | nil => rfl
  | cons e spn ih =>
      rw [infix_cons_iff, not_or] at none
      have notHere : ¬startsWith (e :: spn) what = true := by
        rw [startsWith_iff]
        exact none.1
      rw [findPositionFrom, if_neg notHere, ih none.2]

section Element

variable {e : α} {front : List α}

theorem findPosition_cons (plain : e ∉ front) (back : List α) :
    findPosition (front ++ e :: back) [e] = some front.length := by
  have leftmost : NoneBefore [e] (front ++ ([e] ++ back)) front.length := by
    intro i inside starts
    rw [drop_append_of_le_length (Nat.le_of_lt inside), drop_eq_getElem_cons inside,
      cons_append, cons_prefix_cons] at starts
    exact plain (starts.1 ▸ getElem_mem inside)
  have found := findPositionFrom_leftmost (cons_ne_nil e []) leftmost 0
  rwa [Nat.zero_add] at found

theorem findPosition_of_notMem (plain : e ∉ front) : findPosition front [e] = none :=
  findPositionFrom_none (fun occurs => plain (occurs.subset mem_cons_self)) 0

end Element

section Delimiters

variable {σ : Type*} {delim : List α} (unaryOp : σ → List α → Option σ)

theorem forEachDelimitedFrom_eq (nonempty : delim ≠ []) {spn : List α} {pieces : List (List α)}
    (delimited : Delimited delim spn pieces) (fuel : Nat) (enough : spn.length ≤ fuel)
    (state : σ) :
    forEachDelimitedFrom delim unaryOp fuel spn state = pieces.foldlM unaryOp state := by
  induction delimited generalizing fuel state with
  | @last piece none =>
      have whole : [piece].foldlM unaryOp state = unaryOp state piece := by
        rw [foldlM_cons]
        exact bind_pure _
      cases fuel with
      | zero => rw [forEachDelimitedFrom, findPosition, findPositionFrom_none none, whole]
      | succ fuel => rw [forEachDelimitedFrom, findPosition, findPositionFrom_none none, whole]
  | @next piece rest pieces leftmost tail ih =>
      have positive := length_pos_of_ne_nil nonempty
      rw [length_append, length_append] at enough
      rcases Nat.exists_eq_add_of_le' (show 1 ≤ fuel by omega) with ⟨fuel, rfl⟩
      rw [forEachDelimitedFrom, findPosition, findPositionFrom_leftmost nonempty leftmost,
        Nat.zero_add, foldlM_cons]
      have passed : (piece ++ delim).length = piece.length + delim.length := length_append
      dsimp only
      rw [take_left, ← append_assoc, drop_left' passed]
      apply congrArg (Option.bind _)
      funext next
      exact ih fuel (by omega) next

/-- The function is called for the pieces of the span in their order. -/
theorem forEachDelimited_eq (nonempty : delim ≠ []) {spn : List α} {pieces : List (List α)}
    (delimited : Delimited delim spn pieces) (state : σ) :
    forEachDelimited delim unaryOp spn state = pieces.foldlM unaryOp state :=
  forEachDelimitedFrom_eq unaryOp nonempty delimited spn.length (Nat.le_refl _) state

end Delimiters

end Eagine.Memory
