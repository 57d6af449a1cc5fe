import Eagine.Memory.SpanAlgorithm
import Eagine.String.VariableSubstitution

/-!
# Replacement of one variable

The references to one variable are replaced by its value. The scan looks for the name and then
at what is around it, thus the name may be found where there is no reference to the variable.
What it passes there cannot be a part of a reference when neither the leading sign nor the
opening bracket is in the name.
-/

namespace Eagine.Substitution

open Theory Serialization List
open Memory (findPosition findPositionFrom_leftmost findPositionFrom_none)

variable (name value : Block) (opts : VariableSubstitutionOptions)

/-- What is checked around the name that was found at the position. -/
def IsReferenceAt (src : Block) (npos : Nat) : Prop :=
  2 ≤ npos ∧ npos + name.length < src.length ∧
    src[npos - 1]? = some opts.openingBracket ∧
    src[npos - 2]? = some opts.leadingSign ∧
    src[npos + name.length]? = some opts.closingBracket

instance (src : Block) (npos : Nat) : Decidable (IsReferenceAt name opts src npos) :=
  inferInstanceAs (Decidable (_ ∧ _ ∧ _ ∧ _ ∧ _))

/-- One iteration of the loop, from what was appended so far and what remains of the source. -/
def substituteVariableOnce (dst src : Block) : Block × Block :=
  match findPosition src name with
  | some npos =>
      if IsReferenceAt name opts src npos then
        (dst ++ head src (npos - 2) ++ value, skip src (npos + name.length + 1))
      else
        (dst ++ head src (npos + name.length), skip src (npos + name.length))
  | none => (dst ++ src, [])

/-- The loop does not end where the name is empty. -/
def substituteVariableFrom : Nat → Block → Block → Option Block
  | 0, _, _ => none
  | fuel + 1, dst, src =>
      let next := substituteVariableOnce name value opts dst src
      if next.2.isEmpty then some next.1 else substituteVariableFrom fuel next.1 next.2

/-- `substitute_variable_into`. Every iteration but the last one takes the name. -/
def substituteVariableInto (dst src name value : Block) (opts : VariableSubstitutionOptions) :
    Option Block :=
  substituteVariableFrom name value opts (src.length + 1) dst src

/-- The text that is replaced by the value. -/
def referenceTo : Block :=
  [opts.leadingSign, opts.openingBracket] ++ (name ++ [opts.closingBracket])

variable {name opts}

theorem referenceTo_ne_nil : referenceTo name opts ≠ [] :=
  cons_ne_nil _ _

theorem referenceTo_append (rest : Block) :
    referenceTo name opts ++ rest =
      [opts.leadingSign, opts.openingBracket] ++ (name ++ opts.closingBracket :: rest) := by
  rw [referenceTo, append_assoc, append_assoc, singleton_append]

theorem getElem?_of_eq_append {src front rest : Block} {e : UInt8} {i : Nat}
    (split : src = front ++ e :: rest) (position : i = front.length) : src[i]? = some e := by
  rw [split, position, getElem?_append_right (Nat.le_refl _), Nat.sub_self]
  rfl

theorem isReferenceAt_append (before after : Block) (first second last : UInt8) :
    IsReferenceAt name opts (before ++ [first, second] ++ (name ++ last :: after))
        (before.length + 2) ↔
      first = opts.leadingSign ∧ second = opts.openingBracket ∧ last = opts.closingBracket := by
  generalize whole : before ++ [first, second] ++ (name ++ last :: after) = src
  have atFirst : src = before ++ first :: (second :: (name ++ last :: after)) := by
    rw [← whole, append_assoc]
    rfl
  have atSecond : src = (before ++ [first]) ++ second :: (name ++ last :: after) := by
    rw [atFirst, append_assoc]
    rfl
  have atLast : src = (before ++ first :: second :: name) ++ last :: after := by
    rw [atFirst, append_assoc]
    rfl
  have position : (before ++ first :: second :: name).length = before.length + 2 + name.length := by
    rw [length_append, length_cons, length_cons]
    omega
  have size : before.length + 2 + name.length < src.length := by
    rw [atLast, length_append, position, length_cons]
    omega
  have leading : src[before.length + 2 - 2]? = some first :=
    getElem?_of_eq_append atFirst rfl
  have opening : src[before.length + 2 - 1]? = some second :=
    getElem?_of_eq_append atSecond (by rw [length_append]; rfl)
  have closing : src[before.length + 2 + name.length]? = some last :=
    getElem?_of_eq_append atLast position.symm
  rw [IsReferenceAt, leading, opening, closing, Option.some.injEq, Option.some.injEq,
    Option.some.injEq]
  constructor
  · rintro ⟨-, -, isOpening, isLeading, isClosing⟩
    exact ⟨isLeading, isOpening, isClosing⟩
  · rintro ⟨isLeading, isOpening, isClosing⟩
    exact ⟨Nat.le_add_left 2 _, size, isOpening, isLeading, isClosing⟩

theorem isReferenceAt_iff {piece rest : Block} :
    IsReferenceAt name opts (piece ++ (name ++ rest)) piece.length ↔
      ∃ before after, piece = before ++ [opts.leadingSign, opts.openingBracket] ∧
        rest = opts.closingBracket :: after := by
  constructor
  · intro isReference
    have ⟨two, inside, _⟩ := isReference
    cases rest with
    | nil =>
        rw [append_nil, length_append] at inside
        exact absurd inside (Nat.lt_irrefl _)
    | cons last after =>
        rcases eq_nil_or_concat piece with rfl | ⟨front, second, rfl⟩
        · exact absurd two (Nat.not_succ_le_zero 1)
        rcases eq_nil_or_concat front with rfl | ⟨before, first, rfl⟩
        · exact absurd two (Nat.lt_irrefl 1)
        have split : (before.concat first).concat second = before ++ [first, second] := by simp
        rw [split, length_append] at isReference
        rcases (isReferenceAt_append before after first second last).mp isReference with
          ⟨rfl, rfl, rfl⟩
        exact ⟨before, after, split, rfl⟩
  · rintro ⟨before, after, rfl, rfl⟩
    rw [length_append]
    exact (isReferenceAt_append before after _ _ _).mpr ⟨rfl, rfl, rfl⟩

theorem mem_name_of_getElem? {src piece rest : Block} {e : UInt8} {i : Nat}
    (split : src = piece ++ (name ++ rest)) (behind : piece.length ≤ i)
    (before : i < piece.length + name.length) (here : src[i]? = some e) : e ∈ name := by
  rcases Nat.exists_eq_add_of_le behind with ⟨j, rfl⟩
  rw [split, getElem?_append_right (Nat.le_add_right _ j), Nat.add_sub_cancel_left,
    getElem?_append_left (Nat.lt_of_add_lt_add_left before)] at here
  exact mem_of_getElem? here

theorem length_append_referenceTo (front : Block) :
    (front ++ referenceTo name opts).length = front.length + 2 + name.length + 1 := by
  rw [referenceTo, length_append, length_append, length_append, length_cons,
    length_cons, length_cons]
  simp only [length_nil]
  omega

theorem isReferenceAt_referenceTo (front tail : Block) :
    IsReferenceAt name opts (front ++ (referenceTo name opts ++ tail)) (front.length + 2) := by
  rw [referenceTo_append, ← append_assoc]
  exact (isReferenceAt_append front tail _ _ _).mpr ⟨rfl, rfl, rfl⟩

theorem name_isPrefix_drop_referenceTo (front tail : Block) :
    name <+: (front ++ (referenceTo name opts ++ tail)).drop (front.length + 2) := by
  rw [drop_length_add_append, referenceTo_append]
  exact prefix_append name _

/-- There is no reference before the one that has the leftmost name. -/
theorem noneBefore_of_leftmost {src : Block} {position : Nat}
    (leftmost : NoneBefore name src (position + 2)) :
    NoneBefore (referenceTo name opts) src position := by
  intro i inside here
  rcases exists_of_isPrefix_drop referenceTo_ne_nil here with ⟨front, tail, atFront, rfl⟩
  apply leftmost _ (Nat.add_lt_add_right inside 2)
  rw [atFront]
  exact name_isPrefix_drop_referenceTo front tail

/-- Neither the name where it is not in a reference nor what is before it has a part of a
reference. -/
theorem noneBefore_of_not_isReferenceAt {src piece rest : Block}
    (noSign : opts.leadingSign ∉ name) (noBracket : opts.openingBracket ∉ name)
    (nonempty : name ≠ []) (split : src = piece ++ (name ++ rest))
    (leftmost : NoneBefore name src piece.length)
    (other : ¬IsReferenceAt name opts src piece.length) :
    NoneBefore (referenceTo name opts) src (piece.length + name.length) := by
  intro i before occurs
  rcases exists_of_isPrefix_drop referenceTo_ne_nil occurs with ⟨front, tail, atFront, rfl⟩
  have positive := length_pos_of_ne_nil nonempty
  have sign : src[front.length]? = some opts.leadingSign :=
    getElem?_of_eq_append (by rw [atFront, referenceTo_append]; rfl) rfl
  have atBracket : src = (front ++ [opts.leadingSign]) ++
      opts.openingBracket :: (name ++ opts.closingBracket :: tail) := by
    rw [atFront, referenceTo_append, append_assoc]
    rfl
  have bracket : src[front.length + 1]? = some opts.openingBracket :=
    getElem?_of_eq_append atBracket (by rw [length_append]; rfl)
  rcases Nat.lt_trichotomy piece.length (front.length + 2) with less | equal | greater
  · rcases Nat.lt_or_ge front.length piece.length with outside | inside
    · -- The opening bracket is the first one in the name.
      exact noBracket (mem_name_of_getElem? split (Nat.le_of_lt_succ less) (by omega) bracket)
    · exact noSign (mem_name_of_getElem? split inside before sign)
  · apply other
    rw [equal, atFront]
    exact isReferenceAt_referenceTo front tail
  · apply leftmost _ greater
    rw [atFront]
    exact name_isPrefix_drop_referenceTo front tail

/-- An iteration appends everything, or what is before a reference and the value, or some of
the text where there is no reference. -/
theorem substituteVariableOnce_cases (noSign : opts.leadingSign ∉ name)
    (noBracket : opts.openingBracket ∉ name) (nonempty : name ≠ []) (dst src : Block) :
    (¬referenceTo name opts <:+: src ∧
        substituteVariableOnce name value opts dst src = (dst ++ src, [])) ∨
      (∃ piece rest, src = piece ++ (referenceTo name opts ++ rest) ∧
        NoneBefore (referenceTo name opts) src piece.length ∧
        substituteVariableOnce name value opts dst src = (dst ++ piece ++ value, rest)) ∨
      ∃ front rest, front ≠ [] ∧ src = front ++ rest ∧
        NoneBefore (referenceTo name opts) src front.length ∧
        substituteVariableOnce name value opts dst src = (dst ++ front, rest) := by
  by_cases occurs : name <:+: src
  · rcases exists_leftmost occurs with ⟨piece, rest, split, leftmost⟩
    have found : findPosition src name = some piece.length := by
      rw [split] at leftmost ⊢
      exact (findPositionFrom_leftmost nonempty leftmost 0).trans
        (congrArg some (Nat.zero_add _))
    have size : (piece ++ name).length = piece.length + name.length := length_append
    have split' : src = piece ++ name ++ rest := split.trans (append_assoc _ _ _).symm
    right
    by_cases isReference : IsReferenceAt name opts src piece.length
    · left
      have surrounded := isReference
      rw [split] at surrounded
      rcases isReferenceAt_iff.mp surrounded with ⟨before, after, rfl, rfl⟩
      have position : (before ++ [opts.leadingSign, opts.openingBracket]).length =
          before.length + 2 := length_append
      have whole : src = before ++ (referenceTo name opts ++ after) := by
        rw [split, referenceTo_append, append_assoc]
      refine ⟨before, after, whole, noneBefore_of_leftmost (position ▸ leftmost), ?_⟩
      rw [substituteVariableOnce, found]
      dsimp only
      rw [if_pos isReference, position, Nat.add_sub_cancel, head, skip, whole, take_left,
        ← append_assoc, drop_left' (length_append_referenceTo before)]
    · right
      refine ⟨piece ++ name, rest, append_ne_nil_of_right_ne_nil _ nonempty, split', ?_, ?_⟩
      · rw [size]
        exact noneBefore_of_not_isReferenceAt noSign noBracket nonempty split leftmost isReference
      · rw [substituteVariableOnce, found]
        dsimp only
        rw [if_neg isReference, head, skip, ← size, split', take_left, drop_left]
  · left
    constructor
    · rintro ⟨front, tail, whole⟩
      apply occurs
      rw [← whole, append_assoc]
      exact isInfix_of_isPrefix_drop (name_isPrefix_drop_referenceTo front tail)
    · rw [substituteVariableOnce, findPosition, findPositionFrom_none occurs]

theorem substituteVariableFrom_eq (noSign : opts.leadingSign ∉ name)
    (noBracket : opts.openingBracket ∉ name) (nonempty : name ≠ []) (fuel : Nat)
    (dst src : Block) (enough : src.length < fuel) :
    ∃ pieces, Delimited (referenceTo name opts) src pieces ∧
      substituteVariableFrom name value opts fuel dst src =
        some (dst ++ value.intercalate pieces) := by
  induction fuel generalizing dst src with
  | zero => exact absurd enough (Nat.not_lt_zero _)
  | succ fuel ih =>
      -- Where nothing remains there is one piece, which is empty.
      have resumed : ∀ (dst rest : Block), (rest.length < src.length ∨ rest = []) →
          ∃ piece pieces, Delimited (referenceTo name opts) rest (piece :: pieces) ∧
            (if rest.isEmpty then some dst
              else substituteVariableFrom name value opts fuel dst rest) =
                some (dst ++ value.intercalate (piece :: pieces)) := by
        intro dst rest less
        cases rest with
        | nil =>
            refine ⟨[], [], .last (mt infix_nil.mp referenceTo_ne_nil), ?_⟩
            rw [intercalate_singleton, append_nil]
            rfl
        | cons e rest =>
            have shorter := less.resolve_right (cons_ne_nil _ _)
            rcases ih dst (e :: rest) (by omega) with ⟨pieces, delimited, result⟩
            rcases exists_cons_of_ne_nil delimited.ne_nil with ⟨piece, others, rfl⟩
            exact ⟨piece, others, delimited, result⟩
      rw [substituteVariableFrom]
      rcases substituteVariableOnce_cases value noSign noBracket nonempty dst src with
        ⟨none, once⟩ | ⟨piece, rest, rfl, none, once⟩ | ⟨front, rest, some, rfl, none, once⟩
      · refine ⟨[src], .last none, ?_⟩
        rw [once, intercalate_singleton]
        rfl
      · have less : rest.length < (piece ++ (referenceTo name opts ++ rest)).length := by
          rw [← append_assoc, length_append, length_append_referenceTo]
          omega
        rcases resumed (dst ++ piece ++ value) rest (.inl less) with
          ⟨next, pieces, delimited, result⟩
        refine ⟨piece :: next :: pieces, .next none delimited, ?_⟩
        rw [once, result, intercalate_cons_cons]
        simp only [append_assoc]
      · have less : rest.length < (front ++ rest).length := by
          have positive := length_pos_of_ne_nil some
          rw [length_append]
          omega
        rcases resumed (dst ++ front) rest (.inl less) with ⟨next, pieces, delimited, result⟩
        refine ⟨(front ++ next) :: pieces, delimited.prepend none, ?_⟩
        rw [once, result, intercalate_prepend, append_assoc]

/-- The loop ends and appends the source with the value in the place of every reference to the
name, for what is between the references is appended as it is. -/
theorem substituteVariableInto_replaces (dst src name value : Block)
    (opts : VariableSubstitutionOptions) (nonempty : name ≠ [])
    (noSign : opts.leadingSign ∉ name) (noBracket : opts.openingBracket ∉ name) :
    ∃ pieces, Delimited (referenceTo name opts) src pieces ∧
      (referenceTo name opts).intercalate pieces = src ∧
      (∀ piece ∈ pieces, ¬referenceTo name opts <:+: piece) ∧
      substituteVariableInto dst src name value opts =
        some (dst ++ value.intercalate pieces) := by
  rcases substituteVariableFrom_eq value noSign noBracket nonempty (src.length + 1)
    dst src (Nat.lt_succ_self _) with ⟨pieces, delimited, result⟩
  exact ⟨pieces, delimited, delimited.intercalate_eq, delimited.not_isInfix referenceTo_ne_nil,
    result⟩

/-- The name is found where it is not in a reference, too, and remains there. -/
theorem substituteVariableInto_replaces_nn :
    ∃ pieces, Delimited (referenceTo [110, 110] {}) [110, 110, 110, 36, 123, 110, 110, 125] pieces ∧
      (referenceTo [110, 110] {}).intercalate pieces = [110, 110, 110, 36, 123, 110, 110, 125] ∧
      (∀ piece ∈ pieces, ¬referenceTo [110, 110] {} <:+: piece) ∧
      substituteVariableInto [] [110, 110, 110, 36, 123, 110, 110, 125] [110, 110] [118] {} =
        some ([] ++ List.intercalate [118] pieces) :=
  substituteVariableInto_replaces [] _ [110, 110] [118] {} (by decide) (by decide) (by decide)

end Eagine.Substitution
