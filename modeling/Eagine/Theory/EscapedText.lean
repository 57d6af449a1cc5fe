import Mathlib.Data.List.Infix

/-!
# Texts with escapes

A text is made of characters that stand for themselves and of escapes, each of which is a sign
with the two characters behind it. The last escape can be cut off by the end of the text.
-/

namespace Theory

universe u

variable {α : Type u}

/-- What a text is made of -/
inductive EscapeUnit (α : Type u)
  | plain (c : α)
  | escape (hi lo : α)
deriving DecidableEq

variable [DecidableEq α] (sign : α)

/-- The units of a text, and what is at the end of it if it ends within an escape. -/
def scanEscapes : List α → List (EscapeUnit α) × List α
  | [] => ([], [])
  | c :: text =>
      if c = sign then
        match text with
        | [] => ([], [c])
        | [hi] => ([], [c, hi])
        | hi :: lo :: rest =>
            let behind := scanEscapes rest
            (.escape hi lo :: behind.1, behind.2)
      else
        let behind := scanEscapes text
        (.plain c :: behind.1, behind.2)

def escapeUnits (text : List α) : List (EscapeUnit α) :=
  (scanEscapes sign text).1

def cutEscape (text : List α) : List α :=
  (scanEscapes sign text).2

theorem scanEscapes_sign : scanEscapes sign [sign] = ([], [sign]) :=
  if_pos rfl

theorem scanEscapes_cut (hi : α) : scanEscapes sign [sign, hi] = ([], [sign, hi]) :=
  if_pos rfl

theorem scanEscapes_escape (hi lo : α) (text : List α) :
    scanEscapes sign (sign :: hi :: lo :: text) =
      (.escape hi lo :: escapeUnits sign text, cutEscape sign text) :=
  if_pos rfl

variable {sign} in
theorem scanEscapes_plain {c : α} (plain : c ≠ sign) (text : List α) :
    scanEscapes sign (c :: text) = (.plain c :: escapeUnits sign text, cutEscape sign text) := by
  rw [scanEscapes.eq_def]
  exact if_neg plain

@[simp]
theorem escapeUnits_nil : escapeUnits sign ([] : List α) = [] :=
  rfl

@[simp]
theorem cutEscape_nil : cutEscape sign ([] : List α) = [] :=
  rfl

@[simp]
theorem escapeUnits_sign : escapeUnits sign [sign] = [] := by
  rw [escapeUnits, scanEscapes_sign]

@[simp]
theorem cutEscape_sign : cutEscape sign [sign] = [sign] := by
  rw [cutEscape, scanEscapes_sign]

@[simp]
theorem escapeUnits_cut (hi : α) : escapeUnits sign [sign, hi] = [] := by
  rw [escapeUnits, scanEscapes_cut]

@[simp]
theorem cutEscape_cut (hi : α) : cutEscape sign [sign, hi] = [sign, hi] := by
  rw [cutEscape, scanEscapes_cut]

@[simp]
theorem escapeUnits_escape (hi lo : α) (text : List α) :
    escapeUnits sign (sign :: hi :: lo :: text) = .escape hi lo :: escapeUnits sign text := by
  rw [escapeUnits, scanEscapes_escape]

@[simp]
theorem cutEscape_escape (hi lo : α) (text : List α) :
    cutEscape sign (sign :: hi :: lo :: text) = cutEscape sign text := by
  rw [cutEscape, scanEscapes_escape]

variable {sign}

theorem escapeUnits_plain {c : α} (plain : c ≠ sign) (text : List α) :
    escapeUnits sign (c :: text) = .plain c :: escapeUnits sign text := by
  rw [escapeUnits, scanEscapes_plain plain]

theorem cutEscape_plain {c : α} (plain : c ≠ sign) (text : List α) :
    cutEscape sign (c :: text) = cutEscape sign text := by
  rw [cutEscape, scanEscapes_plain plain]

omit [DecidableEq α] in
/-- Induction on the units of a text -/
@[elab_as_elim]
theorem escapeUnits_induction (sign : α) {motive : List α → Prop}
    (nil : motive [])
    (signOnly : motive [sign]) (cut : ∀ hi, motive [sign, hi])
    (escape : ∀ hi lo text, motive text → motive (sign :: hi :: lo :: text))
    (plain : ∀ c text, c ≠ sign → motive text → motive (c :: text)) (text : List α) :
    motive text := by
  induction size : text.length using Nat.strong_induction_on generalizing text with
  | _ _ ih =>
      subst size
      match text with
      | [] => exact nil
      | c :: text =>
          by_cases isSign : c = sign
          · subst isSign
            match text with
            | [] => exact signOnly
            | [hi] => exact cut hi
            | hi :: lo :: text =>
                have shorter : text.length < (c :: hi :: lo :: text).length := by
                  simp only [List.length_cons]
                  omega
                exact escape hi lo text (ih _ shorter text rfl)
          · exact plain c text isSign (ih _ (Nat.lt_succ_self _) text rfl)

variable (sign) in
omit [DecidableEq α] in
/-- Behind every sign there are two digits. A digit is no sign, so no sign is in the escape of
another one. -/
def WellEscaped (IsDigit : α → Prop) (text : List α) : Prop :=
  ∀ front back, text = front ++ sign :: back →
    ∃ hi lo rest, back = hi :: lo :: rest ∧ IsDigit hi ∧ IsDigit lo

variable {IsDigit : α → Prop} {text : List α}

omit [DecidableEq α] in
theorem WellEscaped.behind (front : List α)
    (wellEscaped : WellEscaped sign IsDigit (front ++ text)) : WellEscaped sign IsDigit text := by
  intro before back split
  apply wellEscaped (front ++ before) back
  rw [split, List.append_assoc]

omit [DecidableEq α] in
theorem wellEscaped_cons {c : α} (plain : c ≠ sign) :
    WellEscaped sign IsDigit (c :: text) ↔ WellEscaped sign IsDigit text := by
  constructor
  · intro wellEscaped
    exact wellEscaped.behind [c]
  · intro wellEscaped front back split
    rcases List.cons_eq_append_iff.mp split with ⟨rfl, here⟩ | ⟨before, rfl, behind⟩
    · exact absurd (List.cons.inj here).1.symm plain
    · exact wellEscaped before back behind

omit [DecidableEq α] in
theorem wellEscaped_escape (notDigit : ¬IsDigit sign) {hi lo : α} :
    WellEscaped sign IsDigit (sign :: hi :: lo :: text) ↔
      (IsDigit hi ∧ IsDigit lo) ∧ WellEscaped sign IsDigit text := by
  have notSign {c : α} (digit : IsDigit c) : c ≠ sign := by
    rintro rfl
    exact notDigit digit
  constructor
  · intro wellEscaped
    rcases wellEscaped [] (hi :: lo :: text) rfl with ⟨_, _, _, ⟨⟩, digits⟩
    exact ⟨digits, wellEscaped.behind [sign, hi, lo]⟩
  · rintro ⟨⟨hiDigit, loDigit⟩, wellEscaped⟩ front back split
    rcases List.cons_eq_append_iff.mp split with ⟨rfl, here⟩ | ⟨before, rfl, behind⟩
    · exact ⟨hi, lo, text, (List.cons.inj here).2, hiDigit, loDigit⟩
    · have others := (wellEscaped_cons (notSign hiDigit)).mpr
        ((wellEscaped_cons (notSign loDigit)).mpr wellEscaped)
      exact others before back behind

/-- A text is well-formed if all its escapes are of digits and it does not end in one. -/
theorem wellEscaped_iff (notDigit : ¬IsDigit sign) (text : List α) :
    WellEscaped sign IsDigit text ↔
      (∀ hi lo, .escape hi lo ∈ escapeUnits sign text → IsDigit hi ∧ IsDigit lo) ∧
        cutEscape sign text = [] := by
  induction text using escapeUnits_induction sign with
  | nil => simp [WellEscaped]
  | signOnly =>
      have broken : ¬WellEscaped sign IsDigit [sign] := by
        intro wellEscaped
        rcases wellEscaped [] [] rfl with ⟨_, _, _, missing, -⟩
        cases missing
      simp [broken]
  | cut hi =>
      have broken : ¬WellEscaped sign IsDigit [sign, hi] := by
        intro wellEscaped
        rcases wellEscaped [] [hi] rfl with ⟨_, _, _, missing, -⟩
        cases missing
      simp [broken]
  | escape hi lo text ih =>
      rw [wellEscaped_escape notDigit, ih, escapeUnits_escape, cutEscape_escape, ← and_assoc]
      simp only [List.mem_cons, EscapeUnit.escape.injEq]
      refine and_congr_left fun _ => ⟨?_, fun digits => ⟨?_, ?_⟩⟩
      · rintro ⟨digits, others⟩ _ _ (⟨rfl, rfl⟩ | within)
        · exact digits
        · exact others _ _ within
      · exact digits hi lo (Or.inl ⟨rfl, rfl⟩)
      · exact fun _ _ within => digits _ _ (Or.inr within)
  | plain c text plain ih =>
      rw [wellEscaped_cons plain, ih, escapeUnits_plain plain, cutEscape_plain plain]
      simp

end Theory
