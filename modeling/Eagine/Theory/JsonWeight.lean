import Eagine.Theory.Json
import Mathlib.Algebra.Order.BigOperators.Group.List
import Mathlib.Algebra.Order.Ring.Nat

/-!
# The weight of JSON texts

A character that stands for itself in a string weighs more than a quote or a backslash, and a
control character weighs nothing. No text is lighter than the value that is read from it.
-/

namespace Theory

open List

universe u

namespace Json

def charWeight (c : Char) : Nat :=
  if isPlain c then 2 else if c = '"' ∨ c = '\\' then 1 else 0

def weight (text : List Char) : Nat :=
  (text.map charWeight).sum

mutual

/-- The weight of a text without space and escapes. -/
def weightOf : Json → Nat
  | null => 8
  | bool value => 2 * (boolText value).length
  | number literal => 2 * literal.length
  | string text => 2 * text.length + 2
  | array elements => 2 + weightOfElements elements
  | object members => 2 + weightOfMembers members

/-- Each element is counted with a character behind it. -/
def weightOfElements : List Json → Nat
  | [] => 0
  | json :: elements => weightOf json + 2 + weightOfElements elements

/-- Each member is counted with a character behind it. -/
def weightOfMembers : List (List Char × Json) → Nat
  | [] => 0
  | (name, json) :: members => 2 * name.length + 4 + weightOf json + 2 + weightOfMembers members

end

theorem weight_cons (c : Char) (text : List Char) :
    weight (c :: text) = charWeight c + weight text := by
  simp [weight]

theorem weight_append (first second : List Char) :
    weight (first ++ second) = weight first + weight second := by
  simp [weight]

variable {text rest : List Char}

theorem weight_plain (plain : ∀ c ∈ text, isPlain c = true) : weight text = 2 * text.length := by
  induction text with
  | nil => rfl
  | cons c text ih =>
      rcases forall_mem_cons.mp plain with ⟨head, tail⟩
      rw [weight_cons, ih tail, charWeight, if_pos head, length_cons]
      omega

theorem charWeight_le (c : Char) : charWeight c ≤ 2 := by
  rw [charWeight]
  split
  · exact Nat.le_refl 2
  · split <;> omega

theorem weight_le (text : List Char) : weight text ≤ 2 * text.length := by
  induction text with
  | nil => exact Nat.le_refl 0
  | cons c text ih =>
      have head := charWeight_le c
      rw [weight_cons, length_cons]
      omega

/-- Only a text without quotes, backslashes and control characters has the full weight. -/
theorem plain_of_weight (full : 2 * text.length ≤ weight text) : ∀ c ∈ text, isPlain c = true := by
  induction text with
  | nil => exact forall_mem_nil _
  | cons c text ih =>
      rw [weight_cons, length_cons] at full
      have head := charWeight_le c
      have tail := weight_le text
      refine forall_mem_cons.mpr ⟨?_, ih (by omega)⟩
      have fullHead : 2 ≤ charWeight c := by omega
      by_contra notPlain
      rw [charWeight, if_neg notPlain] at fullHead
      split at fullHead <;> omega

theorem weight_skipSpace (text : List Char) : weight (skipSpace text) ≤ weight text := by
  have parts := congrArg weight (takeWhile_append_dropWhile (p := isSpace) (l := text))
  rw [weight_append] at parts
  rw [skipSpace]
  omega

theorem weight_codeUnit {unit : Nat} (read : codeUnit text = some (unit, rest)) :
    weight rest ≤ weight text := by
  match text, read with
  | a :: b :: c :: d :: others, read =>
      simp only [codeUnit, Option.bind_eq_bind, Option.bind_eq_some_iff, Option.some.injEq,
        Prod.mk.injEq] at read
      rcases read with ⟨_, _, _, _, _, _, _, _, _, rfl⟩
      simp only [weight_cons]
      omega

variable {c : Char}

theorem weight_escapedUnit (read : escapedUnit text = some (c, rest)) :
    weight rest ≤ weight text := by
  simp only [escapedUnit, Option.bind_eq_bind, Option.bind_eq_some_iff, Prod.exists] at read
  rcases read with ⟨unit, behind, readUnit, read⟩
  have first := weight_codeUnit readUnit
  split at read
  · split at read
    · simp only [Option.bind_eq_some_iff, Prod.exists] at read
      rcases read with ⟨low, last, readLow, read⟩
      have second := weight_codeUnit readLow
      split at read
      · rcases Prod.mk.inj (Option.some.inj read) with ⟨_, rfl⟩
        simp only [weight_cons] at first
        omega
      · exact absurd read (Option.some_ne_none _).symm
    · exact absurd read (Option.some_ne_none _).symm
  · split at read
    · exact absurd read (Option.some_ne_none _).symm
    · rcases Prod.mk.inj (Option.some.inj read) with ⟨_, rfl⟩
      exact first

/-- An escape sequence weighs as much as a character, with its backslash. -/
theorem weight_escaped (read : escaped text = some (c, rest)) :
    1 + weight rest ≤ weight text := by
  have behind {first : Char} {others : List Char} (heavy : 1 ≤ charWeight first)
      (le : weight rest ≤ weight others) : 1 + weight rest ≤ weight (first :: others) := by
    rw [weight_cons]
    omega
  unfold escaped at read
  split at read
  case h_9 => exact behind (by decide) (weight_escapedUnit read)
  case h_10 => cases read
  all_goals
    cases read
    exact behind (by decide) (Nat.le_refl _)

variable {fuel : Nat}

theorem weight_stringBody {body : List Char} (read : stringBody fuel text = some (body, rest)) :
    2 * body.length + 1 + weight rest ≤ weight text := by
  induction fuel generalizing text body with
  | zero => cases read
  | succ fuel ih =>
      unfold stringBody at read
      split at read
      · cases read
        rw [weight_cons]
        exact Nat.le_refl _
      · simp only [Option.bind_eq_bind, Option.bind_eq_some_iff, Prod.exists] at read
        rcases read with ⟨c, behind, readEscaped, others, last, readOthers, read⟩
        cases read
        have first := weight_escaped readEscaped
        have second := ih readOthers
        have backslash : charWeight '\\' = 1 := rfl
        rw [weight_cons, backslash, length_cons]
        omega
      · split at read
        · rename_i plain
          simp only [Option.map_eq_some_iff, Prod.exists] at read
          rcases read with ⟨others, last, readOthers, read⟩
          cases read
          have second := ih readOthers
          rw [weight_cons, charWeight, if_pos plain, length_cons]
          omega
        · cases read
      · cases read

theorem isPlain_of_isNumberChar (number : isNumberChar c = true) : isPlain c = true := by
  simp only [isNumberChar, Bool.or_eq_true, beq_iff_eq] at number
  rcases number with ((((digit | rfl) | rfl) | rfl) | rfl) | rfl
  · exact isPlain_of_isDigit digit
  all_goals rfl

variable {json : Json}

theorem weight_readNumber (read : readNumber text = some (json, rest)) :
    weightOf json + weight rest ≤ weight text := by
  rw [readNumber] at read
  split at read
  · cases read
    have parts := congrArg weight (takeWhile_append_dropWhile (p := isNumberChar) (l := text))
    have isAll : ∀ c ∈ text.takeWhile isNumberChar, isPlain c = true :=
      fun c within => isPlain_of_isNumberChar (mem_takeWhile_imp within)
    have plain := weight_plain isAll
    rw [weight_append] at parts
    rw [weightOf]
    omega
  · cases read

/-- A part, the space behind it and the character there. -/
theorem weight_behind {others : List Char} (plain : isPlain c = true)
    (found : skipSpace rest = c :: others) : 2 + weight others ≤ weight rest := by
  have space := weight_skipSpace rest
  rw [found, weight_cons, charWeight, if_pos plain] at space
  exact space

/-- Nothing that is read with the fuel is heavier than its text. -/
structure Light (fuel : Nat) : Prop where
  value : ∀ {text json rest}, readValue fuel text = some (json, rest) →
    weightOf json + weight rest ≤ weight text
  members : ∀ {text members rest}, readMembers fuel text = some (members, rest) →
    weightOfMembers members + weight rest ≤ weight text
  elements : ∀ {text elements rest}, readElements fuel text = some (elements, rest) →
    weightOfElements elements + weight rest ≤ weight text

theorem light_value (light : Light fuel) (read : readValue (fuel + 1) text = some (json, rest)) :
    weightOf json + weight rest ≤ weight text := by
  have space := weight_skipSpace text
  have heavy {c : Char} (plain : isPlain c = true) (others : List Char) :
      weight (c :: others) = 2 + weight others := by
    rw [weight_cons, charWeight, if_pos plain]
  unfold readValue at read
  split at read
  · rename_i inner opened
    have outer := weight_behind rfl opened
    split at read
    · rename_i closed
      cases read
      have behind := weight_behind rfl closed
      rw [weightOf, weightOfMembers]
      omega
    · rcases Option.map_eq_some_iff.mp read with ⟨⟨members, behind⟩, readMembers, read⟩
      dsimp only at read
      cases read
      have le := light.members readMembers
      rw [weightOf]
      omega
  · rename_i inner opened
    have outer := weight_behind rfl opened
    split at read
    · rename_i closed
      cases read
      have behind := weight_behind rfl closed
      rw [weightOf, weightOfElements]
      omega
    · rcases Option.map_eq_some_iff.mp read with ⟨⟨elements, behind⟩, readElements, read⟩
      dsimp only at read
      cases read
      have le := light.elements readElements
      rw [weightOf]
      omega
  · rename_i opened
    rw [opened, weight_cons] at space
    rcases Option.map_eq_some_iff.mp read with ⟨⟨body, behind⟩, readBody, read⟩
    dsimp only at read
    cases read
    have le := weight_stringBody readBody
    have quote : charWeight '"' = 1 := rfl
    rw [weightOf]
    omega
  · rename_i opened
    cases read
    simp only [opened, heavy (by decide : isPlain 'n' = true), heavy (by decide : isPlain 'u' = true),
      heavy (by decide : isPlain 'l' = true)] at space
    rw [weightOf]
    omega
  · rename_i opened
    cases read
    simp only [opened, heavy (by decide : isPlain 't' = true), heavy (by decide : isPlain 'r' = true),
      heavy (by decide : isPlain 'u' = true), heavy (by decide : isPlain 'e' = true)] at space
    simp only [weightOf, boolText, length_cons, length_nil]
    omega
  · rename_i opened
    cases read
    simp only [opened, heavy (by decide : isPlain 'f' = true), heavy (by decide : isPlain 'a' = true),
      heavy (by decide : isPlain 'l' = true), heavy (by decide : isPlain 's' = true),
      heavy (by decide : isPlain 'e' = true)] at space
    simp only [weightOf, boolText, length_cons, length_nil]
    omega
  · have le := weight_readNumber read
    omega

theorem light_members (light : Light fuel) {members : List (List Char × Json)}
    (read : readMembers (fuel + 1) text = some (members, rest)) :
    weightOfMembers members + weight rest ≤ weight text := by
  have space := weight_skipSpace text
  unfold readMembers at read
  split at read
  · rename_i inner opened
    have quote : charWeight '"' = 1 := rfl
    rw [opened, weight_cons, quote] at space
    rcases Option.bind_eq_some_iff.mp read with ⟨⟨name, afterName⟩, readName, read⟩
    have nameLe := weight_stringBody readName
    dsimp only at read
    split at read
    · rename_i colon
      have colonLe := weight_behind (by decide) colon
      rcases Option.bind_eq_some_iff.mp read with ⟨⟨value, afterValue⟩, readOne, read⟩
      have valueLe := light.value readOne
      dsimp only at read
      split at read
      · rename_i comma
        have commaLe := weight_behind (by decide) comma
        rcases Option.map_eq_some_iff.mp read with ⟨⟨others, last⟩, readOthers, read⟩
        dsimp only at read
        cases read
        have othersLe := light.members readOthers
        rw [weightOfMembers]
        omega
      · rename_i brace
        cases read
        have braceLe := weight_behind (by decide) brace
        rw [weightOfMembers, weightOfMembers]
        omega
      · cases read
    · cases read
  · cases read

theorem light_elements (light : Light fuel) {elements : List Json}
    (read : readElements (fuel + 1) text = some (elements, rest)) :
    weightOfElements elements + weight rest ≤ weight text := by
  unfold readElements at read
  rcases Option.bind_eq_some_iff.mp read with ⟨⟨value, afterValue⟩, readOne, read⟩
  have valueLe := light.value readOne
  dsimp only at read
  split at read
  · rename_i comma
    have commaLe := weight_behind (by decide) comma
    rcases Option.map_eq_some_iff.mp read with ⟨⟨others, last⟩, readOthers, read⟩
    dsimp only at read
    cases read
    have othersLe := light.elements readOthers
    rw [weightOfElements]
    omega
  · rename_i bracket
    cases read
    have bracketLe := weight_behind (by decide) bracket
    rw [weightOfElements, weightOfElements]
    omega
  · cases read

theorem light (fuel : Nat) : Light fuel := by
  induction fuel with
  | zero =>
      constructor
      · intro text json rest read
        cases read
      · intro text members rest read
        cases read
      · intro text elements rest read
        cases read
  | succ fuel ih =>
      exact ⟨light_value ih, light_members ih,
        light_elements ih⟩

/-- No value is heavier than the text that it is read from. -/
theorem weightOf_le_of_parse (parsed : parse text = some json) :
    weightOf json ≤ weight text := by
  rcases Option.bind_eq_some_iff.mp parsed with ⟨⟨value, rest⟩, read, ended⟩
  have le := (light _).value read
  dsimp only at ended
  split at ended
  · cases ended
    omega
  · cases ended

/-- Where no part is heavier than it may be and the sums agree, each part is as heavy as it may
be. -/
theorem tight_of_sum {α : Type u} {f g : α → Nat} {parts : List α}
    (light : ∀ part ∈ parts, f part ≤ g part)
    (tight : (parts.map g).sum ≤ (parts.map f).sum) : ∀ part ∈ parts, g part ≤ f part := by
  induction parts with
  | nil => exact forall_mem_nil _
  | cons part parts ih =>
      rcases forall_mem_cons.mp light with ⟨head, tail⟩
      have tailSum := sum_le_sum tail
      rw [map_cons, map_cons, sum_cons, sum_cons] at tight
      refine forall_mem_cons.mpr ⟨?_, ih tail ?_⟩ <;> omega

variable {sep : List Char}

theorem weight_joined (sepWeight : weight sep = 2) (text : List Char) (texts : List (List Char)) :
    weight (joined sep (text :: texts)) + 2 =
      ((text :: texts).map fun t => weight t + 2).sum := by
  induction texts generalizing text with
  | nil => simp [joined]
  | cons next texts ih =>
      have others := ih next
      rw [joined_cons_cons, weight_append, weight_append, sepWeight, map_cons, sum_cons,
        ← others]
      omega

theorem weight_bracketed {first last : Char} (firstPlain : isPlain first = true)
    (lastPlain : isPlain last = true) (sepWeight : weight sep = 2)
    (text : List Char) (texts : List (List Char)) :
    weight (first :: (joined sep (text :: texts) ++ [last])) =
      2 + ((text :: texts).map fun t => weight t + 2).sum := by
  have joinedWeight := weight_joined sepWeight text texts
  rw [weight_cons, weight_append, weight_cons, charWeight, if_pos firstPlain, charWeight,
    if_pos lastPlain, ← joinedWeight]
  change 2 + (_ + (2 + 0)) = _
  omega

theorem weightOf_array {α : Type u} (json : α → Json) (elements : List α) :
    weightOf (.array (elements.map json)) =
      2 + (elements.map fun element => weightOf (json element) + 2).sum := by
  have sum_eq : weightOfElements (elements.map json) =
      (elements.map fun element => weightOf (json element) + 2).sum := by
    induction elements with
    | nil => rfl
    | cons element elements ih =>
        rw [map_cons, weightOfElements, ih, map_cons, sum_cons]
  rw [weightOf, sum_eq]

/-- An array is not heavier than it may be, when its elements are not, and when it is as heavy as
it may be, so are they. -/
theorem weight_array {α : Type u} {json : α → Json} {text : α → List Char}
    (sepWeight : weight sep = 2) {element : α} {elements : List α}
    (light : ∀ e ∈ element :: elements, weight (text e) ≤ weightOf (json e)) :
    weight ('[' :: (joined sep ((element :: elements).map text) ++ [']'])) ≤
        weightOf (.array ((element :: elements).map json)) ∧
      (weightOf (.array ((element :: elements).map json)) ≤
          weight ('[' :: (joined sep ((element :: elements).map text) ++ [']'])) →
        ∀ e ∈ element :: elements, weightOf (json e) ≤ weight (text e)) := by
  have text_eq := weight_bracketed (by decide : isPlain '[' = true) (by decide : isPlain ']' = true)
    sepWeight (text element) (elements.map text)
  rw [← map_cons (f := text), map_map] at text_eq
  have lightParts : ∀ e ∈ element :: elements, weight (text e) + 2 ≤ weightOf (json e) + 2 :=
    fun e within => Nat.add_le_add_right (light e within) 2
  rw [text_eq, weightOf_array]
  constructor
  · exact Nat.add_le_add_left (sum_le_sum lightParts) 2
  · intro tight e within
    exact Nat.le_of_add_le_add_right
      (tight_of_sum lightParts (Nat.le_of_add_le_add_left tight) e within)

theorem weight_memberText (name text : List Char) :
    weight (memberText name text) = weight name + 4 + weight text := by
  have quote : charWeight '"' = 1 := rfl
  have colon : charWeight ':' = 2 := rfl
  rw [memberText, quoted, cons_append, append_assoc]
  simp only [weight_cons, weight_append, quote, colon, cons_append, nil_append]
  omega

theorem weightOf_objectJson (members : List Member) :
    weightOf (objectJson members) =
      2 + (members.map fun m => 2 * m.name.length + 4 + weightOf m.json + 2).sum := by
  have sum_eq : weightOfMembers (members.map fun m => (m.name, m.json)) =
      (members.map fun m => 2 * m.name.length + 4 + weightOf m.json + 2).sum := by
    induction members with
    | nil => rfl
    | cons member members ih =>
        rw [map_cons, weightOfMembers, ih, map_cons, sum_cons]
  rw [objectJson, weightOf, sum_eq]

/-- The same for objects. -/
theorem weight_objectText {member : Member} {members : List Member}
    (light : ∀ m ∈ member :: members, weight m.text ≤ weightOf m.json) :
    weight (objectText (member :: members)) ≤ weightOf (objectJson (member :: members)) ∧
      (weightOf (objectJson (member :: members)) ≤ weight (objectText (member :: members)) →
        ∀ m ∈ member :: members, weightOf m.json ≤ weight m.text) := by
  have text_eq := weight_bracketed (by decide : isPlain '{' = true) (by decide : isPlain '}' = true)
    (by decide : weight [','] = 2) (memberText member.name member.text)
    (members.map fun m => memberText m.name m.text)
  rw [← map_cons (f := fun m : Member => memberText m.name m.text), map_map] at text_eq
  have lightParts : ∀ m ∈ member :: members,
      weight (memberText m.name m.text) + 2 ≤ 2 * m.name.length + 4 + weightOf m.json + 2 := by
    intro m within
    have name := weight_le m.name
    have value := light m within
    rw [weight_memberText]
    omega
  rw [weightOf_objectJson, objectText, text_eq]
  constructor
  · exact Nat.add_le_add_left (sum_le_sum lightParts) 2
  · intro tight m within
    have part := tight_of_sum lightParts (Nat.le_of_add_le_add_left tight) m within
    have name := weight_le m.name
    rw [weight_memberText] at part
    omega

namespace Member

theorem weight_quoted (text : List Char) : weight (quoted text) = weight text + 2 := by
  have quote : charWeight '"' = 1 := rfl
  have nil : weight [] = 0 := rfl
  rw [quoted, weight_cons, weight_append, weight_cons, quote, nil]
  omega

theorem light_ofText (name text : List Char) :
    weight (ofText name text).text ≤ weightOf (ofText name text).json := by
  have le := weight_le text
  change weight (quoted text) ≤ weightOf (.string text)
  rw [weight_quoted, weightOf]
  omega

theorem plain_of_tight {name : List Char}
    (tight : weightOf (ofText name text).json ≤ weight (ofText name text).text) :
    ∀ c ∈ text, isPlain c = true := by
  change weightOf (.string text) ≤ weight (quoted text) at tight
  rw [weight_quoted, weightOf] at tight
  exact plain_of_weight (by omega)

theorem light_ofNumber (name literal : List Char) :
    weight (ofNumber name literal).text ≤ weightOf (ofNumber name literal).json := by
  change weight literal ≤ weightOf (.number literal)
  rw [weightOf]
  exact weight_le literal

theorem light_ofBool (name : List Char) (value : Bool) :
    weight (ofBool name value).text ≤ weightOf (ofBool name value).json := by
  change weight (boolText value) ≤ weightOf (.bool value)
  rw [weightOf]
  exact weight_le _

end Member

end Json

end Theory
