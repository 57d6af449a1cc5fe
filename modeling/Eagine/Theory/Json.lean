import Mathlib.Data.List.TakeWhile

/-!
# JSON texts

The values of JSON and a reader of their texts. A text that is put together from the texts of
values is read as the value that is put together from these.
-/

namespace Theory

open List Option

universe u

/-- A value of JSON. Numbers are kept as they are written. -/
inductive Json where
  | null
  | bool (value : Bool)
  | number (literal : List Char)
  | string (text : List Char)
  | array (elements : List Json)
  | object (members : List (List Char × Json))

namespace Json

def isSpace (c : Char) : Bool :=
  c == ' ' || c == '\t' || c == '\n' || c == '\r'

def skipSpace (text : List Char) : List Char :=
  text.dropWhile isSpace

/-- The characters that stand for themselves in a string. -/
def isPlain (c : Char) : Bool :=
  decide (32 ≤ c.toNat) && c != '"' && c != '\\'

instance (priority := high) decidablePlain (text : List Char) :
    Decidable (∀ c ∈ text, isPlain c = true) :=
  decidable_of_iff (text.all isPlain = true) all_eq_true

def hexDigit (c : Char) : Option Nat :=
  if '0' ≤ c ∧ c ≤ '9' then some (c.toNat - '0'.toNat)
  else if 'a' ≤ c ∧ c ≤ 'f' then some (c.toNat - 'a'.toNat + 10)
  else if 'A' ≤ c ∧ c ≤ 'F' then some (c.toNat - 'A'.toNat + 10)
  else none

/-- The code unit of an escape sequence with four digits. -/
def codeUnit : List Char → Option (Nat × List Char)
  | a :: b :: c :: d :: rest => do
      let a ← hexDigit a
      let b ← hexDigit b
      let c ← hexDigit c
      let d ← hexDigit d
      some (((a * 16 + b) * 16 + c) * 16 + d, rest)
  | _ => none

/-- The character behind a backslash and a `u`. A high surrogate is followed by a low one. -/
def escapedUnit (text : List Char) : Option (Char × List Char) := do
  let (unit, rest) ← codeUnit text
  if 0xD800 ≤ unit ∧ unit < 0xDC00 then
    match rest with
    | '\\' :: 'u' :: rest => do
        let (low, rest) ← codeUnit rest
        if 0xDC00 ≤ low ∧ low < 0xE000 then
          some (Char.ofNat (0x10000 + (unit - 0xD800) * 0x400 + (low - 0xDC00)), rest)
        else none
    | _ => none
  else if 0xDC00 ≤ unit ∧ unit < 0xE000 then none
  else some (Char.ofNat unit, rest)

/-- The character behind a backslash. -/
def escaped : List Char → Option (Char × List Char)
  | '"' :: rest => some ('"', rest)
  | '\\' :: rest => some ('\\', rest)
  | '/' :: rest => some ('/', rest)
  | 'b' :: rest => some ('\x08', rest)
  | 'f' :: rest => some ('\x0c', rest)
  | 'n' :: rest => some ('\n', rest)
  | 'r' :: rest => some ('\r', rest)
  | 't' :: rest => some ('\t', rest)
  | 'u' :: rest => escapedUnit rest
  | _ => none

/-- A string behind its opening quote. -/
def stringBody : Nat → List Char → Option (List Char × List Char)
  | 0, _ => none
  | fuel + 1, text =>
      match text with
      | '"' :: rest => some ([], rest)
      | '\\' :: rest => do
          let (c, rest) ← escaped rest
          let (body, rest) ← stringBody fuel rest
          some (c :: body, rest)
      | c :: rest =>
          if isPlain c then (stringBody fuel rest).map fun read => (c :: read.1, read.2) else none
      | [] => none

def isNumberChar (c : Char) : Bool :=
  c.isDigit || c == '+' || c == '-' || c == '.' || c == 'e' || c == 'E'

def isDigits (text : List Char) : Bool :=
  !text.isEmpty && text.all Char.isDigit

def isExponent : List Char → Bool
  | [] => true
  | e :: '+' :: rest => (e == 'e' || e == 'E') && isDigits rest
  | e :: '-' :: rest => (e == 'e' || e == 'E') && isDigits rest
  | e :: rest => (e == 'e' || e == 'E') && isDigits rest

def isFraction : List Char → Bool
  | '.' :: digit :: rest => digit.isDigit && isExponent (rest.dropWhile Char.isDigit)
  | rest => isExponent rest

def isUnsigned : List Char → Bool
  | '0' :: rest => isFraction rest
  | digit :: rest => digit.isDigit && isFraction (rest.dropWhile Char.isDigit)
  | [] => false

def isNumber : List Char → Bool
  | '-' :: rest => isUnsigned rest
  | rest => isUnsigned rest

def readNumber (text : List Char) : Option (Json × List Char) :=
  if isNumber (text.takeWhile isNumberChar) then
    some (.number (text.takeWhile isNumberChar), text.dropWhile isNumberChar)
  else none

mutual

/-- A value at the beginning of a text, and the rest of the text. The depth of the recursion is
limited by the fuel. -/
def readValue : Nat → List Char → Option (Json × List Char)
  | 0, _ => none
  | fuel + 1, text =>
      match skipSpace text with
      | '{' :: rest =>
          match skipSpace rest with
          | '}' :: rest => some (.object [], rest)
          | _ => (readMembers fuel rest).map fun read => (.object read.1, read.2)
      | '[' :: rest =>
          match skipSpace rest with
          | ']' :: rest => some (.array [], rest)
          | _ => (readElements fuel rest).map fun read => (.array read.1, read.2)
      | '"' :: rest => (stringBody fuel rest).map fun read => (.string read.1, read.2)
      | 'n' :: 'u' :: 'l' :: 'l' :: rest => some (.null, rest)
      | 't' :: 'r' :: 'u' :: 'e' :: rest => some (.bool true, rest)
      | 'f' :: 'a' :: 'l' :: 's' :: 'e' :: rest => some (.bool false, rest)
      | rest => readNumber rest

/-- The members of an object, up to the closing brace. -/
def readMembers : Nat → List Char → Option (List (List Char × Json) × List Char)
  | 0, _ => none
  | fuel + 1, text =>
      match skipSpace text with
      | '"' :: rest =>
          (stringBody fuel rest).bind fun (name, rest) =>
            match skipSpace rest with
            | ':' :: rest =>
                (readValue fuel rest).bind fun (value, rest) =>
                  match skipSpace rest with
                  | ',' :: rest =>
                      (readMembers fuel rest).map fun read => ((name, value) :: read.1, read.2)
                  | '}' :: rest => some ([(name, value)], rest)
                  | _ => none
            | _ => none
      | _ => none

/-- The elements of an array, up to the closing bracket. -/
def readElements : Nat → List Char → Option (List Json × List Char)
  | 0, _ => none
  | fuel + 1, text =>
      (readValue fuel text).bind fun (value, rest) =>
        match skipSpace rest with
        | ',' :: rest => (readElements fuel rest).map fun read => (value :: read.1, read.2)
        | ']' :: rest => some ([value], rest)
        | _ => none

end

/-- The value of a text, when it is one. -/
def parse (text : List Char) : Option Json :=
  (readValue (text.length + 1) text).bind fun (json, rest) =>
    if skipSpace rest = [] then some json else none

theorem isSpace_newline : ∀ c ∈ ['\n'], isSpace c = true :=
  forall_mem_singleton.mpr rfl

variable {c : Char}

theorem skipSpace_cons (notSpace : isSpace c = false) (rest : List Char) :
    skipSpace (c :: rest) = c :: rest := by
  simp [skipSpace, notSpace]

variable {space text name : List Char} {fuel : Nat} {json : Json}

theorem skipSpace_append (isAll : ∀ c ∈ space, isSpace c = true) (rest : List Char) :
    skipSpace (space ++ rest) = skipSpace rest :=
  dropWhile_append_of_pos isAll

theorem isPlain_ne (plain : isPlain c = true) : c ≠ '"' ∧ c ≠ '\\' := by
  simp only [isPlain, Bool.and_eq_true, bne_iff_ne, ne_eq] at plain
  exact ⟨plain.1.2, plain.2⟩

theorem isPlain_of_isDigit (digit : c.isDigit = true) : isPlain c = true := by
  have bounds : 48 ≤ c.toNat ∧ c.toNat ≤ 57 := by
    simpa [Char.isDigit, UInt32.le_iff_toNat_le] using digit
  have different {d : Char} (outside : d.toNat < 48 ∨ 57 < d.toNat) : c ≠ d := by
    rintro rfl
    omega
  simp only [isPlain, Bool.and_eq_true, decide_eq_true_eq, bne_iff_ne, ne_eq]
  exact ⟨⟨by omega, different (by decide)⟩, different (by decide)⟩

theorem stringBody_plain {body : List Char} (plain : ∀ c ∈ body, isPlain c = true)
    (enough : body.length < fuel) (rest : List Char) :
    stringBody fuel (body ++ '"' :: rest) = some (body, rest) := by
  induction body generalizing fuel with
  | nil =>
      cases fuel with
      | zero => exact absurd enough (Nat.not_lt_zero _)
      | succ fuel => rfl
  | cons c body ih =>
      cases fuel with
      | zero => exact absurd enough (Nat.not_lt_zero _)
      | succ fuel =>
          rcases forall_mem_cons.mp plain with ⟨plainHead, plainTail⟩
          rcases isPlain_ne plainHead with ⟨notQuote, notBackslash⟩
          have tail := ih plainTail (Nat.lt_of_succ_lt_succ enough)
          simp [stringBody, plainHead, tail]

/-- The rest does not continue a number. -/
def Delimited (rest : List Char) : Prop :=
  ∀ c ∈ rest.head?, isNumberChar c = false

theorem delimited_nil : Delimited [] := by
  simp [Delimited]

theorem delimited_cons (delimiter : isNumberChar c = false) (rest : List Char) :
    Delimited (c :: rest) := by
  simpa [Delimited] using delimiter

variable {literal : List Char}

theorem readNumber_append (number : isNumber literal = true)
    (chars : ∀ c ∈ literal, isNumberChar c = true) {rest : List Char} (delimited : Delimited rest) :
    readNumber (literal ++ rest) = some (.number literal, rest) := by
  have stop : rest.takeWhile isNumberChar = [] ∧ rest.dropWhile isNumberChar = rest := by
    cases rest with
    | nil => exact ⟨rfl, rfl⟩
    | cons c rest =>
        have delimiter : isNumberChar c = false := delimited c rfl
        simp [delimiter]
  have taken : (literal ++ rest).takeWhile isNumberChar = literal := by
    rw [takeWhile_append_of_pos chars, stop.1, append_nil]
  have dropped : (literal ++ rest).dropWhile isNumberChar = rest := by
    rw [dropWhile_append_of_pos chars, stop.2]
  rw [readNumber, taken, dropped, if_pos number]

/-- The text is read as the value, whatever follows it. -/
structure Parses (json : Json) (text : List Char) : Prop where
  starts : ∃ c rest, text = c :: rest ∧ isSpace c = false ∧ c ≠ ']'
  readValue_eq : ∀ {fuel rest}, text.length < fuel → Delimited rest →
    readValue fuel (text ++ rest) = some (json, rest)

/-- The text has the members of an object. -/
structure ParsesMembers (members : List (List Char × Json)) (text : List Char) : Prop where
  starts : ∃ rest, text = '"' :: rest
  readMembers_eq : ∀ {fuel} rest, text.length < fuel →
    readMembers fuel (text ++ '}' :: rest) = some (members, rest)

/-- The text has the elements of an array. -/
structure ParsesElements (elements : List Json) (text : List Char) : Prop where
  starts : ∃ c rest, text = c :: rest ∧ isSpace c = false ∧ c ≠ ']'
  readElements_eq : ∀ {fuel} rest, text.length + 1 < fuel →
    readElements fuel (text ++ ']' :: rest) = some (elements, rest)

theorem Parses.parse_eq (parses : Parses json text) : parse text = some json := by
  have read := parses.readValue_eq (Nat.lt_succ_self text.length) delimited_nil
  rw [append_nil] at read
  rw [parse, read, bind_some]
  exact if_pos rfl

theorem parses_null : Parses .null ['n', 'u', 'l', 'l'] where
  starts := ⟨'n', _, rfl, rfl, by decide⟩
  readValue_eq := by
    intro fuel rest enough _
    cases fuel with
    | zero => exact absurd enough (Nat.not_lt_zero _)
    | succ fuel => simp [readValue, skipSpace, isSpace]

/-- The text of a truth value. -/
def boolText : Bool → List Char
  | true => ['t', 'r', 'u', 'e']
  | false => ['f', 'a', 'l', 's', 'e']

theorem parses_bool (value : Bool) : Parses (.bool value) (boolText value) where
  starts := by
    cases value with
    | true => exact ⟨'t', _, rfl, rfl, by decide⟩
    | false => exact ⟨'f', _, rfl, rfl, by decide⟩
  readValue_eq := by
    intro fuel rest enough _
    cases fuel with
    | zero => exact absurd enough (Nat.not_lt_zero _)
    | succ fuel => cases value <;> simp [readValue, skipSpace, isSpace, boolText]

/-- A string in quotes. -/
def quoted (body : List Char) : List Char :=
  '"' :: (body ++ ['"'])

theorem length_quoted (body : List Char) : (quoted body).length = body.length + 2 := by
  simp [quoted]

theorem parses_string {body : List Char} (plain : ∀ c ∈ body, isPlain c = true) :
    Parses (.string body) (quoted body) where
  starts := ⟨'"', _, rfl, rfl, by decide⟩
  readValue_eq := by
    intro fuel rest enough _
    rw [length_quoted] at enough
    cases fuel with
    | zero => exact absurd enough (Nat.not_lt_zero _)
    | succ fuel =>
        have read := stringBody_plain plain (Nat.lt_of_succ_lt_succ (Nat.lt_of_succ_lt enough)) rest
        simp [readValue, skipSpace, isSpace, quoted, read]

theorem parses_number (number : isNumber literal = true)
    (chars : ∀ c ∈ literal, isNumberChar c = true) : Parses (.number literal) literal := by
  cases literal with
  | nil => exact absurd number (by decide)
  | cons first others =>
      have firstChar := chars first mem_cons_self
      have differs {c : Char} (notNumber : isNumberChar c = false) : first ≠ c := by
        rintro rfl
        exact Bool.noConfusion (firstChar.symm.trans notNumber)
      have notSpace : isSpace first = false := by
        simp only [isSpace, Bool.or_eq_false_iff, beq_eq_false_iff_ne]
        exact ⟨⟨⟨differs (by decide), differs (by decide)⟩, differs (by decide)⟩,
          differs (by decide)⟩
      constructor
      · exact ⟨first, others, rfl, notSpace, differs (by decide)⟩
      · intro fuel rest enough delimited
        cases fuel with
        | zero => exact absurd enough (Nat.not_lt_zero _)
        | succ fuel =>
            have read := readNumber_append number chars delimited
            rw [cons_append] at read ⊢
            rw [readValue, skipSpace_cons notSpace]
            split
            · rename_i same
              exact absurd (List.cons.inj same).1 (differs (by decide))
            · rename_i same
              exact absurd (List.cons.inj same).1 (differs (by decide))
            · rename_i same
              exact absurd (List.cons.inj same).1 (differs (by decide))
            · rename_i same
              exact absurd (List.cons.inj same).1 (differs (by decide))
            · rename_i same
              exact absurd (List.cons.inj same).1 (differs (by decide))
            · rename_i same
              exact absurd (List.cons.inj same).1 (differs (by decide))
            · exact read

/-- The text of a member. -/
def memberText (name text : List Char) : List Char :=
  quoted name ++ ':' :: text

theorem length_memberText (name text : List Char) :
    (memberText name text).length = name.length + text.length + 3 := by
  rw [memberText, length_append, length_quoted, length_cons]
  omega

/-- The first member is read up to what follows its value. -/
theorem readMembers_member (plain : ∀ c ∈ name, isPlain c = true) (parses : Parses json text)
    (enough : (memberText name text).length < fuel + 1) {next : Char}
    (delimiter : isNumberChar next = false) (notSpace : isSpace next = false) (rest : List Char) :
    readMembers (fuel + 1) (memberText name text ++ next :: rest) =
      match next :: rest with
      | ',' :: rest =>
          (readMembers fuel rest).map fun read => ((name, json) :: read.1, read.2)
      | '}' :: rest => some ([(name, json)], rest)
      | _ => none := by
  rw [length_memberText] at enough
  have nameFits : name.length < fuel := Nat.lt_of_add_right_lt (k := text.length) (by omega)
  have readName := stringBody_plain plain nameFits (':' :: (text ++ next :: rest))
  have readJson := parses.readValue_eq (by omega : text.length < fuel)
    (delimited_cons delimiter rest)
  have colon : isSpace ':' = false := rfl
  simp only [memberText, quoted, cons_append, append_assoc, nil_append, readMembers]
  rw [skipSpace_cons (by decide)]
  simp only [readName, bind_some, skipSpace_cons colon, readJson, skipSpace_cons notSpace]

theorem parsesMembers_last (plain : ∀ c ∈ name, isPlain c = true) (parses : Parses json text) :
    ParsesMembers [(name, json)] (memberText name text) where
  starts := ⟨_, rfl⟩
  readMembers_eq := by
    intro fuel rest enough
    cases fuel with
    | zero => exact absurd enough (Nat.not_lt_zero _)
    | succ fuel =>
        rw [readMembers_member plain parses enough (by decide) (by decide)]
        rfl

variable {members : List (List Char × Json)}

theorem parsesMembers_cons {others : List Char}
    (plain : ∀ c ∈ name, isPlain c = true) (parses : Parses json text)
    (parsesOthers : ParsesMembers members others) :
    ParsesMembers ((name, json) :: members) (memberText name text ++ ',' :: others) where
  starts := ⟨_, rfl⟩
  readMembers_eq := by
    intro fuel rest enough
    rw [length_append, length_cons] at enough
    cases fuel with
    | zero => exact absurd enough (Nat.not_lt_zero _)
    | succ fuel =>
        have read := parsesOthers.readMembers_eq rest (by omega : others.length < fuel)
        rw [append_assoc, cons_append,
          readMembers_member plain parses (by omega) (by decide) (by decide)]
        simp only [read, map_some]

theorem parses_object (parsesMembers : ParsesMembers members text) :
    Parses (.object members) ('{' :: (text ++ ['}'])) where
  starts := ⟨'{', _, rfl, rfl, by decide⟩
  readValue_eq := by
    intro fuel rest enough _
    rw [length_cons, length_append] at enough
    cases fuel with
    | zero => exact absurd enough (Nat.not_lt_zero _)
    | succ fuel =>
        have read := parsesMembers.readMembers_eq rest (by omega : text.length < fuel)
        rcases parsesMembers.starts with ⟨behind, rfl⟩
        have brace : isSpace '{' = false := rfl
        have quote : isSpace '"' = false := rfl
        rw [cons_append] at read
        simp [readValue, skipSpace_cons brace, skipSpace_cons quote, read]

/-- The first element is read up to what follows it. -/
theorem readElements_element (parses : Parses json text) (isAll : ∀ c ∈ space, isSpace c = true)
    (enough : text.length < fuel) {next : Char} (delimiter : isNumberChar next = false)
    (notSpace : isSpace next = false) (rest : List Char) :
    readElements (fuel + 1) (text ++ (space ++ next :: rest)) =
      match next :: rest with
      | ',' :: rest => (readElements fuel rest).map fun read => (json :: read.1, read.2)
      | ']' :: rest => some ([json], rest)
      | _ => none := by
  have delimited : Delimited (space ++ next :: rest) := by
    cases space with
    | nil => exact delimited_cons delimiter rest
    | cons c space =>
        have isSpaceHead := isAll c mem_cons_self
        apply delimited_cons
        simp only [isSpace, Bool.or_eq_true, beq_iff_eq] at isSpaceHead
        rcases isSpaceHead with ((rfl | rfl) | rfl) | rfl <;> rfl
  rw [readElements, parses.readValue_eq enough delimited]
  simp only [bind_some]
  rw [skipSpace_append isAll, skipSpace_cons notSpace]

theorem parsesElements_last (parses : Parses json text) :
    ParsesElements [json] text where
  starts := parses.starts
  readElements_eq := by
    intro fuel rest enough
    cases fuel with
    | zero => exact absurd enough (Nat.not_lt_zero _)
    | succ fuel =>
        have read := readElements_element parses (fun c within => absurd within not_mem_nil)
          (Nat.lt_of_succ_lt_succ enough) (by decide : isNumberChar ']' = false) rfl rest
        exact read

variable {elements : List Json}

/-- There may be space behind an element, before the comma. -/
theorem parsesElements_cons {others : List Char} (parses : Parses json text)
    (isAll : ∀ c ∈ space, isSpace c = true) (parsesOthers : ParsesElements elements others) :
    ParsesElements (json :: elements) (text ++ (space ++ ',' :: others)) where
  starts := by
    rcases parses.starts with ⟨c, behind, rfl, notSpace, notBracket⟩
    exact ⟨c, _, rfl, notSpace, notBracket⟩
  readElements_eq := by
    intro fuel rest enough
    simp only [length_append, length_cons] at enough
    cases fuel with
    | zero => exact absurd enough (Nat.not_lt_zero _)
    | succ fuel =>
        have some : 0 < text.length := by
          rcases parses.starts with ⟨c, behind, rfl, _⟩
          exact Nat.succ_pos _
        have read := parsesOthers.readElements_eq rest (by omega : others.length + 1 < fuel)
        have first := readElements_element parses isAll (by omega : text.length < fuel)
          (by decide : isNumberChar ',' = false) rfl (others ++ ']' :: rest)
        simp only [append_assoc, cons_append] at first ⊢
        rw [first, read]
        rfl

theorem readValue_bracket {behind : List Char} (notSpace : isSpace c = false)
    (notBracket : c ≠ ']') (text_eq : text = c :: behind) (fuel : Nat) :
    readValue (fuel + 1) ('[' :: text) =
      (readElements fuel text).map fun read => (.array read.1, read.2) := by
  have bracket : isSpace '[' = false := rfl
  simp [readValue, skipSpace_cons bracket, text_eq, skipSpace_cons notSpace, notBracket]

/-- An array is read up to its bracket, whatever is behind it. -/
theorem readValue_array (parsesElements : ParsesElements elements text)
    (enough : text.length + 1 < fuel) (rest : List Char) :
    readValue (fuel + 1) ('[' :: (text ++ ']' :: rest)) = some (.array elements, rest) := by
  rcases parsesElements.starts with ⟨c, behind, text_eq, notSpace, notBracket⟩
  have starts : text ++ ']' :: rest = c :: (behind ++ ']' :: rest) := by
    rw [text_eq, cons_append]
  rw [readValue_bracket notSpace notBracket starts, parsesElements.readElements_eq rest enough]
  rfl

theorem parses_array (parsesElements : ParsesElements elements text) :
    Parses (.array elements) ('[' :: (text ++ [']'])) where
  starts := ⟨'[', _, rfl, rfl, by decide⟩
  readValue_eq := by
    intro fuel rest enough _
    rw [length_cons, length_append] at enough
    cases fuel with
    | zero => exact absurd enough (Nat.not_lt_zero _)
    | succ fuel =>
        have more : text.length + 1 < fuel := Nat.lt_of_succ_lt_succ enough
        have read := readValue_array parsesElements more rest
        rw [cons_append, append_assoc]
        exact read

/-- The texts with a separator between each two of them. -/
def joined (sep : List Char) : List (List Char) → List Char
  | [] => []
  | text :: texts => text ++ texts.flatMap (sep ++ ·)

theorem joined_cons_cons (sep text next : List Char) (texts : List (List Char)) :
    joined sep (text :: next :: texts) = text ++ (sep ++ joined sep (next :: texts)) := by
  simp [joined]

theorem joined_append_singleton (sep text last : List Char) (texts : List (List Char)) :
    joined sep (text :: (texts ++ [last])) = joined sep (text :: texts) ++ (sep ++ last) := by
  simp [joined]

theorem parsesElements_joined {α : Type u} {json : α → Json} {text : α → List Char}
    (isAll : ∀ c ∈ space, isSpace c = true) {element : α} {elements : List α}
    (all : ∀ e ∈ element :: elements, Parses (json e) (text e)) :
    ParsesElements ((element :: elements).map json)
      (joined (space ++ [',']) ((element :: elements).map text)) := by
  induction elements generalizing element with
  | nil =>
      have parses := parsesElements_last (all element mem_cons_self)
      simpa [joined] using parses
  | cons next elements ih =>
      rcases forall_mem_cons.mp all with ⟨first, others⟩
      have parses := parsesElements_cons first isAll (ih others)
      simpa [joined_cons_cons] using parses

/-- A member of an object: its name, its value and the text of that. -/
structure Member where
  name : List Char
  json : Json
  text : List Char

/-- The name needs no escapes, and the text is read as the value. -/
structure Member.Sound (member : Member) : Prop where
  plain : ∀ c ∈ member.name, isPlain c = true
  parses : Parses member.json member.text

namespace Member

def ofText (name text : List Char) : Member :=
  ⟨name, .string text, quoted text⟩

def ofNumber (name literal : List Char) : Member :=
  ⟨name, .number literal, literal⟩

def ofBool (name : List Char) (value : Bool) : Member :=
  ⟨name, .bool value, boolText value⟩

theorem sound_ofText (plainName : ∀ c ∈ name, isPlain c = true)
    (plainText : ∀ c ∈ text, isPlain c = true) : (ofText name text).Sound :=
  ⟨plainName, parses_string plainText⟩

theorem sound_ofNumber (plainName : ∀ c ∈ name, isPlain c = true)
    (parses : Parses (.number literal) literal) : (ofNumber name literal).Sound :=
  ⟨plainName, parses⟩

theorem sound_ofBool (plainName : ∀ c ∈ name, isPlain c = true) (value : Bool) :
    (ofBool name value).Sound :=
  ⟨plainName, parses_bool value⟩

end Member

def objectJson (members : List Member) : Json :=
  .object (members.map fun member => (member.name, member.json))

def objectText (members : List Member) : List Char :=
  '{' :: (joined [','] (members.map fun member => memberText member.name member.text) ++ ['}'])

theorem parsesMembers_joined {member : Member} {members : List Member}
    (all : ∀ m ∈ member :: members, m.Sound) :
    ParsesMembers ((member :: members).map fun m => (m.name, m.json))
      (joined [','] ((member :: members).map fun m => memberText m.name m.text)) := by
  induction members generalizing member with
  | nil =>
      have sound := all member mem_cons_self
      have parses := parsesMembers_last sound.plain sound.parses
      simpa [joined] using parses
  | cons next members ih =>
      rcases forall_mem_cons.mp all with ⟨first, others⟩
      have parses := parsesMembers_cons first.plain first.parses (ih others)
      simpa [joined_cons_cons] using parses

theorem parses_objectText {member : Member} {members : List Member}
    (all : ∀ m ∈ member :: members, m.Sound) :
    Parses (objectJson (member :: members)) (objectText (member :: members)) :=
  parses_object (parsesMembers_joined all)

end Json

end Theory
