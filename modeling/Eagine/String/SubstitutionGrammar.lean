import Eagine.String.VariableSubstitution

/-!
# The grammar of format strings

What the references in a format string are, what the text is in which they are replaced, and
where the scanner finds just these references.
-/

namespace Eagine.Substitution

open Serialization List Nat

/-- The text up to the closing bracket that matches an opening one in front of it, and the text
after that bracket. -/
def splitAtClosing (left right : UInt8) : Nat → Block → Option (Block × Block)
  | _, [] => none
  | depth, char :: text =>
      if char = left then
        (splitAtClosing left right (depth + 1) text).map fun split => (char :: split.1, split.2)
      else if char = right then
        match depth with
        | 0 => some ([], text)
        | depth + 1 =>
            (splitAtClosing left right depth text).map fun split => (char :: split.1, split.2)
      else (splitAtClosing left right depth text).map fun split => (char :: split.1, split.2)

variable (opts : VariableSubstitutionOptions)

/-- The content of the reference that a text starts with, and the text after it. -/
def reference : Block → Option (Block × Block)
  | sign :: bracket :: text =>
      if sign = opts.leadingSign ∧ bracket = opts.openingBracket then
        (splitAtClosing opts.openingBracket opts.closingBracket 0 text).filter
          fun split => !split.1.isEmpty
      else none
  | _ => none

variable {after content text : Block} {char : UInt8} {contents : List Block}
  {other replace : Block → Block}

variable {left right : UInt8} {depth : Nat}

/-- A split ends at a closing bracket of depth zero, or goes on behind the first character. -/
theorem splitAtClosing_cases
    (split : splitAtClosing left right depth (char :: text) = some (content, after)) :
    (char ≠ left ∧ char = right ∧ depth = 0 ∧ content = [] ∧ after = text) ∨
      ∃ deeper others, content = char :: others ∧
        splitAtClosing left right deeper text = some (others, after) ∧
          (char = left ∧ deeper = depth + 1 ∨ char ≠ left ∧ char = right ∧ depth = deeper + 1 ∨
            char ≠ left ∧ char ≠ right ∧ deeper = depth) := by
  have goesOn : ∀ {deeper : Nat}, (splitAtClosing left right deeper text).map
      (fun split => (char :: split.1, split.2)) = some (content, after) →
        ∃ others, content = char :: others ∧
          splitAtClosing left right deeper text = some (others, after) := by
    intro deeper mapped
    rcases Option.map_eq_some_iff.mp mapped with ⟨⟨others, _⟩, tailSplit, same⟩
    cases same
    exact ⟨others, rfl, tailSplit⟩
  unfold splitAtClosing at split
  split at split
  · next opening =>
      rcases goesOn split with ⟨others, contentEq, tailSplit⟩
      exact Or.inr ⟨_, others, contentEq, tailSplit, Or.inl ⟨opening, rfl⟩⟩
  · next noOpening =>
      split at split
      · next closing =>
          cases depth with
          | zero =>
              cases split
              exact Or.inl ⟨noOpening, closing, rfl, rfl, rfl⟩
          | succ depth =>
              rcases goesOn split with ⟨others, contentEq, tailSplit⟩
              exact Or.inr ⟨_, others, contentEq, tailSplit,
                Or.inr (Or.inl ⟨noOpening, closing, rfl⟩)⟩
      · next noClosing =>
          rcases goesOn split with ⟨others, contentEq, tailSplit⟩
          exact Or.inr ⟨_, others, contentEq, tailSplit,
            Or.inr (Or.inr ⟨noOpening, noClosing, rfl⟩)⟩

theorem splitAtClosing_eq (split : splitAtClosing left right depth text = some (content, after)) :
    text = content ++ right :: after := by
  induction text generalizing depth content with
  | nil => cases split
  | cons char text ih =>
      rcases splitAtClosing_cases split with ⟨_, rfl, _, rfl, rfl⟩ |
        ⟨deeper, others, rfl, tailSplit, _⟩
      · rfl
      · rw [ih tailSplit]
        rfl

/-- A reference is a sign with a name in brackets. -/
theorem reference_eq (found : reference opts text = some (content, after)) :
    text = opts.leadingSign :: opts.openingBracket ::
      (content ++ opts.closingBracket :: after) ∧ content ≠ [] := by
  rcases text with _ | ⟨sign, _ | ⟨bracket, text⟩⟩
  · cases found
  · cases found
  · rw [reference] at found
    split at found
    · next starts =>
        rcases Option.filter_eq_some_iff.mp found with ⟨split, filled⟩
        rw [starts.1, starts.2, splitAtClosing_eq split]
        constructor
        · rfl
        · rintro rfl
          cases filled
    · cases found

theorem reference_other (other : char ≠ opts.leadingSign) (text : Block) :
    reference opts (char :: text) = none := by
  cases text with
  | nil => rfl
  | cons bracket text => exact if_neg fun starts => other starts.1

theorem length_content_lt (found : reference opts text = some (content, after)) :
    content.length < text.length := by
  rw [(reference_eq opts found).1]
  simp only [length_cons, length_append]
  omega

theorem length_after_lt (found : reference opts text = some (content, after)) :
    after.length < text.length := by
  rw [(reference_eq opts found).1]
  simp only [length_cons, length_append]
  omega

/-- A reference that is not translated. -/
def untranslated (content : Block) : Block :=
  if opts.keepUntranslated then
    opts.leadingSign :: opts.openingBracket :: (content ++ [opts.closingBracket])
  else []

/-- What a reference is replaced by, with its content and what that is expanded to. -/
def resolve (translate : Block → Option Block) (content expanded : Block) : Block :=
  match translate content with
  | some translation => translation
  | none => (translate expanded).getD (untranslated opts content)

/-- The text in which each reference is replaced by its translation. -/
def expand (translate : Block → Option Block) : Block → Block
  | [] => []
  | char :: text =>
      match _found : reference opts (char :: text) with
      | some (content, after) =>
          resolve opts translate content (expand translate content) ++ expand translate after
      | none => char :: expand translate text
termination_by text => text.length
decreasing_by
  · exact length_content_lt opts _found
  · exact length_after_lt opts _found
  · exact lt_succ_self _

/-- The text in which the references are replaced in a certain way. -/
def expandWith (replace : Block → Block) : Block → Block
  | [] => []
  | char :: text =>
      match _found : reference opts (char :: text) with
      | some (content, after) => replace content ++ expandWith replace after
      | none => char :: expandWith replace text
termination_by text => text.length
decreasing_by
  · exact length_after_lt opts _found
  · exact lt_succ_self _

section Replacing

variable (replace : Block → Block)

theorem expandWith_nil : expandWith opts replace [] = [] := by
  rw [expandWith]

theorem expandWith_reference (found : reference opts text = some (content, after)) :
    expandWith opts replace text = replace content ++ expandWith opts replace after := by
  cases text with
  | nil => cases found
  | cons char text =>
      rw [expandWith]
      split
      · next same =>
          cases found.symm.trans same
          rfl
      · next missing => rw [missing] at found; cases found

theorem expandWith_char (missing : reference opts (char :: text) = none) :
    expandWith opts replace (char :: text) = char :: expandWith opts replace text := by
  rw [expandWith]
  split
  · next found => rw [missing] at found; cases found
  · rfl

/-- Characters that no reference starts with are copied. -/
theorem expandWith_pair (first : reference opts text = none)
    (second : reference opts (text.drop 1) = none) :
    expandWith opts replace text = text.take 2 ++ expandWith opts replace (text.drop 2) := by
  rcases text with _ | ⟨char, _ | ⟨other, text⟩⟩
  · rfl
  · rw [expandWith_char opts replace first]
    rfl
  · rw [expandWith_char opts replace first, expandWith_char opts replace second]
    rfl

theorem expand_eq (translate : Block → Option Block) (text : Block) :
    expand opts translate text =
      expandWith opts (fun content => resolve opts translate content
        (expand opts translate content)) text := by
  cases text with
  | nil => rw [expand, expandWith]
  | cons char text =>
      rw [expand, expandWith]
      split
      · next content after found =>
          have shorter : after.length ≤ text.length :=
            le_of_lt_succ (length_after_lt opts found)
          rw [expand_eq translate after]
      · rw [expand_eq translate text]
termination_by text.length

theorem expand_reference (translate : Block → Option Block)
    (found : reference opts text = some (content, after)) :
    expand opts translate text =
      resolve opts translate content (expand opts translate content) ++
        expand opts translate after := by
  rw [expand_eq, expandWith_reference opts _ found, ← expand_eq]

theorem expand_char (translate : Block → Option Block)
    (missing : reference opts (char :: text) = none) :
    expand opts translate (char :: text) = char :: expand opts translate text := by
  rw [expand_eq, expandWith_char opts _ missing, ← expand_eq]

theorem expand_pair (translate : Block → Option Block) (first : reference opts text = none)
    (second : reference opts (text.drop 1) = none) :
    expand opts translate text = text.take 2 ++ expand opts translate (text.drop 2) := by
  rw [expand_eq, expandWith_pair opts _ first second, ← expand_eq]

end Replacing

/-- The first opening bracket is followed by a closing one, or by one character at most. -/
def Nameless (left right : UInt8) : Block → Prop
  | [] => True
  | char :: text =>
      if char = left then text.length ≤ 1 ∨ left ≠ right ∧ text.head? = some right
      else Nameless left right text

theorem sliceInsideBrackets_skip {left : UInt8} (other : char ≠ left) (right : UInt8)
    (text : Block) :
    sliceInsideBrackets (char :: text) left right = sliceInsideBrackets text left right := by
  rw [sliceInsideBrackets, sliceInsideBrackets, findElement_cons other]
  cases findElement text left <;> rfl

theorem sliceInsideBrackets_open (left right : UInt8) (text : Block) :
    sliceInsideBrackets (left :: text) left right =
      snip (text.take (bracketLength left right 1 text)) 1 := by
  rw [sliceInsideBrackets, findElement_self]
  rfl

theorem bracketLength_pos (left right : UInt8) (depth : Nat) (char : UInt8) (text : Block) :
    0 < bracketLength left right (depth + 1) (char :: text) := by
  rw [bracketLength]
  split
  · exact succ_pos _
  · split <;> exact succ_pos _

theorem snip_eq_nil_iff (text : Block) : snip text 1 = [] ↔ text.length ≤ 1 := by
  rw [← length_eq_zero_iff, snip, length_take]
  omega

/-- The brackets found enclose nothing just where no name follows the first opening one. -/
theorem sliceInsideBrackets_eq_nil_iff (left right : UInt8) (text : Block) :
    sliceInsideBrackets text left right = [] ↔ Nameless left right text := by
  induction text with
  | nil => exact iff_of_true rfl trivial
  | cons char text ih =>
      rw [Nameless]
      split
      · next opening =>
          subst opening
          rw [sliceInsideBrackets_open, snip_eq_nil_iff, length_take]
          rcases text with _ | ⟨first, _ | ⟨second, text⟩⟩
          · simp
          · simp
          · have deeper : 0 < bracketLength char right (0 + 2) (second :: text) :=
              bracketLength_pos char right 1 second text
            have level : 0 < bracketLength char right (0 + 1) (second :: text) :=
              bracketLength_pos char right 0 second text
            rw [bracketLength]
            split
            · next again =>
                have closing : ¬(char ≠ right ∧ first = right) :=
                  fun both => both.1 (again.symm.trans both.2)
                simp only [length_cons, head?_cons, Option.some.injEq, closing, or_false]
                omega
            · next noOpening =>
                split
                · next closing =>
                    have different : char ≠ right := fun same => noOpening (closing.trans same.symm)
                    simp [bracketLength, closing, different]
                · next noClosing =>
                    simp only [length_cons, head?_cons, Option.some.injEq, noClosing,
                      and_false, or_false]
                    omega
      · next noOpening => rw [sliceInsideBrackets_skip noOpening, ih]

theorem bracketLength_succ_le (left right : UInt8) (depth : Nat) (text : Block) :
    bracketLength left right depth text ≤ bracketLength left right (depth + 1) text := by
  induction text generalizing depth with
  | nil => rw [bracketLength, bracketLength]
  | cons char text ih =>
      cases depth with
      | zero => exact zero_le _
      | succ depth =>
          rw [bracketLength, bracketLength]
          split
          · exact Nat.succ_le_succ (ih _)
          · split <;> exact Nat.succ_le_succ (ih _)

theorem bracketLength_split (split : splitAtClosing left right depth text = some (content, after)) :
    bracketLength left right (depth + 1) text = content.length + 1 := by
  induction text generalizing depth content with
  | nil => cases split
  | cons char text ih =>
      rw [bracketLength]
      rcases splitAtClosing_cases split with ⟨noOpening, closing, rfl, rfl, rfl⟩ |
        ⟨deeper, others, rfl, tailSplit, step⟩
      · rw [if_neg noOpening, if_pos closing]
        cases after <;> rfl
      · have tail := ih tailSplit
        rcases step with ⟨opening, rfl⟩ | ⟨noOpening, closing, rfl⟩ | ⟨noOpening, noClosing, rfl⟩
        · rw [if_pos opening, tail, length_cons]
        · rw [if_neg noOpening, if_pos closing, tail, length_cons]
        · rw [if_neg noOpening, if_neg noClosing, tail, length_cons]

/-- The brackets of a reference are the first ones from its sign on, unless the sign is an opening
bracket itself. -/
theorem insideBrackets_reference_iff (found : reference opts text = some (content, after)) :
    insideBrackets opts text = content ↔ opts.leadingSign ≠ opts.openingBracket := by
  rcases text with _ | ⟨sign, _ | ⟨bracket, text⟩⟩
  · cases found
  · cases found
  · rw [reference] at found
    split at found
    · next starts =>
        rcases Option.filter_eq_some_iff.mp found with ⟨split, _⟩
        rw [insideBrackets, starts.1, starts.2]
        have length := bracketLength_split split
        constructor
        · intro sliced same
          have deeper : bracketLength opts.openingBracket opts.closingBracket (0 + 1) text ≤
              bracketLength opts.openingBracket opts.closingBracket (0 + 2) text :=
            bracketLength_succ_le _ _ 1 text
          rw [same, sliceInsideBrackets_open, bracketLength, if_pos rfl] at sliced
          have lengths := congrArg List.length sliced
          rw [snip, length_take, length_take, length_cons] at lengths
          have textLength := congrArg List.length (splitAtClosing_eq split)
          rw [length_append, length_cons] at textLength
          omega
        · intro different
          have closed : content.length + 1 - content.length = 1 := by omega
          rw [sliceInsideBrackets_skip different, sliceInsideBrackets_open, length,
            splitAtClosing_eq split, take_append, take_of_length_le (le_succ _),
            closed]
          simp [snip]
    · cases found

/-- The scanner finds the references of the text, which have these contents. No name follows the
first opening bracket from each other sign on, and no reference starts in the two characters that
are copied with the sign. -/
inductive Scans : Block → List Block → Prop
  | nil : Scans [] []
  | other {char : UInt8} {text : Block} {contents : List Block} :
      char ≠ opts.leadingSign → Scans text contents → Scans (char :: text) contents
  | reference {text content after : Block} {contents : List Block} :
      opts.leadingSign ≠ opts.openingBracket →
        reference opts (opts.leadingSign :: text) = some (content, after) →
          Scans after contents → Scans (opts.leadingSign :: text) (content :: contents)
  | sign {text : Block} {contents : List Block} :
      reference opts (opts.leadingSign :: text) = none →
        Nameless opts.openingBracket opts.closingBracket (opts.leadingSign :: text) →
          reference opts text = none → reference opts (text.drop 1) = none →
            Scans (text.drop 2) contents → Scans (opts.leadingSign :: text) contents

/-- The scanner finds the references of the text, and of the contents of the references. -/
inductive Clean : Block → Prop
  | scans {text : Block} {contents : List Block} :
      Scans opts text contents → (∀ content ∈ contents, Clean content) → Clean text

/-- What is appended for a reference that the scanner finds. -/
theorem substitutedFor_eq (translate : Block → Option Block) (content after : Block) :
    substitutedFor translate opts
        (opts.leadingSign :: opts.openingBracket :: (content ++ opts.closingBracket :: after))
        content =
      resolve opts translate content (substituted translate opts content) := by
  have kept : head (opts.leadingSign :: opts.openingBracket ::
      (content ++ opts.closingBracket :: after)) (content.length + 3) =
        opts.leadingSign :: opts.openingBracket :: (content ++ [opts.closingBracket]) := by
    have closed : content.length + 1 - content.length = 1 := by omega
    rw [head, take_succ_cons, take_succ_cons, take_append,
      take_of_length_le (le_succ _), closed]
    rfl
  rw [substitutedFor, resolve, kept]
  cases translated : translate content with
  | some translation => rfl
  | none =>
      cases found : findElement content opts.leadingSign with
      | some position =>
          simp only [Option.isSome_some, if_true]
          cases translate (substituted translate opts content) <;> rfl
      | none =>
          have same : substituted translate opts content = content :=
            doSubstitute_none translate opts found []
          rw [same, translated]
          rfl

theorem substituted_reference (translate : Block → Option Block)
    (found : reference opts (opts.leadingSign :: text) = some (content, after))
    (sliced : insideBrackets opts (opts.leadingSign :: text) = content) :
    substituted translate opts (opts.leadingSign :: text) =
      resolve opts translate content (substituted translate opts content) ++
        substituted translate opts after := by
  rcases reference_eq opts found with ⟨textEq, filled⟩
  have rest : text.drop (content.length + 2) = after := by
    have closed : (content ++ [opts.closingBracket]).length = content.length + 1 := by
      rw [length_append, length_singleton]
    rw [(List.cons.inj textEq).2, drop_succ_cons, append_cons, ← closed, drop_left]
  rw [substituted_replace translate opts (sliced ▸ filled), sliced, rest, textEq,
    substitutedFor_eq]

theorem substituted_scans (translate : Block → Option Block) (scans : Scans opts text contents) :
    substituted translate opts text = expandWith opts (fun content => resolve opts translate content
      (substituted translate opts content)) text := by
  induction scans with
  | nil => rw [substituted_nil, expandWith_nil]
  | other char _ ih =>
      rw [substituted_cons translate opts char, ih,
        expandWith_char opts _ (reference_other opts char _)]
  | reference different found _ ih =>
      have sliced := (insideBrackets_reference_iff opts found).mpr different
      rw [expandWith_reference opts _ found, substituted_reference opts translate found sliced, ih]
  | sign missing nameless first second _ ih =>
      have nothing := (sliceInsideBrackets_eq_nil_iff _ _ _).mpr nameless
      rw [substituted_copy translate opts nothing, ih, expandWith_char opts _ missing,
        expandWith_pair opts _ first second]
      rfl

/-- Replacing the references of the text only depends on what their contents are replaced by. -/
theorem expandWith_congr (scans : Scans opts text contents)
    (same : ∀ content ∈ contents, replace content = other content) :
    expandWith opts replace text = expandWith opts other text := by
  induction scans with
  | nil => rw [expandWith_nil, expandWith_nil]
  | other char _ ih =>
      have missing := reference_other opts char
      rw [expandWith_char opts _ (missing _), expandWith_char opts _ (missing _), ih same]
  | reference _ found _ ih =>
      rcases forall_mem_cons.mp same with ⟨headSame, tailSame⟩
      rw [expandWith_reference opts _ found, expandWith_reference opts _ found, headSame,
        ih tailSame]
  | sign missing _ first second _ ih =>
      rw [expandWith_char opts _ missing, expandWith_char opts _ missing,
        expandWith_pair opts _ first second, expandWith_pair opts _ first second, ih same]

theorem length_lt_of_scans (scans : Scans opts text contents) :
    ∀ content ∈ contents, content.length < text.length := by
  induction scans with
  | nil => exact fun _ mem => absurd mem not_mem_nil
  | other _ _ ih => exact fun content mem => (ih content mem).trans (lt_succ_self _)
  | reference _ found _ ih =>
      intro content mem
      rcases mem_cons.mp mem with rfl | later
      · exact length_content_lt opts found
      · exact (ih content later).trans (length_after_lt opts found)
  | @sign text contents _ _ _ _ _ ih =>
      intro content mem
      have shorter := ih content mem
      rw [length_drop] at shorter
      rw [length_cons]
      omega

/-- The longer the replacements, the longer is the text. -/
theorem length_expandWith_le (scans : Scans opts text contents)
    (least : ∀ content ∈ contents, (replace content).length ≤ (other content).length) :
    (expandWith opts replace text).length ≤ (expandWith opts other text).length := by
  induction scans with
  | nil => rw [expandWith_nil, expandWith_nil]
  | other char _ ih =>
      have missing := reference_other opts char
      rw [expandWith_char opts _ (missing _), expandWith_char opts _ (missing _)]
      exact Nat.succ_le_succ (ih least)
  | reference _ found _ ih =>
      rcases forall_mem_cons.mp least with ⟨headLeast, tailLeast⟩
      rw [expandWith_reference opts _ found, expandWith_reference opts _ found,
        length_append, length_append]
      exact Nat.add_le_add headLeast (ih tailLeast)
  | sign missing _ first second _ ih =>
      rw [expandWith_char opts _ missing, expandWith_char opts _ missing,
        expandWith_pair opts _ first second, expandWith_pair opts _ first second,
        length_cons, length_cons, length_append, length_append]
      exact Nat.succ_le_succ (Nat.add_le_add_left (ih least) _)

theorem length_expandWith_lt (scans : Scans opts text contents)
    (least : ∀ content ∈ contents, (replace content).length ≤ (other content).length)
    {longer : Block} (mem : longer ∈ contents)
    (less : (replace longer).length < (other longer).length) :
    (expandWith opts replace text).length < (expandWith opts other text).length := by
  induction scans with
  | nil => exact absurd mem not_mem_nil
  | other char _ ih =>
      have missing := reference_other opts char
      rw [expandWith_char opts _ (missing _), expandWith_char opts _ (missing _)]
      exact Nat.succ_lt_succ (ih least mem)
  | reference _ found scans ih =>
      rcases forall_mem_cons.mp least with ⟨headLeast, tailLeast⟩
      rw [expandWith_reference opts _ found, expandWith_reference opts _ found,
        length_append, length_append]
      rcases mem_cons.mp mem with rfl | later
      · exact add_lt_add_of_lt_of_le less (length_expandWith_le opts scans tailLeast)
      · exact add_lt_add_of_le_of_lt headLeast (ih tailLeast later)
  | sign missing _ first second _ ih =>
      rw [expandWith_char opts _ missing, expandWith_char opts _ missing,
        expandWith_pair opts _ first second, expandWith_pair opts _ first second,
        length_cons, length_cons, length_append, length_append]
      exact Nat.succ_lt_succ (Nat.add_lt_add_left (ih least mem) _)

/-- A replacement is a part of the text. -/
theorem length_replace_le (scans : Scans opts text contents) (replace : Block → Block)
    (mem : content ∈ contents) :
    (replace content).length ≤ (expandWith opts replace text).length := by
  induction scans with
  | nil => exact absurd mem not_mem_nil
  | other char _ ih =>
      rw [expandWith_char opts _ (reference_other opts char _)]
      exact (ih mem).trans (le_succ _)
  | reference _ found _ ih =>
      rw [expandWith_reference opts _ found, length_append]
      rcases mem_cons.mp mem with rfl | later
      · exact le_add_right _ _
      · exact (ih later).trans (le_add_left _ _)
  | sign missing _ first second _ ih =>
      rw [expandWith_char opts _ missing, expandWith_pair opts _ first second,
        length_cons, length_append]
      exact ((ih mem).trans (le_add_left _ _)).trans (le_succ _)

/-- Where the scanner finds the references they are replaced as the grammar says. -/
theorem substituted_clean (translate : Block → Option Block) (clean : Clean opts text) :
    substituted translate opts text = expand opts translate text := by
  induction clean with
  | scans scans _ ih =>
      rw [substituted_scans opts translate scans, expand_eq]
      apply expandWith_congr opts scans
      intro content mem
      rw [ih content mem]

end Eagine.Substitution
