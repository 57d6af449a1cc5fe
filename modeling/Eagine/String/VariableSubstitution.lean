import Eagine.String.FromString

/-!
# Substitution of variables

Format strings refer to variables by a leading sign and a name in brackets. The references
are replaced by what a function makes of the names.
-/

namespace Eagine

open Serialization

/-- `variable_substitution_options`. -/
structure VariableSubstitutionOptions where
  keepUntranslated : Bool := false
  leadingSign : UInt8 := byteOf '$'
  openingBracket : UInt8 := byteOf '\x7b'
  closingBracket : UInt8 := byteOf '\x7d'

namespace Substitution

def findElement (spn : Block) (what : UInt8) : Option Nat :=
  spn.findIdx? (· == what)

def head (spn : Block) (length : Nat) : Block :=
  spn.take length

def skip (spn : Block) (length : Nat) : Block :=
  spn.drop length

def snip (spn : Block) (length : Nat) : Block :=
  spn.take (spn.length - length)

def shrink (spn : Block) (length : Nat) : Block :=
  snip (skip spn length) length

/-- The number of elements up to where the depth of the brackets is zero, or to the end, without
a limit for the depth. -/
def bracketLength (left right : UInt8) : Nat → Block → Nat
  | _, [] => 0
  | 0, _ => 0
  | depth + 1, elem :: spn =>
      if elem = left then bracketLength left right (depth + 2) spn + 1
      else if elem = right then bracketLength left right depth spn + 1
      else bracketLength left right (depth + 1) spn + 1

/-- `slice_inside_brackets`, where the depth does not overflow. -/
def sliceInsideBrackets (spn : Block) (left right : UInt8) : Block :=
  match findElement spn left with
  | some found =>
      let spn := skip spn found
      let pos := bracketLength left right 1 (spn.drop 1) + 1
      shrink (head spn pos) 1
  | none => []

theorem length_sliceInsideBrackets_le (spn : Block) (left right : UInt8) :
    (sliceInsideBrackets spn left right).length ≤ spn.length - 2 := by
  rw [sliceInsideBrackets]
  split
  · simp only [shrink, snip, skip, head, List.length_take, List.length_drop]
    omega
  · exact Nat.zero_le _

theorem findElement_lt {spn : Block} {what : UInt8} {position : Nat}
    (found : findElement spn what = some position) : position < spn.length := by
  rcases List.findIdx?_eq_some_iff_getElem.mp found with ⟨bound, _⟩
  exact bound

theorem length_skip (spn : Block) (length : Nat) :
    (skip spn length).length = spn.length - length :=
  List.length_drop

variable {src : Block}

theorem length_skip_skip_lt {what : UInt8} {lpos length : Nat}
    (found : findElement src what = some lpos) (positive : 0 < length) :
    (skip (skip src lpos) length).length < src.length := by
  have bound := findElement_lt found
  rw [length_skip, length_skip]
  omega

theorem length_inside_lt {what left right : UInt8} {lpos : Nat}
    (found : findElement src what = some lpos) :
    (sliceInsideBrackets (skip src lpos) left right).length < src.length := by
  have bound := findElement_lt found
  have inside := length_sliceInsideBrackets_le (skip src lpos) left right
  rw [length_skip] at inside
  omega

/-- `do_substitute_variables_into`, where no depth overflows. -/
def doSubstituteVariablesInto (translate : Block → Option Block)
    (opts : VariableSubstitutionOptions) (dst src : Block) : Block :=
  match found : findElement src opts.leadingSign with
  | some lpos =>
      let dst := dst ++ head src lpos
      let rest := skip src lpos
      let inner := sliceInsideBrackets rest opts.openingBracket opts.closingBracket
      if inner.isEmpty then
        let dst := dst ++ head rest 3
        let after := skip rest 3
        if after.isEmpty then dst else doSubstituteVariablesInto translate opts dst after
      else
        let dst :=
          match translate inner with
          | some translation => dst ++ translation
          | none =>
              if (findElement inner opts.leadingSign).isSome then
                let temp := doSubstituteVariablesInto translate opts [] inner
                match translate temp with
                | some translation => dst ++ translation
                | none =>
                    if opts.keepUntranslated then dst ++ head rest (inner.length + 3) else dst
              else if opts.keepUntranslated then dst ++ head rest (inner.length + 3)
              else dst
        let after := skip rest (inner.length + 3)
        if after.isEmpty then dst else doSubstituteVariablesInto translate opts dst after
  | none => dst ++ src
termination_by src.length
decreasing_by
  · exact length_skip_skip_lt found (Nat.succ_pos 2)
  · exact length_inside_lt found
  · exact length_skip_skip_lt found (Nat.succ_pos _)

section Steps

variable (translate : Block → Option Block) (opts : VariableSubstitutionOptions)

/-- The text of a format string without anything before it. -/
def substituted (src : Block) : Block :=
  doSubstituteVariablesInto translate opts [] src

/-- What is appended for the text in the brackets. -/
def substitutedFor (rest inner : Block) : Block :=
  match translate inner with
  | some translation => translation
  | none =>
      let kept := if opts.keepUntranslated then head rest (inner.length + 3) else []
      if (findElement inner opts.leadingSign).isSome then
        match translate (substituted translate opts inner) with
        | some translation => translation
        | none => kept
      else kept

theorem findElement_nil (what : UInt8) : findElement [] what = none :=
  rfl

theorem findElement_self (what : UInt8) (rest : Block) :
    findElement (what :: rest) what = some 0 := by
  rw [findElement, List.findIdx?_cons, beq_self_eq_true, if_pos rfl]

theorem findElement_cons {char what : UInt8} (other : char ≠ what) (rest : Block) :
    findElement (char :: rest) what = (findElement rest what).map Nat.succ := by
  rw [findElement, List.findIdx?_cons, if_neg (by simpa using other)]
  rfl

theorem doSubstitute_none (missing : findElement src opts.leadingSign = none)
    (dst : Block) : doSubstituteVariablesInto translate opts dst src = dst ++ src := by
  rw [doSubstituteVariablesInto]
  split
  · next found => rw [missing] at found; cases found
  · rfl

theorem doSubstitute_nil (dst : Block) :
    doSubstituteVariablesInto translate opts dst [] = dst := by
  rw [doSubstitute_none translate opts (findElement_nil _), List.append_nil]

theorem doSubstitute_while (dst src : Block) :
    (if src.isEmpty then dst else doSubstituteVariablesInto translate opts dst src) =
      doSubstituteVariablesInto translate opts dst src := by
  cases src with
  | nil => exact (doSubstitute_nil translate opts dst).symm
  | cons char src => rfl

/-- Where the brackets are empty three characters are copied. -/
theorem doSubstitute_copy {lpos : Nat} (found : findElement src opts.leadingSign = some lpos)
    (nothing : sliceInsideBrackets (skip src lpos) opts.openingBracket opts.closingBracket = [])
    (dst : Block) :
    doSubstituteVariablesInto translate opts dst src =
      doSubstituteVariablesInto translate opts (dst ++ head src lpos ++ head (skip src lpos) 3)
        (skip (skip src lpos) 3) := by
  rw [doSubstituteVariablesInto]
  split
  · next position same =>
      cases found.symm.trans same
      simp only [nothing, List.isEmpty_nil, if_true, doSubstitute_while]
  · next missing => rw [missing] at found; cases found

/-- Where there is something in the brackets it is replaced. -/
theorem doSubstitute_replace {lpos : Nat}
    (found : findElement src opts.leadingSign = some lpos) {inner : Block} (filled : inner ≠ [])
    (sliced : sliceInsideBrackets (skip src lpos) opts.openingBracket opts.closingBracket = inner)
    (dst : Block) :
    doSubstituteVariablesInto translate opts dst src =
      doSubstituteVariablesInto translate opts
        (dst ++ head src lpos ++ substitutedFor translate opts (skip src lpos) inner)
        (skip (skip src lpos) (inner.length + 3)) := by
  have notEmpty : inner.isEmpty = false := by
    cases inner with
    | nil => exact absurd rfl filled
    | cons char inner => rfl
  rw [doSubstituteVariablesInto]
  split
  · next position same =>
      cases found.symm.trans same
      simp only [sliced, notEmpty, Bool.false_eq_true, if_false, doSubstitute_while]
      congr 1
      rw [substitutedFor]
      cases translate inner with
      | some translation => rfl
      | none =>
          simp only [substituted]
          split
          · split
            · rfl
            · split
              · rfl
              · exact (List.append_nil _).symm
          · split
            · rfl
            · exact (List.append_nil _).symm
  · next missing => rw [missing] at found; cases found

/-- Nothing but signs matters to the scanner. -/
theorem doSubstitute_cons {char : UInt8} (other : char ≠ opts.leadingSign) (dst rest : Block) :
    doSubstituteVariablesInto translate opts dst (char :: rest) =
      doSubstituteVariablesInto translate opts (dst ++ [char]) rest := by
  have shifted := findElement_cons other rest
  cases found : findElement rest opts.leadingSign with
  | none =>
      rw [found, Option.map_none] at shifted
      rw [doSubstitute_none translate opts shifted, doSubstitute_none translate opts found,
        List.append_assoc]
      rfl
  | some lpos =>
      rw [found, Option.map_some] at shifted
      have heads : dst ++ head (char :: rest) (lpos + 1) = dst ++ [char] ++ head rest lpos := by
        rw [List.append_assoc]
        rfl
      have skips : skip (char :: rest) (lpos + 1) = skip rest lpos := rfl
      by_cases nothing : sliceInsideBrackets (skip rest lpos) opts.openingBracket
          opts.closingBracket = []
      · rw [doSubstitute_copy translate opts shifted nothing,
          doSubstitute_copy translate opts found nothing, heads, skips]
      · rw [doSubstitute_replace translate opts shifted nothing rfl,
          doSubstitute_replace translate opts found nothing rfl, heads, skips]

/-- What is there already stays in front. -/
theorem doSubstitute_append (dst src : Block) :
    doSubstituteVariablesInto translate opts dst src =
      dst ++ substituted translate opts src := by
  rw [substituted]
  cases found : findElement src opts.leadingSign with
  | none =>
      rw [doSubstitute_none translate opts found, doSubstitute_none translate opts found]
      rfl
  | some lpos =>
      by_cases nothing : sliceInsideBrackets (skip src lpos) opts.openingBracket
          opts.closingBracket = []
      · have shorter := length_skip_skip_lt found (Nat.succ_pos 2)
        rw [doSubstitute_copy translate opts found nothing,
          doSubstitute_copy translate opts found nothing, doSubstitute_append,
          doSubstitute_append ([] ++ _ ++ _)]
        simp only [List.nil_append, List.append_assoc]
      · have shorter := length_skip_skip_lt found (Nat.succ_pos
          ((sliceInsideBrackets (skip src lpos) opts.openingBracket
            opts.closingBracket).length + 2))
        rw [doSubstitute_replace translate opts found nothing rfl,
          doSubstitute_replace translate opts found nothing rfl, doSubstitute_append,
          doSubstitute_append ([] ++ _ ++ _)]
        simp only [List.nil_append, List.append_assoc]
termination_by src.length

theorem substituted_nil : substituted translate opts [] = [] :=
  doSubstitute_nil translate opts []

theorem substituted_cons {char : UInt8} (other : char ≠ opts.leadingSign) (rest : Block) :
    substituted translate opts (char :: rest) = char :: substituted translate opts rest := by
  rw [substituted, doSubstitute_cons translate opts other, doSubstitute_append]
  rfl

/-- The text between the brackets that the scanner finds behind a sign. -/
def insideBrackets (src : Block) : Block :=
  sliceInsideBrackets src opts.openingBracket opts.closingBracket

theorem substituted_copy {rest : Block}
    (nothing : insideBrackets opts (opts.leadingSign :: rest) = []) :
    substituted translate opts (opts.leadingSign :: rest) =
      opts.leadingSign :: rest.take 2 ++ substituted translate opts (rest.drop 2) := by
  have found := findElement_self opts.leadingSign rest
  rw [substituted, doSubstitute_copy translate opts found nothing, doSubstitute_append]
  rfl

theorem substituted_replace {rest : Block}
    (filled : insideBrackets opts (opts.leadingSign :: rest) ≠ []) :
    substituted translate opts (opts.leadingSign :: rest) =
      substitutedFor translate opts (opts.leadingSign :: rest)
          (insideBrackets opts (opts.leadingSign :: rest)) ++
        substituted translate opts
          (rest.drop ((insideBrackets opts (opts.leadingSign :: rest)).length + 2)) := by
  have found := findElement_self opts.leadingSign rest
  rw [substituted, doSubstitute_replace translate opts found filled rfl, doSubstitute_append]
  rfl

end Steps

end Substitution

end Eagine
