import Eagine.Memory.BracketSlice
import Eagine.String.SubstitutionGrammar
import Mathlib.Logic.Equiv.List

/-!
# When the grammar is followed

A format string is substituted by its grammar with every translation just where the scanner finds
its references. Otherwise there is a translation that tells the two texts apart: it answers with
texts that are longer than all that is in the format string, different ones for different names,
but does not know the names on the way to where the scanner goes wrong.
-/

open List

namespace Eagine.Substitution

open Serialization

variable (opts : VariableSubstitutionOptions)

/-- A character that is not the sign. -/
def mark : UInt8 :=
  if opts.leadingSign = 0 then 1 else 0

theorem mark_ne_sign : mark opts ≠ opts.leadingSign := by
  rw [mark]
  split
  · next zero =>
      rw [zero]
      decide
  · next nonzero => exact fun same => nonzero same.symm

theorem mark_ne_two : mark opts ≠ 2 := by
  rw [mark]
  split <;> decide

/-- Names as numbers. -/
def numberOf (name : Block) : Nat :=
  Encodable.encode (name.map UInt8.toNat)

theorem numberOf_injective : Function.Injective numberOf := by
  intro first second same
  have names : first.map UInt8.toNat = second.map UInt8.toNat := Encodable.encode_injective same
  exact map_injective_iff.mpr (fun _ _ => UInt8.toNat_inj.mp) names

/-- A text that is longer than `size`, and that no other such text starts with. -/
def marked (size : Nat) (name : Block) : Block :=
  List.replicate (size + numberOf name) (mark opts) ++ [2]

theorem length_marked (size : Nat) (name : Block) :
    (marked opts size name).length = size + numberOf name + 1 := by
  rw [marked, length_append, length_replicate, length_singleton]

theorem replicate_marks {char stop : UInt8} (other : char ≠ stop) {count more : Nat}
    {rest rest' : Block}
    (same : List.replicate count char ++ stop :: rest = List.replicate more char ++ stop :: rest') :
    count = more := by
  induction count generalizing more with
  | zero =>
      cases more with
      | zero => rfl
      | succ more => exact absurd (List.cons.inj same).1.symm other
  | succ count ih =>
      cases more with
      | zero => exact absurd (List.cons.inj same).1 other
      | succ more => rw [ih (List.cons.inj same).2]

theorem marked_append_ne {size : Nat} {name other : Block} (different : name ≠ other)
    (rest rest' : Block) : marked opts size name ++ rest ≠ marked opts size other ++ rest' := by
  intro same
  rw [marked, marked, append_assoc, append_assoc] at same
  have counts := replicate_marks (mark_ne_two opts) same
  exact different (numberOf_injective (Nat.add_left_cancel counts))

theorem marked_append_ne_sign {size : Nat} (positive : 0 < size) (name rest rest' : Block) :
    marked opts size name ++ rest ≠ opts.leadingSign :: rest' := by
  intro same
  rcases Nat.exists_eq_succ_of_ne_zero positive.ne' with ⟨less, rfl⟩
  have first : less.succ + numberOf name = (less + numberOf name) + 1 := by omega
  rw [marked, first, replicate_succ, cons_append, cons_append] at same
  exact mark_ne_sign opts (List.cons.inj same).1

open Classical in
/-- The translation that does not know some names. -/
noncomputable def answer (size : Nat) (unknown : Set Block) (name : Block) : Option Block :=
  if name ∈ unknown then none else some (marked opts size name)

variable {size : Nat} {unknown : Set Block}

theorem answer_known {name : Block} (known : name ∉ unknown) :
    answer opts size unknown name = some (marked opts size name) :=
  if_neg known

theorem answer_unknown {name : Block} (mem : name ∈ unknown) :
    answer opts size unknown name = none :=
  if_pos mem

/-- The substituted text is not that of the grammar, and one of them is long. -/
structure Differs (size : Nat) (unknown : Set Block) (text : Block) : Prop where
  ne : substituted (answer opts size unknown) opts text ≠
    expand opts (answer opts size unknown) text
  long : size ≤ (substituted (answer opts size unknown) opts text).length ∨
    size ≤ (expand opts (answer opts size unknown) text).length

variable {opts}

variable {text content : Block}

theorem Differs.append {rest : Block} (differs : Differs opts size unknown rest) (front : Block)
    (code : substituted (answer opts size unknown) opts text =
      front ++ substituted (answer opts size unknown) opts rest)
    (grammar : expand opts (answer opts size unknown) text =
      front ++ expand opts (answer opts size unknown) rest) :
    Differs opts size unknown text where
  ne := by
    rw [code, grammar]
    exact fun same => differs.ne (append_cancel_left same)
  long := by
    rw [code, grammar, length_append, length_append]
    exact differs.long.imp (fun long => long.trans (Nat.le_add_left _ _))
      (fun long => long.trans (Nat.le_add_left _ _))

theorem substitutedFor_known {inner : Block} (known : inner ∉ unknown) (rest : Block) :
    substitutedFor (answer opts size unknown) opts rest inner = marked opts size inner := by
  rw [substitutedFor, answer_known opts known]

theorem resolve_known (known : content ∉ unknown) (expanded : Block) :
    resolve opts (answer opts size unknown) content expanded = marked opts size content := by
  rw [resolve, answer_known opts known]

theorem le_length_marked_append (name rest : Block) :
    size ≤ (marked opts size name ++ rest).length := by
  rw [length_append, length_marked]
  omega

theorem length_insideBrackets_lt (text : Block) :
    (insideBrackets opts (opts.leadingSign :: text)).length < (opts.leadingSign :: text).length := by
  have inside := length_sliceInsideBrackets_le (opts.leadingSign :: text) opts.openingBracket
    opts.closingBracket
  rw [length_cons] at inside ⊢
  rw [insideBrackets]
  omega

variable {after : Block}

section Wrong

variable (positive : 0 < size)

include positive

/-- A reference that the scanner misses, or takes for another one. -/
theorem differs_reference
    (found : reference opts (opts.leadingSign :: text) = some (content, after))
    (other : insideBrackets opts (opts.leadingSign :: text) ≠ content)
    (contentKnown : content ∉ unknown)
    (insideKnown : insideBrackets opts (opts.leadingSign :: text) ∉ unknown) :
    Differs opts size unknown (opts.leadingSign :: text) := by
  have grammar := expand_reference opts (answer opts size unknown) found
  rw [resolve_known contentKnown] at grammar
  constructor
  · rw [grammar]
    by_cases nothing : insideBrackets opts (opts.leadingSign :: text) = []
    · rw [substituted_copy _ opts nothing]
      exact (marked_append_ne_sign opts positive _ _ _).symm
    · rw [substituted_replace _ opts nothing, substitutedFor_known insideKnown]
      exact marked_append_ne opts other _ _
  · rw [grammar]
    exact Or.inr (le_length_marked_append _ _)

/-- A sign that the scanner takes for the start of a reference. -/
theorem differs_sign (missing : reference opts (opts.leadingSign :: text) = none)
    (filled : insideBrackets opts (opts.leadingSign :: text) ≠ [])
    (known : insideBrackets opts (opts.leadingSign :: text) ∉ unknown) :
    Differs opts size unknown (opts.leadingSign :: text) := by
  have code := substituted_replace (answer opts size unknown) opts filled
  rw [substitutedFor_known known] at code
  constructor
  · rw [code, expand_char opts _ missing]
    exact marked_append_ne_sign opts positive _ _ _
  · rw [code]
    exact Or.inl (le_length_marked_append _ _)

/-- A reference that the scanner copies with the sign in front of it. -/
theorem differs_copied (front : Block) {after rest : Block}
    (found : reference opts text = some (content, after)) (known : content ∉ unknown)
    (code : ∃ others, substituted (answer opts size unknown) opts rest =
      front ++ opts.leadingSign :: others) (grammar : expand opts (answer opts size unknown) rest =
      front ++ expand opts (answer opts size unknown) text) : Differs opts size unknown rest := by
  rcases code with ⟨others, code⟩
  rw [expand_reference opts _ found, resolve_known known] at grammar
  constructor
  · rw [code, grammar]
    intro same
    exact marked_append_ne_sign opts positive _ _ _ (append_cancel_left same).symm
  · rw [grammar, length_append]
    exact Or.inr ((le_length_marked_append _ _).trans (Nat.le_add_left _ _))

/-- A reference behind a sign with which the scanner copies its start. -/
theorem differs_copied_sign (missing : reference opts (opts.leadingSign :: text) = none)
    (nothing : insideBrackets opts (opts.leadingSign :: text) = [])
    (found : reference opts text = some (content, after)) (known : content ∉ unknown) :
    Differs opts size unknown (opts.leadingSign :: text) := by
  have code := substituted_copy (answer opts size unknown) opts nothing
  have grammar := expand_char opts (answer opts size unknown) missing
  have starts := (reference_eq opts found).1
  have copied : ∃ others, text.take 2 ++
      substituted (answer opts size unknown) opts (text.drop 2) = opts.leadingSign :: others := by
    rw [starts]
    exact ⟨_, rfl⟩
  rcases copied with ⟨others, copied⟩
  rw [cons_append, copied] at code
  exact differs_copied positive [opts.leadingSign] found known ⟨others, code⟩ grammar

/-- The same with another character between them. -/
theorem differs_copied_pair {next : UInt8}
    (missing : reference opts (opts.leadingSign :: next :: text) = none)
    (nothing : insideBrackets opts (opts.leadingSign :: next :: text) = [])
    (first : reference opts (next :: text) = none)
    (found : reference opts text = some (content, after)) (known : content ∉ unknown) :
    Differs opts size unknown (opts.leadingSign :: next :: text) := by
  have code := substituted_copy (answer opts size unknown) opts nothing
  have grammar := expand_char opts (answer opts size unknown) missing
  have starts := (reference_eq opts found).1
  have copied : ∃ others, (next :: text).take 2 ++
      substituted (answer opts size unknown) opts ((next :: text).drop 2) =
        next :: opts.leadingSign :: others := by
    rw [starts]
    exact ⟨_, rfl⟩
  rcases copied with ⟨others, copied⟩
  rw [cons_append, copied] at code
  rw [expand_char opts _ first] at grammar
  exact differs_copied positive [opts.leadingSign, next] found known ⟨others, code⟩ grammar

/-- Where the scanner does not find the references the texts differ, if all names that are
shorter than the text are known. -/
theorem differs_of_not_scans (text : Block) (wrong : ¬∃ contents, Scans opts text contents)
    (known : ∀ name ∈ unknown, text.length ≤ name.length) : Differs opts size unknown text := by
  have shortKnown : ∀ name : Block, name.length < text.length → name ∉ unknown :=
    fun name short mem => absurd (known name mem) (Nat.not_le.mpr short)
  have onward : ∀ rest : Block, rest.length < text.length →
      (¬∃ contents, Scans opts rest contents) → Differs opts size unknown rest := by
    intro rest shorter restWrong
    exact differs_of_not_scans rest restWrong
      (fun name mem => shorter.le.trans (known name mem))
  rcases text with _ | ⟨char, text⟩
  · exact absurd ⟨[], Scans.nil⟩ wrong
  by_cases isSign : char = opts.leadingSign
  · subst isSign
    have insideKnown := shortKnown _ (length_insideBrackets_lt text)
    cases found : reference opts (opts.leadingSign :: text) with
    | some split =>
        rcases split with ⟨content, after⟩
        have contentKnown := shortKnown content (length_content_lt opts found)
        by_cases sliced : insideBrackets opts (opts.leadingSign :: text) = content
        · have rest := onward after (length_after_lt opts found) (fun ⟨contents, scans⟩ =>
            wrong ⟨_, Scans.reference ((insideBrackets_reference_iff opts found).mp sliced) found
              scans⟩)
          have code := substituted_reference opts (answer opts size unknown) found sliced
          have grammar := expand_reference opts (answer opts size unknown) found
          rw [resolve_known contentKnown] at code grammar
          exact rest.append _ code grammar
        · exact differs_reference positive found sliced contentKnown insideKnown
    | none =>
        by_cases nothing : insideBrackets opts (opts.leadingSign :: text) = []
        · cases first : reference opts text with
          | some split =>
              have contentKnown := shortKnown split.1
                ((length_content_lt opts first).trans (Nat.lt_succ_self _))
              exact differs_copied_sign positive found nothing first contentKnown
          | none =>
              cases second : reference opts (text.drop 1) with
              | some split =>
                  rcases text with _ | ⟨next, text⟩
                  · cases second
                  · have contentKnown := shortKnown split.1
                      ((length_content_lt opts second).trans (by simp))
                    exact differs_copied_pair positive found nothing first second contentKnown
              | none =>
                  have nameless := (sliceInsideBrackets_eq_nil_iff _ _ _).mp nothing
                  have shorter : (text.drop 2).length < text.length + 1 := by
                    rw [length_drop]
                    omega
                  have rest := onward (text.drop 2) shorter (fun ⟨contents, scans⟩ =>
                    wrong ⟨contents, Scans.sign found nameless first second scans⟩)
                  have code := substituted_copy (answer opts size unknown) opts nothing
                  have grammar := expand_char opts (answer opts size unknown) found
                  rw [expand_pair opts _ first second] at grammar
                  exact rest.append (opts.leadingSign :: text.take 2) code grammar
        · exact differs_sign positive found nothing insideKnown
  · have rest := onward text (Nat.lt_succ_self _) (fun ⟨contents, scans⟩ =>
      wrong ⟨contents, Scans.other isSign scans⟩)
    exact rest.append [char] (substituted_cons _ opts isSign text)
      (expand_char opts _ (reference_other opts isSign text))
termination_by text.length

end Wrong

/-- What a name is resolved to that is not known itself. -/
theorem resolve_unknown (mem : content ∈ unknown) (expanded : Block) :
    resolve opts (answer opts size unknown) content expanded =
      (answer opts size unknown expanded).getD (untranslated opts content) := by
  rw [resolve, answer_unknown opts mem]

theorem length_untranslated_le (content : Block) :
    (untranslated opts content).length ≤ content.length + 3 := by
  rw [untranslated]
  split
  · simp only [length_cons, length_append, length_nil]
    omega
  · exact Nat.zero_le _

/-- Different texts have different answers, if one of them is long. -/
theorem length_answers_ne (opts : VariableSubstitutionOptions) {first second rest : Block}
    (different : first ≠ second)
    (long : size ≤ first.length ∨ size ≤ second.length)
    (short : ∀ name ∈ unknown, name.length < size) (restShort : rest.length ≤ size) :
    ((answer opts size unknown first).getD rest).length ≠
        ((answer opts size unknown second).getD rest).length ∧
      (size ≤ ((answer opts size unknown first).getD rest).length ∨
        size ≤ ((answer opts size unknown second).getD rest).length) := by
  by_cases firstUnknown : first ∈ unknown
  · have secondKnown : second ∉ unknown := by
      intro secondUnknown
      have firstShort := short first firstUnknown
      have secondShort := short second secondUnknown
      omega
    rw [answer_unknown opts firstUnknown, answer_known opts secondKnown, Option.getD_none,
      Option.getD_some, length_marked]
    exact ⟨by omega, Or.inr (by omega)⟩
  · rw [answer_known opts firstUnknown, Option.getD_some, length_marked]
    constructor
    · by_cases secondUnknown : second ∈ unknown
      · rw [answer_unknown opts secondUnknown, Option.getD_none]
        omega
      · rw [answer_known opts secondUnknown, Option.getD_some, length_marked]
        intro same
        exact different (numberOf_injective (by omega))
    · exact Or.inl (by omega)

variable {contents : List Block}

/-- The texts differ if they differ for one of the contents, and all others are known. -/
theorem Differs.of_content (scans : Scans opts text contents)
    (mem : content ∈ contents) (contentUnknown : content ∈ unknown)
    (differs : Differs opts size unknown content)
    (others : ∀ other ∈ contents, other ≠ content → other ∉ unknown)
    (short : ∀ name ∈ unknown, name.length + 3 ≤ size) : Differs opts size unknown text := by
  let translate := answer opts size unknown
  let code := fun content => resolve opts translate content (substituted translate opts content)
  let grammar := fun content => resolve opts translate content (expand opts translate content)
  have namesShort : ∀ name ∈ unknown, name.length < size := by
    intro name nameMem
    exact (Nat.lt_add_of_pos_right (Nat.succ_pos 2)).trans_le (short name nameMem)
  have keptShort : (untranslated opts content).length ≤ size :=
    (length_untranslated_le content).trans (short content contentUnknown)
  have answers := length_answers_ne opts differs.ne differs.long namesShort keptShort
  have codeEq : code content = _ := resolve_unknown contentUnknown _
  have grammarEq : grammar content = _ := resolve_unknown contentUnknown _
  rw [← codeEq, ← grammarEq] at answers
  have same : ∀ other ∈ contents, other ≠ content → code other = grammar other := by
    intro other otherMem otherNe
    have known := others other otherMem otherNe
    exact (resolve_known known _).trans (resolve_known known _).symm
  have textCode : substituted translate opts text = expandWith opts code text :=
    substituted_scans opts translate scans
  have textGrammar : expand opts translate text = expandWith opts grammar text :=
    expand_eq opts translate text
  constructor
  · rw [textCode, textGrammar]
    intro texts
    rcases Nat.lt_or_gt_of_ne answers.1 with less | more
    · have least : ∀ other ∈ contents, (code other).length ≤ (grammar other).length := by
        intro other otherMem
        by_cases otherEq : other = content
        · exact otherEq ▸ less.le
        · exact (congrArg List.length (same other otherMem otherEq)).le
      exact (length_expandWith_lt opts scans least mem less).ne (congrArg List.length texts)
    · have least : ∀ other ∈ contents, (grammar other).length ≤ (code other).length := by
        intro other otherMem
        by_cases otherEq : other = content
        · exact otherEq ▸ more.le
        · exact (congrArg List.length (same other otherMem otherEq)).ge
      exact (length_expandWith_lt opts scans least mem more).ne
        (congrArg List.length texts.symm)
  · rw [textCode, textGrammar]
    exact answers.2.imp (fun long => long.trans (length_replace_le opts scans code mem))
      (fun long => long.trans (length_replace_le opts scans grammar mem))

/-- A shortest one of the contents that are not clean. -/
theorem exists_shortest (unclean : ¬∀ content ∈ contents, Clean opts content) :
    ∃ content ∈ contents, ¬Clean opts content ∧
      ∀ other ∈ contents, ¬Clean opts other → content.length ≤ other.length := by
  have some : ∃ length, ∃ content ∈ contents, ¬Clean opts content ∧ content.length = length := by
    push Not at unclean
    rcases unclean with ⟨content, mem, contentUnclean⟩
    exact ⟨_, content, mem, contentUnclean, rfl⟩
  classical
  rcases Nat.find_spec some with ⟨content, mem, contentUnclean, length⟩
  refine ⟨content, mem, contentUnclean, ?_⟩
  intro other otherMem otherUnclean
  rw [length]
  exact Nat.find_min' some ⟨other, otherMem, otherUnclean, rfl⟩

/-- For a text that is not clean there are names such that the texts differ if these are not
known, and all other ones that are shorter than the text are. -/
theorem exists_unknown (positive : 0 < size) (text : Block) (unclean : ¬Clean opts text) :
    ∃ names : Set Block, (∀ name ∈ names, ¬Clean opts name) ∧
      ∀ unknown : Set Block, (∀ name ∈ unknown, name.length + 3 ≤ size) →
        (∀ name, name.length < text.length → (name ∈ unknown ↔ name ∈ names)) →
          Differs opts size unknown text := by
  by_cases found : ∃ contents, Scans opts text contents
  · rcases found with ⟨contents, scans⟩
    rcases exists_shortest (fun all => unclean (Clean.scans scans all)) with
      ⟨content, mem, contentUnclean, shortest⟩
    have shorter := length_lt_of_scans opts scans content mem
    rcases exists_unknown positive content contentUnclean with ⟨names, namesUnclean, differ⟩
    refine ⟨{name | name = content ∨ name ∈ names ∧ name.length < content.length}, ?_, ?_⟩
    · rintro name (rfl | ⟨nameMem, _⟩)
      · exact contentUnclean
      · exact namesUnclean name nameMem
    · intro unknown short agree
      have below : ∀ name : Block, name.length < content.length →
          (name ∈ unknown ↔ name ∈ names) := by
        intro name nameShorter
        rw [agree name (nameShorter.trans shorter)]
        constructor
        · rintro (rfl | ⟨nameMem, _⟩)
          · exact absurd nameShorter (Nat.lt_irrefl _)
          · exact nameMem
        · exact fun nameMem => Or.inr ⟨nameMem, nameShorter⟩
      apply Differs.of_content scans mem ((agree content shorter).mpr (Or.inl rfl))
        (differ unknown short below) ?_ short
      intro other otherMem otherNe otherUnknown
      have otherShorter := length_lt_of_scans opts scans other otherMem
      rcases (agree other otherShorter).mp otherUnknown with rfl | ⟨otherNames, less⟩
      · exact otherNe rfl
      · have least := shortest other otherMem (namesUnclean other otherNames)
        omega
  · refine ⟨∅, fun _ mem => mem.elim, ?_⟩
    intro unknown _ agree
    apply differs_of_not_scans positive text found
    intro name nameUnknown
    by_contra less
    exact (agree name (Nat.not_le.mp less)).mp nameUnknown
termination_by text.length

/-- A format string is substituted as the grammar says, with every translation, just where the
scanner finds the references of the grammar. -/
theorem doSubstitute_iff_clean (opts : VariableSubstitutionOptions) (src : Block) :
    (∀ (dst : Block) (translate : Block → Option Block),
      doSubstituteVariablesInto translate opts dst src = dst ++ expand opts translate src) ↔
        Clean opts src := by
  constructor
  · intro follows
    by_contra unclean
    have positive : 0 < src.length + 3 := Nat.succ_pos _
    rcases exists_unknown positive src unclean with ⟨names, _, differ⟩
    have differs := differ {name | name ∈ names ∧ name.length < src.length}
      (fun name mem => Nat.add_le_add_right mem.2.le 3)
      (fun name shorter => and_iff_left shorter)
    exact differs.ne (follows [] _)
  · intro clean dst translate
    rw [doSubstitute_append, substituted_clean opts translate clean]

/-- No depth overflows in the scans for the brackets. -/
def scansFit (translate : Block → Option Block) (opts : VariableSubstitutionOptions)
    (src : Block) : Bool :=
  match found : findElement src opts.leadingSign with
  | some lpos =>
      let rest := skip src lpos
      let inner := sliceInsideBrackets rest opts.openingBracket opts.closingBracket
      (Memory.sliceInsideBrackets rest opts.openingBracket opts.closingBracket).isSome &&
        if inner.isEmpty then scansFit translate opts (skip rest 3)
        else
          ((translate inner).isSome || !(findElement inner opts.leadingSign).isSome ||
              scansFit translate opts inner) &&
            scansFit translate opts (skip rest (inner.length + 3))
  | none => true
termination_by src.length
decreasing_by
  · exact length_skip_skip_lt found (Nat.succ_pos 2)
  · exact length_inside_lt found
  · exact length_skip_skip_lt found (Nat.succ_pos _)

/-- `substitute_variables_into`. There is no result where a depth overflows. -/
def substituteVariablesInto (dst src : Block) (translate : Block → Option Block)
    (opts : VariableSubstitutionOptions) : Option Block :=
  if scansFit translate opts src then some (doSubstituteVariablesInto translate opts dst src)
  else none

open Memory Theory in
/-- The brackets in a content are not nested too deeply. -/
def Shallow (opts : VariableSubstitutionOptions) (content : Block) : Prop :=
  DepthBelow depthLimit [] (content.map (bracketMark opts.openingBracket opts.closingBracket))

/-- The scanner finds the references of the text, whose brackets are not nested too deeply, and
those of their contents. -/
inductive Fits (opts : VariableSubstitutionOptions) : Block → Prop
  | scans {text : Block} {contents : List Block} :
      Scans opts text contents → (∀ content ∈ contents, Fits opts content) →
        (∀ content ∈ contents, Shallow opts content) → Fits opts text

theorem Fits.clean (fits : Fits opts text) : Clean opts text := by
  induction fits with
  | scans scans _ _ ih => exact .scans scans ih

section Scanning

variable (translate : Block → Option Block)

theorem scansFit_none {src : Block} (missing : findElement src opts.leadingSign = none) :
    scansFit translate opts src = true := by
  rw [scansFit]
  split
  · next found => rw [missing] at found; cases found
  · rfl

theorem scansFit_some {src : Block} {lpos : Nat}
    (found : findElement src opts.leadingSign = some lpos) :
    scansFit translate opts src =
      let rest := skip src lpos
      let inner := insideBrackets opts rest
      ((Memory.sliceInsideBrackets rest opts.openingBracket opts.closingBracket).isSome &&
        if inner.isEmpty then scansFit translate opts (skip rest 3)
        else
          ((translate inner).isSome || !(findElement inner opts.leadingSign).isSome ||
              scansFit translate opts inner) &&
            scansFit translate opts (skip rest (inner.length + 3))) := by
  rw [scansFit]
  split
  · next position same =>
      cases found.symm.trans same
      rfl
  · next missing => rw [missing] at found; cases found

theorem scansFit_cons {char : UInt8} (other : char ≠ opts.leadingSign) (rest : Block) :
    scansFit translate opts (char :: rest) = scansFit translate opts rest := by
  have shifted := findElement_cons other rest
  cases found : findElement rest opts.leadingSign with
  | none =>
      rw [found, Option.map_none] at shifted
      rw [scansFit_none translate shifted, scansFit_none translate found]
  | some lpos =>
      rw [found, Option.map_some] at shifted
      rw [scansFit_some translate shifted, scansFit_some translate found]
      rfl

/-- What is in the brackets of a reference is bracketed itself. -/
theorem wellBracketed_split {left right : UInt8} {depth : Nat}
    (split : splitAtClosing left right depth text = some (content, after)) :
    left ≠ right ∧ Theory.run Theory.Mark.step (List.replicate depth ())
      (content.map (Memory.bracketMark left right)) = some [] := by
  induction text generalizing depth content with
  | nil => cases split
  | cons char text ih =>
      rcases splitAtClosing_cases split with ⟨noOpening, rfl, rfl, rfl, -⟩ |
        ⟨deeper, others, rfl, tailSplit, step⟩
      · exact ⟨Ne.symm noOpening, rfl⟩
      · have tail := ih tailSplit
        refine ⟨tail.1, ?_⟩
        rw [map_cons, Theory.run, Memory.bracketMark]
        rcases step with ⟨opening, rfl⟩ | ⟨noOpening, closing, rfl⟩ | ⟨noOpening, noClosing, rfl⟩
        · rw [if_pos opening]
          exact tail.2
        · rw [if_neg noOpening, if_pos closing]
          exact tail.2
        · rw [if_neg noOpening, if_neg noClosing]
          cases deeper <;> exact tail.2

/-- The brackets of a reference are found unless they are nested too deeply. -/
theorem isSome_slice_reference_iff (different : opts.leadingSign ≠ opts.openingBracket)
    (found : reference opts (opts.leadingSign :: text) = some (content, after)) :
    (Memory.sliceInsideBrackets (opts.leadingSign :: text) opts.openingBracket
      opts.closingBracket).isSome ↔ Shallow opts content := by
  have textEq := (reference_eq opts found).1
  rw [textEq] at found ⊢
  rw [reference, if_pos ⟨rfl, rfl⟩] at found
  rcases wellBracketed_split (Option.filter_eq_some_iff.mp found).1 with ⟨distinct, closes⟩
  have absent : opts.openingBracket ∉ [opts.leadingSign] := by simpa using different.symm
  have sliced := Memory.sliceInsideBrackets_append absent (content ++ opts.closingBracket :: after)
    opts.closingBracket
  have matched := Memory.bracketLength_matched distinct closes (by decide) after
  rw [singleton_append] at sliced
  rw [sliced, Option.isSome_map]
  by_cases shallow : Shallow opts content
  · exact iff_of_true (Option.isSome_iff_exists.mpr ⟨_, matched.1 shallow⟩) shallow
  · refine iff_of_false (fun some => ?_) shallow
    rw [replicate_zero, length_nil, Nat.zero_add] at matched
    rw [matched.2 shallow] at some
    cases some

/-- Where no name follows the first opening bracket the scan for its end is short. -/
theorem isSome_slice_nameless {left right : UInt8} (nameless : Nameless left right text) :
    (Memory.sliceInsideBrackets text left right).isSome := by
  by_cases present : left ∈ text
  · rcases eq_append_cons_of_mem present with ⟨before, rest, rfl, absent⟩
    have behind : rest.length ≤ 1 ∨ left ≠ right ∧ rest.head? = some right := by
      clear present
      induction before with
      | nil => simpa [Nameless] using nameless
      | cons char before ih =>
          rw [cons_append, Nameless, if_neg (ne_of_not_mem_cons absent).symm] at nameless
          exact ih (not_mem_of_not_mem_cons absent) nameless
    rw [Memory.sliceInsideBrackets_append absent, Option.isSome_map]
    rcases behind with short | ⟨distinct, closing⟩
    · exact Memory.isSome_bracketLength left right ((Nat.add_le_add_left short 1).trans (by decide))
    · rcases rest with _ | ⟨char, rest⟩
      · cases closing
      · cases closing
        rw [Memory.bracketLength_right distinct, Memory.bracketLength_zero]
        rfl
  · rcases Memory.slicesExactly_of_notMem present right with ⟨slice, made, -⟩
    rw [made]
    rfl

/-- The scans fit if those for the brackets do, and those in the contents that are substituted. -/
theorem scansFit_iff (scans : Scans opts text contents) :
    scansFit translate opts text ↔ ∀ content ∈ contents, Shallow opts content ∧
      ((translate content).isSome ∨ findElement content opts.leadingSign = none ∨
        scansFit translate opts content) := by
  induction scans with
  | nil => simp [scansFit_none translate (findElement_nil _)]
  | other char _ ih => rw [scansFit_cons translate char, ih]
  | @reference text content after contents different found _ ih =>
      have sliced := (insideBrackets_reference_iff opts found).mpr different
      rcases reference_eq opts found with ⟨textEq, filled⟩
      have rest : skip (skip (opts.leadingSign :: text) 0) (content.length + 3) = after := by
        rw [textEq]
        simp [skip, drop_append]
      rw [scansFit_some translate (findElement_self _ _), forall_mem_cons, ← ih,
        ← isSome_slice_reference_iff different found]
      simp only [skip, drop_zero] at rest ⊢
      simp [sliced, rest, filled, or_assoc, and_assoc]
  | sign missing nameless _ _ _ ih =>
      have nothing := (sliceInsideBrackets_eq_nil_iff _ _ _).mpr nameless
      rw [scansFit_some translate (findElement_self _ _), ← ih]
      simp only [skip, drop_zero, insideBrackets, nothing, isSome_slice_nameless nameless]
      rfl

end Scanning

/-- All scans fit, with every translation, exactly if no brackets are nested too deeply. -/
theorem scansFit_iff_fits (clean : Clean opts text) :
    (∀ translate, scansFit translate opts text) ↔ Fits opts text := by
  constructor
  · intro fit
    have unknown := fit fun _ => none
    clear fit
    induction clean with
    | scans scans _ ih =>
        have all := (scansFit_iff (fun _ => none) scans).mp unknown
        refine .scans scans (fun content mem => ih content mem ?_) fun content mem =>
          (all content mem).1
        rcases (all content mem).2 with known | missing | fit
        · cases known
        · exact scansFit_none _ missing
        · exact fit
  · clear clean
    intro fits translate
    induction fits with
    | scans scans _ shallow ih =>
        refine (scansFit_iff translate scans).mpr fun content mem => ⟨shallow content mem, ?_⟩
        exact Or.inr (Or.inr (ih content mem))

/-- A format string is substituted as the grammar says, with every translation, just where the
scanner finds the references of the grammar and no brackets in them are nested too deeply. -/
theorem substitute_iff_fits (opts : VariableSubstitutionOptions) (src : Block) :
    (∀ (dst : Block) (translate : Block → Option Block),
      substituteVariablesInto dst src translate opts = some (dst ++ expand opts translate src)) ↔
        Fits opts src := by
  simp only [substituteVariablesInto, Option.ite_none_right_eq_some, Option.some.injEq]
  constructor
  · intro follows
    have clean := (doSubstitute_iff_clean opts src).mp fun dst translate =>
      (follows dst translate).2
    exact (scansFit_iff_fits clean).mp fun translate => (follows [] translate).1
  · intro fits dst translate
    exact ⟨(scansFit_iff_fits fits.clean).mpr fits translate,
      (doSubstitute_iff_clean opts src).mpr fits.clean dst translate⟩

/-- A sign with another name behind it is taken for the start of a reference: of `$a{x}` only
`}` is left when `x` is translated to nothing. -/
theorem not_substitute_spaced : ¬∀ (opts : VariableSubstitutionOptions) (src dst : Block)
    (translate : Block → Option Block),
      substituteVariablesInto dst src translate opts = some (dst ++ expand opts translate src) := by
  intro follows
  let opts : VariableSubstitutionOptions := {}
  let src : Block := [byteOf '$', byteOf 'a', byteOf '\x7b', byteOf 'x', byteOf '\x7d']
  let nothing : Block → Option Block := fun _ => some []
  have sliced : insideBrackets opts src = [byteOf 'x'] := by decide
  have code : substituted nothing opts src = [byteOf '\x7d'] := by
    have filled : insideBrackets opts src ≠ [] := by
      rw [sliced]
      exact cons_ne_nil _ _
    have missing : findElement [byteOf '\x7d'] opts.leadingSign = none := by decide
    have rest : substituted nothing opts [byteOf '\x7d'] = [byteOf '\x7d'] :=
      doSubstitute_none nothing opts missing []
    rw [substituted_replace nothing opts filled]
    exact rest
  have grammar : expand opts nothing src = byteOf '$' :: expand opts nothing (src.drop 1) :=
    expand_char opts nothing (by decide)
  have same := (Option.ite_none_right_eq_some.mp (follows opts src [] nothing)).2
  rw [doSubstitute_append, code, grammar] at same
  exact absurd (List.cons.inj (Option.some.inj same)).1 (by decide)

end Eagine.Substitution
