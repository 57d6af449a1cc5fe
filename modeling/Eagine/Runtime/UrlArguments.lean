import Eagine.Memory.SpanAlgorithm
import Eagine.Serialization.Implementation

/-!
# Arguments of an URL

The query of an URL is cut into arguments, each of which is a name and a value. The arguments
that are stored when the URL is parsed are delimited by `&`, and the ones that are found on demand
by `+`.
-/

open List

namespace Eagine.Memory

open Serialization Theory

/-- A span in a string, by its position and what is there. -/
structure StringPart where
  offset : Nat
  text : Block

namespace StringPart

def head (part : StringPart) (l : Nat) : StringPart :=
  ⟨part.offset, part.text.take l⟩

def skip (part : StringPart) (l : Nat) : StringPart :=
  ⟨part.offset + min l part.text.length, part.text.drop l⟩

/-- `split_by_first` -/
def splitByFirst (part : StringPart) (what : Block) : StringPart × StringPart :=
  let pos := (findPosition part.text what).getD part.text.length
  (part.head pos, part.skip (pos + what.length))

/-- The part is one of the string. -/
def IsIn (str : Block) (part : StringPart) : Prop :=
  part.text <+: str.drop part.offset

variable {σ : Type*} (delim : Block) (unaryOp : σ → StringPart → σ)

/-- The loop of `for_each_delimited`, as that without positions -/
def forEachDelimitedFrom : Nat → StringPart → σ → Option σ
  | 0, tmp, state =>
      match findPosition tmp.text delim with
      | some _ => none
      | none => some (unaryOp state tmp)
  | fuel + 1, tmp, state =>
      match findPosition tmp.text delim with
      | some pos =>
          forEachDelimitedFrom fuel (tmp.skip (pos + delim.length)) (unaryOp state (tmp.head pos))
      | none => some (unaryOp state tmp)

def forEachDelimited (spn : StringPart) (state : σ) : Option σ :=
  forEachDelimitedFrom delim unaryOp spn.text.length spn state

variable {delim} {str : Block} {part : StringPart}

theorem IsIn.head (isIn : part.IsIn str) (l : Nat) : (part.head l).IsIn str :=
  (List.take_prefix l part.text).trans isIn

theorem IsIn.skip (isIn : part.IsIn str) (l : Nat) : (part.skip l).IsIn str := by
  rcases isIn with ⟨rest, split⟩
  refine ⟨rest, ?_⟩
  rw [StringPart.skip, ← drop_drop, ← split, drop_append_of_le_length (Nat.min_le_right _ _)]
  rcases Nat.le_total l part.text.length with inside | outside
  · rw [Nat.min_eq_left inside]
  · rw [Nat.min_eq_right outside, drop_length, drop_of_length_le outside]

/-- The function is called for the pieces of the span, each of them in its place. -/
theorem forEachDelimitedFrom_eq (nonempty : delim ≠ []) {spn : Block} {pieces : List Block}
    (delimited : Delimited delim spn pieces) (fuel : Nat) (enough : spn.length ≤ fuel)
    {tmp : StringPart} (isSpan : tmp.text = spn) (isIn : tmp.IsIn str) :
    ∃ parts : List StringPart, parts.map StringPart.text = pieces ∧
      (∀ part ∈ parts, part.IsIn str) ∧
        ∀ state, forEachDelimitedFrom delim unaryOp fuel tmp state =
          some (parts.foldl unaryOp state) := by
  induction delimited generalizing fuel tmp with
  | @last piece none =>
      refine ⟨[tmp], by rw [map_singleton, isSpan], by simpa using isIn, fun state => ?_⟩
      cases fuel with
      | zero => rw [forEachDelimitedFrom, isSpan, findPosition, findPositionFrom_none none]; rfl
      | succ fuel =>
          rw [forEachDelimitedFrom, isSpan, findPosition, findPositionFrom_none none]
          rfl
  | @next piece rest pieces leftmost tail ih =>
      have positive := length_pos_of_ne_nil nonempty
      rw [length_append, length_append] at enough
      rcases Nat.exists_eq_add_of_le' (show 1 ≤ fuel by omega) with ⟨fuel, rfl⟩
      have passed : (piece ++ delim).length = piece.length + delim.length := length_append
      have remains : (tmp.skip (piece.length + delim.length)).text = rest := by
        rw [StringPart.skip, isSpan, ← append_assoc, drop_left' passed]
      have first : (tmp.head piece.length).text = piece := by
        rw [StringPart.head, isSpan, take_left]
      rcases ih fuel (by omega) remains (isIn.skip _) with ⟨parts, texts, allIn, calls⟩
      refine ⟨tmp.head piece.length :: parts, ?_, ?_, fun state => ?_⟩
      · rw [map_cons, texts, first]
      · exact forall_mem_cons.mpr ⟨isIn.head _, allIn⟩
      · rw [forEachDelimitedFrom, isSpan, findPosition,
          findPositionFrom_leftmost nonempty leftmost, Nat.zero_add, foldl_cons, ← calls]

end StringPart

end Eagine.Memory

namespace Eagine.Runtime

open Memory Serialization Theory

/-- A position and a length -/
abbrev Range :=
  Nat × Nat

/-- `url`, with its query -/
structure Url where
  urlStr : Block
  query : Range
  argList : List (Range × Range) := []

namespace Url

def ampersand : Block :=
  [byteOf '&']

def plus : Block :=
  [byteOf '+']

def equals : Block :=
  [byteOf '=']

/-- `_sw` -/
def sw (url : Url) (r : Range) : Block :=
  (url.urlStr.drop r.1).take r.2

def rangeOf (part : StringPart) : Range :=
  (part.offset, part.text.length)

/-- What is stored for a part of the query -/
def addArgument (argList : List (Range × Range)) (part : StringPart) : List (Range × Range) :=
  let split := part.splitByFirst equals
  argList ++ [(rangeOf split.1, rangeOf split.2)]

/-- `_parse_args` -/
def parseArgs (url : Url) : Option Url :=
  (StringPart.forEachDelimited ampersand addArgument ⟨url.query.1, url.sw url.query⟩ []).map
    fun argList => { url with argList }

/-- `_arg_value` -/
def argValue (url : Url) (name : Block) : Option Block :=
  (url.argList.find? fun arg => url.sw arg.1 == name).map fun arg => url.sw arg.2

/-- `split_by_first`, of a part whose position does not matter -/
def splitByFirst (spn what : Block) : Block × Block :=
  let pos := (findPosition spn what).getD spn.length
  (spn.take pos, spn.drop (pos + what.length))

/-- What is done with a part of the query in the search for an argument -/
def matchArgument (argName result part : Block) : Option Block :=
  let split := splitByFirst part equals
  some (if result.isEmpty && split.1 == argName then split.2 else result)

/-- `argument`. There is no value if it is empty. -/
def argument (url : Url) (argName : Block) : Option (Option Block) :=
  (forEachDelimited plus (matchArgument argName) (url.sw url.query) []).map fun result =>
    if result.isEmpty then none else some result

/-- The URL with something before and behind its query -/
def withQuery (front query back : Block) : Option Url :=
  parseArgs { urlStr := front ++ (query ++ back), query := (front.length, query.length) }

/-- The stored argument and the one that is found have the same value, or both have none. -/
def ArgumentsAgree (front query back name : Block) : Prop :=
  ∃ url found, withQuery front query back = some url ∧ url.argument name = some found ∧
    ∀ value, value ≠ [] → (found = some value ↔ url.argValue name = some value)

/-- The part is an argument: a name, with a value or without one. -/
def IsArgument (name value part : Block) : Prop :=
  byteOf '=' ∉ name ∧ (part = name ++ byteOf '=' :: value ∨ (part = name ∧ value = []))

theorem splitByFirst_cons {name : Block} (plain : byteOf '=' ∉ name) (value : Block) :
    splitByFirst (name ++ byteOf '=' :: value) equals = (name, value) := by
  have pos := findPosition_cons plain value
  have passed : (name ++ [byteOf '=']).length = name.length + 1 := length_append
  rw [splitByFirst, equals, pos, Option.getD_some, take_left, length_singleton,
    append_cons, drop_left' passed]

theorem splitByFirst_whole {name : Block} (plain : byteOf '=' ∉ name) :
    splitByFirst name equals = (name, []) := by
  rw [splitByFirst, equals, findPosition_of_notMem plain, Option.getD_none, take_length,
    drop_of_length_le (Nat.le_add_right _ _)]

theorem splitByFirst_equals_iff {part name value : Block} :
    splitByFirst part equals = (name, value) ↔ IsArgument name value part := by
  constructor
  · intro split
    by_cases separated : byteOf '=' ∈ part
    · rcases eq_append_cons_of_mem separated with ⟨front, back, rfl, plain⟩
      rw [splitByFirst_cons plain, Prod.mk.injEq] at split
      rcases split with ⟨rfl, rfl⟩
      exact ⟨plain, Or.inl rfl⟩
    · rw [splitByFirst_whole separated, Prod.mk.injEq] at split
      rcases split with ⟨rfl, rfl⟩
      exact ⟨separated, Or.inr ⟨rfl, rfl⟩⟩
  · rintro ⟨plain, rfl | ⟨rfl, rfl⟩⟩
    · exact splitByFirst_cons plain value
    · exact splitByFirst_whole plain

/-- The first one of the parts that is an argument with the name has this value. -/
def FirstArgument (parts : List Block) (name value : Block) : Prop :=
  ∃ part, IsArgument name value part ∧ ∃ front back, parts = front ++ part :: back ∧
    ∀ other ∈ front, ∀ value, ¬IsArgument name value other

/-- The first one of the parts that is an argument with the name and a value has this value. -/
def FirstValue (parts : List Block) (name value : Block) : Prop :=
  ∃ part, (IsArgument name value part ∧ value ≠ []) ∧ ∃ front back, parts = front ++ part :: back ∧
    ∀ other ∈ front, ∀ value, IsArgument name value other → value = []

section Parts

variable {parts : List Block} {name value : Block}

theorem isArgument_iff {part : Block} :
    IsArgument name value part ↔
      (splitByFirst part equals).1 = name ∧ (splitByFirst part equals).2 = value := by
  rw [← splitByFirst_equals_iff, Prod.ext_iff]

theorem firstArgument_iff :
    FirstArgument parts name value ↔
      ∃ part, (parts.find? fun part => (splitByFirst part equals).1 == name) = some part ∧
        (splitByFirst part equals).2 = value := by
  refine exists_congr fun part => ?_
  simp only [find?_eq_some_iff_append, isArgument_iff, beq_iff_eq, Bool.not_eq_true',
    beq_eq_false_iff_ne, not_and, forall_apply_eq_imp_iff]
  tauto

theorem firstValue_iff :
    FirstValue parts name value ↔
      ∃ part, (parts.find? fun part =>
        (splitByFirst part equals).1 == name && !(splitByFirst part equals).2.isEmpty) = some part ∧
          (splitByFirst part equals).2 = value := by
  refine exists_congr fun part => ?_
  simp only [find?_eq_some_iff_append, isArgument_iff, Bool.and_eq_true, beq_iff_eq,
    Bool.not_eq_true', Bool.and_eq_false_imp, Bool.not_eq_false', List.isEmpty_iff,
    isEmpty_eq_false_iff, and_imp, forall_apply_eq_imp_iff]
  constructor
  · rintro ⟨⟨⟨named, rfl⟩, valued⟩, first⟩
    exact ⟨⟨⟨named, valued⟩, first⟩, rfl⟩
  · rintro ⟨⟨⟨named, valued⟩, first⟩, rfl⟩
    exact ⟨⟨⟨named, rfl⟩, valued⟩, first⟩

theorem FirstArgument.unique {other : Block} (first : FirstArgument parts name value)
    (second : FirstArgument parts name other) : value = other := by
  rcases firstArgument_iff.mp first with ⟨part, found, rfl⟩
  rcases firstArgument_iff.mp second with ⟨part', found', rfl⟩
  rw [Option.some.inj (found.symm.trans found')]

theorem FirstValue.unique {other : Block} (first : FirstValue parts name value)
    (second : FirstValue parts name other) : value = other := by
  rcases firstValue_iff.mp first with ⟨part, found, rfl⟩
  rcases firstValue_iff.mp second with ⟨part', found', rfl⟩
  rw [Option.some.inj (found.symm.trans found')]

/-- If an argument with the name has a value, then there is a first one. -/
theorem not_firstValue_iff :
    (∀ value, ¬FirstValue parts name value) ↔
      ∀ part ∈ parts, ∀ value, IsArgument name value part → value = [] := by
  have missing : (∀ value, ¬FirstValue parts name value) ↔ (parts.find? fun part =>
      (splitByFirst part equals).1 == name && !(splitByFirst part equals).2.isEmpty) = none := by
    simp only [firstValue_iff, Option.eq_none_iff_forall_ne_some]
    constructor
    · exact fun none part found => none _ ⟨part, found, rfl⟩
    · rintro none value ⟨part, found, -⟩
      exact none part found
  rw [missing, find?_eq_none]
  refine forall₂_congr fun part within => ?_
  simp only [isArgument_iff, Bool.and_eq_true, beq_iff_eq, Bool.not_eq_true',
    isEmpty_eq_false_iff, not_and, not_not]
  constructor
  · rintro empty value ⟨named, rfl⟩
    exact empty named
  · exact fun empty named => empty _ ⟨named, rfl⟩

/-- Of a single part, the first argument is the first one with a value if it has one. -/
theorem firstValue_singleton_iff {part : Block} (valued : value ≠ []) :
    FirstValue [part] name value ↔ FirstArgument [part] name value := by
  rw [firstValue_iff, firstArgument_iff]
  refine exists_congr fun other => and_congr_left fun isValue => ?_
  simp only [find?_singleton, Option.ite_none_right_eq_some, Option.some.injEq,
    Bool.and_eq_true, and_congr_left_iff, and_iff_left_iff_imp]
  rintro rfl -
  rw [isValue, Bool.not_eq_true', isEmpty_eq_false_iff]
  exact valued

end Parts

theorem sw_rangeOf {url : Url} {part : StringPart} (isIn : part.IsIn url.urlStr) :
    url.sw (rangeOf part) = part.text :=
  (prefix_iff_eq_take.mp isIn).symm

def storedArgument (part : StringPart) : Range × Range :=
  (rangeOf (part.splitByFirst equals).1, rangeOf (part.splitByFirst equals).2)

theorem foldl_addArgument (parts : List StringPart) (argList : List (Range × Range)) :
    parts.foldl addArgument argList = argList ++ parts.map storedArgument := by
  induction parts generalizing argList with
  | nil => rw [foldl_nil, map_nil, append_nil]
  | cons part parts ih =>
      rw [foldl_cons, ih, addArgument, map_cons, append_assoc, singleton_append]
      rfl

theorem sw_storedArgument {url : Url} {part : StringPart} (isIn : part.IsIn url.urlStr) :
    url.sw (storedArgument part).1 = (splitByFirst part.text equals).1 ∧
      url.sw (storedArgument part).2 = (splitByFirst part.text equals).2 :=
  ⟨sw_rangeOf (isIn.head _), sw_rangeOf (isIn.skip _)⟩

/-- The first argument with the name is found. -/
theorem argValue_eq_some_iff {url : Url} {parts : List StringPart}
    (stored : url.argList = parts.map storedArgument) (allIn : ∀ part ∈ parts, part.IsIn url.urlStr)
    {name value : Block} :
    url.argValue name = some value ↔ FirstArgument (parts.map StringPart.text) name value := by
  rw [argValue, stored, firstArgument_iff]
  clear stored
  induction parts with
  | nil => simp
  | cons part parts ih =>
      rcases forall_mem_cons.mp allIn with ⟨isIn, othersIn⟩
      rcases sw_storedArgument isIn with ⟨names, values⟩
      rw [map_cons, map_cons, find?_cons, find?_cons, names]
      cases same : (splitByFirst part.text equals).1 == name with
      | true => simp [values]
      | false => exact ih othersIn

section Query

variable {front query back : Block}

theorem sw_query (argList : List (Range × Range)) :
    sw ⟨front ++ (query ++ back), (front.length, query.length), argList⟩
      (front.length, query.length) = query := by
  rw [sw, drop_left, take_left]

theorem exists_withQuery (front query back : Block) :
    ∃ url, withQuery front query back = some url ∧ url.sw url.query = query ∧
      ∀ name value, url.argValue name = some value ↔
        FirstArgument (query.splitOn (byteOf '&')) name value := by
  have nonempty : ampersand ≠ [] := cons_ne_nil _ _
  rcases exists_delimited nonempty query with ⟨pieces, delimited⟩
  have isIn : StringPart.IsIn (front ++ (query ++ back)) ⟨front.length, query⟩ := by
    rw [StringPart.IsIn, drop_left]
    exact prefix_append query back
  rcases StringPart.forEachDelimitedFrom_eq addArgument nonempty delimited query.length le_rfl rfl
    isIn with ⟨parts, texts, allIn, calls⟩
  refine ⟨⟨front ++ (query ++ back), (front.length, query.length), parts.map storedArgument⟩, ?_,
    sw_query _, ?_⟩
  · rw [withQuery, parseArgs, sw_query, StringPart.forEachDelimited, calls, foldl_addArgument]
    rfl
  · intro name value
    rw [delimited.splitOn_eq, ← texts]
    exact argValue_eq_some_iff rfl allIn

end Query

theorem foldlM_matchArgument (name : Block) (parts : List Block) (result : Block) :
    parts.foldlM (matchArgument name) result = some
      (if result.isEmpty then
        ((parts.find? fun part => (splitByFirst part equals).1 == name &&
          !(splitByFirst part equals).2.isEmpty).map fun part =>
            (splitByFirst part equals).2).getD []
      else result) := by
  induction parts generalizing result with
  | nil => cases result <;> rfl
  | cons part parts ih =>
      rw [foldlM_cons, matchArgument, Option.bind_eq_bind, Option.bind_some, ih, find?_cons]
      cases result with
      | cons c result => rfl
      | nil =>
          cases same : (splitByFirst part equals).1 == name with
          | false => simp
          | true =>
              cases empty : (splitByFirst part equals).2.isEmpty with
              | true => simp [empty]
              | false => simp [empty]

/-- The first value of an argument with the name is found. -/
theorem argument_eq_some_iff (url : Url) (name : Block) :
    ∃ found, url.argument name = some found ∧ ∀ value, found = some value ↔
      FirstValue ((url.sw url.query).splitOn (byteOf '+')) name value := by
  have nonempty : plus ≠ [] := cons_ne_nil _ _
  rcases exists_delimited nonempty (url.sw url.query) with ⟨pieces, delimited⟩
  have visited := forEachDelimited_eq (matchArgument name) nonempty delimited []
  rw [foldlM_matchArgument] at visited
  refine ⟨_, by rw [argument, visited, Option.map_some], fun value => ?_⟩
  rw [delimited.splitOn_eq, firstValue_iff]
  cases found : pieces.find? _ with
  | none => simp
  | some part =>
      have valued := find?_some found
      rw [Bool.and_eq_true, Bool.not_eq_true'] at valued
      simp [valued.2]

theorem argumentsAgree_iff_values (front query back name : Block) :
    ArgumentsAgree front query back name ↔ ∀ value, value ≠ [] →
      (FirstValue (query.splitOn (byteOf '+')) name value ↔
        FirstArgument (query.splitOn (byteOf '&')) name value) := by
  rcases exists_withQuery front query back with ⟨url, made, isQuery, stored⟩
  rcases argument_eq_some_iff url name with ⟨found, returned, isFound⟩
  rw [isQuery] at isFound
  simp only [← isFound, ← stored]
  constructor
  · rintro ⟨url', found', made', returned', agree⟩
    rcases Option.some.inj (made.symm.trans made') with rfl
    rcases Option.some.inj (returned.symm.trans returned') with rfl
    exact agree
  · exact fun agree => ⟨url, found, made, returned, agree⟩

/-- The two scans use different delimiters. So they agree if there is none of these, if neither of
them has a value for the name, or if they come to the same argument in two places. -/
theorem argumentsAgree_iff (front query back name : Block) :
    ArgumentsAgree front query back name ↔
      (byteOf '&' ∉ query ∧ byteOf '+' ∉ query) ∨
      ((∀ value, FirstArgument (query.splitOn (byteOf '&')) name value → value = []) ∧
        ∀ part ∈ query.splitOn (byteOf '+'), ∀ value, IsArgument name value part → value = []) ∨
      ∃ value, value ≠ [] ∧ FirstArgument (query.splitOn (byteOf '&')) name value ∧
        FirstValue (query.splitOn (byteOf '+')) name value := by
  rw [argumentsAgree_iff_values, ← not_firstValue_iff]
  constructor
  · intro agree
    refine Or.inr ?_
    by_cases found : ∃ value, FirstValue (query.splitOn (byteOf '+')) name value
    · rcases found with ⟨value, isValue⟩
      have valued : value ≠ [] := isValue.choose_spec.1.2
      exact Or.inr ⟨value, valued, (agree value valued).mp isValue, isValue⟩
    · rw [not_exists] at found
      refine Or.inl ⟨fun value isArgument => ?_, found⟩
      by_contra valued
      exact found value ((agree value valued).mpr isArgument)
  · rintro (⟨noAmpersand, noPlus⟩ | ⟨noArgument, noValue⟩ | ⟨value, valued, isArgument, isValue⟩) other
      otherValued
    · rw [splitOn_eq_singleton noAmpersand, splitOn_eq_singleton noPlus]
      exact firstValue_singleton_iff otherValued
    · exact iff_of_false (noValue other) fun first => otherValued (noArgument other first)
    · constructor
      · intro first
        exact isValue.unique first ▸ isArgument
      · intro first
        exact isArgument.unique first ▸ isValue

/-- An argument behind `&` becomes a part of the value in front of it. -/
theorem not_forall_argumentsAgree :
    ¬∀ front query back name, ArgumentsAgree front query back name := by
  intro agree
  have stored : ((withQuery [] ("a=1&b=2".toList.map byteOf) []).bind
      fun url => url.argValue [byteOf 'a']) = some [byteOf '1'] := by
    decide +kernel
  have found : ((withQuery [] ("a=1&b=2".toList.map byteOf) []).bind
      fun url => url.argument [byteOf 'a']) = some (some ("1&b=2".toList.map byteOf)) := by
    decide +kernel
  rcases agree [] _ [] [byteOf 'a'] with ⟨url, value, made, returned, same⟩
  rw [made, Option.bind_some] at stored found
  rw [returned] at found
  have equal := (same [byteOf '1'] (by decide)).mpr stored
  rw [Option.some.inj found] at equal
  exact absurd equal (by decide)

end Url

end Eagine.Runtime
