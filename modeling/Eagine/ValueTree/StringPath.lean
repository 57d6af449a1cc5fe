import Eagine.String.StringListIterators
import Eagine.ValueTree.BuildingPath

/-!
# Paths from lists of names and parents of paths

The constructor of a path from a list of names counts two bytes for the length of each element,
which is what a short name takes. The parent of a path is a copy that is shortened, as long as
the path that was copied is not empty.
-/

open List

namespace Eagine.ValueTree.BasicStringPath

open Serialization Theory StringList MultiByte

/-- The number of bytes that `_init` reserves -/
def initLength (names : List Block) : Nat :=
  names.foldl (fun len name => len + name.length) (2 * names.length)

/-- `_init`, with the assertion at its end -/
def init (names : List Block) : Option BasicStringPath :=
  (names.foldlM (fun (path : BasicStringPath) name => path.pushBack? name) {}).bind fun path =>
    if path.str.length = initLength names then some path else none

/-- A path is constructed, and its elements are the names. -/
def ConstructsExactly (names : List Block) : Prop :=
  ∃ path, init names = some path ∧ path.HasNames names

theorem initLength_eq (names : List Block) :
    initLength names = 2 * names.length + (names.map List.length).sum := by
  have counted (len : Nat) : names.foldl (fun len name => len + name.length) len =
      len + (names.map List.length).sum := by
    induction names generalizing len with
    | nil => rfl
    | cons name names ih => rw [foldl_cons, ih, map_cons, sum_cons, Nat.add_assoc]
  exact counted _

theorem initLength_cons (name : Block) (names : List Block) :
    initLength (name :: names) = 2 + name.length + initLength names := by
  rw [initLength_eq, initLength_eq, map_cons, sum_cons, length_cons]
  omega

theorem map_fixName_eq_iff {names : List Block} :
    names.map fixName = names ↔ ∀ name ∈ names, fixName name = name := by
  have same : names.map fixName = names.map id ↔ ∀ name ∈ names, fixName name = id name :=
    map_inj_left
  rwa [map_id] at same

theorem foldlM_pushBack? {names : List Block} (short : ∀ name ∈ names, IsShort (fixName name))
    (front : List Block) :
    names.foldlM (fun (path : BasicStringPath) name => path.pushBack? name) (pathOf front) =
      some (pathOf (front ++ names.map fixName)) := by
  induction names generalizing front with
  | nil => rw [map_nil, append_nil]; rfl
  | cons name names ih =>
      rcases forall_mem_cons.mp short with ⟨shortName, shortNames⟩
      rw [foldlM_cons, pushBack?_pathOf shortName, Option.bind_eq_bind, Option.bind_some,
        ih shortNames, append_assoc, map_cons, singleton_append]

theorem isShort_fixName {name : Block} (short : IsShort name) : IsShort (fixName name) :=
  (List.rdropWhile_prefix _ name).length_le.trans_lt short

/-- The code of a length has one byte for up to 126 bytes. -/
theorem length_lengthCode_eq_one_iff {name : Block} (short : IsShort name) :
    (lengthCode name).length = 1 ↔ name.length < 127 := by
  rcases exists_bytesOf (isValid_length short) with ⟨len, required, -, -, -, -, bytesLength⟩
  have value := toNat_ofNat_length short
  rw [lengthCode, bytesLength]
  have small : BitVec.ofNat 32 name.length < maxCodePoint 1 ↔ name.length < 127 := by
    rw [BitVec.lt_def, value]
    rfl
  rw [requiredSequenceLength] at required
  by_cases one : BitVec.ofNat 32 name.length < maxCodePoint 1
  · rw [if_pos one] at required
    exact iff_of_true (Option.some.inj required).symm (small.mp one)
  · refine iff_of_false ?_ fun less => one (small.mpr less)
    rintro rfl
    rw [if_neg one] at required
    split_ifs at required
    all_goals exact absurd (Option.some.inj required) (by decide)

theorem length_elements_eq_iff {names : List Block} (short : ∀ name ∈ names, IsShort name) :
    initLength names ≤ (elements names).length ∧
      ((elements names).length = initLength names ↔ ∀ name ∈ names, name.length < 127) := by
  induction names with
  | nil => exact ⟨Nat.le_refl _, iff_of_true rfl (by simp)⟩
  | cons name names ih =>
      rcases forall_mem_cons.mp short with ⟨shortName, shortNames⟩
      rcases ih shortNames with ⟨atLeast, exactly⟩
      have positive := length_lengthCode_pos shortName
      have single := length_lengthCode_eq_one_iff shortName
      rw [elements_cons, length_append, length_elementOf, initLength_cons,
        forall_mem_cons, ← exactly, ← single]
      omega

/-- The names have to be elements as they are, with a code of one byte for their lengths. -/
theorem constructsExactly_iff (names : List Block) :
    ConstructsExactly names ↔ ∀ name ∈ names, fixName name = name ∧ name.length < 127 := by
  have start : ({} : BasicStringPath) = pathOf [] := rfl
  constructor
  · rintro ⟨path, made, hasNames⟩
    have short := isShort_of_valuesOf hasNames.values
    have shortFixed : ∀ name ∈ names, IsShort (fixName name) :=
      fun name within => isShort_fixName (short name within)
    rw [init, start, foldlM_pushBack? shortFixed, nil_append, Option.bind_some] at made
    split_ifs at made with asserted
    cases made
    have same : names.map fixName = names := by
      have values := (hasNames_pathOf (forall_mem_map.mpr shortFixed)).values
      exact Option.some.inj (values.symm.trans hasNames.values)
    rw [same] at asserted
    have small := (length_elements_eq_iff short).2.mp asserted
    exact fun name within => ⟨map_fixName_eq_iff.mp same name within, small name within⟩
  · intro condition
    have short : ∀ name ∈ names, IsShort name :=
      fun name within => (condition name within).2.trans (by decide)
    have same : names.map fixName = names :=
      map_fixName_eq_iff.mpr fun name within => (condition name within).1
    have asserted := (length_elements_eq_iff short).2.mpr fun name within => (condition name within).2
    refine ⟨pathOf names, ?_, hasNames_pathOf short⟩
    rw [init, start, foldlM_pushBack? fun name within => isShort_fixName (short name within), same,
      nil_append, Option.bind_some]
    exact if_pos asserted

/-- The code of the length of a name with 128 bytes has two bytes. -/
theorem not_forall_constructsExactly : ¬∀ names, ConstructsExactly names := by
  intro exactly
  have small := (constructsExactly_iff _).mp (exactly [List.replicate 128 (byteOf 'a')]) _
    mem_cons_self
  rw [length_replicate] at small
  exact absurd small.2 (by decide)

/-- `pop_back`, with its assertion -/
def popBack? (path : BasicStringPath) : Option BasicStringPath :=
  path.empty.bind fun empty => if empty then none else some path.popBack

/-- The loop of `parent`. It is not the copy that is asked if it is empty. -/
def parentFrom (path : BasicStringPath) : Nat → BasicStringPath → Option BasicStringPath
  | 0, result => some result
  | n + 1, result =>
      path.empty.bind fun empty =>
        if empty then some result else result.popBack?.bind (parentFrom path n)

def parent (path : BasicStringPath) (n : Nat) : Option BasicStringPath :=
  parentFrom path n path

/-- A name that can be an element of a path -/
abbrev PathElement :=
  { name : Block // IsShort name }

/-- The path with these elements -/
def ofElements (elems : List PathElement) : BasicStringPath :=
  pathOf (elems.map Subtype.val)

/-- The parent has the elements but for the last ones, and they are counted. -/
def ParentIsExact (elems : List PathElement) (n : Nat) : Prop :=
  ∃ result, (ofElements elems).parent n = some result ∧
    result.HasNames ((elems.map Subtype.val).take (elems.length - n))

theorem short_elements (elems : List PathElement) : ∀ name ∈ elems.map Subtype.val, IsShort name :=
  forall_mem_map.mpr fun elem _ => elem.2

theorem empty_ofElements (elems : List PathElement) :
    (ofElements elems).empty = some elems.isEmpty := by
  rw [ofElements, empty_pathOf (short_elements elems), isEmpty_map]

theorem popBack?_ofElements (elems : List PathElement) :
    (ofElements elems).popBack? =
      if elems.isEmpty then none else some (ofElements elems.dropLast) := by
  rw [popBack?, empty_ofElements, Option.bind_some]
  cases elems using List.reverseRecOn with
  | nil => rfl
  | append_singleton elems elem =>
      have nonempty : (elems ++ [elem]).isEmpty = false := by
        rw [isEmpty_eq_false_iff]
        exact append_ne_nil_of_right_ne_nil _ (cons_ne_nil _ _)
      rw [nonempty, dropLast_concat, ofElements, map_append, map_singleton,
        popBack_pathOf elem.2]
      rfl

/-- `operator+` -/
def append (a b : BasicStringPath) : BasicStringPath where
  size := a.size + b.size
  str := a.str ++ b.str

/-- Elements are removed as long as there are any in the copy. -/
theorem parentFrom_ofElements {path : BasicStringPath} (nonempty : path.empty = some false)
    (n : Nat) (elems : List PathElement) :
    parentFrom path n (ofElements elems) =
      if n ≤ elems.length then some (ofElements (elems.take (elems.length - n))) else none := by
  induction n generalizing elems with
  | zero => rw [parentFrom, if_pos (Nat.zero_le _), Nat.sub_zero, take_length]
  | succ n ih =>
      rw [parentFrom, nonempty, Option.bind_some, if_neg Bool.false_ne_true, popBack?_ofElements]
      cases elems with
      | nil => rfl
      | cons elem elems =>
          have shorter : ((elem :: elems).dropLast).length = elems.length := length_dropLast
          have sameTake : (elem :: elems).dropLast.take (elems.length - n) =
              (elem :: elems).take (elems.length + 1 - (n + 1)) := by
            rw [dropLast_eq_take, take_take, length_cons, Nat.add_sub_cancel,
              Nat.add_sub_add_right, Nat.min_eq_left (Nat.sub_le _ _)]
          rw [isEmpty_cons, if_neg Bool.false_ne_true, Option.bind_some, ih, shorter, sameTake,
            length_cons]
          exact if_congr Nat.succ_le_succ_iff.symm rfl rfl

/-- As many elements as there are can be removed, and any number from the empty path. -/
theorem parentIsExact_iff (elems : List PathElement) (n : Nat) :
    ParentIsExact elems n ↔ n ≤ elems.length ∨ elems = [] := by
  have hasNames (kept : List PathElement) : (ofElements kept).HasNames (kept.map Subtype.val) :=
    hasNames_pathOf (short_elements kept)
  cases elems with
  | nil =>
      refine iff_of_true ⟨ofElements [], ?_, by simpa using hasNames []⟩ (Or.inr rfl)
      cases n with
      | zero => rfl
      | succ n => rw [parent, parentFrom, empty_ofElements]; rfl
  | cons elem elems =>
      have removed := parentFrom_ofElements (empty_ofElements (elem :: elems)) n (elem :: elems)
      rw [ParentIsExact, parent, removed, or_iff_left (cons_ne_nil _ _)]
      split_ifs with within
      · refine iff_of_true ⟨_, rfl, ?_⟩ within
        rw [← map_take]
        exact hasNames _
      · refine iff_of_false ?_ within
        rintro ⟨result, missing, -⟩
        cases missing

/-- The copy is empty after its element was removed, and another one is to be removed. -/
theorem not_forall_parentIsExact : ¬∀ elems n, ParentIsExact elems n := by
  intro exactly
  have short : IsShort [byteOf 'a'] := Nat.lt_of_lt_of_le Nat.one_lt_two (by decide)
  rcases (parentIsExact_iff [⟨_, short⟩] 2).mp (exactly _ 2) with within | nothing
  · exact Nat.not_succ_le_self 1 within
  · exact cons_ne_nil _ _ nothing

end Eagine.ValueTree.BasicStringPath

/-!
## Patterns of paths

A path and a pattern are walked through together, by iterators over the bytes of both. The iterators
of an empty path are null pointers.
-/

namespace Eagine.ValueTree.BasicStringPath

open Serialization StringList
open Option (bind_some map_some some_inj)

/-- An iterator of a path, or none that is constructed from a null pointer. -/
abbrev PathIterator :=
  Option ListIterator

/-- `begin` of a path, with the assertion of `empty`. -/
def first (path : BasicStringPath) : Option PathIterator :=
  path.empty.map fun empty => if empty then none else some (Direction.forward.first path.str)

/-- `end` of a path. -/
def last (path : BasicStringPath) : Option PathIterator :=
  path.empty.map fun empty => if empty then none else some (Direction.forward.last path.str)

def elementsMatch (elem patt : Block) : Bool :=
  elem == patt || patt == [byteOf '*']

/-- The loop over the elements of both. It ends with the iterator of the pattern, unless elements do
not match. -/
def matchFrom (path pattern : BasicStringPath) (tend pend : PathIterator) :
    Nat → PathIterator → PathIterator → Option (Option PathIterator)
  | 0, tp, pp => if tp ≠ tend ∧ pp ≠ pend then none else some (some pp)
  | fuel + 1, tp, pp =>
      if tp ≠ tend ∧ pp ≠ pend then
        (tp.bind (Forward.update path.str)).bind fun tp =>
          (pp.bind (Forward.update pattern.str)).bind fun pp =>
            if elementsMatch tp.tmp pp.tmp then
              (Forward.next path.str tp).bind fun tp =>
                (Forward.next pattern.str pp).bind fun pp =>
                  matchFrom path pattern tend pend fuel (some tp) (some pp)
            else some none
      else some (some pp)

/-- The loop from the beginning of both. There are not more steps than bytes of the path. -/
def matchAll (path pattern : BasicStringPath) : Option (Option PathIterator) :=
  path.first.bind fun tp =>
    pattern.first.bind fun pp =>
      path.last.bind fun tend =>
        pattern.last.bind fun pend => matchFrom path pattern tend pend path.str.length tp pp

def like (path pattern : BasicStringPath) : Option Bool :=
  if path.size ≠ pattern.size then some false
  else (matchAll path pattern).map Option.isSome

def startsWith (path pattern : BasicStringPath) : Option Bool :=
  (matchAll path pattern).bind fun matched => pattern.last.map fun pend => matched == some pend

/-- A name matches itself, and every name matches the asterisk. -/
def ElementMatches (elem patt : Block) : Prop :=
  patt = [byteOf '*'] ∨ patt = elem

/-- `like` and `starts_with` tell if all names match, or the first ones. -/
structure MatchesExactly (path pattern : BasicStringPath) (names patts : List Block) : Prop where
  like : ∃ result, path.like pattern = some result ∧
    (result = true ↔ List.Forall₂ ElementMatches names patts)
  startsWith : ∃ result, path.startsWith pattern = some result ∧
    (result = true ↔ List.Forall₂ ElementMatches (names.take patts.length) patts)

theorem elementsMatch_iff (elem patt : Block) :
    elementsMatch elem patt = true ↔ ElementMatches elem patt := by
  rw [elementsMatch, Bool.or_eq_true, beq_iff_eq, beq_iff_eq, ElementMatches, or_comm, @eq_comm _ elem]

/-- The names that are still to come for an iterator. -/
def Faces (path : BasicStringPath) (it : PathIterator) (rest : List Block) : Prop :=
  path.str = [] ∧ it = none ∧ rest = [] ∨
    path.str ≠ [] ∧ ∃ pos, it = some { pos } ∧ Direction.forward.Faces path.str pos rest

/-- The iterators with no more names are those at the end. -/
def EndsAt (path : BasicStringPath) (pend : PathIterator) : Prop :=
  ∀ it rest, (∀ name ∈ rest, IsShort name) → path.Faces it rest → (it = pend ↔ rest = [])

section Walking

variable {names : List Block} (short : ∀ name ∈ names, IsShort name)

include short

theorem isEmpty_str_pathOf : (pathOf names).str.isEmpty = names.isEmpty :=
  isEmpty_elements short

theorem first_pathOf : ∃ it, (pathOf names).first = some it ∧ (pathOf names).Faces it names := by
  rw [first, empty_pathOf short, map_some]
  cases names with
  | nil => exact ⟨none, rfl, Or.inl ⟨rfl, rfl, rfl⟩⟩
  | cons name names =>
      have some_bytes : (pathOf (name :: names)).str ≠ [] := by
        rw [← isEmpty_eq_false_iff, isEmpty_str_pathOf short]
        rfl
      exact ⟨_, rfl, Or.inr ⟨some_bytes, 0, rfl, Direction.faces_first .forward (name :: names)⟩⟩

/-- The iterators are at the end exactly if there are no more names. -/
theorem exists_last_pathOf :
    ∃ pend, (pathOf names).last = some pend ∧ (pathOf names).EndsAt pend := by
  rw [last, empty_pathOf short, map_some, ← isEmpty_str_pathOf short]
  refine ⟨_, rfl, fun it rest shortRest faces => ?_⟩
  rcases faces with ⟨noBytes, rfl, rfl⟩ | ⟨some_bytes, pos, rfl, faces⟩
  · rw [noBytes]
    exact iff_of_true rfl rfl
  · rw [if_neg (by rwa [List.isEmpty_iff]), some_inj]
    cases rest with
    | nil => exact iff_of_true faces.eq_last rfl
    | cons name rest =>
        exact iff_of_false (faces.ne_last (shortRest name mem_cons_self))
          (cons_ne_nil _ _)

omit short in
/-- A name is read, and the iterator goes on to the next ones. -/
theorem Faces.step {path : BasicStringPath} {it : PathIterator} {name : Block} {rest : List Block}
    (faces : path.Faces it (name :: rest)) (short : IsShort name) :
    ∃ read following, it.bind (Forward.update path.str) = some read ∧ read.tmp = name ∧
      Forward.next path.str read = some following ∧ path.Faces (some following) rest := by
  rcases faces with ⟨-, -, none⟩ | ⟨some_bytes, pos, rfl, faces⟩
  · cases none
  · rcases faces.passes short with ⟨readPos, nextPos, passes, facesNext⟩
    exact ⟨⟨readPos, name⟩, { pos := nextPos }, passes.read, rfl, passes.nextRead name,
      Or.inr ⟨some_bytes, nextPos, rfl, facesNext⟩⟩

end Walking

/-- The loop goes on as long as there are names in both and they match. -/
theorem Faces.matchFrom {path pattern : BasicStringPath} {tend pend : PathIterator}
    (endsAt : path.EndsAt tend) (endsAtPattern : pattern.EndsAt pend) {names patts : List Block}
    (short : ∀ name ∈ names, IsShort name) (shortPatts : ∀ patt ∈ patts, IsShort patt)
    {tp pp : PathIterator} (faces : path.Faces tp names) (facesPattern : pattern.Faces pp patts)
    {fuel : Nat} (enough : names.length ≤ fuel) :
    ∃ result, matchFrom path pattern tend pend fuel tp pp = some result ∧
      (names.length = patts.length →
        (result.isSome = true ↔ List.Forall₂ ElementMatches names patts)) ∧
      (result = some pend ↔ List.Forall₂ ElementMatches (names.take patts.length) patts) := by
  have atEnd := endsAt tp names short faces
  have atPatternEnd := endsAtPattern pp patts shortPatts facesPattern
  induction names generalizing fuel tp pp patts with
  | nil =>
      have stops : ¬(tp ≠ tend ∧ pp ≠ pend) := fun both => both.1 (atEnd.mpr rfl)
      have stopped : BasicStringPath.matchFrom path pattern tend pend fuel tp pp = some (some pp) := by
        cases fuel <;> exact if_neg stops
      refine ⟨some pp, stopped, fun length => ?_, ?_⟩
      · rw [length_nil, eq_comm, length_eq_zero_iff] at length
        rw [length]
        exact iff_of_true rfl List.Forall₂.nil
      · rw [some_inj, atPatternEnd, take_nil, forall₂_nil_left_iff]
  | cons name names ih =>
      obtain ⟨fuel, rfl⟩ : ∃ fewer, fuel = fewer + 1 := Nat.exists_eq_add_one.mpr (by
        rw [length_cons] at enough
        omega)
      rcases forall_mem_cons.mp short with ⟨shortName, shortNames⟩
      rw [BasicStringPath.matchFrom]
      cases patts with
      | nil =>
          rw [if_neg fun both => both.2 (atPatternEnd.mpr rfl)]
          refine ⟨some pp, rfl, fun length => absurd length (Nat.succ_ne_zero _), ?_⟩
          rw [some_inj, atPatternEnd]
          exact iff_of_true rfl List.Forall₂.nil
      | cons patt patts =>
          rcases forall_mem_cons.mp shortPatts with ⟨shortPatt, shortRest⟩
          rcases faces.step shortName with ⟨read, following, updated, tmp, went, facesNext⟩
          rcases facesPattern.step shortPatt with
            ⟨readPatt, followingPatt, updatedPatt, tmpPatt, wentPatt, facesRest⟩
          have goes : tp ≠ tend ∧ pp ≠ pend :=
            ⟨fun stop => cons_ne_nil _ _ (atEnd.mp stop),
              fun stop => cons_ne_nil _ _ (atPatternEnd.mp stop)⟩
          rw [if_pos goes, updated, bind_some, updatedPatt, bind_some, tmp, tmpPatt,
            length_cons, length_cons, take_succ_cons, forall₂_cons,
            forall₂_cons, ← elementsMatch_iff]
          by_cases same : elementsMatch name patt = true
          · rw [if_pos same, went, bind_some, wentPatt, bind_some]
            rcases ih shortNames shortRest facesNext facesRest (Nat.le_of_succ_le_succ enough)
              (endsAt _ _ shortNames facesNext) (endsAtPattern _ _ shortRest facesRest) with
              ⟨result, ended, all, front⟩
            refine ⟨result, ended, fun length => ?_, ?_⟩
            · rw [all (Nat.succ.inj length), and_iff_right same]
            · rw [front, and_iff_right same]
          · rw [if_neg same]
            exact ⟨none, rfl, fun _ => iff_of_false nofun fun both => same both.1,
              iff_of_false nofun fun both => same both.1⟩

/-- Paths match patterns as their elements do. -/
theorem matchesExactly (elems patts : List PathElement) :
    MatchesExactly (ofElements elems) (ofElements patts) (elems.map Subtype.val)
      (patts.map Subtype.val) := by
  have short := short_elements elems
  have shortPatts := short_elements patts
  rcases first_pathOf short with ⟨tp, begins, faces⟩
  rcases first_pathOf shortPatts with ⟨pp, beginsPattern, facesPattern⟩
  rcases exists_last_pathOf short with ⟨tend, ends, endsAt⟩
  rcases exists_last_pathOf shortPatts with ⟨pend, endsPattern, endsAtPattern⟩
  rcases Faces.matchFrom endsAt endsAtPattern short shortPatts faces facesPattern
    (Direction.length_le_length_elements short) with ⟨result, ended, all, front⟩
  have matched : matchAll (ofElements elems) (ofElements patts) = some result := by
    rw [matchAll, ofElements, ofElements, begins, bind_some, beginsPattern, bind_some,
      ends, bind_some, endsPattern, bind_some]
    exact ended
  constructor
  · rw [BasicStringPath.like, matched]
    split_ifs with sizes
    · refine ⟨false, rfl, iff_of_false Bool.false_ne_true fun forall₂ => sizes forall₂.length_eq⟩
    · exact ⟨result.isSome, rfl, all (not_not.mp sizes)⟩
  · rw [BasicStringPath.startsWith, matched, bind_some, ofElements, endsPattern]
    exact ⟨_, rfl, beq_iff_eq.trans front⟩

end Eagine.ValueTree.BasicStringPath
