import Eagine.Memory.SpanAlgorithm
import Eagine.String.StringListTraversal

/-!
# Splitting into string lists

A string is split into the list of its pieces between the separators. The code of the length
of a piece is the one of a code point with 32 bits, which a longer piece does not have.
-/

namespace Eagine.StringList

open MultiByte Memory Theory List

/-- `encode_length` where it returns: the exception about a value that is no valid code point
does not leave it. -/
def encodeLength? (len : Nat) : Option StringView :=
  encodeCodePointString (codePoint (BitVec.ofNat 32 len))

def pushBack? (list value : StringView) : Option StringView :=
  (encodeLength? value.length).map fun elen => list ++ elen ++ value ++ elen

theorem encodeLength?_eq_none {len : Nat} (invalid : isValid (BitVec.ofNat 32 len) = false) :
    encodeLength? len = none := by
  rw [encodeLength?, codePoint, invalid]
  rfl

/-- The value that the code of the length of a string tells: its bytes up to the length with
32 bits. -/
def announcedValue (v : StringView) : StringView :=
  v.take (v.length % 2 ^ 32)

theorem length_announcedValue (v : StringView) :
    (announcedValue v).length = v.length % 2 ^ 32 :=
  length_take_of_le (Nat.mod_le _ _)

variable {v : StringView} {values : List StringView}

theorem isShort_announcedValue_iff :
    IsShort (announcedValue v) ↔ isValid (BitVec.ofNat 32 v.length) = true := by
  rw [IsShort, length_announcedValue, isValid, BitVec.toNat_ofNat, decide_eq_true_iff]

theorem encodeLength?_eq (valid : IsShort (announcedValue v)) :
    encodeLength? v.length = some (lengthCode (announcedValue v)) := by
  have sameBits : BitVec.ofNat 32 (announcedValue v).length = BitVec.ofNat 32 v.length := by
    apply BitVec.eq_of_toNat_eq
    rw [length_announcedValue, BitVec.toNat_ofNat, BitVec.toNat_ofNat, Nat.mod_mod]
  rw [encodeLength?, encodeCodePointString_eq (isShort_announcedValue_iff.mp valid), lengthCode,
    sameBits]

theorem announcedValue_eq (short : IsShort v) : announcedValue v = v := by
  rw [announcedValue, Nat.mod_eq_of_lt (short.trans (by decide)), take_length]

/-- The function that `split_into` calls for every piece. -/
def pushPiece (state : StringView × Nat) (x : StringView) : Option (StringView × Nat) :=
  (pushBack? state.1 x).map fun dst => (dst, state.2 + 1)

/-- The list and the count, if the function returns. -/
def splitInto (dst str sep : StringView) : Option (StringView × Nat) :=
  forEachDelimited sep pushPiece str (dst, 0)

def split (str sep : StringView) : Option (StringView × Nat) :=
  splitInto [] str sep

theorem pushBack?_eq (valid : IsShort (announcedValue v)) (list : StringView) :
    pushBack? list v = some (list ++ (lengthCode (announcedValue v) ++
      (v ++ lengthCode (announcedValue v)))) := by
  rw [pushBack?, encodeLength?_eq valid, Option.map_some, append_assoc, append_assoc]

theorem isShort_of_pushBack? {list dst : StringView} (pushed : pushBack? list v = some dst) :
    IsShort (announcedValue v) := by
  rw [isShort_announcedValue_iff]
  by_contra invalid
  rw [Bool.not_eq_true] at invalid
  rw [pushBack?, encodeLength?_eq_none invalid] at pushed
  cases pushed

theorem foldlM_pushPiece (values : List StringView) (short : ∀ v ∈ values, IsShort v)
    (state : StringView × Nat) :
    values.foldlM pushPiece state =
      some (state.1 ++ elements values, state.2 + values.length) := by
  induction values generalizing state with
  | nil =>
      rw [elements, flatMap_nil, append_nil, length_nil, Nat.add_zero]
      rfl
  | cons v values ih =>
      obtain ⟨shortHead, shortTail⟩ := forall_mem_cons.mp short
      have valid : IsShort (announcedValue v) := (announcedValue_eq shortHead).symm ▸ shortHead
      have pushed : pushPiece state v = some (state.1 ++ elementOf v, state.2 + 1) := by
        rw [pushPiece, pushBack?_eq valid, announcedValue_eq shortHead, elementOf,
          append_assoc (lengthCode v)]
        rfl
      rw [foldlM_cons, pushed, Option.bind_eq_bind, Option.bind_some, ih shortTail,
        elements_cons, append_assoc, length_cons, Nat.add_right_comm, Nat.add_assoc]

/-- The list only grows. -/
theorem exists_of_foldlM_pushPiece {state after : StringView × Nat}
    (returns : values.foldlM pushPiece state = some after) : ∃ more, after.1 = state.1 ++ more := by
  induction values generalizing state with
  | nil =>
      cases returns
      exact ⟨[], (append_nil _).symm⟩
  | cons v values ih =>
      rw [foldlM_cons] at returns
      rcases Option.bind_eq_some_iff.mp returns with ⟨next, pushed, others⟩
      rcases Option.map_eq_some_iff.mp pushed with ⟨dst, added, rfl⟩
      rcases Option.map_eq_some_iff.mp added with ⟨elen, _, rfl⟩
      rcases ih others with ⟨more, grown⟩
      refine ⟨elen ++ v ++ elen ++ more, ?_⟩
      rw [grown, append_assoc, append_assoc, append_assoc, append_assoc,
        append_assoc]

theorem isFrame_code (short : IsShort v) {rest : StringView}
    (length : rest.length = (lengthCode v).length) :
    listElements.IsFrame (lengthCode v ++ (v ++ rest)) := by
  have size : elementSize (lengthCode v ++ (v ++ rest)) =
      some ((lengthCode v).length + v.length + (lengthCode v).length) := by
    rw [elementSize, decodeSequenceLength_code short, Option.map_some,
      elementValueSize_code short]
  rw [Framing.IsFrame]
  apply size.trans
  rw [length_append, length_append, length, Nat.add_assoc]

theorem isRow_elementOf (short : ∀ v ∈ values, IsShort v) :
    listElements.IsRow (values.map elementOf) := by
  intro elem mem
  rcases mem_map.mp mem with ⟨v, within, rfl⟩
  rw [elementOf, append_assoc]
  exact isFrame_code (short v within) rfl

theorem map_value_elementOf (short : ∀ v ∈ values, IsShort v) :
    (values.map elementOf).map Element.value = values := by
  rw [map_map]
  calc values.map (Element.value ∘ elementOf) = values.map id :=
        map_congr_left fun v within => value_elementOf (short v within)
    _ = values := map_id values

/-- The elements at the start of a list are the first ones that are visited. -/
theorem valuesOf_row {elems : List StringView} (isRow : listElements.IsRow elems)
    (rest : StringView) : ∃ fuel, valuesOf (elems.flatten ++ rest) =
      (elementsFrom fuel rest).map fun others => elems.map Element.value ++
        others.map Element.value := by
  rcases Nat.exists_eq_add_of_le isRow.length_le with ⟨spare, lengths⟩
  have total : (elems.flatten ++ rest).length = elems.length + (spare + rest.length) := by
    rw [length_append, lengths, Nat.add_assoc]
  refine ⟨spare + rest.length, ?_⟩
  rw [valuesOf, total, elementsFrom_row isRow, Option.map_map]
  apply congrArg (Option.map · _)
  funext others
  exact map_append

theorem valuesOf_elements (short : ∀ v ∈ values, IsShort v) :
    valuesOf (elements values) = some values := by
  rcases valuesOf_row (isRow_elementOf short) [] with ⟨fuel, read⟩
  have ended : ([] : StringView).length < 2 := Nat.two_pos
  rw [append_nil, elementsFrom_short ended, Option.map_some, map_value_elementOf short,
    map_nil, append_nil] at read
  exact read

/-- Of a piece that is too long, the bytes are read that the code of its length tells. -/
theorem exists_valuesOf_long {shorts : List StringView} (short : ∀ v ∈ shorts, IsShort v)
    {piece : StringView} (valid : IsShort (announcedValue piece)) (more : StringView)
    (read : valuesOf (elements shorts ++ (lengthCode (announcedValue piece) ++
      (piece ++ lengthCode (announcedValue piece))) ++ more) = some values) :
    ∃ others, values = shorts ++ announcedValue piece :: others := by
  let code := lengthCode (announcedValue piece)
  let behind := piece.drop (piece.length % 2 ^ 32) ++ (code ++ more)
  have whole : announcedValue piece ++ behind = piece ++ (code ++ more) := by
    rw [announcedValue, ← append_assoc, take_append_drop]
  have room : (behind.take code.length).length = code.length := by
    apply length_take_of_le
    rw [length_append, length_append]
    omega
  let elem := code ++ (announcedValue piece ++ behind.take code.length)
  have isRow : listElements.IsRow (shorts.map elementOf ++ [elem]) := by
    apply Framing.isRow_append_iff.mpr
    constructor
    · exact isRow_elementOf short
    · exact Framing.isRow_cons_iff.mpr ⟨isFrame_code valid room, Framing.isRow_nil⟩
  have split : elements shorts ++ (code ++ (piece ++ code)) ++ more =
      (shorts.map elementOf ++ [elem]).flatten ++ behind.drop code.length := by
    rw [flatten_append, flatten_singleton, ← flatMap_def, append_assoc,
      append_assoc, append_assoc, append_assoc, append_assoc,
      append_assoc, take_append_drop, whole]
    rfl
  rcases valuesOf_row isRow (behind.drop code.length) with ⟨fuel, rowRead⟩
  rw [split, rowRead] at read
  rcases Option.map_eq_some_iff.mp read with ⟨others, _, rfl⟩
  refine ⟨others.map Element.value, ?_⟩
  rw [map_append, map_value_elementOf short, map_singleton, value_code valid,
    append_assoc]
  rfl

/-- What a string is split into is joined to the string again. The count is the number of the
elements, and the separator is in none of them. -/
def SplitsExactly (str sep : StringView) : Prop :=
  ∃ list cnt values, split str sep = some (list, cnt) ∧ join list sep false = some str ∧
    elementCount list = some cnt ∧
    forEach list (fun visited v => visited ++ [v]) [] = some values ∧ values.length = cnt ∧
    ∀ v ∈ values, ¬sep <:+: v

theorem forEach_collect (list : StringView) :
    forEach list (fun visited v => visited ++ [v]) [] = valuesOf list := by
  rw [forEach_eq_map]
  calc (valuesOf list).map (fun values => values.foldl (fun visited v => visited ++ [v]) [])
      = (valuesOf list).map id := by
        apply congrArg (Option.map · _)
        funext values
        rw [foldl_append_eq_append, nil_append, ← flatMap_def,
          flatMap_singleton', id]
    _ = valuesOf list := Option.map_id_apply

instance : DecidablePred IsShort :=
  fun v => inferInstanceAs (Decidable (v.length < 0x7FFFFFFF))

theorem exists_first_long {pieces : List StringView} (long : ¬∀ piece ∈ pieces, IsShort piece) :
    ∃ shorts piece others, pieces = shorts ++ piece :: others ∧ (∀ v ∈ shorts, IsShort v) ∧
      ¬IsShort piece := by
  have found : (pieces.find? fun piece => !decide (IsShort piece)).isSome = true := by
    push Not at long
    rcases long with ⟨piece, mem, tooLong⟩
    rw [find?_isSome]
    exact ⟨piece, mem, by rw [decide_eq_false tooLong, Bool.not_false]⟩
  rcases Option.isSome_iff_exists.mp found with ⟨piece, first⟩
  rcases find?_eq_some_iff_append.mp first with ⟨tooLong, shorts, others, split, before⟩
  refine ⟨shorts, piece, others, split, ?_, ?_⟩
  · intro v mem
    have short := before v mem
    rwa [Bool.not_not, decide_eq_true_iff] at short
  · rwa [Bool.not_eq_true', decide_eq_false_iff_not] at tooLong

/-- A string is split exactly if all its pieces have a length that is a code point. -/
theorem splitsExactly_iff (str : StringView) {sep : StringView} (nonempty : sep ≠ []) :
    SplitsExactly str sep ↔
      ∃ pieces, Delimited sep str pieces ∧ ∀ piece ∈ pieces, piece.length < 2 ^ 31 - 1 := by
  constructor
  · rintro ⟨list, cnt, values, splits, joined, _⟩
    rcases exists_delimited nonempty str with ⟨pieces, delimited⟩
    refine ⟨pieces, delimited, ?_⟩
    by_contra long
    rcases exists_first_long long with ⟨shorts, piece, others, rfl, short, tooLong⟩
    rw [join_eq_map] at joined
    rcases Option.map_eq_some_iff.mp joined with ⟨read, valuesRead, together⟩
    rw [split, splitInto, forEachDelimited_eq _ nonempty delimited, foldlM_append,
      foldlM_pushPiece shorts short, Option.bind_eq_bind, Option.bind_some, foldlM_cons,
      nil_append] at splits
    rcases Option.bind_eq_some_iff.mp splits with ⟨next, pushed, others⟩
    rcases Option.map_eq_some_iff.mp pushed with ⟨dst, added, rfl⟩
    have valid := isShort_of_pushBack? added
    rcases exists_of_foldlM_pushPiece others with ⟨more, rfl⟩
    rw [pushBack?_eq valid] at added
    cases added
    rcases exists_valuesOf_long short valid more valuesRead with ⟨rest, rfl⟩
    have atLeast := delimited.length_le_of_append together
    rw [length_announcedValue] at atLeast
    rw [IsShort, length_announcedValue] at valid
    exact tooLong (atLeast.trans_lt valid)
  · rintro ⟨pieces, delimited, short⟩
    have areShort : ∀ piece ∈ pieces, IsShort piece := short
    refine ⟨elements pieces, pieces.length, pieces, ?_, ?_, ?_, ?_, rfl, ?_⟩
    · rw [split, splitInto, forEachDelimited_eq _ nonempty delimited,
        foldlM_pushPiece pieces areShort, nil_append, Nat.zero_add]
    · rw [join_eq_map, valuesOf_elements areShort, Option.map_some, delimited.intercalate_eq]
    · rw [elementCount_eq_map, valuesOf_elements areShort, Option.map_some]
    · rw [forEach_collect, valuesOf_elements areShort]
    · exact delimited.not_isInfix nonempty

/-- Separators that overlap, with pieces of no length in front of and behind them. -/
theorem splitsExactly_overlapping :
    SplitsExactly [0x61, 0x61, 0x61, 0x62, 0x61, 0x61] [0x61, 0x61] := by
  have last : Delimited [0x61, 0x61] ([] : StringView) [[]] := .last (by decide)
  have second : Delimited [0x61, 0x61] ([0x61, 0x62] ++ ([0x61, 0x61] ++ []) : StringView)
      [[0x61, 0x62], []] := by
    apply Delimited.next _ last
    unfold NoneBefore
    decide
  have first : Delimited [0x61, 0x61]
      ([] ++ ([0x61, 0x61] ++ [0x61, 0x62, 0x61, 0x61]) : StringView)
      [[], [0x61, 0x62], []] := .next (fun i before => nomatch before) second
  exact (splitsExactly_iff _ (cons_ne_nil _ _)).mpr ⟨_, first, by decide⟩

/-- The length of a string with 2 GiB is no valid code point. -/
theorem not_forall_splitsExactly : ¬∀ str sep, sep ≠ [] → SplitsExactly str sep := by
  intro exactly
  let str : StringView := List.replicate 0x7FFFFFFF 0x61
  have nonempty : ([0x2C] : StringView) ≠ [] := cons_ne_nil _ _
  have delimited : Delimited [0x2C] str [str] := by
    apply Delimited.last
    intro occurs
    have mem : (0x2C : UInt8) ∈ str := occurs.subset (mem_singleton_self _)
    exact absurd (eq_of_mem_replicate mem) (by decide)
  have invalid : isValid (BitVec.ofNat 32 str.length) = false := by
    rw [length_replicate]
    decide
  rcases exactly str [0x2C] nonempty with ⟨list, cnt, values, splits, _⟩
  rw [split, splitInto, forEachDelimited_eq _ nonempty delimited, foldlM_cons, pushPiece,
    pushBack?, encodeLength?_eq_none invalid] at splits
  cases splits

end Eagine.StringList
