import Eagine.String.MultiByteRows
import Eagine.String.StringList

/-!
# Traversals of any bytes as a string list

The size of an element is decoded from its header. A list is a row of elements up to its
end, up to bytes that are no header or up to an element that is longer than the rest, and
the loop over the elements stands still at bytes that are no header.
-/

namespace Eagine.StringList

open MultiByte Theory List Option

theorem decodeTailFrom_congr {len : Nat} {src other : List UInt8} (count idx : Nat)
    (cp : CodePoint) (whole : idx + count ≤ len)
    (same : ∀ i < len, src.getD i 0 = other.getD i 0) :
    decodeTailFrom len src count idx cp = decodeTailFrom len other count idx cp := by
  induction count generalizing idx cp with
  | zero => rfl
  | succ count ih =>
      rw [decodeTailFrom, decodeTailFrom, same idx (by omega)]
      cases decodeCodePointTail len (other.getD idx 0) idx with
      | none => rfl
      | some tail => exact ih (idx + 1) (cp ||| tail) (by omega)

/-- A code point is decoded from the bytes of its sequence only. -/
theorem doDecodeCodePoint_congr {len : Nat} {src other : List UInt8} (positive : 1 ≤ len)
    (enough : len ≤ src.length) (otherEnough : len ≤ other.length)
    (same : ∀ i < len, src.getD i 0 = other.getD i 0) :
    doDecodeCodePoint src (some len) = doDecodeCodePoint other (some len) := by
  have room : len - 1 < src.length := by omega
  have otherRoom : len - 1 < other.length := by omega
  rw [doDecodeCodePoint, doDecodeCodePoint, if_pos room, if_pos otherRoom, doDecodeCodePointFrom,
    doDecodeCodePointFrom, same 0 positive]
  exact congrArg codePoint (decodeTailFrom_congr (len - 1) 1 _ (by omega) same)

/-- The size of the element at the start of the bytes, if there is a header. -/
def elementSize (s : StringView) : Option Nat :=
  (decodeSequenceLength s).map fun hs => hs + elementValueSize s hs + hs

theorem elementValueSize_congr {s other : StringView} {hs : Nat} (positive : 1 ≤ hs)
    (enough : hs ≤ s.length) (otherEnough : hs ≤ other.length)
    (same : ∀ i < hs, s.getD i 0 = other.getD i 0) :
    elementValueSize s hs = elementValueSize other hs := by
  rw [elementValueSize, elementValueSize]
  split_ifs
  · rw [doDecodeCodePoint_congr positive enough otherEnough same]
  · rfl

/-- The header of an element is inside it. -/
theorem elementSize_settled (s rest : StringView) {length : Nat}
    (announced : elementSize s = some length) (complete : length ≤ s.length) :
    elementSize (s.take length ++ rest) = some length := by
  rcases map_eq_some_iff.mp announced with ⟨hs, decoded, rfl⟩
  have positive := doDecodeSequenceLength_pos decoded
  have inside : hs ≤ hs + elementValueSize s hs + hs := Nat.le_add_left _ _
  have same : ∀ i < hs, (s.take (hs + elementValueSize s hs + hs) ++ rest).getD i 0 =
      s.getD i 0 := by
    intro i before
    have within : i < (s.take (hs + elementValueSize s hs + hs)).length := by
      rw [length_take_of_le complete]
      exact before.trans_le inside
    rw [getD_append _ _ _ _ within, getD_eq_getElem _ _ within, getElem_take,
      getD_eq_getElem]
  have enough : hs ≤ (s.take (hs + elementValueSize s hs + hs) ++ rest).length := by
    rw [length_append, length_take_of_le complete]
    exact inside.trans (Nat.le_add_right _ _)
  rw [elementSize, decodeSequenceLength, same 0 positive, ← decodeSequenceLength, decoded,
    map_some, elementValueSize_congr positive enough (inside.trans complete) same]

def listElements : Framing UInt8 where
  size := elementSize
  positive s length announced := by
    rcases map_eq_some_iff.mp announced with ⟨hs, decoded, rfl⟩
    exact Nat.lt_add_left _ (doDecodeSequenceLength_pos decoded)
  settled s length rest := elementSize_settled s rest

variable {rest : StringView}

theorem isStuck_iff :
    listElements.IsStuck rest ↔ rest ≠ [] ∧ isValidHeadByteOfAny (rest.getD 0 0) = false := by
  apply and_congr_right
  intro _
  rw [← doDecodeSequenceLength_eq_none_iff]
  exact map_eq_none_iff

theorem fit_of_size {s : StringView} {length : Nat} (announced : elementSize s = some length) :
    fit s = s.take length := by
  rcases map_eq_some_iff.mp announced with ⟨hs, decoded, rfl⟩
  rw [fit, elementHeaderSize, decoded, getD_some]

/-- Bytes that are no header are an element of no size. -/
theorem fit_of_stuck {s : StringView} (isStuck : listElements.IsStuck s) : fit s = [] := by
  have undecoded : decodeSequenceLength s = none := map_eq_none_iff.mp isStuck.2
  rw [fit, elementHeaderSize, undecoded]
  rfl

theorem two_le_length_of_isFrame {elem : StringView} (isElement : listElements.IsFrame elem) :
    2 ≤ elem.length := by
  rcases map_eq_some_iff.mp isElement with ⟨hs, decoded, size⟩
  have positive := doDecodeSequenceLength_pos decoded
  omega

/-- The elements that the loop of `for_each_elem` comes across. -/
def elementsFrom : Nat → StringView → Option (List StringView)
  | 0, rest => if 2 ≤ rest.length then none else some []
  | fuel + 1, rest =>
      if 2 ≤ rest.length then
        (elementsFrom fuel (rest.drop (fit rest).length)).map (fit rest :: ·)
      else some []

theorem elementsFrom_element {elem : StringView} (isElement : listElements.IsFrame elem)
    (rest : StringView) (fuel : Nat) :
    elementsFrom (fuel + 1) (elem ++ rest) = (elementsFrom fuel rest).map (elem :: ·) := by
  have more : 2 ≤ (elem ++ rest).length := by
    rw [length_append]
    exact (two_le_length_of_isFrame isElement).trans (Nat.le_add_right _ _)
  have fitted : fit (elem ++ rest) = elem := by
    rw [fit_of_size (isElement.size_append rest), take_left]
  rw [elementsFrom, if_pos more, fitted, drop_left]

/-- In a row of elements there is one of them in each step. -/
theorem elementsFrom_row {elems : List StringView} (isRow : listElements.IsRow elems)
    (rest : StringView) (fuel : Nat) :
    elementsFrom (elems.length + fuel) (elems.flatten ++ rest) =
      (elementsFrom fuel rest).map (elems ++ ·) := by
  induction elems with
  | nil =>
      rw [flatten_nil, nil_append, length_nil, Nat.zero_add]
      exact (map_id_apply).symm
  | cons elem elems ih =>
      rcases Framing.isRow_cons_iff.mp isRow with ⟨isElement, others⟩
      rw [flatten_cons, append_assoc, length_cons, Nat.add_right_comm,
        elementsFrom_element isElement, ih others, Option.map_map]
      rfl

theorem elementsFrom_short (short : rest.length < 2) (fuel : Nat) :
    elementsFrom fuel rest = some [] := by
  cases fuel with
  | zero => rw [elementsFrom, if_neg (Nat.not_le.mpr short)]
  | succ fuel => rw [elementsFrom, if_neg (Nat.not_le.mpr short)]

/-- The loop stands still where there is no header. -/
theorem elementsFrom_stuck (isStuck : listElements.IsStuck rest) (more : 2 ≤ rest.length)
    (fuel : Nat) : elementsFrom fuel rest = none := by
  induction fuel with
  | zero => rw [elementsFrom, if_pos more]
  | succ fuel ih =>
      rw [elementsFrom, if_pos more, fit_of_stuck isStuck, length_nil, drop_zero, ih,
        map_none]

/-- An element that is longer than the rest is the last one. -/
theorem elementsFrom_cut (isCut : listElements.IsCut rest) (more : 2 ≤ rest.length) (fuel : Nat) :
    elementsFrom (fuel + 1) rest = some [rest] := by
  rcases isCut with ⟨_, length, announced, short⟩
  have fitted : fit rest = rest := by
    rw [fit_of_size announced, take_of_length_le short.le]
  have ended : ([] : StringView).length < 2 := Nat.two_pos
  rw [elementsFrom, if_pos more, fitted, drop_length, elementsFrom_short ended,
    map_some]

/-- Where there are headers up to the end, or up to a last byte, the loop ends after as many
steps as there are bytes at most. -/
theorem exists_elementsFrom_eq {list : StringView}
    (headers : ¬∃ elems rest, list = elems.flatten ++ rest ∧ listElements.IsRow elems ∧
      2 ≤ rest.length ∧ isValidHeadByteOfAny (rest.getD 0 0) = false) :
    ∃ elems, elementsFrom list.length list = some elems := by
  rcases listElements.exists_row list with ⟨elems, rest, rfl, isRow, ends⟩
  rcases Nat.exists_eq_add_of_le isRow.length_le with ⟨spare, lengths⟩
  have total : (elems.flatten ++ rest).length = elems.length + (spare + rest.length) := by
    rw [length_append, lengths, Nat.add_assoc]
  rw [total, elementsFrom_row isRow]
  by_cases more : 2 ≤ rest.length
  · rcases ends with rfl | isStuck | isCut
    · cases more
    · exact absurd ⟨elems, rest, rfl, isRow, more, (isStuck_iff.mp isStuck).2⟩ headers
    · have positive : 1 ≤ spare + rest.length := by omega
      rcases Nat.exists_eq_add_of_le' positive with ⟨fuel, enough⟩
      rw [enough, elementsFrom_cut isCut more]
      exact ⟨_, rfl⟩
  · rw [elementsFrom_short (Nat.lt_of_not_le more)]
    exact ⟨_, rfl⟩

/-- Where there is no header and more than one byte remains, no number of steps is enough. -/
theorem elementsFrom_row_stuck {elems : List StringView} (isRow : listElements.IsRow elems)
    (more : 2 ≤ rest.length) (noHeader : isValidHeadByteOfAny (rest.getD 0 0) = false)
    (fuel : Nat) : elementsFrom fuel (elems.flatten ++ rest) = none := by
  have isStuck : listElements.IsStuck rest :=
    isStuck_iff.mpr ⟨ne_nil_of_length_pos (Nat.zero_lt_of_lt more), noHeader⟩
  induction elems generalizing fuel with
  | nil => exact elementsFrom_stuck isStuck more fuel
  | cons elem elems ih =>
      rcases Framing.isRow_cons_iff.mp isRow with ⟨isElement, others⟩
      rw [flatten_cons, append_assoc]
      cases fuel with
      | zero =>
          have bytes : 2 ≤ (elem ++ (elems.flatten ++ rest)).length := by
            rw [length_append]
            exact (two_le_length_of_isFrame isElement).trans (Nat.le_add_right _ _)
          rw [elementsFrom, if_pos bytes]
      | succ fuel => rw [elementsFrom_element isElement, ih others, map_none]

section Traversal

variable {σ : Type*} (func : σ → StringView → Bool → σ)

/-- The calls for the elements: the first one is marked. -/
def visitElements : List StringView → Bool → σ → σ
  | [], _, state => state
  | elem :: elems, first, state => visitElements elems false (func state elem first)

theorem forEachElemFrom_eq_map (fuel : Nat) (rest : StringView) (first : Bool) (state : σ) :
    forEachElemFrom func fuel rest first state =
      (elementsFrom fuel rest).map fun elems => visitElements func elems first state := by
  induction fuel generalizing rest first state with
  | zero =>
      rw [forEachElemFrom, elementsFrom]
      split
      · rfl
      · rfl
  | succ fuel ih =>
      rw [forEachElemFrom, elementsFrom]
      split
      · rw [Option.map_map]
        exact ih _ false _
      · rfl

theorem forEachElem_eq_map (list : StringView) (state : σ) :
    forEachElem list func state =
      (elementsFrom list.length list).map fun elems => visitElements func elems true state :=
  forEachElemFrom_eq_map func list.length list true state

theorem visitElements_unmarked (call : σ → StringView → σ) (elems : List StringView)
    (first : Bool) (state : σ) :
    visitElements (fun state elem _ => call state elem) elems first state =
      elems.foldl call state := by
  induction elems generalizing first state with
  | nil => rfl
  | cons elem elems ih => exact ih false (call state elem)

end Traversal

/-- The values of the elements of a list. -/
def valuesOf (list : StringView) : Option (List StringView) :=
  (elementsFrom list.length list).map (List.map Element.value)

theorem forEach_eq_map {σ : Type*} (func : σ → StringView → σ) (list : StringView) (state : σ) :
    forEach list func state = (valuesOf list).map fun values => values.foldl func state := by
  rw [forEach, forEachElem_eq_map, valuesOf, Option.map_map]
  apply congrArg (Option.map · _)
  funext elems
  rw [visitElements_unmarked (fun state elem => func state (Element.value elem)),
    Function.comp_apply, foldl_map]

theorem elementCount_eq_map (list : StringView) :
    elementCount list = (valuesOf list).map List.length := by
  rw [elementCount, forEachElem_eq_map, valuesOf, Option.map_map]
  apply congrArg (Option.map · _)
  funext elems
  rw [visitElements_unmarked (fun result _ => result + 1), foldl_add_const, Nat.zero_add,
    Nat.one_mul, Function.comp_apply, length_map]

theorem visitElements_fillJoined (sep : StringView) (elems : List StringView)
    (res : StringView) :
    visitElements (fillJoined sep) elems false res =
      res ++ (elems.map Element.value).flatMap (sep ++ ·) := by
  induction elems generalizing res with
  | nil => exact (append_nil res).symm
  | cons elem elems ih =>
      rw [visitElements, ih, fillJoined, if_neg Bool.false_ne_true, map_cons,
        flatMap_cons, append_assoc, append_assoc, append_assoc]

theorem join_eq_map (list sep : StringView) :
    join list sep false = (valuesOf list).map sep.intercalate := by
  rw [join, forEachElem_eq_map, valuesOf, Option.map_map, Option.map_map]
  apply congrArg (Option.map · _)
  funext elems
  rw [Function.comp_apply, Function.comp_apply, if_neg Bool.false_ne_true]
  cases elems with
  | nil => rfl
  | cons elem elems =>
      rw [visitElements, visitElements_fillJoined, fillJoined, if_pos rfl, nil_append,
        map_cons, intercalate_cons]

/-- The loop over the elements ends after some number of steps whatever it calls, and so do
the functions that are made of it. -/
structure TraversalsTerminate (list : StringView) : Prop where
  forEachElem : ∀ (σ : Type) (func : σ → StringView → Bool → σ) (state : σ),
    ∃ steps, (forEachElemFrom func steps list true state).isSome = true
  elementCount : (elementCount list).isSome = true
  join : ∀ sep trailSep, (join list sep trailSep).isSome = true

/-- The traversals of a list end, unless behind a row of elements there are two bytes or more
that do not start with a header. -/
theorem traversalsTerminate_iff (list : StringView) :
    TraversalsTerminate list ↔
      ¬∃ elems rest, list = elems.flatten ++ rest ∧ listElements.IsRow elems ∧
        2 ≤ rest.length ∧ isValidHeadByteOfAny (rest.getD 0 0) = false := by
  constructor
  · rintro terminate ⟨elems, rest, rfl, isRow, more, noHeader⟩
    have counted := terminate.elementCount
    rw [StringList.elementCount, forEachElem_eq_map,
      elementsFrom_row_stuck isRow more noHeader] at counted
    cases counted
  · intro headers
    rcases exists_elementsFrom_eq headers with ⟨elems, ended⟩
    constructor
    · intro σ func state
      refine ⟨list.length, ?_⟩
      rw [forEachElemFrom_eq_map, ended]
      rfl
    · rw [StringList.elementCount, forEachElem_eq_map, ended]
      rfl
    · intro sep trailSep
      rw [StringList.join, forEachElem_eq_map, ended]
      rfl

/-- Two bytes that are in no header. -/
theorem not_forall_traversalsTerminate : ¬∀ list, TraversalsTerminate list := by
  intro terminate
  have counted := (terminate [0xFF, 0xFF]).elementCount
  have standsStill : elementCount [0xFF, 0xFF] = none := by decide
  rw [standsStill] at counted
  cases counted

end Eagine.StringList
