import Eagine.String.CStringSplitting

/-!
# Iterators of string lists

An iterator keeps the element that it has read until it goes on. It is compared with others by its
position and by what it has read, so that it differs from one at the same element which has not
been dereferenced.
-/

namespace Eagine.StringList

open MultiByte List Option

/-- An `iterator` or a `rev_iterator`. -/
structure ListIterator where
  pos : Int
  tmp : StringView := []
deriving DecidableEq

/-! ## Bytes of the list -/

/-- There is nothing outside of the list. -/
def byteAt (list : StringView) (pos : Int) : Option UInt8 :=
  if 0 ≤ pos then list[pos.toNat]? else none

/-- The bytes from a position on. -/
def viewAt (list : StringView) (pos : Int) (l : Nat) : Option StringView :=
  if 0 ≤ pos ∧ pos + l ≤ list.length then some (slice list pos l) else none

/-- `_len_len`, with its assertion. -/
def lenLen (list : StringView) (pos : Int) : Option Nat :=
  (byteAt list pos).bind fun b =>
    if isValidHeadByteOfAny b then doDecodeSequenceLength b else none

/-- `_val_len`. -/
def valLen (list : StringView) (pos : Int) (ll : Nat) : Option Nat :=
  (viewAt list pos ll).map fun el => elementValueSize el ll

/-- `_rseek_head`. -/
def rseekHead (list : StringView) (pos : Int) : Option Int :=
  (byteAt list pos).bind fun _ => (seekHeadByte list pos.toNat).map Nat.cast

/-! ## Operations -/

namespace Forward

/-- `_update` of an `iterator`. -/
def update (list : StringView) (it : ListIterator) : Option ListIterator :=
  if it.tmp.length = 0 then
    (lenLen list it.pos).bind fun ll =>
      (valLen list it.pos ll).bind fun vl =>
        (viewAt list (it.pos + ll) vl).map fun tmp => { it with tmp }
  else some it

/-- `operator++` of an `iterator`. -/
def next (list : StringView) (it : ListIterator) : Option ListIterator :=
  (lenLen list it.pos).bind fun ll =>
    (valLen list it.pos ll).map fun (vl : Nat) => { pos := it.pos + (ll + vl + ll) }

end Forward

namespace Backward

/-- `_update` of a `rev_iterator`. -/
def update (list : StringView) (it : ListIterator) : Option ListIterator :=
  if it.tmp.length = 0 then
    (rseekHead list it.pos).bind fun pos =>
      (lenLen list pos).bind fun ll =>
        (valLen list pos ll).bind fun vl =>
          (viewAt list (pos - vl) vl).map fun tmp => { pos, tmp }
  else some it

/-- `operator++` of a `rev_iterator`. -/
def next (list : StringView) (it : ListIterator) : Option ListIterator :=
  (rseekHead list it.pos).bind fun pos =>
    (lenLen list pos).bind fun ll =>
      (valLen list pos ll).map fun (vl : Nat) => { pos := pos - (ll + vl + 1) }

end Backward

/-- `range_view` or `rev_range_view`. -/
inductive Direction where
  | forward
  | backward

namespace Direction

/-- `begin`. -/
def first : Direction → StringView → ListIterator
  | forward, _ => { pos := 0 }
  | backward, list => { pos := (list.length : Int) - 1 }

/-- `end`. -/
def last : Direction → StringView → ListIterator
  | forward, list => { pos := list.length }
  | backward, _ => { pos := 0 - 1 }

def update : Direction → StringView → ListIterator → Option ListIterator
  | forward => Forward.update
  | backward => Backward.update

def next : Direction → StringView → ListIterator → Option ListIterator
  | forward => Forward.next
  | backward => Backward.next

/-- The elements in the order of the iterators. -/
def order : Direction → List StringView → List StringView
  | forward, values => values
  | backward, values => values.reverse

end Direction

/-! ## Traversals -/

namespace Direction

/-- What is seen when an iterator is dereferenced some times, and the iterator afterwards. -/
def readTimes (direction : Direction) (list : StringView) :
    Nat → ListIterator → Option (List StringView × ListIterator)
  | 0, it => some ([], it)
  | times + 1, it =>
      (direction.update list it).bind fun read =>
        (readTimes direction list times read).map fun (seen, after) => (read.tmp :: seen, after)

/-- The loop to the end. The iterators are dereferenced once, and some more times. -/
def visitFrom (direction : Direction) (list : StringView) (times : Nat → Nat) :
    Nat → Nat → ListIterator → Option (List StringView)
  | 0, _, it => if it = direction.last list then some [] else none
  | fuel + 1, index, it =>
      if it = direction.last list then some []
      else
        (direction.readTimes list (times index + 1) it).bind fun (seen, read) =>
          (direction.next list read).bind fun following =>
            (visitFrom direction list times fuel (index + 1) following).map (seen ++ ·)

/-- There are not more steps than bytes. -/
def visit (direction : Direction) (list : StringView) (times : Nat → Nat) :
    Option (List StringView) :=
  direction.visitFrom list times list.length 0 (direction.first list)

/-- The iterator arrives at an element. It was dereferenced some times at those before. -/
def approach (direction : Direction) (list : StringView) (times : Nat → Nat) :
    Nat → Option ListIterator
  | 0 => some (direction.first list)
  | index + 1 =>
      (approach direction list times index).bind fun it =>
        (direction.readTimes list (times index) it).bind fun (_, read) => direction.next list read

/-- The same, and then it is dereferenced some times there. -/
def iteratorAt (direction : Direction) (list : StringView) (times : Nat → Nat) (index : Nat) :
    Option ListIterator :=
  (direction.approach list times index).bind fun it =>
    (direction.readTimes list (times index) it).map Prod.snd

/-- Every element as often as its iterator is dereferenced. -/
def visited (times : Nat → Nat) (values : List StringView) (index : Nat) : List StringView :=
  (values.zipIdx index).flatMap fun (v, i) => List.replicate (times i + 1) v

/-- An iterator may be there. It is not dereferenced at the end. -/
def IsPlace (values : List StringView) (times : Nat → Nat) (index : Nat) : Prop :=
  index < values.length ∨ index = values.length ∧ times index = 0

/-- The elements are visited in their order, and two iterators are equal exactly if they are at the
same element. -/
def IteratesExactly (direction : Direction) (values : List StringView) (times otherTimes : Nat → Nat)
    (index otherIndex : Nat) : Prop :=
  ∃ list, values.foldlM pushBack? [] = some list ∧
    direction.visit list times = some (visited times (direction.order values) 0) ∧
    ∃ it other, direction.iteratorAt list times index = some it ∧
      direction.iteratorAt list otherTimes otherIndex = some other ∧
      (it = other ↔ index = otherIndex)

end Direction

/-! ## Codes and values -/

/-- The list from a position on. -/
theorem viewAt_append (front v back : StringView) :
    viewAt (front ++ (v ++ back)) front.length v.length = some v := by
  have within : (front.length : Int) + v.length ≤ (front ++ (v ++ back)).length := by
    simp only [length_append]
    omega
  rw [viewAt, if_pos ⟨Int.natCast_nonneg _, within⟩, slice, ← append_assoc]
  have ends : ((front.length : Int) + v.length).toNat = (front ++ v).length := by
    rw [length_append]
    omega
  rw [ends, take_left, Int.toNat_natCast, drop_left]

theorem byteAt_append (front : StringView) (b : UInt8) (back : StringView) :
    byteAt (front ++ b :: back) front.length = some b := by
  rw [byteAt, if_pos (Int.natCast_nonneg _), Int.toNat_natCast, getElem?_append_right le_rfl,
    Nat.sub_self]
  rfl

variable {v : StringView}

/-- A code is read where it starts. -/
theorem lenLen_code (short : IsShort v) (front back : StringView) :
    lenLen (front ++ (lengthCode v ++ back)) front.length = some (lengthCode v).length := by
  rcases exists_lengthCode_eq short with ⟨b, tails, code, isHead, -⟩
  have decoded := decodeSequenceLength_code short []
  rw [decodeSequenceLength, code] at decoded
  rw [lenLen, code, cons_append, byteAt_append, bind_some, if_pos isHead]
  exact decoded

theorem valLen_code (short : IsShort v) (front back : StringView) :
    valLen (front ++ (lengthCode v ++ back)) front.length (lengthCode v).length =
      some v.length := by
  have size := elementValueSize_code short []
  rw [append_nil] at size
  rw [valLen, viewAt_append, map_some, size]

/-- What is a head byte is found where it is. -/
theorem rseekHead_code (short : IsShort v) (front back : StringView) :
    rseekHead (front ++ (lengthCode v ++ back)) front.length = some front.length := by
  rcases exists_lengthCode_eq short with ⟨b, tails, code, isHead, -⟩
  have found : seekHeadByte (front ++ b :: [] ++ (tails ++ back)) (front.length + 0) =
      some front.length := seekHeadByte_tails isHead (by simp) (tails ++ back)
  rw [append_assoc, Nat.add_zero] at found
  rw [rseekHead, code, cons_append, byteAt_append, bind_some, Int.toNat_natCast]
  exact congrArg (Option.map _) found

/-- The head byte of a footer is found from its end. -/
theorem rseekHead_footer (short : IsShort v) (before back : StringView) :
    rseekHead (before ++ elementOf v ++ back) (((before ++ elementOf v).length : Int) - 1) =
      some (footerStart before v : Int) := by
  have bytes := two_le_length_elementOf short
  have nonempty : 2 ≤ (before ++ elementOf v).length := by
    rw [length_append]
    omega
  have position : (((before ++ elementOf v).length : Int) - 1).toNat =
      (before ++ elementOf v).length - 1 := by omega
  have inside : (before ++ elementOf v).length - 1 < (before ++ elementOf v ++ back).length := by
    simp only [length_append] at nonempty ⊢
    omega
  rw [rseekHead, byteAt, if_pos (by omega), position, getElem?_eq_getElem inside,
    bind_some, seekHeadByte_eq short]
  rfl

/-! ## Single steps -/

theorem Forward.update_append (short : IsShort v) (front back : StringView) :
    Forward.update (front ++ elementOf v ++ back) { pos := front.length } =
      some { pos := front.length, tmp := v } := by
  have value := viewAt_append (front ++ lengthCode v) v (lengthCode v ++ back)
  rw [append_assoc, length_append, Nat.cast_add] at value
  rw [append_assoc, elementOf_append, Forward.update, if_pos length_nil,
    lenLen_code short, bind_some, valLen_code short, bind_some, value,
    map_some]

theorem Forward.next_append (short : IsShort v) (front back tmp : StringView) :
    Forward.next (front ++ elementOf v ++ back) { pos := front.length, tmp } =
      some { pos := (front ++ elementOf v).length } := by
  rw [append_assoc, elementOf_append, Forward.next, lenLen_code short, bind_some,
    valLen_code short, map_some, length_append, length_elementOf]
  simp only [Nat.cast_add]

section Footer

variable {v : StringView} (short : IsShort v) {before back : StringView} {pos : Int}
  (found : rseekHead (before ++ elementOf v ++ back) pos = some (footerStart before v : Int))

include short found

theorem Backward.update_footer :
    Backward.update (before ++ elementOf v ++ back) { pos } =
      some { pos := footerStart before v, tmp := v } := by
  have value := viewAt_append (before ++ lengthCode v) v (lengthCode v ++ back)
  have start : (footerStart before v : Int) - v.length = (before ++ lengthCode v).length := by
    rw [footerStart, length_append]
    omega
  rw [Backward.update, if_pos length_nil, found, bind_some]
  rw [append_elementOf, append_assoc, ← length_before_footer, lenLen_code short,
    bind_some, valLen_code short, bind_some, length_before_footer, start,
    append_assoc, value, map_some]

theorem Backward.next_footer (tmp : StringView) :
    Backward.next (before ++ elementOf v ++ back) { pos, tmp } =
      some { pos := (before.length : Int) - 1 } := by
  have behind : (footerStart before v : Int) - ((lengthCode v).length + v.length + 1) =
      before.length - 1 := by
    rw [footerStart]
    omega
  rw [Backward.next, found, bind_some]
  rw [append_elementOf, append_assoc, ← length_before_footer, lenLen_code short,
    bind_some, valLen_code short, map_some, length_before_footer, behind]

end Footer

/-! ## Elements at positions -/

namespace Direction

/-- The elements that are still to come from a position on. -/
def Faces : Direction → StringView → Int → List StringView → Prop
  | forward, list, pos, rest => ∃ front, list = front ++ elements rest ∧ pos = front.length
  | backward, list, pos, rest =>
      ∃ back, list = elements rest.reverse ++ back ∧
        pos = ((elements rest.reverse).length : Int) - 1

/-- How far a position is on the way of the iterators. -/
def progress : Direction → Int → Int
  | forward, pos => pos
  | backward, pos => -pos

/-- How iterators get past an element. They are at the second position when they have read it. -/
structure Passes (direction : Direction) (list : StringView) (pos readPos nextPos : Int)
    (v : StringView) : Prop where
  read : direction.update list { pos } = some ⟨readPos, v⟩
  next : ∀ tmp, direction.next list ⟨pos, tmp⟩ = some { pos := nextPos }
  nextRead : ∀ tmp, direction.next list ⟨readPos, tmp⟩ = some { pos := nextPos }
  same : v = [] → readPos = pos
  forth : direction.progress pos ≤ direction.progress readPos
  further : direction.progress readPos < direction.progress nextPos

variable {direction : Direction} {list v : StringView} {rest values : List StringView} {pos : Int}

theorem faces_first (direction : Direction) (values : List StringView) :
    direction.Faces (elements values) (direction.first (elements values)).pos
      (direction.order values) := by
  cases direction with
  | forward => exact ⟨[], rfl, rfl⟩
  | backward =>
      refine ⟨[], ?_, ?_⟩
      · rw [order, reverse_reverse, append_nil]
      · rw [order, reverse_reverse]
        rfl

theorem Faces.eq_last (faces : direction.Faces list pos []) :
    (⟨pos, []⟩ : ListIterator) = direction.last list := by
  cases direction with
  | forward =>
      rcases faces with ⟨front, rfl, rfl⟩
      rw [last, elements, flatMap_nil, append_nil]
  | backward =>
      rcases faces with ⟨back, rfl, rfl⟩
      rfl

theorem Faces.passes (faces : direction.Faces list pos (v :: rest)) (short : IsShort v) :
    ∃ readPos nextPos, direction.Passes list pos readPos nextPos v ∧
      direction.Faces list nextPos rest := by
  have bytes := two_le_length_elementOf short
  cases direction with
  | forward =>
      rcases faces with ⟨front, rfl, rfl⟩
      rw [elements_cons, ← append_assoc]
      refine ⟨front.length, (front ++ elementOf v).length, ⟨?_, ?_, ?_, ?_, ?_, ?_⟩, ?_⟩
      · exact Forward.update_append short front (elements rest)
      · exact Forward.next_append short front (elements rest)
      · exact Forward.next_append short front (elements rest)
      · exact fun _ => rfl
      · exact le_rfl
      · rw [progress, progress, length_append]
        omega
      · exact ⟨front ++ elementOf v, rfl, rfl⟩
  | backward =>
      rcases faces with ⟨back, rfl, rfl⟩
      rw [reverse_cons, elements_concat]
      have found := rseekHead_footer short (elements rest.reverse) back
      have again := rseekHead_code short (elements rest.reverse ++ lengthCode v ++ v) back
      rw [← append_assoc, ← append_elementOf, length_before_footer] at again
      refine ⟨footerStart (elements rest.reverse) v, (elements rest.reverse).length - 1,
        ⟨?_, ?_, ?_, ?_, ?_, ?_⟩, ?_⟩
      · exact Backward.update_footer short found
      · exact Backward.next_footer short found
      · exact Backward.next_footer short again
      · rintro rfl
        have code : (lengthCode []).length = 1 := by decide
        rw [footerStart, length_append, length_elementOf, code, length_nil]
        omega
      · rw [progress, progress, footerStart, length_append, length_elementOf]
        have positive := length_lengthCode_pos short
        omega
      · rw [progress, progress, footerStart]
        omega
      · exact ⟨elementOf v ++ back, append_assoc _ _ _, rfl⟩

/-! ## Dereferencing -/

section Passing

variable {readPos nextPos : Int} (passes : direction.Passes list pos readPos nextPos v)

include passes

/-- What has been read is kept. -/
theorem Passes.update_read : direction.update list ⟨readPos, v⟩ = some ⟨readPos, v⟩ := by
  by_cases empty : v = []
  · have read := passes.read
    rw [passes.same empty]
    rwa [passes.same empty, ← empty] at read
  · have kept : ¬v.length = 0 := fun none => empty (length_eq_zero_iff.mp none)
    cases direction with
    | forward => exact if_neg kept
    | backward => exact if_neg kept

theorem Passes.readTimes_read (times : Nat) :
    direction.readTimes list times ⟨readPos, v⟩ = some (List.replicate times v, ⟨readPos, v⟩) := by
  induction times with
  | zero => rfl
  | succ times ih =>
      rw [readTimes, passes.update_read, bind_some, ih]
      rfl

theorem Passes.readTimes_zero (times : Nat) :
    direction.readTimes list times { pos } =
      some (List.replicate times v, if times = 0 then { pos } else ⟨readPos, v⟩) := by
  cases times with
  | zero => rfl
  | succ times =>
      rw [readTimes, passes.read, bind_some, passes.readTimes_read]
      rfl

theorem Passes.next_after (times : Nat) :
    direction.next list (if times = 0 then { pos } else ⟨readPos, v⟩) =
      some { pos := nextPos } := by
  split_ifs
  · exact passes.next []
  · exact passes.nextRead v

end Passing

/-! ## Whole lists -/

theorem Faces.le_last (faces : direction.Faces list pos rest) :
    direction.progress pos ≤ direction.progress (direction.last list).pos := by
  cases direction with
  | forward =>
      rcases faces with ⟨front, rfl, rfl⟩
      have length : (front ++ elements rest).length = _ := length_append
      dsimp only [progress, last]
      omega
  | backward =>
      rcases faces with ⟨back, rfl, rfl⟩
      dsimp only [progress, last]
      omega

/-- In front of an element the end is not reached. -/
theorem Faces.ne_last (faces : direction.Faces list pos (v :: rest)) (short : IsShort v) :
    ({ pos } : ListIterator) ≠ direction.last list := by
  intro same
  rcases faces.passes short with ⟨readPos, nextPos, passes, facesNext⟩
  have behind := (passes.forth.trans_lt passes.further).trans_le facesNext.le_last
  rw [← same] at behind
  exact lt_irrefl _ behind

theorem Faces.visitFrom_eq (faces : direction.Faces list pos rest)
    (short : ∀ v ∈ rest, IsShort v) (times : Nat → Nat) {fuel : Nat} (enough : rest.length ≤ fuel)
    (index : Nat) :
    direction.visitFrom list times fuel index { pos } = some (visited times rest index) := by
  induction rest generalizing fuel index pos with
  | nil => cases fuel <;> exact if_pos faces.eq_last
  | cons v rest ih =>
      rcases forall_mem_cons.mp short with ⟨shortHead, shortTail⟩
      obtain ⟨fuel, rfl⟩ : ∃ fewer, fuel = fewer + 1 := Nat.exists_eq_add_one.mpr (by
        rw [length_cons] at enough
        omega)
      rcases faces.passes shortHead with ⟨readPos, nextPos, passes, facesNext⟩
      have going := passes.next_after (times index + 1)
      rw [visitFrom, if_neg (faces.ne_last shortHead), passes.readTimes_zero, bind_some]
      dsimp only
      rw [going, bind_some, ih facesNext shortTail (Nat.le_of_succ_le_succ enough),
        map_some, visited, visited, zipIdx_cons, flatMap_cons]

section Places

variable (start : direction.Faces list (direction.first list).pos values)
  (short : ∀ v ∈ values, IsShort v)

include start short

variable {index : Nat} {otherTimes times : Nat → Nat}

/-- The iterators arrive at every element, whatever was read before. -/
theorem exists_approach (within : index ≤ values.length) :
    ∃ pos, (∀ times, direction.approach list times index = some { pos }) ∧
      direction.Faces list pos (values.drop index) := by
  induction index with
  | zero =>
      refine ⟨(direction.first list).pos, fun times => ?_, start⟩
      cases direction <;> rfl
  | succ index ih =>
      rcases ih (Nat.le_of_succ_le within) with ⟨pos, arrived, faces⟩
      rw [drop_eq_getElem_cons within] at faces
      rcases faces.passes (short _ (getElem_mem within)) with
        ⟨readPos, nextPos, passes, facesNext⟩
      refine ⟨nextPos, fun times => ?_, facesNext⟩
      rw [approach, arrived, bind_some, passes.readTimes_zero, bind_some]
      exact passes.next_after (times index)

/-- An iterator at an element is where the element starts, or where it was read. -/
theorem exists_iteratorAt (within : index < values.length) :
    ∃ pos readPos nextPos, direction.Passes list pos readPos nextPos values[index] ∧
      (∀ times, direction.approach list times index = some { pos }) ∧
      (∀ times, direction.approach list times (index + 1) = some { pos := nextPos }) ∧
      ∀ times, direction.iteratorAt list times index =
        some (if times index = 0 then { pos } else ⟨readPos, values[index]⟩) := by
  rcases exists_approach start short within.le with ⟨pos, arrived, faces⟩
  rw [drop_eq_getElem_cons within] at faces
  rcases faces.passes (short _ (getElem_mem within)) with ⟨readPos, nextPos, passes, -⟩
  refine ⟨pos, readPos, nextPos, passes, arrived, fun times => ?_, fun times => ?_⟩
  · rw [approach, arrived, bind_some, passes.readTimes_zero, bind_some]
    exact passes.next_after (times index)
  · rw [iteratorAt, arrived, bind_some, passes.readTimes_zero, map_some]

/-- Further elements are further on the way. -/
theorem progress_mono {other : Nat} (before : index ≤ other) (within : other ≤ values.length)
    {it last : ListIterator} (arrived : direction.approach list times index = some it)
    (arrivedLast : direction.approach list otherTimes other = some last) :
    direction.progress it.pos ≤ direction.progress last.pos := by
  induction other, before using Nat.le_induction generalizing last with
  | base =>
      rcases exists_approach start short within with ⟨pos, everywhere, -⟩
      rw [everywhere] at arrived arrivedLast
      cases arrived
      cases arrivedLast
      exact le_rfl
  | succ other before ih =>
      rcases exists_iteratorAt start short within with
        ⟨pos, readPos, nextPos, passes, arrivedHere, arrivedNext, -⟩
      rw [arrivedNext] at arrivedLast
      cases arrivedLast
      have there := ih (Nat.le_of_succ_le within) (arrivedHere otherTimes)
      exact there.trans (passes.forth.trans passes.further.le)

theorem exists_iteratorAt_of_isPlace (place : IsPlace values times index) :
    ∃ it, direction.iteratorAt list times index = some it := by
  rcases place with inside | ⟨rfl, unread⟩
  · rcases exists_iteratorAt start short inside with ⟨pos, readPos, nextPos, -, -, -, read⟩
    exact ⟨_, read times⟩
  · rcases exists_approach start short le_rfl with ⟨pos, arrived, -⟩
    refine ⟨{ pos }, ?_⟩
    rw [iteratorAt, arrived, bind_some, unread]
    rfl

/-- Iterators at different elements are different. -/
theorem iteratorAt_ne {other : Nat} (before : index < other)
    (place : IsPlace values otherTimes other) {it last : ListIterator}
    (there : direction.iteratorAt list times index = some it)
    (thereLast : direction.iteratorAt list otherTimes other = some last) : it ≠ last := by
  have within : other ≤ values.length := place.elim Nat.le_of_lt fun atEnd => atEnd.1.le
  rcases exists_iteratorAt start short (before.trans_le within) with
    ⟨pos, readPos, nextPos, passes, -, arrivedNext, read⟩
  have further : direction.progress it.pos < direction.progress nextPos := by
    rw [read] at there
    cases there
    split_ifs
    · exact passes.forth.trans_lt passes.further
    · exact passes.further
  rcases exists_approach start short within with ⟨posLast, arrivedLast, -⟩
  have mono := progress_mono start short before within (arrivedNext times) (arrivedLast otherTimes)
  have forth : direction.progress posLast ≤ direction.progress last.pos := by
    rcases place with inside | ⟨-, unread⟩
    · rcases exists_iteratorAt start short inside with
        ⟨posHere, readPosHere, nextPosHere, passesHere, arrivedHere, -, readHere⟩
      have same : posLast = posHere := by
        have both := (arrivedLast otherTimes).symm.trans (arrivedHere otherTimes)
        cases both
        rfl
      rw [readHere] at thereLast
      cases thereLast
      rw [same]
      split_ifs
      · exact le_rfl
      · exact passesHere.forth
    · rw [iteratorAt, arrivedLast, bind_some, unread] at thereLast
      cases thereLast
      exact le_rfl
  rintro rfl
  exact lt_irrefl _ ((further.trans_le mono).trans_le forth)

/-- Iterators at the same element are equal if both were dereferenced there or none, or if nothing
is read. -/
theorem iteratorAt_eq_iff (within : index < values.length) :
    direction.iteratorAt list times index = direction.iteratorAt list otherTimes index ↔
      (times index = 0 ↔ otherTimes index = 0) ∨ values[index] = [] := by
  rcases exists_iteratorAt start short within with ⟨pos, readPos, nextPos, passes, -, -, read⟩
  rw [read, read, some_inj]
  by_cases empty : values[index] = []
  · have same : (⟨readPos, values[index]⟩ : ListIterator) = { pos } := by
      rw [passes.same empty, empty]
    rw [same, ite_self, ite_self]
    exact iff_of_true rfl (Or.inr empty)
  · have apart : (⟨readPos, values[index]⟩ : ListIterator) ≠ { pos } :=
      fun same => empty (congrArg ListIterator.tmp same)
    rw [or_iff_left empty]
    split_ifs with unread unreadOther unreadOther
    · exact iff_of_true rfl (iff_of_true unread unreadOther)
    · exact iff_of_false apart.symm fun both => unreadOther (both.mp unread)
    · exact iff_of_false apart fun both => unread (both.mpr unreadOther)
    · exact iff_of_true rfl (iff_of_false unread unreadOther)

/-- The same where the end of the list is a place as well. -/
theorem iteratorAt_eq_iff_of_isPlace (place : IsPlace values times index)
    (otherPlace : IsPlace values otherTimes index) :
    direction.iteratorAt list times index = direction.iteratorAt list otherTimes index ↔
      (times index = 0 ↔ otherTimes index = 0) ∨ values[index]? = some [] := by
  rcases place with inside | ⟨atEnd, unread⟩
  · rw [iteratorAt_eq_iff start short inside, getElem?_eq_getElem inside, some_inj]
  · have unreadOther := otherPlace.resolve_left fun inside => inside.ne atEnd
    rcases exists_approach start short atEnd.le with ⟨pos, arrived, -⟩
    have same : direction.iteratorAt list times index =
        direction.iteratorAt list otherTimes index := by
      rw [iteratorAt, iteratorAt, arrived, arrived, unread, unreadOther.2]
    exact iff_of_true same (Or.inl (iff_of_true unread unreadOther.2))

end Places

/-! ## Lengths of what is read -/

theorem elementValueSize_lt (elem : StringView) (l : Nat) :
    elementValueSize elem l < 0x7FFFFFFF := by
  rw [elementValueSize]
  split
  · rename_i cp decoded
    exact toNat_lt_of_doDecodeCodePoint decoded
  · decide

theorem isShort_of_viewAt {pos : Int} {ll vl : Nat} {tmp : StringView}
    (length : valLen list pos ll = some vl) {start : Int} (viewed : viewAt list start vl = some tmp) :
    IsShort tmp := by
  rcases map_eq_some_iff.mp length with ⟨el, -, rfl⟩
  have size := elementValueSize_lt el ll
  rw [viewAt] at viewed
  split_ifs at viewed with inside
  cases viewed
  rw [IsShort, slice, length_drop, length_take]
  omega

/-- What is read has the length of a code point. -/
theorem isShort_of_update {it read : ListIterator} (short : IsShort it.tmp)
    (updated : direction.update list it = some read) : IsShort read.tmp := by
  cases direction with
  | forward =>
      rw [update, Forward.update] at updated
      split_ifs at updated
      · rcases bind_eq_some_iff.mp updated with ⟨ll, -, lengths⟩
        rcases bind_eq_some_iff.mp lengths with ⟨vl, length, value⟩
        rcases map_eq_some_iff.mp value with ⟨tmp, viewed, rfl⟩
        exact isShort_of_viewAt length viewed
      · cases updated
        exact short
  | backward =>
      rw [update, Backward.update] at updated
      split_ifs at updated
      · rcases bind_eq_some_iff.mp updated with ⟨pos, -, codes⟩
        rcases bind_eq_some_iff.mp codes with ⟨ll, -, lengths⟩
        rcases bind_eq_some_iff.mp lengths with ⟨vl, length, value⟩
        rcases map_eq_some_iff.mp value with ⟨tmp, viewed, rfl⟩
        exact isShort_of_viewAt length viewed
      · cases updated
        exact short

theorem isShort_of_next {it following : ListIterator}
    (went : direction.next list it = some following) : IsShort following.tmp := by
  have empty : IsShort [] := by decide
  cases direction with
  | forward =>
      rcases bind_eq_some_iff.mp went with ⟨ll, -, lengths⟩
      rcases map_eq_some_iff.mp lengths with ⟨vl, -, rfl⟩
      exact empty
  | backward =>
      rcases bind_eq_some_iff.mp went with ⟨pos, -, codes⟩
      rcases bind_eq_some_iff.mp codes with ⟨ll, -, lengths⟩
      rcases map_eq_some_iff.mp lengths with ⟨vl, -, rfl⟩
      exact empty

theorem isShort_of_readTimes {times : Nat} {it after : ListIterator} {seen : List StringView}
    (short : IsShort it.tmp) (read : direction.readTimes list times it = some (seen, after)) :
    ∀ v ∈ seen, IsShort v := by
  induction times generalizing it seen with
  | zero =>
      cases read
      simp
  | succ times ih =>
      rcases bind_eq_some_iff.mp read with ⟨first, updated, more⟩
      rcases map_eq_some_iff.mp more with ⟨⟨others, last⟩, readMore, same⟩
      cases same
      have shortFirst := isShort_of_update short updated
      exact forall_mem_cons.mpr ⟨shortFirst, ih shortFirst readMore⟩

theorem isShort_of_visitFrom {times : Nat → Nat} {fuel index : Nat} {it : ListIterator}
    {seen : List StringView} (short : IsShort it.tmp)
    (visit : direction.visitFrom list times fuel index it = some seen) :
    ∀ v ∈ seen, IsShort v := by
  induction fuel generalizing index it seen with
  | zero =>
      rw [visitFrom] at visit
      split_ifs at visit
      cases visit
      simp
  | succ fuel ih =>
      rw [visitFrom] at visit
      split_ifs at visit
      · cases visit
        simp
      · rcases bind_eq_some_iff.mp visit with ⟨⟨here, read⟩, readHere, goes⟩
        rcases bind_eq_some_iff.mp goes with ⟨following, went, more⟩
        rcases map_eq_some_iff.mp more with ⟨others, visitMore, rfl⟩
        exact forall_mem_append.mpr
          ⟨isShort_of_readTimes short readHere, ih (isShort_of_next went) visitMore⟩

/-! ## When iterators are right -/

theorem mem_visited {times : Nat → Nat} (index : Nat) (mem : v ∈ values) :
    v ∈ visited times values index := by
  induction values generalizing index with
  | nil => cases mem
  | cons first rest ih =>
      rw [visited, zipIdx_cons, flatMap_cons, mem_append]
      rcases mem_cons.mp mem with rfl | later
      · exact Or.inl (mem_replicate.mpr ⟨Nat.succ_ne_zero _, rfl⟩)
      · exact Or.inr (ih (index + 1) later)

theorem mem_order_iff {direction : Direction} : v ∈ direction.order values ↔ v ∈ values := by
  cases direction with
  | forward => exact Iff.rfl
  | backward => exact mem_reverse

theorem length_order (direction : Direction) (values : List StringView) :
    (direction.order values).length = values.length := by
  cases direction with
  | forward => rfl
  | backward => exact length_reverse

theorem foldlM_pushBack? (short : ∀ v ∈ values, IsShort v) (list : StringView) :
    values.foldlM pushBack? list = some (list ++ elements values) := by
  induction values generalizing list with
  | nil => rw [elements, flatMap_nil, append_nil]; rfl
  | cons v values ih =>
      rcases forall_mem_cons.mp short with ⟨shortHead, shortTail⟩
      have pushed := pushBack?_eq ((announcedValue_eq shortHead).symm ▸ shortHead) list
      rw [announcedValue_eq shortHead, ← append_assoc (lengthCode v), ← elementOf] at pushed
      rw [foldlM_cons, pushed, bind_eq_bind, bind_some, ih shortTail,
        elements_cons, append_assoc]

/-- Lengths are code points, and where the iterators are at the same element it is empty, or both
were dereferenced there or none. -/
def AreComparable (direction : Direction) (values : List StringView) (times otherTimes : Nat → Nat)
    (index otherIndex : Nat) : Prop :=
  (∀ v ∈ values, v.length < 2 ^ 31 - 1) ∧
    (index = otherIndex →
      (times index = 0 ↔ otherTimes index = 0) ∨ (direction.order values)[index]? = some [])

theorem isPlace_order_iff {times : Nat → Nat} {index : Nat} :
    IsPlace (direction.order values) times index ↔ IsPlace values times index := by
  rw [IsPlace, IsPlace, length_order]

theorem length_le_length_elements (short : ∀ v ∈ values, IsShort v) :
    values.length ≤ (elements values).length := by
  induction values with
  | nil => exact le_rfl
  | cons v values ih =>
      rcases forall_mem_cons.mp short with ⟨shortHead, shortTail⟩
      have bytes := two_le_length_elementOf shortHead
      have rest := ih shortTail
      rw [elements_cons, length_append, length_cons]
      omega

/-- The elements are visited in either direction if their lengths are code points, and the
comparison is right exactly if what the iterators have read does not matter. -/
theorem iteratesExactly_iff {times otherTimes : Nat → Nat} {index otherIndex : Nat}
    (place : IsPlace values times index) (otherPlace : IsPlace values otherTimes otherIndex) :
    direction.IteratesExactly values times otherTimes index otherIndex ↔
      direction.AreComparable values times otherTimes index otherIndex := by
  have start := faces_first direction values
  have place : IsPlace (direction.order values) times index := isPlace_order_iff.mpr place
  have otherPlace : IsPlace (direction.order values) otherTimes otherIndex :=
    isPlace_order_iff.mpr otherPlace
  constructor
  · rintro ⟨list, pushed, visits, it, other, there, thereOther, same⟩
    have shortFirst : IsShort (direction.first list).tmp := by
      cases direction <;> exact (by decide : IsShort [])
    have short : ∀ v ∈ values, IsShort v := fun v mem =>
      isShort_of_visitFrom shortFirst visits v (mem_visited 0 (mem_order_iff.mpr mem))
    have shortOrder : ∀ v ∈ direction.order values, IsShort v :=
      fun v mem => short v (mem_order_iff.mp mem)
    rw [foldlM_pushBack? short, nil_append] at pushed
    cases pushed
    refine ⟨short, ?_⟩
    rintro rfl
    have equal := there.trans ((congrArg some (same.mpr rfl)).trans thereOther.symm)
    exact (iteratorAt_eq_iff_of_isPlace start shortOrder place otherPlace).mp equal
  · rintro ⟨short, comparable⟩
    have shortOrder : ∀ v ∈ direction.order values, IsShort v :=
      fun v mem => short v (mem_order_iff.mp mem)
    have steps : (direction.order values).length ≤ (elements values).length := by
      rw [length_order]
      exact length_le_length_elements short
    rcases exists_iteratorAt_of_isPlace start shortOrder place with ⟨it, there⟩
    rcases exists_iteratorAt_of_isPlace start shortOrder otherPlace with ⟨other, thereOther⟩
    refine ⟨elements values, ?_, ?_, it, other, there, thereOther, ?_⟩
    · rw [foldlM_pushBack? short, nil_append]
    · rw [visit, ← start.visitFrom_eq shortOrder times steps 0]
      cases direction <;> rfl
    · rcases Nat.lt_trichotomy index otherIndex with before | rfl | behind
      · exact iff_of_false (iteratorAt_ne start shortOrder before otherPlace there thereOther)
          before.ne
      · have equal := (iteratorAt_eq_iff_of_isPlace start shortOrder place otherPlace).mpr
          (comparable rfl)
        exact iff_of_true (Option.some.inj (there.symm.trans (equal.trans thereOther))) rfl
      · exact iff_of_false
          (iteratorAt_ne start shortOrder behind place thereOther there).symm behind.ne'

/-- One iterator is at an element, and another one is at the end. -/
theorem iteratesExactly_end :
    forward.IteratesExactly [[97], []] (fun _ => 1) (fun _ => 0) 0 2 ↔
      forward.AreComparable [[97], []] (fun _ => 1) (fun _ => 0) 0 2 :=
  iteratesExactly_iff (Or.inl (by decide)) (Or.inr ⟨rfl, rfl⟩)

/-- Only one of two iterators at the same element has been dereferenced. -/
theorem not_forall_iteratesExactly :
    ¬∀ (direction : Direction) (values : List StringView) (times otherTimes : Nat → Nat)
        (index otherIndex : Nat), IsPlace values times index →
      IsPlace values otherTimes otherIndex →
      direction.IteratesExactly values times otherTimes index otherIndex := by
  intro iterates
  have here : ∀ times, IsPlace [[97]] times 0 := fun times => Or.inl Nat.one_pos
  rcases iterates forward [[97]] (fun _ => 1) (fun _ => 0) 0 0 (here _) (here _) with
    ⟨list, pushed, -, it, other, there, thereOther, same⟩
  cases pushed
  cases there
  cases thereOther
  exact absurd (same.mpr rfl) (by decide)

end Direction

end Eagine.StringList
