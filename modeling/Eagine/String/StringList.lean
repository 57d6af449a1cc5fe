import Eagine.String.MultiByteRoundTrip

/-!
# String lists

A list of strings is kept in a single string. Every element is its value with the
multi-byte code of its length both before and after it, so that the elements can be
visited from either end.
-/

open List

namespace Eagine.StringList

open MultiByte

/-- A string, by its bytes. -/
abbrev StringView :=
  List UInt8

def slice (s : StringView) (i l : Int) : StringView :=
  (s.take (i + l).toNat).drop i.toNat

def skip (s : StringView) (l : Nat) : StringView :=
  s.drop l

def head (s : StringView) (l : Int) : StringView :=
  s.take l.toNat

def encodeLength (len : Nat) : StringView :=
  (encodeCodePointString (codePoint (BitVec.ofNat 32 len))).getD []

def elementHeaderSize (elem : StringView) : Nat :=
  (decodeSequenceLength elem).getD 0

def elementValueSize (elem : StringView) (l : Nat) : Nat :=
  match doDecodeCodePoint elem (if isSequenceLength l then some l else none) with
  | some cp => cp.toNat
  | none => 0

/-- The position of the last head byte. -/
def revSeekHeaderStart (elem : StringView) : Nat :=
  match elem.reverse.findIdx? isValidHeadByteOfAny with
  | some i => elem.length - i - 1
  | none => 0

def frontValue (list : StringView) : StringView :=
  let k := elementHeaderSize list
  let l := elementValueSize list k
  slice list k l

def backValue (list : StringView) : StringView :=
  let i := revSeekHeaderStart list
  let header := skip list i
  let k := elementHeaderSize header
  let l := elementValueSize header k
  slice list (i - l) l

def withoutBack (list : StringView) : StringView :=
  let i := revSeekHeaderStart list
  let header := skip list i
  let k := elementHeaderSize header
  let l := elementValueSize header k
  head list (i - k - l)

def popBack (list : StringView) : StringView :=
  list.take (withoutBack list).length

def pushBack (list value : StringView) : StringView :=
  let elen := encodeLength value.length
  list ++ elen ++ value ++ elen

/-- The view of an `element` over the bytes from its start. -/
def fit (s : StringView) : StringView :=
  let hs := elementHeaderSize s
  let vs := elementValueSize s hs
  s.take (hs + vs + hs)

/-- The view of an `element` with its footer at a position of the list. -/
def revFit (list : StringView) (i : Nat) : StringView :=
  let s := list.drop i
  let hs := elementHeaderSize s
  let vs := elementValueSize s hs
  (list.drop (i - hs - vs)).take (hs + vs + hs)

def Element.header (elem : StringView) : StringView :=
  elem.take (elementHeaderSize elem)

def Element.valueSize (elem : StringView) : Nat :=
  elementValueSize (Element.header elem) (Element.header elem).length

def Element.value (elem : StringView) : StringView :=
  (elem.drop (elementHeaderSize elem)).take (Element.valueSize elem)

section Traversal

variable {σ : Type*}

/-- The loop of `for_each_elem` over the remaining bytes; it does not end where an
element has no size. The caller's state is threaded through the function. -/
def forEachElemFrom (func : σ → StringView → Bool → σ) :
    Nat → StringView → Bool → σ → Option σ
  | 0, rest, _, state => if 2 ≤ rest.length then none else some state
  | fuel + 1, rest, first, state =>
      if 2 ≤ rest.length then
        let elem := fit rest
        forEachElemFrom func fuel (rest.drop elem.length) false (func state elem first)
      else some state

/-- A nonempty element takes some of the bytes, thus there are not more steps than
bytes. -/
def forEachElem (list : StringView) (func : σ → StringView → Bool → σ) (state : σ) : Option σ :=
  forEachElemFrom func list.length list true state

def forEach (list : StringView) (func : σ → StringView → σ) (state : σ) : Option σ :=
  forEachElem list (fun state elem _ => func state (Element.value elem)) state

def elementCount (list : StringView) : Option Nat :=
  forEachElem list (fun result _ _ => result + 1) 0

/-- The inner loop of `rev_for_each_elem`, down to a head byte. -/
def seekHeadByte (list : StringView) : Nat → Option Nat
  | 0 => if isValidHeadByteOfAny (list.getD 0 0) then some 0 else none
  | i + 1 =>
      if isValidHeadByteOfAny (list.getD (i + 1) 0) then some (i + 1) else seekHeadByte list i

/-- The outer loop of `rev_for_each_elem`, from a position of the list downwards. -/
def revForEachElemFrom (func : σ → StringView → Bool → σ) (list : StringView) :
    Nat → Int → Bool → σ → Option σ
  | 0, i, _, state => if 0 < i then none else some state
  | fuel + 1, i, first, state =>
      if 0 < i then
        match seekHeadByte list i.toNat with
        | some footer =>
            let elem := revFit list footer
            revForEachElemFrom func list fuel
              (footer - (elementHeaderSize elem + Element.valueSize elem + 1)) false
              (func state elem first)
        | none => none
      else some state

/-- Every step goes down by a byte at least. -/
def revForEachElem (list : StringView) (func : σ → StringView → Bool → σ) (state : σ) :
    Option σ :=
  revForEachElemFrom func list list.length (list.length - 1) true state

def revForEach (list : StringView) (func : σ → StringView → σ) (state : σ) : Option σ :=
  revForEachElem list (fun state elem _ => func state (Element.value elem)) state

end Traversal

def fillJoined (sep res elem : StringView) (first : Bool) : StringView :=
  (if first then res else res ++ sep) ++ Element.value elem

def join (list sep : StringView) (trailSep : Bool) : Option StringView :=
  (forEachElem list (fillJoined sep) []).map fun res => if trailSep then res ++ sep else res

end Eagine.StringList

/-!
## Codec of string lists

What the traversals from either end, the views of the ends and the joining see of a
list is the sequence of the strings it was made of.
-/

namespace Eagine.StringList

open MultiByte

/-- The strings with a length that is a valid code point. -/
def IsShort (v : StringView) : Prop :=
  v.length < 0x7FFFFFFF

def lengthCode (v : StringView) : StringView :=
  bytesOf (BitVec.ofNat 32 v.length)

variable {v : StringView} {values : List StringView}

theorem toNat_ofNat_length (short : IsShort v) : (BitVec.ofNat 32 v.length).toNat = v.length :=
  Nat.mod_eq_of_lt (Nat.lt_trans short (by decide))

theorem isValid_length (short : IsShort v) : isValid (BitVec.ofNat 32 v.length) = true := by
  rw [isValid, toNat_ofNat_length short]
  exact decide_eq_true short

theorem length_lengthCode_pos (short : IsShort v) : 1 ≤ (lengthCode v).length := by
  obtain ⟨len, -, positive, -, -, -, bytesLength⟩ := exists_bytesOf (isValid_length short)
  exact positive.trans_eq bytesLength.symm

theorem encodeCodePointString_eq {cp : CodePoint} (valid : isValid cp = true) :
    encodeCodePointString (codePoint cp) = some (bytesOf cp) := by
  obtain ⟨len, required, positive, atMost, -, bytes, -⟩ := exists_bytesOf valid
  have room : len ≤ (List.replicate 7 (0 : UInt8)).length := atMost.trans (by decide)
  have inside : len - 1 < (List.replicate 7 (0 : UInt8)).length := by omega
  rw [codePoint, if_pos valid, encodeCodePointString, Option.bind_some, required]
  simp only [doEncodeCodePoint, if_pos inside, doEncodeCodePointInto_eq positive atMost _ room,
    if_true, take_left' (length_sequenceOf positive _)]
  rw [bytes]

theorem encodeLength_eq (short : IsShort v) : encodeLength v.length = lengthCode v := by
  rw [encodeLength, encodeCodePointString_eq (isValid_length short), Option.getD_some, lengthCode]

theorem decodeSequenceLength_code (short : IsShort v) (rest : StringView) :
    decodeSequenceLength (lengthCode v ++ rest) = some (lengthCode v).length := by
  obtain ⟨len, -, positive, atMost, -, bytes, bytesLength⟩ := exists_bytesOf (isValid_length short)
  rw [lengthCode, bytesLength, bytes, decodeSequenceLength_eq positive atMost]

theorem elementHeaderSize_code (short : IsShort v) (rest : StringView) :
    elementHeaderSize (lengthCode v ++ rest) = (lengthCode v).length := by
  rw [elementHeaderSize, decodeSequenceLength_code short, Option.getD_some]

theorem elementValueSize_code (short : IsShort v) (rest : StringView) :
    elementValueSize (lengthCode v ++ rest) (lengthCode v).length = v.length := by
  obtain ⟨len, -, positive, atMost, fits, bytes, bytesLength⟩ :=
    exists_bytesOf (isValid_length short)
  have sequenceLength : isSequenceLength len = true := by
    rw [isSequenceLength, decide_eq_true positive, decide_eq_true atMost]
    rfl
  rw [lengthCode, bytesLength, bytes, elementValueSize, if_pos sequenceLength,
    doDecodeCodePoint_eq positive atMost (isValid_length short) fits]
  exact toNat_ofNat_length short

/-- The bytes of a value in a list. -/
def elementOf (v : StringView) : StringView :=
  lengthCode v ++ v ++ lengthCode v

theorem length_elementOf (v : StringView) :
    (elementOf v).length = (lengthCode v).length + v.length + (lengthCode v).length := by
  rw [elementOf, length_append, length_append]

theorem two_le_length_elementOf (short : IsShort v) : 2 ≤ (elementOf v).length := by
  have positive := length_lengthCode_pos short
  rw [length_elementOf]
  omega

theorem pushBack_eq (short : IsShort v) (list : StringView) :
    pushBack list v = list ++ elementOf v := by
  rw [pushBack, encodeLength_eq short, elementOf, append_assoc, append_assoc,
    append_assoc]

theorem elementOf_append (v rest : StringView) :
    elementOf v ++ rest = lengthCode v ++ (v ++ (lengthCode v ++ rest)) := by
  rw [elementOf, append_assoc, append_assoc]

theorem elementHeaderSize_elementOf (short : IsShort v) :
    elementHeaderSize (elementOf v) = (lengthCode v).length := by
  rw [elementOf, append_assoc, elementHeaderSize_code short]

theorem fit_eq (short : IsShort v) (rest : StringView) :
    fit (elementOf v ++ rest) = elementOf v := by
  rw [fit, elementOf_append, elementHeaderSize_code short, elementValueSize_code short,
    ← elementOf_append]
  exact take_left' (length_elementOf v)

theorem valueSize_code (short : IsShort v) (rest : StringView) :
    Element.valueSize (lengthCode v ++ rest) = v.length := by
  have header : Element.header (lengthCode v ++ rest) = lengthCode v := by
    rw [Element.header, elementHeaderSize_code short, take_left]
  have size := elementValueSize_code short []
  rw [append_nil] at size
  rw [Element.valueSize, header, size]

theorem valueSize_elementOf (short : IsShort v) : Element.valueSize (elementOf v) = v.length := by
  rw [elementOf, append_assoc, valueSize_code short]

/-- The value is behind the code of its length, whatever is behind it. -/
theorem value_code (short : IsShort v) (rest : StringView) :
    Element.value (lengthCode v ++ (v ++ rest)) = v := by
  rw [Element.value, valueSize_code short, elementHeaderSize_code short, drop_left,
    take_left]

theorem value_elementOf (short : IsShort v) : Element.value (elementOf v) = v := by
  rw [elementOf, append_assoc, value_code short]

def build (values : List StringView) : StringView :=
  values.foldl pushBack []

/-- The bytes of the elements one after another. -/
def elements (values : List StringView) : StringView :=
  values.flatMap elementOf

theorem elements_cons (v : StringView) (values : List StringView) :
    elements (v :: values) = elementOf v ++ elements values :=
  flatMap_cons

theorem elements_concat (values : List StringView) (v : StringView) :
    elements (values ++ [v]) = elements values ++ elementOf v := by
  rw [elements, elements, flatMap_append, flatMap_singleton]

theorem foldl_pushBack (values : List StringView) (short : ∀ v ∈ values, IsShort v)
    (list : StringView) : values.foldl pushBack list = list ++ elements values := by
  induction values generalizing list with
  | nil => exact (append_nil list).symm
  | cons v values ih =>
      obtain ⟨shortHead, shortTail⟩ := forall_mem_cons.mp short
      rw [foldl_cons, ih shortTail, pushBack_eq shortHead, elements_cons, append_assoc]

theorem build_eq (short : ∀ v ∈ values, IsShort v) : build values = elements values :=
  foldl_pushBack values short []

section Traversal

variable {σ : Type*}

/-- The calls of a traversal: the first element is marked. -/
def visit (func : σ → StringView → Bool → σ) : List StringView → Bool → σ → σ
  | [], _, state => state
  | v :: values, first, state => visit func values false (func state (elementOf v) first)

theorem visit_unmarked (short : ∀ v ∈ values, IsShort v) (func : σ → StringView → σ) (first : Bool)
    (state : σ) :
    visit (fun state elem _ => func state (Element.value elem)) values first state =
      values.foldl func state := by
  induction values generalizing first state with
  | nil => rfl
  | cons v values ih =>
      obtain ⟨shortHead, shortTail⟩ := forall_mem_cons.mp short
      rw [visit, value_elementOf shortHead, ih shortTail, foldl_cons]

theorem forEachElemFrom_eq (func : σ → StringView → Bool → σ) (short : ∀ v ∈ values, IsShort v)
    (fuel : Nat) (enough : (elements values).length ≤ fuel) (first : Bool) (state : σ) :
    forEachElemFrom func fuel (elements values) first state =
      some (visit func values first state) := by
  induction values generalizing fuel first state with
  | nil => cases fuel <;> rfl
  | cons v values ih =>
      obtain ⟨shortHead, shortTail⟩ := forall_mem_cons.mp short
      have some_bytes := two_le_length_elementOf shortHead
      rw [elements_cons, length_append] at enough
      obtain ⟨fuel, rfl⟩ : ∃ fewer, fuel = fewer + 1 := Nat.exists_eq_add_one.mpr (by omega)
      have more : 2 ≤ (elementOf v ++ elements values).length := by
        rw [length_append]
        exact some_bytes.trans (Nat.le_add_right _ _)
      rw [elements_cons, forEachElemFrom, if_pos more]
      simp only [fit_eq shortHead, drop_left]
      exact ih shortTail fuel (by omega) false _

theorem forEachElem_eq (func : σ → StringView → Bool → σ) (short : ∀ v ∈ values, IsShort v)
    (state : σ) : forEachElem (elements values) func state = some (visit func values true state) :=
  forEachElemFrom_eq func short _ le_rfl true state

end Traversal

/-- No tail byte is a head byte. -/
theorem not_head_of_isValidTailByte {b : UInt8} (tail : isValidTailByte b = true) :
    isValidHeadByteOfAny b = false := by
  have ofLength {l : Nat} (apart : tailCode &&& headCodeMask l ≠ headCode l &&& tailCodeMask) :
      isValidHeadByte l b = false :=
    isValidMaskedCode_apart tail apart
  rw [isValidHeadByteOfAny, ofLength (by decide), ofLength (by decide), ofLength (by decide),
    ofLength (by decide), ofLength (by decide), ofLength (by decide)]
  rfl

/-- The code of a length is a head byte with tail bytes after it. -/
theorem exists_lengthCode_eq (short : IsShort v) :
    ∃ b tails, lengthCode v = b :: tails ∧ isValidHeadByteOfAny b = true ∧
      ∀ t ∈ tails, isValidHeadByteOfAny t = false := by
  obtain ⟨len, -, positive, atMost, -, bytes, -⟩ := exists_bytesOf (isValid_length short)
  refine ⟨_, _, bytes, ?_, ?_⟩
  · have head := isValidHeadByte_eq positive le_rfl atMost (BitVec.ofNat 32 v.length)
    rw [decide_eq_true rfl] at head
    rw [isValidHeadByteOfAny]
    interval_cases len <;> simp [head]
  · intro t within
    obtain ⟨idx, -, rfl⟩ := mem_map.mp within
    exact not_head_of_isValidTailByte (isValidTailByte_tailByte _ _ _)

variable {before tails : StringView}

theorem seekHeadByte_tails {b : UInt8} (isHead : isValidHeadByteOfAny b = true)
    (areTails : ∀ t ∈ tails, isValidHeadByteOfAny t = false) (after : StringView) :
    seekHeadByte (before ++ b :: tails ++ after) (before.length + tails.length) =
      some before.length := by
  induction tails using List.reverseRecOn generalizing after with
  | nil =>
      have here : (before ++ [b] ++ after).getD before.length 0 = b := by simp
      rw [length_nil, Nat.add_zero]
      cases count : before.length with
      | zero => rw [seekHeadByte, ← count, here, if_pos isHead]
      | succ i => rw [seekHeadByte, ← count, here, if_pos isHead]
  | append_singleton tails t ih =>
      have here : (before ++ b :: (tails ++ [t]) ++ after).getD
          (before.length + tails.length + 1) 0 = t := by
        have position : before.length + tails.length + 1 = (before ++ b :: tails).length := by
          rw [length_append, length_cons, Nat.add_assoc]
        have split : before ++ b :: (tails ++ [t]) ++ after =
            (before ++ b :: tails) ++ t :: after := by simp
        rw [split, position, getD_append_right _ _ _ _ le_rfl, Nat.sub_self]
        rfl
      have notHead : ¬isValidHeadByteOfAny t = true :=
        Bool.eq_false_iff.mp (areTails t (by simp))
      have rest := ih (fun other within => areTails other (mem_append_left _ within))
        (t :: after)
      have split : before ++ b :: tails ++ t :: after =
          before ++ b :: (tails ++ [t]) ++ after := by simp
      rw [length_append, length_singleton, ← Nat.add_assoc, seekHeadByte, here,
        if_neg notHead, ← split, rest]

theorem revSeekHeaderStart_tails {b : UInt8} (isHead : isValidHeadByteOfAny b = true)
    (areTails : ∀ t ∈ tails, isValidHeadByteOfAny t = false) :
    revSeekHeaderStart (before ++ b :: tails) = before.length := by
  have found : (before ++ b :: tails).reverse.findIdx? isValidHeadByteOfAny =
      some tails.length := by
    have none_of_tails : tails.reverse.findIdx? isValidHeadByteOfAny = none := by
      rw [findIdx?_eq_none_iff]
      intro t within
      exact areTails t (mem_reverse.mp within)
    rw [reverse_append, reverse_cons, append_assoc, findIdx?_append,
      none_of_tails, singleton_append, findIdx?_cons, isHead]
    simp
  rw [revSeekHeaderStart, found]
  simp only [length_append, length_cons]
  omega

/-- The position of the footer of the last element. -/
def footerStart (before v : StringView) : Nat :=
  before.length + (lengthCode v).length + v.length

theorem length_before_footer (before v : StringView) :
    (before ++ lengthCode v ++ v).length = footerStart before v := by
  rw [length_append, length_append, footerStart]

theorem append_elementOf (before v : StringView) :
    before ++ elementOf v = before ++ lengthCode v ++ v ++ lengthCode v := by
  rw [elementOf, append_assoc, append_assoc, append_assoc]

theorem revSeekHeaderStart_eq (short : IsShort v) (before : StringView) :
    revSeekHeaderStart (before ++ elementOf v) = footerStart before v := by
  have atCode (list : StringView) :
      revSeekHeaderStart (list ++ lengthCode v) = list.length := by
    obtain ⟨b, tails, code, isHead, areTails⟩ := exists_lengthCode_eq short
    rw [code, revSeekHeaderStart_tails isHead areTails]
  rw [append_elementOf, atCode, length_before_footer]

theorem seekHeadByte_eq (short : IsShort v) (before after : StringView) :
    seekHeadByte (before ++ elementOf v ++ after) ((before ++ elementOf v).length - 1) =
      some (footerStart before v) := by
  have atCode (list : StringView) :
      seekHeadByte (list ++ lengthCode v ++ after) ((list ++ lengthCode v).length - 1) =
        some list.length := by
    obtain ⟨b, tails, code, isHead, areTails⟩ := exists_lengthCode_eq short
    have last : (list ++ b :: tails).length - 1 = list.length + tails.length := by
      rw [length_append, length_cons]
      rfl
    rw [code, last, seekHeadByte_tails isHead areTails]
  rw [append_elementOf, atCode, length_before_footer]

/-- The footer, and what follows it. -/
theorem drop_footerStart (before v after : StringView) :
    (before ++ elementOf v ++ after).drop (footerStart before v) = lengthCode v ++ after := by
  rw [append_elementOf, append_assoc, ← length_before_footer, drop_left]

theorem revFit_eq (short : IsShort v) (before after : StringView) :
    revFit (before ++ elementOf v ++ after) (footerStart before v) = elementOf v := by
  have start : footerStart before v - (lengthCode v).length - v.length = before.length := by
    rw [footerStart]
    omega
  rw [revFit, drop_footerStart]
  simp only [elementHeaderSize_code short, elementValueSize_code short, start]
  rw [append_assoc, drop_left]
  exact take_left' (length_elementOf v)

section Traversal

variable {σ : Type*}

theorem revForEachElemFrom_eq (func : σ → StringView → Bool → σ) (short : ∀ v ∈ values, IsShort v)
    (after : StringView) (fuel : Nat) (enough : (elements values).length ≤ fuel) (first : Bool)
    (state : σ) :
    revForEachElemFrom func (elements values ++ after) fuel ((elements values).length - 1)
        first state =
      some (visit func values.reverse first state) := by
  induction values using List.reverseRecOn generalizing after fuel first state with
  | nil => cases fuel <;> rfl
  | append_singleton values v ih =>
      have shortLast : IsShort v := short v (by simp)
      have shortInit : ∀ other ∈ values, IsShort other := fun other within =>
        short other (mem_append_left _ within)
      have some_bytes := two_le_length_elementOf shortLast
      rw [elements_concat, length_append] at enough
      obtain ⟨fuel, rfl⟩ : ∃ fewer, fuel = fewer + 1 := Nat.exists_eq_add_one.mpr (by omega)
      have below : (0 : Int) < ((elements values ++ elementOf v).length : Int) - 1 := by
        rw [length_append]
        omega
      have last : (((elements values ++ elementOf v).length : Int) - 1).toNat =
          (elements values ++ elementOf v).length - 1 := by omega
      have next : (footerStart (elements values) v : Int) -
          ((lengthCode v).length + v.length + 1) = (elements values).length - 1 := by
        rw [footerStart]
        omega
      rw [elements_concat, revForEachElemFrom, if_pos below, last, seekHeadByte_eq shortLast]
      simp only [revFit_eq shortLast, elementHeaderSize_elementOf shortLast,
        valueSize_elementOf shortLast, next]
      rw [append_assoc, ih shortInit (elementOf v ++ after) fuel (by omega) false,
        reverse_append]
      rfl

theorem revForEachElem_eq (func : σ → StringView → Bool → σ) (short : ∀ v ∈ values, IsShort v)
    (state : σ) :
    revForEachElem (elements values) func state =
      some (visit func values.reverse true state) := by
  have whole := revForEachElemFrom_eq func short [] (elements values).length le_rfl true state
  rwa [append_nil] at whole

end Traversal

theorem frontValue_eq (short : IsShort v) (values : List StringView) :
    frontValue (elements (v :: values)) = v := by
  rw [frontValue, elements_cons, elementOf_append]
  simp only [elementHeaderSize_code short, elementValueSize_code short, slice]
  rw [Int.toNat_natCast, ← Int.natCast_add, Int.toNat_natCast, ← append_assoc,
    take_left' (length_append), drop_left]

theorem backValue_eq (short : IsShort v) (values : List StringView) :
    backValue (elements (values ++ [v])) = v := by
  have header := drop_footerStart (elements values) v []
  rw [append_nil, append_nil] at header
  have code := elementHeaderSize_code short []
  have value := elementValueSize_code short []
  rw [append_nil] at code value
  rw [backValue, elements_concat, revSeekHeaderStart_eq short]
  simp only [skip, header, code, value, slice]
  rw [append_elementOf, Int.sub_add_cancel, Int.toNat_natCast, append_assoc,
    ← append_assoc, take_left' (length_before_footer _ v), footerStart, Nat.cast_add,
    Int.add_sub_cancel, Int.toNat_natCast, drop_left' length_append]

theorem withoutBack_eq (short : IsShort v) (values : List StringView) :
    withoutBack (elements (values ++ [v])) = elements values := by
  have header := drop_footerStart (elements values) v []
  rw [append_nil, append_nil] at header
  have code := elementHeaderSize_code short []
  have value := elementValueSize_code short []
  rw [append_nil] at code value
  have start : ((footerStart (elements values) v : Int) - (lengthCode v).length -
      v.length).toNat = (elements values).length := by
    rw [footerStart]
    omega
  rw [withoutBack, elements_concat, revSeekHeaderStart_eq short]
  simp only [skip, header, code, value, head, start, take_left]

theorem popBack_eq (short : IsShort v) (values : List StringView) :
    popBack (elements (values ++ [v])) = elements values := by
  rw [popBack, withoutBack_eq short, elements_concat, take_left]

theorem visit_fillJoined (sep : StringView) (short : ∀ v ∈ values, IsShort v) (res : StringView) :
    visit (fillJoined sep) values false res = res ++ values.flatMap (sep ++ ·) := by
  induction values generalizing res with
  | nil => exact (append_nil res).symm
  | cons v values ih =>
      obtain ⟨shortHead, shortTail⟩ := forall_mem_cons.mp short
      rw [visit, ih shortTail, fillJoined, value_elementOf shortHead, flatMap_cons,
        if_neg Bool.false_ne_true, append_assoc, append_assoc, append_assoc]

theorem intercalate_cons (sep v : StringView) (values : List StringView) :
    sep.intercalate (v :: values) = v ++ values.flatMap (sep ++ ·) := by
  induction values generalizing v with
  | nil => simp
  | cons w values ih =>
      rw [intercalate_cons_cons, ih, flatMap_cons, append_assoc, append_assoc]

theorem join_eq (sep : StringView) (short : ∀ v ∈ values, IsShort v) :
    join (elements values) sep false = some (sep.intercalate values) := by
  rw [join, forEachElem_eq _ short, Option.map_some, if_neg Bool.false_ne_true]
  cases values with
  | nil => rfl
  | cons v values =>
      obtain ⟨shortHead, shortTail⟩ := forall_mem_cons.mp short
      rw [visit, visit_fillJoined sep shortTail, fillJoined, if_pos rfl, value_elementOf shortHead,
        nil_append, intercalate_cons]

/-- The list that is made of strings by pushing them back is visited as these
strings from the front and as their reverse from the back, its ends are the first
and the last one, and it is joined as they are. -/
theorem stringList_codec {σ : Type*} (values : List StringView)
    (short : ∀ v ∈ values, v.length < 2 ^ 31 - 1) (func : σ → StringView → σ) (state : σ)
    (sep : StringView) :
    elementCount (build values) = some values.length ∧
      forEach (build values) func state = some (values.foldl func state) ∧
      revForEach (build values) func state = some (values.reverse.foldl func state) ∧
      (∀ v rest, values = v :: rest → frontValue (build values) = v) ∧
      (∀ init v, values = init ++ [v] →
        backValue (build values) = v ∧ popBack (build values) = build init) ∧
      join (build values) sep false = some (sep.intercalate values) := by
  have areShort : ∀ v ∈ values, IsShort v := short
  have areShortReversed : ∀ v ∈ values.reverse, IsShort v := fun v within =>
    areShort v (mem_reverse.mp within)
  rw [build_eq areShort]
  refine ⟨?_, ?_, ?_, ?_, ?_, join_eq sep areShort⟩
  · have counted := visit_unmarked areShort (fun result _ => result + 1) true 0
    rw [elementCount, forEachElem_eq _ areShort, counted, foldl_add_const, Nat.zero_add,
      Nat.one_mul]
  · rw [forEach, forEachElem_eq _ areShort, visit_unmarked areShort]
  · rw [revForEach, revForEachElem_eq _ areShort, visit_unmarked areShortReversed]
  · rintro v rest rfl
    exact frontValue_eq (areShort v (by simp)) rest
  · rintro init v rfl
    have shortLast : IsShort v := areShort v (by simp)
    have shortInit : ∀ other ∈ init, IsShort other := fun other within =>
      areShort other (mem_append_left _ within)
    rw [build_eq shortInit]
    exact ⟨backValue_eq shortLast init, popBack_eq shortLast init⟩

theorem stringList_codec_two :
    elementCount (build [[0x61, 0x62], []]) = some 2 ∧
      forEach (build [[0x61, 0x62], []]) (fun seen v => seen ++ [v]) [] =
        some [[0x61, 0x62], []] ∧
      revForEach (build [[0x61, 0x62], []]) (fun seen v => seen ++ [v]) [] =
        some [[], [0x61, 0x62]] ∧
      (∀ v rest, [[0x61, 0x62], []] = v :: rest → frontValue (build [[0x61, 0x62], []]) = v) ∧
      (∀ init v, [[0x61, 0x62], []] = init ++ [v] →
        backValue (build [[0x61, 0x62], []]) = v ∧
          popBack (build [[0x61, 0x62], []]) = build init) ∧
      join (build [[0x61, 0x62], []]) [0x2C] false = some [0x61, 0x62, 0x2C] :=
  stringList_codec [[0x61, 0x62], []] (by simp) (fun seen v => seen ++ [v]) [] [0x2C]

end Eagine.StringList
