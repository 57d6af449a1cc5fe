import Eagine.LogServer.JsonParser
import Eagine.Logging.JsonLogParsing
import Eagine.ValueTree.DocumentBuilding
import Mathlib.Data.List.ModifyLast

/-!
# Building infos from entries

What the data extractor makes of the entries that the JSON backend writes, for each kind of
entry.
-/

/-!
## Reading the text of a log

The reader of JSON that the stream parser uses makes the standard callbacks for a text. What the
data extractor gets from an entry is put together from what it gets from the members.
-/

namespace Eagine.LogServer

open Logging ValueTree Theory Theory.Json
open Serialization (Block Identifier)

universe u

/-- The value of digits. -/
def digitsValue (digits : List Char) : Nat :=
  valueOf 10 (digits.map fun c => c.toNat - '0'.toNat)

/-- The number that the reader makes of a literal. Integers get the smallest type for them;
everything else is converted to a `double`. -/
def numberOf (toDouble : List Char → BitVec 64) (literal : List Char) : Number :=
  match literal with
  | '-' :: digits =>
      if isDigits digits ∧ digitsValue digits ≤ 2 ^ 31 then
        .int (BitVec.ofInt 32 (-(digitsValue digits : Int)))
      else if isDigits digits ∧ digitsValue digits ≤ 2 ^ 63 then
        .int64 (BitVec.ofInt 64 (-(digitsValue digits : Int)))
      else .double (toDouble literal)
  | digits =>
      if isDigits digits ∧ digitsValue digits < 2 ^ 32 then
        .uint (BitVec.ofNat 32 (digitsValue digits))
      else if isDigits digits ∧ digitsValue digits < 2 ^ 64 then
        .uint64 (BitVec.ofNat 64 (digitsValue digits))
      else .double (toDouble literal)

mutual

/-- The document of a JSON value. -/
def documentOf (toDouble : List Char → BitVec 64) : Json → Document
  | .null => .null
  | .bool value => .bool value
  | .number literal => .number (numberOf toDouble literal)
  | .string text => .string (String.ofList text)
  | .array elements => .array (elementsOfJson toDouble elements)
  | .object members => .object (membersOfJson toDouble members)

def elementsOfJson (toDouble : List Char → BitVec 64) : List Json → Elements
  | [] => .nil
  | json :: elements => .cons (documentOf toDouble json) (elementsOfJson toDouble elements)

def membersOfJson (toDouble : List Char → BitVec 64) : List (List Char × Json) → Members
  | [] => .nil
  | (name, json) :: members =>
      .cons (String.ofList name) (documentOf toDouble json) (membersOfJson toDouble members)

end

theorem digitsValue_unsignedText (value : Nat) : digitsValue (unsignedText value) = value := by
  have decoded : (unsignedText value).map (fun c => c.toNat - '0'.toNat) =
      (digitsOf 10 value).reverse := by
    rw [unsignedText, numeral, List.map_map]
    refine (List.map_congr_left ?_).trans (List.map_id _)
    intro digit within
    have small := digitsOf_lt (by decide : 1 < 10) digit (List.mem_reverse.mp within)
    interval_cases digit <;> rfl
  rw [digitsValue, decoded, valueOf_reverse, ofDigits_digitsOf]

theorem isDigits_unsignedText (value : Nat) : isDigits (unsignedText value) = true := by
  have notEmpty : unsignedText value ≠ [] := numeral_ne_nil _ _ _
  have digits := isDigit_unsignedText value
  simpa [isDigits, notEmpty] using digits

/-- The integer of a number that is no `double`. -/
def integerOf : Scalar → Option Int
  | .int64 value => some value.toInt
  | .uint64 value => some value.toNat
  | _ => none

theorem integerOf_unsigned (toDouble : List Char → BitVec 64) {value : Nat}
    (small : value < 2 ^ 64) :
    ∃ bits : BitVec 64, (numberOf toDouble (unsignedText value)).scalar = .uint64 bits ∧
      bits.toNat = value := by
  have digits := isDigits_unsignedText value
  have valueEq := digitsValue_unsignedText value
  have noSign : ∀ others, unsignedText value ≠ '-' :: others := by
    intro others same
    rw [same] at digits
    exact absurd digits (by simp [isDigits])
  unfold numberOf
  split
  · rename_i same
    exact absurd same (noSign _)
  · simp only [digits, valueEq, true_and]
    by_cases short : value < 2 ^ 32
    · refine ⟨(BitVec.ofNat 32 value).setWidth 64, by rw [if_pos short]; rfl, ?_⟩
      simp only [BitVec.toNat_setWidth, BitVec.toNat_ofNat]
      omega
    · refine ⟨BitVec.ofNat 64 value, by rw [if_neg short, if_pos small]; rfl, ?_⟩
      simp only [BitVec.toNat_ofNat]
      omega

theorem integerOf_signed (toDouble : List Char → BitVec 64) {value : Int}
    (low : -2 ^ 63 ≤ value) (high : value < 2 ^ 63) :
    integerOf (numberOf toDouble (signedText value)).scalar = some value := by
  by_cases negative : value < 0
  · have digits := isDigits_unsignedText value.natAbs
    have valueEq := digitsValue_unsignedText value.natAbs
    have abs : (value.natAbs : Int) = -value := Int.ofNat_natAbs_of_nonpos (Int.le_of_lt negative)
    rw [signedText, if_pos negative]
    simp only [numberOf, digits, valueEq, true_and, abs, Int.neg_neg]
    by_cases short : value.natAbs ≤ 2 ^ 31
    · rw [if_pos short]
      change some (BitVec.toInt ((BitVec.ofInt 32 value).signExtend 64)) = _
      rw [BitVec.toInt_signExtend_of_le (by decide), BitVec.toInt_ofInt]
      congr 1
      rw [Int.bmod_eq_of_le] <;> omega
    · rw [if_neg short, if_pos (by omega)]
      change some (BitVec.toInt (BitVec.ofInt 64 value)) = _
      rw [BitVec.toInt_ofInt]
      congr 1
      rw [Int.bmod_eq_of_le] <;> omega
  · rw [signedText, if_neg negative]
    have small : value.natAbs < 2 ^ 64 := by omega
    rcases integerOf_unsigned toDouble small with ⟨bits, scalarEq, bitsEq⟩
    rw [scalarEq]
    change some (bits.toNat : Int) = _
    rw [bitsEq]
    congr 1
    omega

theorem bytesOf_chars (block : Block) : bytesOf (String.ofList (chars block)) = block := by
  rw [bytesOf, String.toList_ofList, chars, List.map_map]
  refine (List.map_congr_left ?_).trans (List.map_id _)
  intro byte _
  have small : byte.toNat < 256 := byte.toNat_lt
  have valid : (byte.toNat).isValidChar := Or.inl (by omega)
  change UInt8.ofNat (Char.ofNat byte.toNat).toNat = byte
  rw [Char.ofNat, dif_pos valid]
  exact UInt8.ofNat_toNat

end Eagine.LogServer

namespace Eagine.LogServer

open Logging ValueTree Theory Theory.Json
open Serialization (Block Identifier)
open JsonDataExtractor (add addArg addObject addString reset select typed)
open String (ofList ofList_toList toList)

universe u

/-- The documents of the members of an object. -/
def memberDocuments (toDouble : List Char → BitVec 64) (members : List Member) : Members :=
  membersOfJson toDouble (members.map fun member => (member.name, member.json))

/-- The document of an object. -/
def objectDocument (toDouble : List Char → BitVec 64) (members : List Member) : Document :=
  .object (memberDocuments toDouble members)

theorem documentOf_objectJson (toDouble : List Char → BitVec 64) (members : List Member) :
    documentOf toDouble (objectJson members) = objectDocument toDouble members := by
  rw [objectJson, documentOf]
  rfl

variable {F : Type u} [Conversions F]

/-- The number of a scalar, converted to `float`. -/
def scalarNumber : Scalar → F
  | .int64 value => Conversions.ofInt64 value
  | .uint64 value => Conversions.ofUint64 value
  | .double bits => Conversions.ofDouble bits
  | _ => Conversions.unset

/-- The value that a number has as an argument of a message. -/
def scalarValue : Scalar → ArgValue F
  | .int64 value => .int64 value
  | .uint64 value => .uint64 value
  | .double bits => .float (Conversions.ofDouble bits)
  | _ => .string []

variable (toDouble : List Char → BitVec 64)

/-- The number of a literal, converted to `float`. -/
def literalNumber (literal : List Char) : F :=
  scalarNumber (numberOf toDouble literal).scalar

theorem build_object (path : StringPath) (members : List Member)
    (extractor : JsonDataExtractor F) :
    (objectDocument toDouble members).build path extractor =
      ((memberDocuments toDouble members).build path (extractor.addObject path)).finishObject
        path :=
  rfl

theorem build_nil (path : StringPath) (extractor : JsonDataExtractor F) :
    (memberDocuments toDouble []).build path extractor = extractor :=
  rfl

theorem build_cons (path : StringPath) (member : Member) (members : List Member)
    (extractor : JsonDataExtractor F) :
    (memberDocuments toDouble (member :: members)).build path extractor =
      (memberDocuments toDouble members).build path
        ((documentOf toDouble member.json).build (path ++ [ofList member.name]) extractor) :=
  rfl

theorem build_ofText (path : StringPath) (name : String) (text : List Char)
    (members : List Member) (extractor : JsonDataExtractor F) :
    (memberDocuments toDouble (Member.ofText name.toList text :: members)).build path extractor =
      (memberDocuments toDouble members).build path
        (extractor.addString (path ++ [name]) (ofList text)) := by
  rw [build_cons, Member.ofText, ofList_toList, documentOf]
  rfl

theorem build_ofNumber (path : StringPath) (name : String) (literal : List Char)
    (members : List Member) (extractor : JsonDataExtractor F) :
    (memberDocuments toDouble (Member.ofNumber name.toList literal :: members)).build path
        extractor =
      (memberDocuments toDouble members).build path
        (extractor.add (path ++ [name]) [(numberOf toDouble literal).scalar]) := by
  rw [build_cons, Member.ofNumber, ofList_toList, documentOf]
  rfl

theorem build_ofBool (path : StringPath) (name : String) (value : Bool) (members : List Member)
    (extractor : JsonDataExtractor F) :
    (memberDocuments toDouble (Member.ofBool name.toList value :: members)).build path extractor =
      (memberDocuments toDouble members).build path
        (extractor.addArg (path ++ [name]) (.bool value)) := by
  rw [build_cons, Member.ofBool, ofList_toList, documentOf]
  rfl

section

variable (extractor : JsonDataExtractor F)

omit [Conversions F] in
theorem addObject_entry : extractor.addObject ["_"] = extractor := by
  rw [addObject, if_neg]
  rintro ⟨_, isLike⟩
  exact Bool.noConfusion isLike

theorem addString_type (plain : extractor.extractors.IsPlain) {type : String}
    {kind : ExtractorKind} (known : extractorOf type = some kind) :
    extractor.addString (["_"] ++ ["t"]) type =
      extractor.typed kind extractor.extractors.later := by
  rw [addString, if_pos (by decide), select,
    plain.lookup_eq known]
  rfl

theorem addString_member {name : String} (notType : name ≠ "t") (text : String) :
    extractor.addString (["_"] ++ [name]) text =
      extractor.addArg ["_", name] (.string (bytesOf text)) := by
  have differs : StringPath.elementsMatch name "t" = false := by
    simp [StringPath.elementsMatch, notType]
  rw [addString, if_neg]
  · rfl
  · simp [StringPath.like, differs]

end

/-- The sink gets the info of an entry. What is kept for the state tags stays as it was, and no
type is added. -/
structure Delivers (info : Info F) (before after : JsonDataExtractor F) : Prop where
  consumed_eq : after.consumed = before.consumed ++ [info]
  clean : after.cleanFinish = true
  stateTag_eq : after.declareStateInfo.stateTag = before.declareStateInfo.stateTag
  plain : after.extractors.IsPlain

section

variable {extractor : JsonDataExtractor F} (plain : extractor.extractors.IsPlain)

include plain

theorem deliver_heartbeat (sec : FiniteFloat) :
    Delivers (.heartbeat ⟨literalNumber toDouble sec.1.text⟩) extractor
      ((objectDocument toDouble (heartbeatMembers sec)).build ["_"] extractor) := by
  rw [build_object, heartbeatMembers, build_ofText, build_ofNumber, build_nil, addObject_entry,
    ofList_toList,
    addString_type extractor plain (rfl : extractorOf "hb" = some .heartbeat), literalNumber]
  cases numberOf toDouble sec.1.text <;> exact ⟨rfl, rfl, rfl, plain⟩

theorem deliver_end (sec : FiniteFloat) :
    Delivers (.finish ⟨literalNumber toDouble sec.1.text, true⟩) extractor
      ((objectDocument toDouble (endMembers sec)).build ["_"] extractor) := by
  rw [build_object, endMembers, build_ofText, build_ofNumber, build_nil, addObject_entry,
    ofList_toList,
    addString_type extractor plain (rfl : extractorOf "end" = some .finish), literalNumber]
  cases numberOf toDouble sec.1.text <;> exact ⟨rfl, rfl, rfl, plain⟩

theorem deliver_activeState (sec : FiniteFloat) (source stateTag : Identifier) :
    Delivers (.activeState { extractor.activeStateInfo with
        source := source
        tag := stateTag
        offset := literalNumber toDouble sec.1.text }) extractor
      ((objectDocument toDouble (activeStateMembers sec source stateTag)).build ["_"]
        extractor) := by
  have sourceAdded (info : ActiveStateInfo F) :
      activeStateAdd ["_", "src"] (.string source.name) info =
        some { info with source := .ofChars source.name } := rfl
  have tagAdded (info : ActiveStateInfo F) :
      activeStateAdd ["_", "tag"] (.string stateTag.name) info =
        some { info with tag := .ofChars stateTag.name } := rfl
  rw [build_object, activeStateMembers, build_ofText, build_ofText, build_ofText, build_ofNumber,
    build_nil, addObject_entry, ofList_toList,
    addString_type extractor plain (rfl : extractorOf "as" = some .activeState),
    addString_member _ (by decide), addString_member _ (by decide), nameText, nameText,
    bytesOf_chars, bytesOf_chars, literalNumber]
  simp only [typed, reset, addArg,
    sourceAdded, tagAdded, Option.getD_some, Serialization.Identifier.ofChars_name]
  cases numberOf toDouble sec.1.text <;> exact ⟨rfl, rfl, rfl, plain⟩

omit plain in
theorem offset_declareState {extractor : JsonDataExtractor F}
    (selected : extractor.current = some .declareState) (number : Number) :
    extractor.add (["_"] ++ ["ts"]) [number.scalar] =
      { extractor with
        declareStateInfo :=
          { extractor.declareStateInfo with offset := scalarNumber number.scalar } } := by
  cases number <;>
    simp only [add, Number.scalar, addArg, selected] <;> rfl

/-- The tag of the state is not among what the extractor takes. -/
theorem deliver_declareState (sec : FiniteFloat) (source stateTag beginTag endTag : Identifier) :
    Delivers (.declareState { extractor.declareStateInfo with
        source := source
        beginTag := beginTag
        endTag := endTag
        offset := literalNumber toDouble sec.1.text }) extractor
      ((objectDocument toDouble
        (declareStateMembers sec source stateTag beginTag endTag)).build ["_"] extractor) := by
  have sourceAdded (info : DeclareStateInfo F) :
      declareStateAdd ["_", "src"] (.string source.name) info =
        some { info with source := .ofChars source.name } := rfl
  have tagAdded (info : DeclareStateInfo F) :
      declareStateAdd ["_", "tag"] (.string stateTag.name) info = none := rfl
  have beginAdded (info : DeclareStateInfo F) :
      declareStateAdd ["_", "bgn"] (.string beginTag.name) info =
        some { info with beginTag := .ofChars beginTag.name } := rfl
  have endAdded (info : DeclareStateInfo F) :
      declareStateAdd ["_", "end"] (.string endTag.name) info =
        some { info with endTag := .ofChars endTag.name } := rfl
  rw [build_object, declareStateMembers, build_ofText, build_ofText, build_ofText, build_ofNumber,
    build_ofText, build_ofText, build_nil, addObject_entry, ofList_toList,
    addString_type extractor plain (rfl : extractorOf "ds" = some .declareState),
    addString_member _ (by decide), addString_member _ (by decide), addString_member _ (by decide),
    addString_member _ (by decide), nameText, nameText, nameText, nameText, bytesOf_chars,
    bytesOf_chars, bytesOf_chars, bytesOf_chars, literalNumber]
  simp only [typed, reset, addArg,
    sourceAdded, tagAdded, Option.getD_some, Option.getD_none,
    Serialization.Identifier.ofChars_name]
  rw [offset_declareState rfl]
  simp only [beginAdded, endAdded, Option.getD_some, Serialization.Identifier.ofChars_name]
  exact ⟨rfl, rfl, rfl, plain⟩

omit plain in
/-- Texts behind the type of the first entry change nothing else. -/
theorem build_begin {members : List Member}
    (texts : ∀ member ∈ members, ∃ name text,
      member = Member.ofText (toList name) text ∧ name ≠ "t")
    {extractor : JsonDataExtractor F} (selected : extractor.current = some .begin) :
    ∃ info, (memberDocuments toDouble members).build ["_"] extractor =
      { extractor with beginInfo := info } := by
  induction members generalizing extractor with
  | nil => exact ⟨_, rfl⟩
  | cons member members ih =>
      rcases List.forall_mem_cons.mp texts with ⟨⟨name, text, rfl, notType⟩, others⟩
      rw [build_ofText, addString_member _ notType]
      simp only [addArg, selected]
      exact ih others rfl

theorem deliver_begin (start : StartTime) (session identity : Block) :
    ∃ info, Delivers (.begin info) extractor
      ((objectDocument toDouble (beginMembers start session identity)).build ["_"] extractor) := by
  have optional {name : String} (notType : name ≠ "t") (text : Block) :
      ∀ member ∈ (if text = [] then [] else [Member.ofText name.toList (chars text)]),
        ∃ name text, member = Member.ofText (toList name) text ∧ name ≠ "t" := by
    split
    · exact List.forall_mem_nil _
    · exact List.forall_mem_singleton.mpr ⟨name, _, rfl, notType⟩
  have texts := List.forall_mem_cons.mpr ⟨⟨"time", start.text, rfl, by decide⟩,
    List.forall_mem_append.mpr ⟨optional (by decide : "session" ≠ "t") session,
      optional (by decide : "identity" ≠ "t") identity⟩⟩
  have selected : (extractor.typed .begin extractor.extractors.later).current =
      some ExtractorKind.begin := rfl
  rcases build_begin toDouble texts selected with ⟨info, built⟩
  refine ⟨info, ?_⟩
  rw [build_object, addObject_entry, beginMembers, List.cons_append, build_ofText,
    ofList_toList, addString_type extractor plain (rfl : extractorOf "begin" = some .begin),
    List.cons_append, List.nil_append, built]
  exact ⟨rfl, rfl, rfl, plain⟩

omit plain in
theorem add_interval {extractor : JsonDataExtractor F}
    (selected : extractor.current = some .interval) (path : StringPath) (number : Number) :
    ∃ info, extractor.add path [number.scalar] = { extractor with intervalInfo := info } := by
  cases number <;>
    simp only [add, Number.scalar, addArg, selected] <;>
    exact ⟨_, rfl⟩

theorem deliver_interval (info : Logging.IntervalInfo) (avg : Int) :
    ∃ interval, Delivers (.interval interval) extractor
      ((objectDocument toDouble (intervalMembers info avg)).build ["_"] extractor) := by
  have selected : (extractor.typed .interval extractor.extractors.later).current =
      some ExtractorKind.interval := rfl
  rcases add_interval selected (["_"] ++ ["iid"])
    (numberOf toDouble (unsignedText info.logId.toNat)) with ⟨first, addedFirst⟩
  rw [build_object, intervalMembers, build_ofText, build_ofNumber, build_ofText, build_ofNumber,
    build_nil, addObject_entry, ofList_toList,
    addString_type extractor plain (rfl : extractorOf "i" = some .interval), addedFirst,
    addString_member _ (by decide)]
  have selectedTag : ({ extractor.typed .interval extractor.extractors.later with
      intervalInfo := first }.addArg ["_", "tag"]
        (.string (bytesOf (ofList (nameText info.tag))))).current =
          some ExtractorKind.interval := rfl
  rcases add_interval selectedTag (["_"] ++ ["tns"]) (numberOf toDouble (signedText avg)) with
    ⟨second, addedSecond⟩
  rw [addedSecond]
  exact ⟨_, rfl, rfl, rfl, plain⟩

end

end Eagine.LogServer
