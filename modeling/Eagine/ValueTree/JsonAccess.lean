import Eagine.ValueTree.JsonConversion
import Eagine.ValueTree.JsonLookup

/-!
# Accesses of JSON lookups

Where a lookup accesses the elements of an array or the members of an object. The index comes
from the text of a path or of a name, and it is only compared with the size, thus the accesses
are in range unless the text is read as a negative number.
-/

namespace Eagine.ValueTree

open Serialization FromString

/-- An access to an element of an array, with an index that is narrowed, or to a member of an
object. -/
inductive Access where
  | element (index : Int) (size : Nat)
  | member (index : Int) (size : Nat)

/-- The index is in the range, and in that of `rapidjson::SizeType` where it is narrowed. -/
def Access.InRange : Access → Prop
  | element index size => uintFits .w32 index = true ∧ 0 ≤ index ∧ index < size
  | member index size => 0 ≤ index ∧ index < size

/-- The sizes of the arrays are values of `rapidjson::SizeType`. -/
def JsonValue.Sized (value : JsonValue) : Prop :=
  ∀ place elements, value.at place = some (.array elements) → elements.length < 2 ^ 32

theorem JsonValue.Sized.child {value : JsonValue} (sized : value.Sized) {index : Nat}
    {child : JsonValue × Option Block} (found : value.childAt index = some child) :
    child.1.Sized := by
  intro place elements reached
  apply sized (index :: place) elements
  rw [JsonValue.at, found]
  exact reached

/-- A node for a value in a document. -/
structure SizedNode extends JsonNode where
  sized : value.Sized

namespace JsonNode

/-- The accesses of `make_nested` with an index. -/
def nestedAtAccesses (node : JsonNode) (index : Int) : List Access :=
  match node.value with
  | .array elements =>
      if index < elements.length then [.element index elements.length] else []
  | .object members =>
      if index < members.length then [.member index members.length] else []
  | _ => []

variable [ExpressionParser] [JsonLibrary]

/-- The accesses of `make_nested` with a name. -/
def nestedAccesses (node : JsonNode) (name : Block) : List Access :=
  match node.findMember name with
  | some position => node.nestedAtAccesses position
  | none =>
      match fromInt .w64 name with
      | some index => node.nestedAtAccesses index
      | none => []

/-- The accesses of the loop of `find_nested`, up to one that fails. -/
def findTaggedFromAccesses (tags : List Block) (node : JsonNode) : Path → List Access
  | [] => []
  | entry :: path =>
      match node.value with
      | .object members =>
          match node.findTaggedMember tags entry with
          | some position =>
              .member position members.length ::
                match subscript members position with
                | some member =>
                    findTaggedFromAccesses tags
                      (node.below position member.2 (some member.1)) path
                | none => []
          | none => []
      | .array elements =>
          match fromInt .w64 entry with
          | some index =>
              if index < elements.length then
                .element index elements.length ::
                  match subscript elements index with
                  | some value =>
                      findTaggedFromAccesses tags (node.below index value node.name) path
                  | none => []
              else []
          | none => []
      | _ => []

/-- The accesses of `find_nested`. -/
def findTaggedAccesses (node : JsonNode) (path : Path) (tags : List Block) : List Access :=
  { node with name := none }.findTaggedFromAccesses tags path

/-- The entry is not read as a negative number where the value is an array. -/
def EntryNonneg (node : JsonNode) (entry : Block) : Prop :=
  ∀ elements index, node.value = .array elements → fromInt .w64 entry = some index → 0 ≤ index

/-- What becomes of an entry, whatever the others are. -/
inductive EntryLookup (tags : List Block) (node : JsonNode) (entry : Block) : Prop
  | found (access : Access) (next : JsonNode) (inRange : access.InRange)
      (sized : next.value.Sized) (nonneg : node.EntryNonneg entry)
      (finds : ∀ path, node.findTaggedFrom tags (entry :: path) = next.findTaggedFrom tags path)
      (accesses : ∀ path, node.findTaggedFromAccesses tags (entry :: path) =
        access :: next.findTaggedFromAccesses tags path)
  | missing (nonneg : node.EntryNonneg entry)
      (finds : ∀ path, node.findTaggedFrom tags (entry :: path) = some none)
      (accesses : ∀ path, node.findTaggedFromAccesses tags (entry :: path) = [])
  | outside (access : Access) (outOfRange : ¬access.InRange) (negative : ¬node.EntryNonneg entry)
      (finds : ∀ path, node.findTaggedFrom tags (entry :: path) = none)
      (accesses : ∀ path, node.findTaggedFromAccesses tags (entry :: path) = [access])

variable {node : JsonNode} {members : List (Block × JsonValue)}

omit [ExpressionParser] in
theorem findMember_lt (value : node.value = .object members) {name : Block} {position : Nat}
    (found : node.findMember name = some position) : position < members.length := by
  rw [findMember, value] at found
  have named := JsonLibrary.findMember_some found
  rw [List.getElem?_map, Option.map_eq_some_iff] at named
  rcases named with ⟨member, at_position, -⟩
  exact (List.getElem?_eq_some_iff.mp at_position).1

variable {entry : Block}

omit [ExpressionParser] in
theorem findTaggedMember_lt {tags : List Block}
    (value : node.value = .object members) {position : Nat}
    (found : node.findTaggedMember tags entry = some position) : position < members.length := by
  rcases Option.or_eq_some_iff.mp found with tagged | ⟨-, plain⟩
  · rcases List.exists_of_findSome?_eq_some tagged with ⟨tag, -, tagged⟩
    exact findMember_lt value tagged
  · exact findMember_lt value plain

omit [JsonLibrary] in
theorem entryNonneg_of_ne (noArray : ∀ elements, node.value ≠ .array elements)
    (entry : Block) : node.EntryNonneg entry :=
  fun elements _ isArray => absurd isArray (noArray elements)

omit [JsonLibrary] in
theorem entryNonneg_iff {elements : List JsonValue} {index : Int}
    (value : node.value = .array elements) (read : fromInt .w64 entry = some index) :
    node.EntryNonneg entry ↔ 0 ≤ index := by
  constructor
  · exact fun nonneg => nonneg elements index value read
  · intro nonneg _ other _ read'
    rw [read] at read'
    cases read'
    exact nonneg

theorem entryLookup_object (tags : List Block) (sized : node.value.Sized)
    (entry : Block) (value : node.value = .object members) :
    EntryLookup tags node entry := by
  have nonneg : node.EntryNonneg entry := by
    apply entryNonneg_of_ne
    intro elements isArray
    rw [value] at isArray
    cases isArray
  cases found : node.findTaggedMember tags entry with
  | none =>
      refine .missing nonneg (fun path => ?_) fun path => ?_
      · rw [findTaggedFrom, value]
        simp only [found]
      · rw [findTaggedFromAccesses, value]
        simp only [found]
  | some position =>
      have inside := findTaggedMember_lt value found
      have member : subscript members position = some members[position] :=
        List.getElem?_eq_getElem inside
      refine .found (.member position members.length) (node.below position members[position].2
        (some members[position].1)) ?_ ?_ nonneg (fun path => ?_) fun path => ?_
      · exact ⟨Int.natCast_nonneg position, Int.ofNat_lt.mpr inside⟩
      · apply @JsonValue.Sized.child _ sized position (members[position].2, some members[position].1)
        rw [value, JsonValue.childAt, member]
        rfl
      · rw [findTaggedFrom, value]
        simp only [found, member, Option.bind_some]
      · rw [findTaggedFromAccesses, value]
        simp only [found, member]

theorem entryLookup_array (tags : List Block) (sized : node.value.Sized)
    (entry : Block) {elements : List JsonValue} (value : node.value = .array elements) :
    EntryLookup tags node entry := by
  cases read : fromInt .w64 entry with
  | none =>
      refine .missing ?_ (fun path => ?_) fun path => ?_
      · intro elements index _ read'
        rw [read] at read'
        cases read'
      · rw [findTaggedFrom, value]
        simp only [read]
      · rw [findTaggedFromAccesses, value]
        simp only [read]
  | some index =>
      have nonneg_iff := entryNonneg_iff value read
      by_cases less : index < elements.length
      · by_cases nonneg : 0 ≤ index
        · rcases subscript_of_lt nonneg less with ⟨item, atIndex⟩
          refine .found (.element index elements.length) (node.below index item node.name) ?_ ?_
            (nonneg_iff.mpr nonneg) (fun path => ?_) fun path => ?_
          · have size : elements.length < 2 ^ 32 := sized [] elements (congrArg some value)
            refine ⟨?_, nonneg, less⟩
            rw [uintFits, decide_eq_true_eq]
            exact ⟨nonneg, less.trans (by exact_mod_cast size)⟩
          · lift index to Nat using nonneg
            apply @JsonValue.Sized.child _ sized index (item, none)
            rw [value, JsonValue.childAt, atIndex]
            rfl
          · rw [findTaggedFrom, value]
            simp only [read, less, if_true, atIndex, Option.bind_some]
          · rw [findTaggedFromAccesses, value]
            simp only [read, less, if_true, atIndex]
        · have outside : subscript elements index = none := by
            rcases Int.eq_negSucc_of_lt_zero (Int.lt_of_not_ge nonneg) with ⟨below, rfl⟩
            rfl
          refine .outside (.element index elements.length) (fun inRange => nonneg inRange.2.1)
            (mt nonneg_iff.mp nonneg) (fun path => ?_) fun path => ?_
          · rw [findTaggedFrom, value]
            simp only [read, less, if_true, outside, Option.bind_none]
          · rw [findTaggedFromAccesses, value]
            simp only [read, less, if_true, outside]
      · have nonneg : 0 ≤ index := le_trans (Int.natCast_nonneg _) (Int.not_lt.mp less)
        refine .missing (nonneg_iff.mpr nonneg) (fun path => ?_) fun path => ?_
        · rw [findTaggedFrom, value]
          simp only [read, less, if_false]
        · rw [findTaggedFromAccesses, value]
          simp only [read, less, if_false]

theorem entryLookup (tags : List Block) (sized : node.value.Sized)
    (entry : Block) : EntryLookup tags node entry := by
  cases value : node.value with
  | object members => exact entryLookup_object tags sized entry value
  | array elements => exact entryLookup_array tags sized entry value
  | null | bool _ | integer _ | real _ | string _ =>
      refine .missing ?_ ?_ ?_
      · apply entryNonneg_of_ne
        intro elements isArray
        rw [value] at isArray
        cases isArray
      · intro path
        rw [findTaggedFrom, value]
      · intro path
        rw [findTaggedFromAccesses, value]

/-- No entry that is read as a negative number is behind a path to an array. -/
def PathNonneg (tags : List Block) (node : JsonNode) (path : Path) : Prop :=
  ∀ before entry after reached, path = before ++ entry :: after →
    node.findTaggedFrom tags before = some (some reached) → reached.EntryNonneg entry

theorem pathNonneg_cons {tags : List Block} {path : Path} :
    node.PathNonneg tags (entry :: path) ↔ node.EntryNonneg entry ∧
      ∀ before next after reached, path = before ++ next :: after →
        node.findTaggedFrom tags (entry :: before) = some (some reached) →
          reached.EntryNonneg next := by
  constructor
  · intro nonneg
    refine ⟨nonneg [] entry path node rfl rfl, ?_⟩
    rintro before next after reached rfl leads
    exact nonneg (entry :: before) next after reached rfl leads
  · rintro ⟨here, behind⟩ (_ | ⟨first, before⟩) next after reached split leads
    · cases split
      cases leads
      exact here
    · cases split
      exact behind before next after reached rfl leads

theorem findTaggedFromAccesses_inRange_iff (tags : List Block)
    (sized : node.value.Sized) (path : Path) :
    (∀ access ∈ node.findTaggedFromAccesses tags path, access.InRange) ↔
      node.PathNonneg tags path := by
  induction path generalizing node with
  | nil =>
      apply iff_of_true
      · exact fun _ mem => nomatch mem
      · intro before entry after reached split
        exact absurd split.symm (List.append_ne_nil_of_right_ne_nil _ (List.cons_ne_nil _ _))
  | cons entry path ih =>
      rw [pathNonneg_cons]
      cases entryLookup tags sized entry with
      | found access next inRange nextSized nonneg finds accesses =>
          rw [accesses, List.forall_mem_cons, ih nextSized]
          simp only [finds]
          exact and_congr_left' (iff_of_true inRange nonneg)
      | missing nonneg finds accesses =>
          rw [accesses]
          apply iff_of_true
          · exact fun _ mem => nomatch mem
          · refine ⟨nonneg, fun before next after reached _ leads => ?_⟩
            rw [finds] at leads
            cases leads
      | outside access outOfRange negative finds accesses =>
          rw [accesses, List.forall_mem_singleton]
          exact iff_of_false outOfRange fun nonneg => negative nonneg.1

/-- A name that no member has is not read as a negative number, where it may be a position. -/
def NameNonneg (node : JsonNode) (name : Block) : Prop :=
  node.findMember name = none → node.value.IsComposite →
    ∀ index, fromInt .w64 name = some index → 0 ≤ index

omit [ExpressionParser] [JsonLibrary] in
theorem nestedAtAccesses_inRange_iff (sized : node.value.Sized) (index : Int) :
    (∀ access ∈ node.nestedAtAccesses index, access.InRange) ↔
      (node.value.IsComposite → 0 ≤ index) := by
  rw [nestedAtAccesses]
  cases value : node.value with
  | array elements =>
      have size : elements.length < 2 ^ 32 := sized [] elements (congrArg some value)
      have composite : (JsonValue.array elements).IsComposite := trivial
      dsimp only
      split
      · rename_i less
        rw [List.forall_mem_singleton, Access.InRange, uintFits, decide_eq_true_eq,
          forall_prop_of_true composite]
        have narrow : index < 2 ^ IntWidth.w32.bits := less.trans (by exact_mod_cast size)
        exact ⟨fun inRange => inRange.2.1, fun nonneg => ⟨⟨nonneg, narrow⟩, nonneg, less⟩⟩
      · rename_i atLeast
        apply iff_of_true
        · exact fun _ mem => nomatch mem
        · exact fun _ => le_trans (Int.natCast_nonneg _) (Int.not_lt.mp atLeast)
  | object members =>
      have composite : (JsonValue.object members).IsComposite := trivial
      dsimp only
      split
      · rename_i less
        rw [List.forall_mem_singleton, Access.InRange, forall_prop_of_true composite]
        exact and_iff_left less
      · rename_i atLeast
        apply iff_of_true
        · exact fun _ mem => nomatch mem
        · exact fun _ => le_trans (Int.natCast_nonneg _) (Int.not_lt.mp atLeast)
  | null | bool _ | integer _ | real _ | string _ =>
      apply iff_of_true
      · exact fun _ mem => nomatch mem
      · exact False.elim

theorem nestedAccesses_inRange_iff (sized : node.value.Sized) (name : Block) :
    (∀ access ∈ node.nestedAccesses name, access.InRange) ↔ node.NameNonneg name := by
  rw [nestedAccesses, NameNonneg]
  cases node.findMember name with
  | some position =>
      rw [nestedAtAccesses_inRange_iff sized]
      apply iff_of_true
      · exact fun _ => Int.natCast_nonneg position
      · exact nofun
  | none =>
      rw [forall_prop_of_true rfl]
      cases fromInt .w64 name with
      | none =>
          apply iff_of_true
          · exact fun _ mem => nomatch mem
          · exact fun _ => nofun
      | some index =>
          rw [nestedAtAccesses_inRange_iff sized]
          constructor
          · rintro nonneg composite _ ⟨⟩
            exact nonneg composite
          · intro nonneg composite
            exact nonneg composite index rfl

end JsonNode

namespace SizedNode

variable [ExpressionParser] [JsonLibrary]

def FindsInRange (node : SizedNode) (path : Path) (tags : List Block) : Prop :=
  ∀ access ∈ node.findTaggedAccesses path tags, access.InRange

def NestsInRange (node : SizedNode) (name : Block) : Prop :=
  ∀ access ∈ node.nestedAccesses name, access.InRange

def PathNonneg (node : SizedNode) (path : Path) (tags : List Block) : Prop :=
  JsonNode.PathNonneg tags { node.toJsonNode with name := none } path

/-- The accesses are in range unless a negative number leads out of an array or an object, for
the positions are only compared with the sizes. -/
theorem findsInRange_iff (node : SizedNode) :
    (∀ path tags, node.FindsInRange path tags ↔ node.PathNonneg path tags) ∧
      ∀ name, node.NestsInRange name ↔ node.NameNonneg name := by
  constructor
  · intro path tags
    have sized : ({ node.toJsonNode with name := none } : JsonNode).value.Sized := node.sized
    exact JsonNode.findTaggedFromAccesses_inRange_iff tags sized path
  · intro name
    exact JsonNode.nestedAccesses_inRange_iff node.sized name

end SizedNode

/-- The root of a document with an array of one element. -/
def singletonNode : SizedNode where
  place := []
  value := .array [.null]
  name := none
  sized := by
    rintro (_ | ⟨index, place⟩) elements reached
    · cases reached
      decide
    · rcases index with _ | index
      · cases place with
        | nil => cases reached
        | cons other place => cases reached
      · cases reached

/-- The index -1 is less than the size. -/
theorem not_forall_findsInRange :
    ¬∀ (node : SizedNode) (path : Path) (tags : List Block),
      @SizedNode.FindsInRange noExpressions linearSearch node path tags := by
  intro inRange
  have access : Access.element (-1) 1 ∈ @JsonNode.findTaggedAccesses noExpressions linearSearch
      singletonNode.toJsonNode [textOf "-1"] [] := by
    have read : @fromInt noExpressions .w64 (textOf "-1") = some (-1) := by
      decide +kernel
    have less : (-1 : Int) < ([JsonValue.null].length : Nat) := by decide
    simp only [JsonNode.findTaggedAccesses, JsonNode.findTaggedFromAccesses, singletonNode, read,
      less, if_true]
    exact List.mem_cons_self
  exact absurd (inRange singletonNode [textOf "-1"] [] _ access).2.1 (by decide)

end Eagine.ValueTree
