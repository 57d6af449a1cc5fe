import Eagine.ValueTree.JsonNode

/-!
# Lookup in JSON documents

An attribute below another one is found along a path, or by following the names in the
path one by one. The nodes are shared with all the attributes that are in use, so that
the name of an attribute may have come from an earlier lookup.
-/

namespace Eagine.ValueTree

open Serialization FromString List Option NodeTable
open Prod (fst snd)

/-! ## Places

Where a value is below another one, and what it is called there. -/

/-- A child of a value, with its name if it is a member. -/
def JsonValue.childAt (value : JsonValue) (index : Int) : Option (JsonValue × Option Block) :=
  match value with
  | .array elements => (subscript elements index).map fun value => (value, none)
  | .object members => (subscript members index).map fun entry => (entry.2, some entry.1)
  | _ => none

/-- The value at a place. -/
def JsonValue.at (value : JsonValue) : List Nat → Option JsonValue
  | [] => some value
  | index :: place => (value.childAt index).bind fun child => child.1.at place

theorem JsonValue.at_append (value : JsonValue) (place other : List Nat) :
    value.at (place ++ other) = (value.at place).bind fun reached => reached.at other := by
  induction place generalizing value with
  | nil => rfl
  | cons index place ih =>
      rw [cons_append, JsonValue.at, JsonValue.at]
      cases value.childAt index with
      | none => rfl
      | some child => exact ih child.1

variable {index : Int}

theorem nonneg_of_subscript {α : Type} {items : List α} {item : α}
    (found : subscript items index = some item) : 0 ≤ index := by
  cases index with
  | ofNat index => exact Int.natCast_nonneg index
  | negSucc index => cases found

theorem subscript_of_lt {α : Type} {items : List α} (nonneg : 0 ≤ index)
    (bounded : index < items.length) : ∃ item, subscript items index = some item := by
  lift index to Nat using nonneg
  have inside : index < items.length := by exact_mod_cast bounded
  exact ⟨items[index], getElem?_eq_getElem inside⟩

variable {value : JsonValue} {child : JsonValue × Option Block}

theorem JsonValue.nonneg_of_childAt (found : value.childAt index = some child) :
    0 ≤ index := by
  unfold JsonValue.childAt at found
  split at found
  · rcases map_eq_some_iff.mp found with ⟨_, at_index, _⟩
    exact nonneg_of_subscript at_index
  · rcases map_eq_some_iff.mp found with ⟨_, at_index, _⟩
    exact nonneg_of_subscript at_index
  · cases found

variable {path : Path} {name : Block}

section Positions

variable [ExpressionParser] [JsonLibrary]

/-- The value is no object, or one that has a member with the name. -/
def JsonValue.HasName (value : JsonValue) (name : Block) : Prop :=
  match value with
  | .object members =>
      (JsonLibrary.findMember (members.map fst) (cString name)).isSome = true
  | _ => True

/-- The index below a number of children that a name stands for. -/
def indexBelow (count : Nat) (name : Block) : Option Int :=
  (fromInt .w64 name).filter (· < count)

/-- The position of the child that a name stands for: that of a member with the name, or
else an index. -/
def JsonValue.position (value : JsonValue) (name : Block) : Option Int :=
  match value with
  | .object members =>
      match JsonLibrary.findMember (members.map fst) (cString name) with
      | some position => some position
      | none => indexBelow members.length name
  | .array elements => indexBelow elements.length name
  | _ => none

/-- The steps of a path, by positions and names of children, and the value they lead to. -/
def JsonValue.descend (value : JsonValue) : Path → Option (List (Nat × Option Block) × JsonValue)
  | [] => some ([], value)
  | name :: path =>
      (value.position name).bind fun index =>
        (value.childAt index).bind fun child =>
          (child.1.descend path).map fun reached =>
            ((index.toNat, child.2) :: reached.1, reached.2)

/-- Names and positions lead along the path, or to a negative position. -/
def JsonValue.Leads (value : JsonValue) : Path → Prop
  | [] => True
  | name :: path =>
      ∃ index, value.position name = some index ∧
        ∀ child, value.childAt index = some child → child.1.Leads path

/-- The path does not lead anywhere by way of the position of a member that has another
name, nor to a negative position. -/
def JsonValue.Named (value : JsonValue) : Path → Prop
  | [] => True
  | name :: path =>
      (value.HasName name → ∀ index, value.position name = some index →
        0 ≤ index ∧ ∀ child, value.childAt index = some child → child.1.Named path) ∧
      (¬value.HasName name → ¬value.Leads (name :: path))

theorem JsonValue.leads_of_descend {reached : List (Nat × Option Block) × JsonValue}
    (leadsTo : value.descend path = some reached) : value.Leads path := by
  induction path generalizing value reached with
  | nil => trivial
  | cons name path ih =>
      simp only [JsonValue.descend, bind_eq_some_iff, map_eq_some_iff] at leadsTo
      rcases leadsTo with ⟨index, position, child, found, later, onward, _⟩
      refine ⟨index, position, ?_⟩
      intro other same
      cases found.symm.trans same
      exact ih onward

/-- Only a negative position leads out of a value. -/
theorem JsonValue.childAt_of_position
    (position : value.position name = some index) (nonneg : 0 ≤ index) :
    ∃ child, value.childAt index = some child := by
  cases value with
  | array elements =>
      have bounded : index < elements.length :=
        of_decide_eq_true (filter_eq_some_iff.mp position).2
      rcases subscript_of_lt nonneg bounded with ⟨item, found⟩
      exact ⟨(item, none), by rw [JsonValue.childAt, found, map_some]⟩
  | object members =>
      have bounded : index < members.length := by
        simp only [JsonValue.position] at position
        split at position
        · rename_i place found
          cases position
          have inside := JsonLibrary.findMember_some found
          rcases List.getElem?_eq_some_iff.mp inside with ⟨bound, _⟩
          rw [length_map] at bound
          exact_mod_cast bound
        · exact of_decide_eq_true (filter_eq_some_iff.mp position).2
      rcases subscript_of_lt nonneg bounded with ⟨item, found⟩
      exact ⟨(item.2, some item.1), by rw [JsonValue.childAt, found, map_some]⟩
  | _ => cases position

end Positions

/-- The name of the last member among the steps. -/
def lastMember (steps : List (Nat × Option Block)) : Block :=
  ((steps.filterMap snd).getLast?).getD []

/-- The name that the last step has by itself. -/
def ownName (steps : List (Nat × Option Block)) : Block :=
  ((steps.getLast?).bind snd).getD []

variable {node : JsonNode} {steps : List (Nat × Option Block)}

namespace JsonNode

variable [ExpressionParser] [JsonLibrary]

/-- Nothing is left out of account but the name of the node. -/
theorem nested_eq (node : JsonNode) (name : Block) :
    node.nested name =
      match node.value.position name with
      | some index =>
          (node.value.childAt index).map fun child => some (node.below index child.1 child.2)
      | none => some none := by
  rcases node with ⟨place, value, own⟩
  cases value with
  | array elements =>
      simp only [nested, findMember, JsonValue.position, indexBelow, nestedAt, JsonValue.childAt]
      cases fromInt .w64 name with
      | none => rfl
      | some index =>
          by_cases bounded : index < elements.length
          · simp [Option.filter, bounded, Function.comp_def]
          · simp [Option.filter, bounded]
  | object members =>
      simp only [nested, findMember, JsonValue.position, indexBelow, nestedAt, JsonValue.childAt]
      cases found : JsonLibrary.findMember (members.map fst) (cString name) with
      | some position =>
          have inside := JsonLibrary.findMember_some found
          have bounded : position < members.length := by
            rcases List.getElem?_eq_some_iff.mp inside with ⟨bound, _⟩
            rwa [length_map] at bound
          simp [bounded, Function.comp_def]
      | none =>
          cases fromInt .w64 name with
          | none => rfl
          | some index =>
              by_cases bounded : index < members.length
              · simp [Option.filter, bounded, Function.comp_def]
              · simp [Option.filter, bounded]
  | _ =>
      simp only [nested, findMember, JsonValue.position, nestedAt]
      cases fromInt .w64 name <;> rfl

theorem findFrom_cons_of_hasName (named : node.value.HasName name) (path : Path) :
    node.findFrom (name :: path) =
      match node.value.position name with
      | some index =>
          (node.value.childAt index).bind fun child =>
            (node.below index child.1 (child.2.or node.name)).findFrom path
      | none => some none := by
  rcases node with ⟨place, value, own⟩
  cases value with
  | array elements =>
      simp only [findFrom, JsonValue.position, indexBelow, JsonValue.childAt]
      cases fromInt .w64 name with
      | none => rfl
      | some index =>
          by_cases bounded : index < elements.length
          · simp [Option.filter, bounded, bind_map, Function.comp_def]
          · simp [Option.filter, bounded]
  | object members =>
      rcases isSome_iff_exists.mp named with ⟨position, found⟩
      simp [findFrom, findMember, JsonValue.position, found, JsonValue.childAt, bind_map,
        Function.comp_def]
  | _ => rfl

theorem findFrom_cons_of_not_hasName (unnamed : ¬node.value.HasName name) (path : Path) :
    node.findFrom (name :: path) = some none := by
  rcases node with ⟨place, value, own⟩
  cases value with
  | object members =>
      have missing : JsonLibrary.findMember (members.map fst) (cString name) = none :=
        not_isSome_iff_eq_none.mp unnamed
      simp [findFrom, findMember, missing]
  | _ => exact absurd trivial unnamed

/-- The names are followed one by one, without the nodes that are in use. -/
def follow (node : JsonNode) : Path → Option (Option JsonNode)
  | [] => some (some node)
  | name :: path =>
      (node.nested name).bind fun found =>
        match found with
        | some next => next.follow path
        | none => some none

/-- The node at the end of some steps. -/
def descendant (node : JsonNode) (steps : List (Nat × Option Block)) (value : JsonValue)
    (name : Option Block) : JsonNode :=
  ⟨node.place ++ steps.map fst, value, name⟩

theorem follow_cons (node : JsonNode) (name : Block) (path : Path) :
    node.follow (name :: path) =
      match node.value.position name with
      | some index =>
          (node.value.childAt index).bind fun child =>
            (node.below index child.1 child.2).follow path
      | none => some none := by
  rw [follow, nested_eq]
  cases node.value.position name with
  | none => rfl
  | some index =>
      dsimp only
      cases node.value.childAt index with
      | none => rfl
      | some child => rfl

/-- The node itself counts only for its place and its value. -/
theorem follow_congr {node other : JsonNode} (samePlace : node.place = other.place)
    (sameValue : node.value = other.value) (name : Block) (path : Path) :
    node.follow (name :: path) = other.follow (name :: path) := by
  rw [follow_cons, follow_cons, sameValue]
  simp only [below, samePlace]

/-- Every name leads a step down. -/
theorem follow_place {node made : JsonNode} (follows : node.follow path = some (some made)) :
    ∃ places, made.place = node.place ++ places ∧ places.length = path.length := by
  induction path generalizing node with
  | nil =>
      cases follows
      exact ⟨[], (append_nil _).symm, rfl⟩
  | cons name path ih =>
      rw [follow_cons] at follows
      split at follows
      · rename_i index _
        rcases bind_eq_some_iff.mp follows with ⟨child, _, onward⟩
        rcases ih onward with ⟨places, place, length⟩
        refine ⟨index.toNat :: places, ?_, by rw [length_cons, length_cons, length]⟩
        rw [place, below, append_assoc, singleton_append]
      · cases follows

/-- The positions lead somewhere or out of bounds where following the names does. -/
theorem leads_iff (node : JsonNode) (path : Path) :
    node.value.Leads path ↔ node.follow path ≠ some none := by
  induction path generalizing node with
  | nil => simp [JsonValue.Leads, follow]
  | cons name path ih =>
      rw [follow_cons]
      cases position : node.value.position name with
      | none => simp [JsonValue.Leads, position]
      | some index =>
          cases found : node.value.childAt index with
          | none => simp [JsonValue.Leads, position, found]
          | some child =>
              rcases child with ⟨value, own⟩
              have tail : value.Leads path ↔ (node.below index value own).follow path ≠ some none :=
                ih (node.below index value own)
              simpa [JsonValue.Leads, position, found] using tail

/-- Following the names leads where the positions lead. -/
theorem follow_of_descend (node : JsonNode)
    (reached : node.value.descend path = some (steps, value)) :
    node.follow path = some (some (node.descendant steps value
      ((steps.getLast?).elim node.name snd))) := by
  induction path generalizing node steps with
  | nil =>
      cases reached
      simp [follow, descendant]
  | cons name path ih =>
      simp only [JsonValue.descend, bind_eq_some_iff, map_eq_some_iff] at reached
      rcases reached with ⟨index, position, child, found, ⟨later, last⟩, onward, same⟩
      cases same
      have tail := ih (node.below index child.1 child.2) onward
      rw [follow_cons, position]
      simp only [found, bind_some, tail]
      cases later with
      | nil => simp [descendant, below]
      | cons step later => simp [descendant, below, getLast?_cons]

/-- Along a named path the lookup finds what following the names does, but with the
name of the last member. -/
theorem findFrom_of_descend (node : JsonNode) (named : node.value.Named path)
    (reached : node.value.descend path = some (steps, value)) :
    node.findFrom path = some (some (node.descendant steps value
      (((steps.filterMap snd).getLast?).or node.name))) := by
  induction path generalizing node steps with
  | nil =>
      cases reached
      simp [findFrom, descendant]
  | cons name path ih =>
      simp only [JsonValue.descend, bind_eq_some_iff, map_eq_some_iff] at reached
      rcases reached with ⟨index, position, child, found, ⟨later, last⟩, onward, same⟩
      cases same
      by_cases hasName : node.value.HasName name
      · have namedTail := (named.1 hasName index position).2 child found
        have tail := ih (node.below index child.1 (child.2.or node.name)) namedTail onward
        rw [findFrom_cons_of_hasName hasName, position]
        simp only [found, bind_some, tail]
        rcases child with ⟨value, _ | own⟩
        · simp [descendant, below]
        · cases lastName : (later.filterMap snd).getLast? with
          | none => simp [descendant, below, getLast?_cons, lastName]
          | some name => simp [descendant, below, getLast?_cons, lastName]
      · have leadsTo : node.value.descend (name :: path) =
            some ((index.toNat, child.2) :: later, last) := by
          simp [JsonValue.descend, position, found, onward]
        exact absurd (JsonValue.leads_of_descend leadsTo) (named.2 hasName)

/-- Where a named path leads nowhere, neither way finds anything. -/
theorem not_found (node : JsonNode) (named : node.value.Named path)
    (nowhere : node.value.descend path = none) :
    node.follow path = some none ∧ node.findFrom path = some none := by
  induction path generalizing node with
  | nil => cases nowhere
  | cons name path ih =>
      by_cases hasName : node.value.HasName name
      · rw [follow_cons, findFrom_cons_of_hasName hasName]
        cases position : node.value.position name with
        | none => exact ⟨rfl, rfl⟩
        | some index =>
            rcases named.1 hasName index position with ⟨nonneg, onward⟩
            rcases JsonValue.childAt_of_position position nonneg with ⟨child, found⟩
            have later : child.1.descend path = none := by
              simpa [JsonValue.descend, position, found] using nowhere
            have namedTail := onward child found
            simp only [found, bind_some]
            exact ⟨(ih (node.below index child.1 child.2) namedTail later).1,
              (ih (node.below index child.1 _) namedTail later).2⟩
      · constructor
        · by_contra found
          exact named.2 hasName ((leads_iff node (name :: path)).mpr found)
        · exact findFrom_cons_of_not_hasName hasName path

/-- A path that is not named is out of bounds, or only one of the ways finds something. -/
theorem disagree_of_not_named (node other : JsonNode) (samePlace : node.place = other.place)
    (sameValue : node.value = other.value) (unnamed : ¬node.value.Named path)
    {found followed : Option JsonNode} (finds : node.findFrom path = some found)
    (follows : other.follow path = some followed) : ¬(found = none ↔ followed = none) := by
  induction path generalizing node other with
  | nil => exact absurd trivial unnamed
  | cons name path ih =>
      by_cases hasName : node.value.HasName name
      · rw [findFrom_cons_of_hasName hasName] at finds
        rw [follow_cons, ← sameValue] at follows
        have stray : ∃ index, node.value.position name = some index ∧ (0 ≤ index →
            ∃ child, node.value.childAt index = some child ∧ ¬child.1.Named path) := by
          by_contra none
          push Not at none
          apply unnamed
          constructor
          · intro _ index position
            exact none index position
          · exact fun without => absurd hasName without
        rcases stray with ⟨index, position, onward⟩
        simp only [position] at finds follows
        rcases bind_eq_some_iff.mp finds with ⟨child, found, finds⟩
        rcases onward (JsonValue.nonneg_of_childAt found) with ⟨stray, same, unnamedTail⟩
        cases found.symm.trans same
        simp only [found, bind_some] at follows
        exact ih (node.below index child.1 _) (other.below index child.1 child.2)
          (by simp [below, samePlace]) rfl unnamedTail finds follows
      · rw [findFrom_cons_of_not_hasName hasName] at finds
        cases finds
        have leads : node.value.Leads (name :: path) := by
          by_contra nowhere
          exact unnamed ⟨fun named => absurd named hasName, fun _ => nowhere⟩
        rw [sameValue] at leads
        have something := (leads_iff other (name :: path)).mp leads
        intro same
        rw [same.mp rfl] at follows
        exact something follows

end JsonNode

namespace JsonCompound

/-- A node of a value at its place. Only the root of the document is at its place, and it
has no name. -/
structure Refers (document : JsonValue) (node : JsonNode) : Prop where
  placed : document.at node.place = some node.value
  rootless : node.place = [] → node.name = none

/-- No two nodes are of the same value. -/
structure Valid (compound : JsonCompound) : Prop where
  table : compound.table.Valid
  distinct : (compound.table.contents.map (·.place)).Nodup
  refers : ∀ node ∈ compound.table.contents, Refers compound.document node

/-- The node at a place, if it is in use. -/
def inUse (compound : JsonCompound) (place : List Nat) : Option JsonNode :=
  compound.table.contents.find? fun node => place == node.place

variable {compound : JsonCompound} {attrib : Attribute}

theorem inUse_of_mem (valid : compound.Valid)
    (mem : node ∈ compound.table.contents) : compound.inUse node.place = some node := by
  have distinct := valid.distinct
  unfold inUse
  generalize compound.table.contents = nodes at mem distinct
  induction nodes with
  | nil => exact absurd mem not_mem_nil
  | cons first nodes ih =>
      rw [map_cons, nodup_cons] at distinct
      rcases mem_cons.mp mem with rfl | later
      · simp
      · have apart : node.place ≠ first.place := fun same =>
          distinct.1 (same ▸ mem_map_of_mem later)
        rw [find?_cons, beq_eq_false_iff_ne.mpr apart]
        exact ih later distinct.2

theorem place_of_inUse {place : List Nat}
    (used : compound.inUse place = some node) : place = node.place := by
  unfold inUse at used
  have same := find?_some used
  exact beq_iff_eq.mp same

/-- What is in use at the place of a node is of the same value. -/
theorem inUse_getD (valid : compound.Valid) (refers : Refers compound.document node) :
    ((compound.inUse node.place).getD node).place = node.place ∧
      ((compound.inUse node.place).getD node).value = node.value := by
  cases used : compound.inUse node.place with
  | none => exact ⟨rfl, rfl⟩
  | some other =>
      have place := place_of_inUse used
      have placed := (valid.refers other (mem_of_find?_eq_some used)).placed
      rw [← place, refers.placed] at placed
      exact ⟨place.symm, (Option.some.inj placed).symm⟩

theorem refers_unwrap (valid : compound.Valid)
    (used : compound.unwrap attrib = some node) : Refers compound.document node := by
  cases attrib with
  | root =>
      cases used
      exact ⟨rfl, fun _ => rfl⟩
  | node address => exact valid.refers node (mem_contents_of_nodeAt used)

/-- What making a node comes to: the node that is in use at its place, or else a new one. -/
theorem makeValueNode_spec (valid : compound.Valid) (refers : Refers compound.document node) :
    ∃ attrib after, makeValueNode (some node) compound = some (some attrib, after) ∧
      after.Valid ∧ after.document = compound.document ∧
      after.unwrap attrib = some ((compound.inUse node.place).getD node) ∧
      ∀ place, place ≠ node.place → after.inUse place = compound.inUse place := by
  rcases makeNode_spec valid.table node with ⟨atAddress, contents⟩
  let after : JsonCompound := { compound with table := (compound.table.makeNode node).2 }
  have same : compound.table.contents.find? (node == ·) = compound.inUse node.place := rfl
  rw [same] at atAddress contents
  have afterContents : after.table.contents =
      if (compound.inUse node.place).isSome then compound.table.contents
      else compound.table.contents ++ [node] := contents
  refine ⟨.node (compound.table.makeNode node).1, after, rfl, ?_, rfl, atAddress, ?_⟩
  · cases used : compound.inUse node.place with
    | some other =>
        rw [used] at afterContents
        constructor
        · exact valid_makeNode valid.table node
        · rw [afterContents]
          exact valid.distinct
        · rw [afterContents]
          exact valid.refers
    | none =>
        rw [used] at afterContents
        have absent : ∀ other ∈ compound.table.contents, other.place ≠ node.place := by
          intro other mem same
          have apart := find?_eq_none.mp used other mem
          exact apart (beq_iff_eq.mpr same.symm)
        constructor
        · exact valid_makeNode valid.table node
        · rw [afterContents]
          simp only [isSome_none, Bool.false_eq_true, if_false, map_append,
            map_cons, map_nil]
          rw [nodup_append]
          constructor
          · exact valid.distinct
          constructor
          · exact nodup_singleton _
          · intro place mem other last
            rcases mem_map.mp mem with ⟨old, within, rfl⟩
            rw [mem_singleton.mp last]
            exact absent old within
        · rw [afterContents]
          intro other mem
          rcases mem_append.mp mem with old | new
          · exact valid.refers other old
          · rw [mem_singleton.mp new]
            exact refers
  · intro place other
    rw [inUse, afterContents]
    split
    · rfl
    · rw [find?_append, inUse]
      simp [other]

variable {document : JsonValue}

theorem refers_below (refers : Refers document node)
    (found : node.value.childAt index = some child) (name : Option Block) :
    Refers document (node.below index child.1 name) where
  placed := by
    have nonneg := JsonValue.nonneg_of_childAt found
    rw [JsonNode.below, JsonValue.at_append, refers.placed, bind_some, JsonValue.at,
      Int.toNat_of_nonneg nonneg, found]
    rfl
  rootless top := absurd top (by simp [JsonNode.below])

theorem refers_nestedAt {node next : JsonNode}
    (refers : Refers document node) (found : node.nestedAt index = some (some next)) :
    Refers document next := by
  unfold JsonNode.nestedAt at found
  split at found
  · rename_i elements isArray
    split at found
    · rcases map_eq_some_iff.mp found with ⟨value, item, same⟩
      cases same
      have child : node.value.childAt index = some (value, none) := by
        rw [isArray, JsonValue.childAt, item, map_some]
      exact refers_below refers child none
    · cases found
  · rename_i members isObject
    split at found
    · rcases map_eq_some_iff.mp found with ⟨entry, item, same⟩
      cases same
      have child : node.value.childAt index = some (entry.2, some entry.1) := by
        rw [isObject, JsonValue.childAt, item, map_some]
      exact refers_below refers child (some entry.1)
    · cases found
  · cases found

theorem valid_makeValueNode (valid : compound.Valid) {made : Option JsonNode}
    (refers : ∀ node, made = some node → Refers compound.document node) {attrib : Option Attribute}
    {after : JsonCompound} (run : makeValueNode made compound = some (attrib, after)) :
    after.Valid ∧ after.document = compound.document := by
  cases made with
  | none =>
      cases run
      exact ⟨valid, rfl⟩
  | some node =>
      rcases makeValueNode_spec valid (refers node rfl) with ⟨_, other, makes, result, same, _⟩
      cases makes.symm.trans run
      exact ⟨result, same⟩

theorem valid_release (valid : compound.Valid) (attrib : Attribute) :
    (compound.release attrib).Valid := by
  cases attrib with
  | root => exact valid
  | node address =>
      have fewer := contents_release compound.table address
      constructor
      · exact NodeTable.valid_release valid.table address
      · exact (fewer.map (·.place)).nodup valid.distinct
      · intro node mem
        exact valid.refers node (fewer.subset mem)

theorem valid_addRef (valid : compound.Valid) (attrib : Attribute) :
    (compound.addRef attrib).Valid := by
  cases attrib with
  | root => exact valid
  | node address =>
      have same := contents_addRef compound.table address
      constructor
      · exact NodeTable.valid_addRef valid.table address
      · rw [addRef, same]
        exact valid.distinct
      · intro node mem
        rw [addRef, same] at mem
        exact valid.refers node mem

section Lookups

variable [ExpressionParser] [JsonLibrary]

theorem refers_nested {node next : JsonNode}
    (refers : Refers document node) (found : node.nested name = some (some next)) :
    Refers document next := by
  unfold JsonNode.nested at found
  split at found
  · exact refers_nestedAt refers found
  · split at found
    · exact refers_nestedAt refers found
    · cases found

theorem refers_findFrom {found : JsonNode} (node : JsonNode)
    (refers : Refers document node) (finds : node.findFrom path = some (some found)) :
    Refers document found := by
  induction path generalizing node with
  | nil =>
      cases finds
      exact refers
  | cons name path ih =>
      by_cases hasName : node.value.HasName name
      · rw [JsonNode.findFrom_cons_of_hasName hasName] at finds
        split at finds
        · rcases bind_eq_some_iff.mp finds with ⟨child, item, onward⟩
          exact ih _ (refers_below refers item _) onward
        · cases finds
      · rw [JsonNode.findFrom_cons_of_not_hasName hasName] at finds
        cases finds

theorem refers_find {node found : JsonNode}
    (refers : Refers document node) (finds : node.find path = some (some found)) :
    Refers document found :=
  refers_findFrom { node with name := none } ⟨refers.placed, fun _ => rfl⟩ finds

omit [ExpressionParser] [JsonLibrary] in
/-- A node that is sought from one that is in use is made into a valid one. -/
theorem valid_sought {after : JsonCompound} (valid : compound.Valid)
    {seek : JsonNode → Option (Option JsonNode)}
    (refers : ∀ node next, Refers compound.document node → seek node = some (some next) →
      Refers compound.document next)
    (run : ((compound.unwrap attrib).bind fun node => (seek node).bind fun made =>
      makeValueNode made compound).map snd = some after) : after.Valid := by
  rcases map_eq_some_iff.mp run with ⟨⟨made, result⟩, calls, rfl⟩
  rcases bind_eq_some_iff.mp calls with ⟨node, used, calls⟩
  rcases bind_eq_some_iff.mp calls with ⟨candidate, found, makes⟩
  refine (valid_makeValueNode valid ?_ makes).1
  rintro next rfl
  exact refers node next (refers_unwrap valid used) found

/-- A call keeps the nodes valid. -/
theorem valid_perform {after : JsonCompound} (valid : compound.Valid) {call : Call}
    (run : compound.perform call = some after) : after.Valid := by
  cases call with
  | nested attrib name => exact valid_sought valid (fun _ _ refers => refers_nested refers) run
  | nestedAt attrib index => exact valid_sought valid (fun _ _ refers => refers_nestedAt refers) run
  | find attrib path => exact valid_sought valid (fun _ _ refers => refers_find refers) run
  | addRef attrib =>
      cases run
      exact valid_addRef valid attrib
  | release attrib =>
      cases run
      exact valid_release valid attrib

/-- Whatever calls a compound gets, its nodes are valid. -/
theorem valid_after {calls : List Call}
    (run : after document calls = some compound) : compound.Valid := by
  have start : ({ document := document } : JsonCompound).Valid := by
    constructor
    · exact valid_empty
    · exact nodup_nil
    · intro node mem
      exact nomatch mem
  unfold after at run
  generalize ({ document := document } : JsonCompound) = before at run start
  induction calls generalizing before with
  | nil =>
      cases run
      exact start
  | cons call calls ih =>
      rw [foldlM_cons] at run
      rcases bind_eq_some_iff.mp run with ⟨next, first, rest⟩
      exact ih next rest (valid_perform start first)

/-- The names in the path are followed one by one. -/
def followNames (attrib : Attribute) : Path → StateT JsonCompound Option (Option Attribute)
  | [] => pure (some attrib)
  | name :: path => do
      match ← nested attrib name with
      | some next => followNames next path
      | none => pure none

/-- What can be seen of an attribute: which value it is of, and its name. -/
def view (compound : JsonCompound) (attrib : Option Attribute) : Option (List Nat × Block) :=
  (attrib.bind (compound.unwrap ·)).map fun node => (node.place, node.nameText)

/-- Both ways stay in bounds, and they come to attributes of the same value with the same
name, or to none. -/
def LookupsAgree (compound : JsonCompound) (attrib : Attribute) (path : Path) : Prop :=
  ∃ found afterFind followed afterFollow,
    find attrib path compound = some (found, afterFind) ∧
      followNames attrib path compound = some (followed, afterFollow) ∧
      afterFind.view found = afterFollow.view followed

/-- A lookup of attributes comes to what a lookup of nodes does, or to what is in use
there. -/
def Comes (compound : JsonCompound) (made : Option (Option JsonNode))
    (run : Option (Option Attribute × JsonCompound)) : Prop :=
  match made with
  | none => run = none
  | some none => ∃ after, run = some (none, after)
  | some (some node) =>
      ∃ attrib after, run = some (some attrib, after) ∧
        after.unwrap attrib = some ((compound.inUse node.place).getD node)

omit [ExpressionParser] [JsonLibrary] in
theorem comes_makeValueNode (valid : compound.Valid) {made : Option JsonNode}
    (refers : ∀ node, made = some node → Refers compound.document node) :
    Comes compound (some made) (makeValueNode made compound) := by
  cases made with
  | none => exact ⟨compound, rfl⟩
  | some node =>
      rcases makeValueNode_spec valid (refers node rfl) with ⟨attrib, after, makes, _, _, used, _⟩
      exact ⟨attrib, after, makes, used⟩

theorem find_comes (valid : compound.Valid)
    (used : compound.unwrap attrib = some node) (path : Path) :
    Comes compound (node.find path) (find attrib path compound) := by
  have run : find attrib path compound =
      (node.find path).bind fun made => makeValueNode made compound := by
    simp only [find, used]
    rfl
  rw [run]
  cases found : node.find path with
  | none => rfl
  | some made =>
      apply comes_makeValueNode valid
      rintro next rfl
      exact refers_find (refers_unwrap valid used) found

omit [ExpressionParser] [JsonLibrary] in
/-- A node in use is the one at its place. -/
theorem inUse_unwrap (valid : compound.Valid) (used : compound.unwrap attrib = some node) :
    compound.inUse node.place = some node ∨
      (compound.inUse node.place = none ∧ node.name = none) := by
  cases attrib with
  | root =>
      cases used
      cases found : compound.inUse [] with
      | none => exact Or.inr ⟨rfl, rfl⟩
      | some other =>
          have mem := mem_of_find?_eq_some found
          have top : other.place = [] := (place_of_inUse found).symm
          rcases valid.refers other mem with ⟨placed, rootless⟩
          rcases other with ⟨place, value, name⟩
          cases top
          cases rootless rfl
          cases placed
          exact Or.inl rfl
  | node address =>
      exact Or.inl (inUse_of_mem valid (mem_contents_of_nodeAt used))

theorem followNames_cons (used : compound.unwrap attrib = some node) (name : Block) (path : Path) :
    followNames attrib (name :: path) compound =
      (node.nested name).bind fun made =>
        (makeValueNode made compound).bind fun nested =>
          match nested.1 with
          | some next => followNames next path nested.2
          | none => some (none, nested.2) := by
  have run : nested attrib name compound =
      (node.nested name).bind fun made => makeValueNode made compound := by
    simp only [nested, used]
    rfl
  have step : followNames attrib (name :: path) compound =
      (nested attrib name compound).bind fun nested =>
          match nested.1 with
          | some next => followNames next path nested.2
          | none => some (none, nested.2) := by
    simp only [followNames, StateT.bind, bind]
    cases nested attrib name compound with
    | none => rfl
    | some result => rcases result with ⟨_ | next, after⟩ <;> rfl
  rw [step, run, bind_assoc]

/-- The attributes that are in use on the way do not matter. -/
theorem followNames_comes (valid : compound.Valid)
    (used : compound.unwrap attrib = some node) (path : Path) :
    Comes compound (node.follow path) (followNames attrib path compound) := by
  induction path generalizing compound attrib node with
  | nil =>
      refine ⟨attrib, compound, rfl, ?_⟩
      rcases inUse_unwrap valid used with same | ⟨free, _⟩
      · rw [used, same, getD_some]
      · rw [used, free, getD_none]
  | cons name path ih =>
      rw [followNames_cons used, JsonNode.follow]
      cases found : node.nested name with
      | none => rfl
      | some made =>
          cases made with
          | none => exact ⟨compound, rfl⟩
          | some next =>
              have refers := refers_nested (refers_unwrap valid used) found
              rcases makeValueNode_spec valid refers with
                ⟨nextAttrib, after, makes, afterValid, _, usedNext, others⟩
              rcases inUse_getD valid refers with ⟨samePlace, sameValue⟩
              simp only [bind_some, makes]
              cases path with
              | nil => exact ⟨nextAttrib, after, rfl, usedNext⟩
              | cons other path =>
                  have tail := ih afterValid usedNext
                  rw [JsonNode.follow_congr samePlace sameValue] at tail
                  cases follows : next.follow (other :: path) with
                  | none =>
                      rw [follows] at tail
                      exact tail
                  | some last =>
                      cases last with
                      | none =>
                          rw [follows] at tail
                          exact tail
                      | some last =>
                          rw [follows] at tail
                          rcases tail with ⟨lastAttrib, final, run, usedLast⟩
                          rcases JsonNode.follow_place follows with ⟨places, place, length⟩
                          have below : last.place ≠ next.place := by
                            rw [place]
                            intro same
                            rw [append_right_eq_self.mp same] at length
                            cases length
                          rw [others last.place below] at usedLast
                          exact ⟨lastAttrib, final, run, usedLast⟩

omit [ExpressionParser] [JsonLibrary] in
/-- Something is seen where a node was found. -/
theorem comes_view {after : JsonCompound} {made : Option (Option JsonNode)}
    {run : Option (Option Attribute × JsonCompound)} (comes : Comes compound made run)
    {attrib : Option Attribute} (result : run = some (attrib, after)) :
    ∃ found, made = some found ∧ (after.view attrib = none ↔ found = none) := by
  cases made with
  | none => cases comes.symm.trans result
  | some found =>
      refine ⟨found, rfl, ?_⟩
      cases found with
      | none =>
          rcases comes with ⟨final, none⟩
          cases none.symm.trans result
          exact iff_of_true rfl rfl
      | some node =>
          rcases comes with ⟨other, final, some, used⟩
          cases some.symm.trans result
          simp [view, used]

/-- Where the names lead to, both ways come to the same value. -/
theorem lookupsAgree_of_descend (valid : compound.Valid)
    (used : compound.unwrap attrib = some node) (named : node.value.Named path)
    (reached : node.value.descend path = some (steps, value)) :
    LookupsAgree compound attrib path ↔
      compound.inUse (node.place ++ steps.map fst) ≠ none ∨
        lastMember steps = ownName steps := by
  have finds := find_comes valid used path
  have follows := followNames_comes valid used path
  have found : node.find path = _ :=
    JsonNode.findFrom_of_descend { node with name := none } named reached
  rw [JsonNode.follow_of_descend node reached] at follows
  rw [found] at finds
  rcases finds with ⟨foundAttrib, afterFind, findRun, usedFind⟩
  rcases follows with ⟨followedAttrib, afterFollow, followRun, usedFollow⟩
  have views : LookupsAgree compound attrib path ↔
      afterFind.view (some foundAttrib) = afterFollow.view (some followedAttrib) := by
    constructor
    · rintro ⟨_, _, _, _, finds, follows, same⟩
      cases finds.symm.trans findRun
      cases follows.symm.trans followRun
      exact same
    · intro same
      exact ⟨_, _, _, _, findRun, followRun, same⟩
  rw [views, view, view, bind_some, bind_some, usedFind, usedFollow]
  simp only [JsonNode.descendant, map_some, Option.some.injEq]
  cases inPlace : compound.inUse (node.place ++ steps.map fst) with
  | some other => simp
  | none =>
      cases steps with
      | nil =>
          rw [map_nil, append_nil] at inPlace
          rcases inUse_unwrap valid used with same | ⟨_, unnamed⟩
          · rw [inPlace] at same
            cases same
          · simp [JsonNode.nameText, unnamed, lastMember, ownName]
      | cons step steps => simp [JsonNode.nameText, lastMember, ownName, getLast?_cons]

/-- A lookup along a path finds the attribute that the names in the path lead to, under
the same name, exactly where no position of a member leads anywhere, and where the
attribute is in use already, or is a member, or has no named member above it. -/
theorem lookupsAgree_iff {document : JsonValue} {calls : List Call} {compound : JsonCompound}
    (run : after document calls = some compound) {attrib : Attribute} {node : JsonNode}
    (used : compound.unwrap attrib = some node) (path : Path) :
    LookupsAgree compound attrib path ↔
      node.value.Named path ∧
        ∀ steps value, node.value.descend path = some (steps, value) →
          compound.inUse (node.place ++ steps.map fst) ≠ none ∨
            lastMember steps = ownName steps := by
  have valid := valid_after run
  by_cases named : node.value.Named path
  · rw [and_iff_right named]
    cases reached : node.value.descend path with
    | none =>
        have finds := find_comes valid used path
        have follows := followNames_comes valid used path
        rcases JsonNode.not_found node named reached with ⟨notFollowed, _⟩
        rcases JsonNode.not_found { node with name := none } named reached with ⟨_, notFound⟩
        rw [notFollowed] at follows
        rw [JsonNode.find, notFound] at finds
        rcases finds with ⟨afterFind, findRun⟩
        rcases follows with ⟨afterFollow, followRun⟩
        constructor
        · intro _ steps value leads
          cases leads
        · intro _
          exact ⟨none, afterFind, none, afterFollow, findRun, followRun, rfl⟩
    | some last =>
        rw [lookupsAgree_of_descend valid used named reached]
        constructor
        · intro agrees steps value same
          cases same
          exact agrees
        · intro agrees
          exact agrees last.1 last.2 rfl
  · apply iff_of_false
    · rintro ⟨found, afterFind, followed, afterFollow, findRun, followRun, same⟩
      rcases comes_view (find_comes valid used path) findRun with ⟨made, finds, foundNone⟩
      rcases comes_view (followNames_comes valid used path) followRun with
        ⟨last, follows, followedNone⟩
      apply JsonNode.disagree_of_not_named { node with name := none } node rfl rfl named finds follows
      rw [← foundNone, ← followedNone, same]
    · exact fun both => named both.1

end Lookups

/-- An object with an object in it. -/
def nestedDocument : JsonValue :=
  .object [([byteOf 'a'], .object [([byteOf 'b'], .null)])]

theorem lookupsAgree_iff_member :
    @LookupsAgree noExpressions linearSearch { document := nestedDocument } .root
      [[byteOf 'a'], [byteOf 'b']] := by
  apply (@lookupsAgree_iff noExpressions linearSearch nestedDocument [] _ rfl _ _ rfl _).mpr
  constructor
  · constructor
    · rintro _ index ⟨⟩
      refine ⟨by decide, ?_⟩
      rintro child ⟨⟩
      constructor
      · rintro _ index ⟨⟩
        exact ⟨by decide, fun _ _ => trivial⟩
      · exact fun unnamed => absurd rfl unnamed
    · exact fun unnamed => absurd rfl unnamed
  · rintro steps value ⟨⟩
    exact Or.inr rfl

/-- The position of a member is followed, but not found. -/
theorem not_lookupsAgree_position :
    ¬@LookupsAgree noExpressions linearSearch { document := nestedDocument } .root
      [[byteOf '0']] := by
  rintro ⟨found, afterFind, followed, afterFollow, finds, follows, same⟩
  cases finds
  cases follows
  cases same

end JsonCompound

end Eagine.ValueTree
