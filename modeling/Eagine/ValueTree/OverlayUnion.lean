import Eagine.ValueTree.OverlayRuns

/-!
# The children of an overlay

An attribute lists the names that any of the documents has below its path, and takes its
values from the document that was added last, where no name is mistaken for another: an
empty one for an index, or one that ends with a null character for one without it.
-/

namespace Eagine.ValueTree

open Serialization FromString Relation List

/-- The names of the children of a value: the members of an object, or the indices of the
elements of an array. -/
def JsonValue.childNames : JsonValue → List Block
  | .array elements => (List.range elements.length).map indexText
  | .object members => members.map Prod.fst
  | _ => []

variable {found : JsonNode} {name : Block}

theorem JsonNode.childKey_element {elements : List JsonValue}
    (value : found.value = .array elements) {index : Nat} (bound : index < elements.length) :
    found.childKey index = indexText index := by
  have inRange : (index : Int) < elements.length := Int.ofNat_lt.mpr bound
  have item : subscript elements (index : Int) = some elements[index] :=
    getElem?_eq_getElem bound
  rw [childKey, nestedAt, value]
  simp only [inRange, if_true, item]
  rfl

theorem JsonNode.childKey_member {members : List (Block × JsonValue)}
    (value : found.value = .object members) {index : Nat} (bound : index < members.length) :
    found.childKey index =
      if members[index].1.isEmpty then indexText index else members[index].1 := by
  have inRange : (index : Int) < members.length := Int.ofNat_lt.mpr bound
  have item : subscript members (index : Int) = some members[index] :=
    getElem?_eq_getElem bound
  rw [childKey, nestedAt, value]
  simp only [inRange, if_true, item]
  rfl

variable {key : Block}

/-- A key is the name of a child, or stands in for an empty one. -/
theorem JsonNode.mem_childKeys (mem : key ∈ found.childKeys) :
    key ∈ found.value.childNames ∨ ([] ∈ found.value.childNames ∧ ∃ index, key = indexText index) := by
  rcases mem_map.mp mem with ⟨index, within, rfl⟩
  have bound := mem_range.mp within
  cases value : found.value with
  | array elements =>
      rw [value] at bound
      rw [childKey_element value bound]
      exact Or.inl (mem_map_of_mem (mem_range.mpr bound))
  | object members =>
      rw [value] at bound
      rw [childKey_member value bound]
      have named : members[index].1 ∈ members.map Prod.fst :=
        mem_map_of_mem (getElem_mem bound)
      split
      · rename_i empty
        rw [List.isEmpty_iff.mp empty] at named
        exact Or.inr ⟨named, index, rfl⟩
      · exact Or.inl named
  | _ =>
      rw [value] at bound
      cases bound

theorem JsonNode.childKey_ne_nil (mem : key ∈ found.childKeys) : key ≠ [] := by
  rcases mem_map.mp mem with ⟨index, _, rfl⟩
  unfold childKey
  extract_lets name
  split_ifs with empty
  · exact indexText_ne_nil index
  · exact mt isEmpty_iff.mpr empty

/-- A name that is not empty is a key. -/
theorem JsonNode.mem_childKeys_of_name (mem : name ∈ found.value.childNames)
    (nonempty : name ≠ []) : name ∈ found.childKeys := by
  cases value : found.value with
  | array elements =>
      rw [value] at mem
      rcases mem_map.mp mem with ⟨index, within, rfl⟩
      rw [← childKey_element value (mem_range.mp within)]
      apply mem_map_of_mem
      rw [value]
      exact within
  | object members =>
      rw [value] at mem
      rcases mem_map.mp mem with ⟨entry, within, rfl⟩
      rcases mem_iff_getElem.mp within with ⟨index, bound, rfl⟩
      have key := childKey_member value bound
      rw [if_neg (mt List.isEmpty_iff.mp nonempty)] at key
      rw [← key]
      apply mem_map_of_mem
      rw [value]
      exact mem_range.mpr bound
  | _ =>
      rw [value] at mem
      cases mem

theorem fixName_eq_self (last : name.getLast? ≠ some 0) : fixName name = name := by
  rw [fixName, rdropWhile_eq_self_iff]
  intro nonempty zero
  apply last
  rw [getLast?_eq_some_getLast nonempty, beq_iff_eq.mp zero]

theorem getLast?_fixName (name : Block) : (fixName name).getLast? ≠ some 0 := by
  intro last
  have nonempty : fixName name ≠ [] := by
    intro empty
    rw [empty] at last
    cases last
  rw [getLast?_eq_some_getLast nonempty] at last
  have zero := Option.some.inj last
  exact rdropWhile_last_not (· == 0) name nonempty (beq_iff_eq.mpr zero)

/-- An index has characters, and the last one is a digit. -/
theorem getLast?_indexText (index : Nat) : (indexText index).getLast? ≠ some 0 := by
  intro last
  exact nonzero_of_mem_indexText (mem_of_getLast? last) rfl

section Documents

variable [ExpressionParser] [JsonLibrary]

/-- The names of the children that the documents have at a path. -/
def unionNames (overlays : List JsonValue) (path : Path) : List Block :=
  overlays.flatMap fun overlay =>
    match overlay.findPath path with
    | some (some found) => found.value.childNames
    | _ => []

/-- What the first of the documents that have a path has there. -/
def FirstIn (overlays : List JsonValue) (path : Path) : Option JsonNode → Prop
  | some found => ∃ before overlay rest, overlays = before ++ overlay :: rest ∧
      (∀ other ∈ before, other.findPath path = some none) ∧
      overlay.findPath path = some (some found)
  | none => ∀ overlay ∈ overlays, overlay.findPath path = some none

variable {overlays : List JsonValue} {path : Path}

/-- What any of the documents has at a path. -/
theorem mem_atPath {names : JsonNode → List Block} :
    (name ∈ overlays.flatMap fun overlay =>
        match overlay.findPath path with
        | some (some found) => names found
        | _ => []) ↔
      ∃ overlay ∈ overlays, ∃ found,
        overlay.findPath path = some (some found) ∧ name ∈ names found := by
  rw [mem_flatMap]
  constructor
  · rintro ⟨overlay, mem, within⟩
    split at within
    · rename_i found same
      exact ⟨overlay, mem, found, same, within⟩
    · cases within
  · rintro ⟨overlay, mem, found, same, within⟩
    refine ⟨overlay, mem, ?_⟩
    rw [same]
    exact within

theorem mem_unionNames :
    name ∈ unionNames overlays path ↔ ∃ overlay ∈ overlays, ∃ found,
      overlay.findPath path = some (some found) ∧ name ∈ found.value.childNames :=
  mem_atPath

theorem mem_keysAt :
    name ∈ keysAt overlays path ↔ ∃ overlay ∈ overlays, ∃ found,
      overlay.findPath path = some (some found) ∧ name ∈ found.childKeys :=
  mem_atPath

theorem mem_unionNames_of_key (mem : key ∈ keysAt overlays path) :
    key ∈ unionNames overlays path ∨
      ([] ∈ unionNames overlays path ∧ ∃ index, key = indexText index) := by
  rcases mem_keysAt.mp mem with ⟨overlay, within, found, same, keyed⟩
  rcases JsonNode.mem_childKeys keyed with named | ⟨empty, index⟩
  · exact Or.inl (mem_unionNames.mpr ⟨overlay, within, found, same, named⟩)
  · exact Or.inr ⟨mem_unionNames.mpr ⟨overlay, within, found, same, empty⟩, index⟩

theorem mem_keysAt_of_name (mem : name ∈ unionNames overlays path) (nonempty : name ≠ []) :
    name ∈ keysAt overlays path := by
  rcases mem_unionNames.mp mem with ⟨overlay, within, found, same, named⟩
  exact mem_keysAt.mpr ⟨overlay, within, found, same, JsonNode.mem_childKeys_of_name named nonempty⟩

theorem key_ne_nil (mem : key ∈ keysAt overlays path) : key ≠ [] := by
  rcases mem_keysAt.mp mem with ⟨overlay, within, found, same, keyed⟩
  exact JsonNode.childKey_ne_nil keyed

theorem findSource_first (inBounds : InBounds overlays path) :
    ∃ found, findSource path overlays = some found ∧ FirstIn overlays path found := by
  induction overlays with
  | nil => exact ⟨none, rfl, fun _ mem => nomatch mem⟩
  | cons overlay overlays ih =>
      rw [findSource]
      cases made : overlay.findPath path with
      | none => exact absurd made (inBounds overlay mem_cons_self)
      | some result =>
          cases result with
          | some node =>
              have nothing : ∀ other ∈ ([] : List JsonValue), other.findPath path = some none :=
                fun _ mem => nomatch mem
              exact ⟨some node, rfl, [], overlay, overlays, rfl, nothing, made⟩
          | none =>
              rcases ih fun other mem => inBounds other (mem_cons_of_mem overlay mem) with
                ⟨found, source, first⟩
              refine ⟨found, source, ?_⟩
              have here : ∀ others : List JsonValue, (∀ other ∈ others, other.findPath path = some none) →
                  ∀ other ∈ overlay :: others, other.findPath path = some none := by
                intro others same other mem
                rcases mem_cons.mp mem with rfl | later
                · exact made
                · exact same other later
              cases found with
              | none => exact here overlays first
              | some node =>
                  rcases first with ⟨before, hit, rest, rfl, others, same⟩
                  exact ⟨overlay :: before, hit, rest, rfl, here before others, same⟩

end Documents

namespace OverlayCompound

/-- The reference that a child may have is to a node. -/
def ChildInfo.Kept (compound : OverlayCompound) (child : ChildInfo) : Prop :=
  ∀ address, child.cached = some address → compound.table.nodeAt address ≠ none

variable {attrib : Attribute} {child : ChildInfo} {compound : OverlayCompound}
  {node : OverlayAttribute}

theorem kept_update {later : OverlayAttribute} :
    ChildInfo.Kept (compound.update attrib later) child ↔
      ChildInfo.Kept compound child :=
  forall_congr' fun address => imp_congr_right fun _ =>
    not_congr (isNone_update compound attrib (.node address) later)

variable {path : Path}

theorem name_of_path (samePath : node.path = path ++ [name]) : node.name = name := by
  rw [OverlayAttribute.name, samePath, getLast?_concat]
  rfl

section Queries

variable [ExpressionParser] [JsonLibrary]

/-- The name of the child at an index. -/
def childName (attrib : Attribute) (index : Nat) : StateT OverlayCompound Option Block := do
  match ← nestedAt attrib index with
  | some child => fun compound => (compound.unwrap child).map fun node => (node.name, compound)
  | none => pure []

/-- The names of the children of an attribute, one after another. -/
def childNames (attrib : Attribute) : StateT OverlayCompound Option (List Block) := do
  let count ← nestedCount attrib
  (List.range count).mapM (childName attrib)

/-- An attribute that was scanned. -/
structure Listed (overlays : List JsonValue) (attrib : Attribute) (path : Path)
    (names : List Block) (compound : OverlayCompound) (node : OverlayAttribute) : Prop where
  coherent : Coherent compound
  overlays : compound.overlays = overlays
  inUse : compound.unwrap attrib = some node
  path : node.path = path
  unflagged : node.needsScan = false
  names : node.children.map (·.name) = names

variable {names : List Block}

variable {overlays : List JsonValue}

theorem Listed.length_children (listed : Listed overlays attrib path names compound node) :
    node.children.length = names.length := by
  rw [← listed.names, length_map]

theorem Listed.scan_eq (listed : Listed overlays attrib path names compound node) :
    scan attrib compound = some (node, compound) := by
  rw [scan]
  simp only [listed.inUse, Option.bind_eq_bind, Option.bind_some, listed.unflagged]
  rfl

/-- Asking for a child that is kept gives its name. -/
theorem childName_kept (listed : Listed overlays attrib path names compound node) {position : Nat}
    (atPosition : node.children[position]? = some child) (kept : ChildInfo.Kept compound child) :
    ∃ address after later, childName attrib position compound = some (fixName child.name, after) ∧
      Linked compound attrib node position child address after ∧
      Listed overlays attrib path names after later ∧
      after.table.nodeAt address ≠ none ∧
      later.children = node.children.set position { child with cached := some address } := by
  have bound := (List.getElem?_eq_some_iff.mp atPosition).1
  rcases getChild_spec listed.coherent listed.inUse atPosition with ⟨address, after, got, linked⟩
  have alive : after.table.nodeAt address ≠ none := by
    rcases linked.made with cached | ⟨_, made⟩
    · exact linked.stays address (kept address cached)
    · exact made
  rcases Option.ne_none_iff_exists'.mp alive with ⟨made, atAddress⟩
  refine ⟨address, after, { node with children := node.children.set position _ }, ?_, linked, ?_,
    alive, rfl⟩
  · have inRange : (position : Int) < node.children.length := Int.ofNat_lt.mpr bound
    have unscanned : scan attrib compound = some (node, compound) := by
      rw [scan]
      simp only [listed.inUse, Option.bind_eq_bind, Option.bind_some, listed.unflagged]
      rfl
    have nested := nestedAt_of_scan unscanned got bound
    refine Option.bind_eq_some_iff.mpr ⟨_, nested, ?_⟩
    have named := name_of_path (linked.path made atAddress)
    have unwrapped : after.unwrap (.node address) = some made := atAddress
    dsimp only
    rw [unwrapped, Option.map_some, named]
  · constructor
    · exact linked.coherent
    · exact linked.overlays.trans listed.overlays
    · exact linked.parent
    · exact listed.path
    · exact listed.unflagged
    · exact (names_set atPosition address).trans listed.names

theorem childName_lost (listed : Listed overlays attrib path names compound node) {position : Nat}
    (atPosition : node.children[position]? = some child) (lost : ¬ChildInfo.Kept compound child) :
    childName attrib position compound = none := by
  have bound := (List.getElem?_eq_some_iff.mp atPosition).1
  rcases Classical.not_forall.mp lost with ⟨address, reason⟩
  rcases Classical.not_imp.mp reason with ⟨cached, gone⟩
  have got := (getChild_cached listed.coherent listed.inUse atPosition cached).1
  have nested := nestedAt_of_scan listed.scan_eq got bound
  have absent : compound.unwrap (.node address) = none := Classical.not_not.mp gone
  simp only [childName, bind, StateT.bind, nested, Option.bind_some, absent]
  rfl

/-- Asking for children that are kept gives their names. -/
theorem mapM_kept (listed : Listed overlays attrib path names compound node)
    (kept : ∀ child ∈ node.children, ChildInfo.Kept compound child) {positions : List Nat}
    (bound : ∀ position ∈ positions, position < names.length) :
    ∃ after, positions.mapM (childName attrib) compound =
      some (positions.map fun position => fixName (names[position]?.getD []), after) := by
  induction positions generalizing compound node with
  | nil => exact ⟨compound, rfl⟩
  | cons position positions ih =>
      have within : position < node.children.length := by
        rw [listed.length_children]
        exact bound position mem_cons_self
      have atPosition := getElem?_eq_getElem within
      have mem := mem_of_getElem? atPosition
      have named : names[position]? = some node.children[position].name := by
        rw [← listed.names, getElem?_map, atPosition]
        rfl
      rcases childName_kept listed atPosition (kept _ mem) with
        ⟨address, middle, later, step, linked, listedLater, alive, children⟩
      have keptLater : ∀ child ∈ later.children, ChildInfo.Kept middle child := by
        intro child childMem reference cached
        rw [children] at childMem
        rcases mem_or_eq_of_mem_set childMem with old | rfl
        · exact linked.stays reference (kept child old reference cached)
        · cases cached
          exact alive
      rcases ih listedLater keptLater fun other later => bound other (mem_cons_of_mem _ later)
        with ⟨after, rest⟩
      refine ⟨after, ?_⟩
      rw [mapM_cons, map_cons, named]
      exact Option.bind_eq_some_iff.mpr ⟨_, step, Option.bind_eq_some_iff.mpr ⟨_, rest, rfl⟩⟩

/-- Asking for a child whose node is gone has no result, whatever was asked for before. -/
theorem mapM_lost (listed : Listed overlays attrib path names compound node) {lostPosition : Nat}
    (atPosition : node.children[lostPosition]? = some child) (lost : ¬ChildInfo.Kept compound child)
    {positions : List Nat} (mem : lostPosition ∈ positions)
    (bound : ∀ position ∈ positions, position < names.length) :
    positions.mapM (childName attrib) compound = none := by
  induction positions generalizing compound node with
  | nil => cases mem
  | cons position positions ih =>
      have within : position < node.children.length := by
        rw [listed.length_children]
        exact bound position mem_cons_self
      have atHead := getElem?_eq_getElem within
      rw [mapM_cons]
      by_cases kept : ChildInfo.Kept compound node.children[position]
      · have apart : lostPosition ≠ position := by
          rintro rfl
          rw [atHead] at atPosition
          cases atPosition
          exact lost kept
        have later := (mem_cons.mp mem).resolve_left apart
        rcases childName_kept listed atHead kept with
          ⟨address, middle, after, step, linked, listedAfter, _, children⟩
        have atPositionStill : after.children[lostPosition]? = some child := by
          rw [children, getElem?_set_ne (Ne.symm apart)]
          exact atPosition
        have lostStill : ¬ChildInfo.Kept middle child := by
          intro keptLater
          apply lost
          intro reference cached absent
          have old := (listed.coherent.linked listed.inUse (mem_of_getElem? atPosition) cached).1
          exact keptLater reference cached (linked.absent reference old absent)
        have rest := ih listedAfter atPositionStill lostStill later fun other mem =>
          bound other (mem_cons_of_mem _ mem)
        simp only [bind, StateT.bind, step, Option.bind_some, rest]
        rfl
      · have step := childName_lost listed atHead kept
        simp only [bind, StateT.bind, step]
        rfl

/-- Counting the children scans the attribute. -/
theorem nestedCount_listed (coherent : Coherent compound)
    (inUse : compound.unwrap attrib = some node) (inBounds : InBounds compound.overlays node.path) :
    ∃ later, nestedCount attrib compound =
        some (later.children.length, compound.update attrib later) ∧
      Rescan compound.overlays node later ∧
      Listed compound.overlays attrib node.path (mergedNames compound.overlays node.path)
        (compound.update attrib later) later := by
  rcases scan_spec coherent inUse inBounds with ⟨later, scanned, rescan⟩
  refine ⟨later, ?_, rescan, ?_⟩
  · exact Option.bind_eq_some_iff.mpr ⟨_, scanned, rfl⟩
  · constructor
    · exact coherent.rescan inUse rescan
    · exact overlays_update _ _ _
    · exact unwrap_update_self inUse later
    · exact rescan.samePath
    · exact rescan.unflagged
    · exact rescan.names

theorem childNames_kept (coherent : Coherent compound) (inUse : compound.unwrap attrib = some node)
    (inBounds : InBounds compound.overlays node.path)
    (kept : ∀ child ∈ node.children, ChildInfo.Kept compound child) :
    ∃ after, childNames attrib compound =
      some ((mergedNames compound.overlays node.path).map fixName, after) := by
  rcases nestedCount_listed coherent inUse inBounds with ⟨later, counted, rescan, listed⟩
  have keptLater : ∀ child ∈ later.children,
      ChildInfo.Kept (compound.update attrib later) child := by
    intro child mem address cached
    have reason : child.cached ≠ none := by
      rw [cached]
      exact Option.some_ne_none address
    exact kept_update.mpr (kept child (rescan.old child mem reason)) address cached
  have length : later.children.length = (mergedNames compound.overlays node.path).length :=
    listed.length_children
  rcases mapM_kept listed keptLater fun position (mem : position ∈ List.range _) =>
    length ▸ mem_range.mp mem with ⟨after, named⟩
  refine ⟨after, Option.bind_eq_some_iff.mpr ⟨_, counted, ?_⟩⟩
  have all : (List.range later.children.length).map (fun position =>
      fixName ((mergedNames compound.overlays node.path)[position]?.getD [])) =
        (mergedNames compound.overlays node.path).map fixName := by
    apply ext_getElem
    · rw [length_map, length_range, length_map, length]
    · intro position _ bound
      rw [length_map] at bound
      rw [getElem_map, getElem_map, getElem_range, getElem?_eq_getElem bound,
        Option.getD_some]
  rw [all] at named
  exact named

theorem childNames_lost (coherent : Coherent compound) (inUse : compound.unwrap attrib = some node)
    (inBounds : InBounds compound.overlays node.path) (mem : child ∈ node.children)
    (lost : ¬ChildInfo.Kept compound child) : childNames attrib compound = none := by
  rcases nestedCount_listed coherent inUse inBounds with ⟨later, counted, rescan, listed⟩
  rcases mem_iff_getElem?.mp (rescan.kept mem) with ⟨position, atPosition⟩
  have bound := (List.getElem?_eq_some_iff.mp atPosition).1
  have length : later.children.length = (mergedNames compound.overlays node.path).length :=
    listed.length_children
  have nothing := mapM_lost listed atPosition (mt kept_update.mp lost) (mem_range.mpr bound)
    fun other within => length ▸ mem_range.mp within
  rw [childNames]
  simp only [bind, StateT.bind, counted, Option.bind_some, nothing]

theorem childNames_outOfBounds (coherent : Coherent compound)
    (inUse : compound.unwrap attrib = some node)
    (outOfBounds : ¬InBounds compound.overlays node.path) : childNames attrib compound = none := by
  have nothing := scan_eq_none coherent inUse outOfBounds
  rw [childNames]
  simp only [nestedCount, bind, StateT.bind, nothing, Option.bind_none]

/-- The names of the children of an attribute are those of all documents, without duplicates,
and its values those of the first document that has the path. -/
def Merges (overlays : List JsonValue) (compound : OverlayCompound) (attrib : Attribute)
    (path : Path) : Prop :=
  (∃ names after, childNames attrib compound = some (names, after) ∧ names.Nodup ∧
    ∀ name, name ∈ names ↔ name ∈ unionNames overlays path) ∧
  ∃ found, compound.source attrib = some found ∧ FirstIn overlays path found

/-- No name below a path is empty, or ends with a null character. -/
def PlainNames (overlays : List JsonValue) (path : Path) : Prop :=
  ∀ name ∈ unionNames overlays path, name ≠ [] ∧ name.getLast? ≠ some 0

theorem mem_keysAt_of_plain (plain : PlainNames overlays path) (name : Block) :
    name ∈ keysAt overlays path ↔ name ∈ unionNames overlays path := by
  constructor
  · intro mem
    rcases mem_unionNames_of_key mem with named | ⟨empty, _⟩
    · exact named
    · exact absurd rfl (plain [] empty).1
  · intro mem
    exact mem_keysAt_of_name mem (plain name mem).1

theorem map_fixName_of_plain (plain : PlainNames overlays path) :
    (mergedNames overlays path).map fixName = mergedNames overlays path := by
  rw [map_congr_left (g := id), map_id]
  intro name mem
  rw [mem_mergedNames, mem_keysAt_of_plain plain] at mem
  exact fixName_eq_self (plain name mem).2

/-- Names that are listed as they are were plain. -/
theorem plain_of_names (same : ∀ name, name ∈ (mergedNames overlays path).map fixName ↔
      name ∈ unionNames overlays path) : PlainNames overlays path := by
  have last : ∀ name ∈ unionNames overlays path, name.getLast? ≠ some 0 := by
    intro name mem
    rcases mem_map.mp ((same name).mpr mem) with ⟨key, _, rfl⟩
    exact getLast?_fixName key
  intro name mem
  constructor
  · rintro rfl
    rcases mem_map.mp ((same []).mpr mem) with ⟨key, merged, empty⟩
    have keyLast : key.getLast? ≠ some 0 := by
      rcases mem_unionNames_of_key (mem_mergedNames.mp merged) with named | ⟨_, index, rfl⟩
      · exact last key named
      · exact getLast?_indexText index
    rw [fixName_eq_self keyLast] at empty
    exact key_ne_nil (mem_mergedNames.mp merged) empty
  · exact last name mem

/-- In any run, an attribute shows the union of the documents that are present if and only if
its path is in bounds in all of them, the names below it are plain, and the nodes of the
children that were asked for are still there. -/
theorem merges_iff {documents : List JsonValue} {calls : List Call} {compound : OverlayCompound}
    (run : after documents calls = some compound) {attrib : Attribute} {node : OverlayAttribute}
    (inUse : compound.unwrap attrib = some node) :
    Merges (calls.foldl Call.present documents) compound attrib node.path ↔
      InBounds (calls.foldl Call.present documents) node.path ∧
      PlainNames (calls.foldl Call.present documents) node.path ∧
      ∀ child ∈ node.children, ChildInfo.Kept compound child := by
  rcases coherent_after run with ⟨coherent, present⟩
  rw [← present]
  constructor
  · rintro ⟨⟨names, after, listed, _, same⟩, _⟩
    have inBounds : InBounds compound.overlays node.path := by
      by_contra outOfBounds
      rw [childNames_outOfBounds coherent inUse outOfBounds] at listed
      cases listed
    have kept : ∀ child ∈ node.children, ChildInfo.Kept compound child := by
      intro child mem
      by_contra lost
      rw [childNames_lost coherent inUse inBounds mem lost] at listed
      cases listed
    rcases childNames_kept coherent inUse inBounds kept with ⟨_, spec⟩
    rw [spec] at listed
    cases listed
    exact ⟨inBounds, plain_of_names same, kept⟩
  · rintro ⟨inBounds, plain, kept⟩
    constructor
    · rcases childNames_kept coherent inUse inBounds kept with ⟨later, spec⟩
      rw [map_fixName_of_plain plain] at spec
      refine ⟨_, later, spec, (ordered_mergedNames _ _).nodup, ?_⟩
      intro name
      rw [mem_mergedNames, mem_keysAt_of_plain plain]
    · rcases findSource_first inBounds with ⟨found, source, first⟩
      refine ⟨found, ?_, first⟩
      rw [OverlayCompound.source, inUse]
      exact source

end Queries

/-- An object with a single member. -/
def memberDocument (name : Block) : JsonValue :=
  .object [(name, .null)]

theorem merges_iff_added :
    @Merges noExpressions linearSearch [memberDocument [byteOf 'b'], memberDocument [byteOf 'a']]
      { overlays := [memberDocument [byteOf 'b'], memberDocument [byteOf 'a']]
        root := ⟨[], [{ name := [byteOf 'a'] }], true⟩ } .root [] := by
  have run : @after noExpressions linearSearch [memberDocument [byteOf 'a']]
      [.nestedCount .root, .addOverlay (memberDocument [byteOf 'b'])] = some
        { overlays := [memberDocument [byteOf 'b'], memberDocument [byteOf 'a']]
          root := ⟨[], [{ name := [byteOf 'a'] }], true⟩ } := rfl
  have used : OverlayCompound.unwrap .root
      { overlays := [memberDocument [byteOf 'b'], memberDocument [byteOf 'a']]
        root := ⟨[], [{ name := [byteOf 'a'] }], true⟩ } =
      some ⟨[], [{ name := [byteOf 'a'] }], true⟩ := rfl
  apply (@merges_iff noExpressions linearSearch _ _ _ run _ _ used).mpr
  constructor
  · rintro overlay mem ⟨⟩
  constructor
  · intro name mem
    have names : name = [byteOf 'b'] ∨ name = [byteOf 'a'] := by
      simpa using show name ∈ [[byteOf 'b'], [byteOf 'a']] from mem
    rcases names with rfl | rfl
    · decide
    · decide
  · intro child mem address cached
    cases mem_singleton.mp mem
    cases cached

/-- The member with an empty name is listed under its index. -/
theorem not_merges_emptyName :
    ¬@Merges noExpressions linearSearch [memberDocument []] { overlays := [memberDocument []] }
      .root [] := by
  rintro ⟨⟨names, after, listed, _, same⟩, _⟩
  have mem : [] ∈ names := (same []).mpr mem_cons_self
  cases listed
  cases mem_singleton.mp mem

end OverlayCompound

end Eagine.ValueTree
