import Eagine.ValueTree.OverlayUnion

/-!
# Lookups in an overlay

Attributes of an overlay can be reached by their names, but nothing is found along a path.
So both ways agree just where the names lead nowhere in the merged tree.
-/

namespace Eagine.ValueTree

open Serialization FromString

namespace OverlayCompound

/-- The child that is found by its name is the first one with such a name. -/
theorem findIdx?_names (children : List ChildInfo) (name : Block) :
    (∃ position child, (children.findIdx? fun child => viewsEquivalent child.name name) =
        some position ∧ children[position]? = some child ∧
        (children.map (·.name)).find? (viewsEquivalent · name) = some child.name) ∨
      ((children.findIdx? fun child => viewsEquivalent child.name name) = none ∧
        (children.map (·.name)).find? (viewsEquivalent · name) = none) := by
  induction children with
  | nil => exact Or.inr ⟨rfl, rfl⟩
  | cons child children ih =>
      rw [List.map_cons, List.find?_cons, List.findIdx?_cons]
      cases equivalent : viewsEquivalent child.name name with
      | true => exact Or.inl ⟨0, child, rfl, rfl, rfl⟩
      | false =>
          rcases ih with ⟨position, found, index, atPosition, named⟩ | ⟨noIndex, noName⟩
          · left
            refine ⟨position + 1, found, ?_, atPosition, named⟩
            rw [index]
            rfl
          · right
            rw [noIndex]
            exact ⟨rfl, noName⟩

section Queries

variable [ExpressionParser] [JsonLibrary]

/-- From one attribute to the next by the names in a path. -/
def followNames (attrib : Attribute) : Path → StateT OverlayCompound Option (Option Attribute)
  | [] => pure (some attrib)
  | name :: path => do
      match ← nested attrib name with
      | some child => followNames child path
      | none => pure none

/-- A lookup along a path denotes an attribute if the names in the path lead to one, and
both have the values that the first of the documents has there. -/
def LookupsAgree (overlays : List JsonValue) (compound : OverlayCompound) (path : Path) : Prop :=
  ∃ found afterFind followed afterFollow,
    find .root path compound = some (found, afterFind) ∧
    followNames .root path compound = some (followed, afterFollow) ∧
    (found.isSome ↔ followed.isSome) ∧
    ∀ attrib ∈ found, ∀ other ∈ followed, ∃ values,
      afterFind.source attrib = some values ∧ afterFollow.source other = some values ∧
        FirstIn overlays path values

/-- In the merged tree the names of a path come to an end, below some other path. -/
def LeadsNowhere (overlays : List JsonValue) : Path → Path → Prop
  | _, [] => False
  | above, name :: path =>
      InBounds overlays above ∧ Searchable (mergedNames overlays above) name ∧
        match (mergedNames overlays above).find? (viewsEquivalent · name) with
        | some found => LeadsNowhere overlays (above ++ [fixName found]) path
        | none => True

variable {compound : OverlayCompound} {node : OverlayAttribute} {attrib : Attribute}

/-- Following a name in the merged tree. -/
theorem nested_spec (coherent : Coherent compound) (intact : Intact compound)
    (inUse : compound.unwrap attrib = some node) (name : Block)
    (inBounds : InBounds compound.overlays node.path)
    (searchable : Searchable (mergedNames compound.overlays node.path) name) :
    match (mergedNames compound.overlays node.path).find? (viewsEquivalent · name) with
    | some found => ∃ child after made, nested attrib name compound = some (some child, after) ∧
        Coherent after ∧ Intact after ∧ after.overlays = compound.overlays ∧
        after.unwrap child = some made ∧ made.path = node.path ++ [fixName found]
    | none => ∃ after, nested attrib name compound = some (none, after) := by
  rcases scan_spec coherent inUse inBounds with ⟨later, scanned, rescan⟩
  have names := rescan.names
  rw [← names] at searchable ⊢
  rcases findIdx?_names later.children name with
    ⟨position, child, index, atPosition, named⟩ | ⟨noIndex, noName⟩
  · rw [named]
    have coherentLater := coherent.rescan inUse rescan
    have inUseLater := unwrap_update_self inUse later
    rcases getChild_spec coherentLater inUseLater atPosition with ⟨address, after, got, linked⟩
    have intactAfter := linked.intact inUseLater atPosition (rescan.intact inUse intact)
    have refers : Refers after attrib (.node address) := by
      refine ⟨_, { child with cached := some address }, address, linked.parent, ?_, rfl, rfl⟩
      exact List.mem_set (List.getElem?_eq_some_iff.mp atPosition).1 _
    rcases Option.ne_none_iff_exists'.mp (intactAfter _ _ refers) with ⟨made, madeInUse⟩
    refine ⟨.node address, after, made, ?_, linked.coherent, intactAfter,
      linked.overlays.trans (overlays_update _ _ _), madeInUse, ?_⟩
    · refine Option.bind_eq_some_iff.mpr ⟨_, scanned, ?_⟩
      simp only [if_pos searchable, index]
      exact Option.bind_eq_some_iff.mpr ⟨_, got, rfl⟩
    · rw [← rescan.samePath]
      exact linked.path made madeInUse
  · rw [noName]
    refine ⟨compound.update attrib later, Option.bind_eq_some_iff.mpr ⟨_, scanned, ?_⟩⟩
    simp only [if_pos searchable, noIndex]
    rfl

theorem nested_eq_none (coherent : Coherent compound)
    (inUse : compound.unwrap attrib = some node) (name : Block)
    (fault : ¬(InBounds compound.overlays node.path ∧
      Searchable (mergedNames compound.overlays node.path) name)) :
    nested attrib name compound = none := by
  by_cases inBounds : InBounds compound.overlays node.path
  · have unsearchable := fun searchable => fault ⟨inBounds, searchable⟩
    rcases scan_spec coherent inUse inBounds with ⟨later, scanned, rescan⟩
    have names := rescan.names
    rw [← names] at unsearchable
    rw [nested]
    simp only [bind, StateT.bind, scanned, Option.bind_some, if_neg unsearchable]
    rfl
  · rw [nested]
    simp only [bind, StateT.bind, scan_eq_none coherent inUse inBounds, Option.bind_none]

/-- Following names comes to an end if and only if they lead nowhere in the merged tree. -/
theorem followNames_none_iff (coherent : Coherent compound) (intact : Intact compound)
    (inUse : compound.unwrap attrib = some node) (path : Path) :
    (∃ after, followNames attrib path compound = some (none, after)) ↔
      LeadsNowhere compound.overlays node.path path := by
  induction path generalizing compound attrib node with
  | nil =>
      constructor
      · rintro ⟨after, result⟩
        cases result
      · exact False.elim
  | cons name path ih =>
      by_cases regular : InBounds compound.overlays node.path ∧
          Searchable (mergedNames compound.overlays node.path) name
      · have spec := nested_spec coherent intact inUse name regular.1 regular.2
        rw [LeadsNowhere, and_iff_right regular.1, and_iff_right regular.2]
        cases found : (mergedNames compound.overlays node.path).find? (viewsEquivalent · name) with
        | some key =>
            rw [found] at spec
            rcases spec with
              ⟨child, after, made, result, coherentAfter, intactAfter, same, madeInUse, madePath⟩
            have onwards := ih coherentAfter intactAfter madeInUse
            rw [same, madePath] at onwards
            dsimp only
            rw [← onwards, followNames]
            simp only [bind, StateT.bind, result, Option.bind_some]
        | none =>
            rw [found] at spec
            rcases spec with ⟨after, result⟩
            apply iff_of_true _ trivial
            refine ⟨after, Option.bind_eq_some_iff.mpr ⟨_, result, rfl⟩⟩
      · have result := nested_eq_none coherent inUse name regular
        apply iff_of_false
        · rintro ⟨after, followed⟩
          rw [followNames] at followed
          simp only [bind, StateT.bind, result, Option.bind_none] at followed
          cases followed
        · rintro ⟨inBounds, searchable, _⟩
          exact regular ⟨inBounds, searchable⟩

/-- In any run that destroys no handles, a lookup along a path agrees with the names in it if
and only if these lead nowhere in the merged tree of the documents that are present. -/
theorem lookupsAgree_iff_leadsNowhere {documents : List JsonValue} {calls : List Call}
    {compound : OverlayCompound} (run : after documents calls = some compound)
    (keeps : ∀ call ∈ calls, call.Keeps) (path : Path) :
    LookupsAgree (calls.foldl Call.present documents) compound path ↔
      LeadsNowhere (calls.foldl Call.present documents) [] path := by
  rcases coherent_after run with ⟨coherent, present⟩
  have root : compound.unwrap .root = some compound.root := rfl
  have nowhere := followNames_none_iff coherent (intact_after keeps run) root path
  rw [present, coherent.root] at nowhere
  rw [← nowhere]
  constructor
  · rintro ⟨found, afterFind, followed, afterFollow, finds, follows, same, _⟩
    rcases find_result finds with ⟨rfl, _⟩
    have nothing : followed = none := by
      rw [← Option.not_isSome_iff_eq_none, ← same]
      exact Bool.false_ne_true
    exact ⟨afterFollow, nothing ▸ follows⟩
  · rintro ⟨afterFollow, follows⟩
    exact ⟨none, compound, none, afterFollow, rfl, follows, Iff.rfl, fun _ mem => nomatch mem⟩

end Queries

theorem lookupsAgree_iff_missing :
    @LookupsAgree noExpressions linearSearch [memberDocument [byteOf 'a']]
      { overlays := [memberDocument [byteOf 'a']] } [[byteOf 'b']] := by
  have run : @after noExpressions linearSearch [memberDocument [byteOf 'a']] [] =
      some { overlays := [memberDocument [byteOf 'a']] } := rfl
  apply (@lookupsAgree_iff_leadsNowhere noExpressions linearSearch _ _ _ run
    (fun _ mem => nomatch mem) _).mpr
  constructor
  · rintro overlay mem ⟨⟩
  constructor
  · exact List.pairwise_singleton _ _
  · trivial

/-- The member is reached by its name, but not found. -/
theorem not_lookupsAgree_member :
    ¬@LookupsAgree noExpressions linearSearch [memberDocument [byteOf 'a']]
      { overlays := [memberDocument [byteOf 'a']] } [[byteOf 'a']] := by
  rintro ⟨found, afterFind, followed, afterFollow, finds, follows, same, _⟩
  cases finds
  cases follows
  exact Bool.false_ne_true (same.mpr rfl)

end OverlayCompound

end Eagine.ValueTree
