import Eagine.ValueTree.Overlay

/-!
# The merged tree of an overlay

What an overlay is for: at a path there are the children that any of the documents has
there, in the order of their names. The attributes that are in use have some of them, and
all of them unless they have to be scanned.
-/

open List

namespace Eagine.ValueTree

open Serialization FromString

theorem nameLe_total (name other : Block) : nameLe name other ∨ nameLe other name :=
  le_total (α := List Nat) _ _

theorem nameLe_trans {first second third : Block} (less : nameLe first second)
    (more : nameLe second third) : nameLe first third :=
  le_trans (α := List Nat) less more

variable {name : Block} {names : List Block}

theorem nameLe_antisymm {other : Block} (less : nameLe name other) (more : nameLe other name) :
    name = other :=
  map_injective_iff.mpr (fun _ _ => UInt8.toNat_inj.mp) (le_antisymm (α := List Nat) less more)

instance : Std.Total nameLe :=
  ⟨nameLe_total⟩

instance : IsTrans Block nameLe :=
  ⟨fun _ _ _ => nameLe_trans⟩

/-- A new name at its place among the others. -/
def insertName (names : List Block) (name : Block) : List Block :=
  if name ∈ names then names else names.orderedInsert nameLe name

theorem mem_insertName {other : Block} :
    other ∈ insertName names name ↔ other = name ∨ other ∈ names := by
  unfold insertName
  split
  · rename_i mem
    constructor
    · exact Or.inr
    · rintro (rfl | old)
      · exact mem
      · exact old
  · exact mem_orderedInsert nameLe

/-- Names in their order, none of them twice. -/
structure Ordered (names : List Block) : Prop where
  sorted : names.Pairwise nameLe
  nodup : names.Nodup

theorem ordered_nil : Ordered [] :=
  ⟨List.Pairwise.nil, nodup_nil⟩

theorem Ordered.insertName (ordered : Ordered names) (name : Block) :
    Ordered (insertName names name) := by
  unfold ValueTree.insertName
  split
  · exact ordered
  · rename_i new
    constructor
    · exact ordered.sorted.orderedInsert name
    · exact (perm_orderedInsert nameLe name names).nodup_iff.mpr
        (nodup_cons.mpr ⟨new, ordered.nodup⟩)

theorem Ordered.foldl (ordered : Ordered names) (keys : List Block) :
    Ordered (keys.foldl ValueTree.insertName names) := by
  induction keys generalizing names with
  | nil => exact ordered
  | cons key keys ih => exact ih (ordered.insertName key)

theorem mem_foldl_insertName {keys : List Block} :
    name ∈ keys.foldl insertName names ↔ name ∈ keys ∨ name ∈ names := by
  induction keys generalizing names with
  | nil => simp
  | cons key keys ih =>
      rw [foldl_cons, ih, mem_insertName, mem_cons]
      tauto

/-- Ordered names are determined by which they are. -/
theorem Ordered.ext {others : List Block} (ordered : Ordered names) (otherOrdered : Ordered others)
    (same : ∀ name, name ∈ names ↔ name ∈ others) : names = others := by
  apply List.Perm.eq_of_pairwise _ ordered.sorted otherOrdered.sorted
  · exact (perm_ext_iff_of_nodup ordered.nodup otherOrdered.nodup).mpr same
  · intro name other _ _ less more
    exact nameLe_antisymm less more

theorem names_orderedInsert (children : List ChildInfo) (name : Block) :
    (children.orderedInsert (fun child other => nameLe child.name other.name)
      { name := name }).map (·.name) = (children.map (·.name)).orderedInsert nameLe name := by
  induction children with
  | nil => rfl
  | cons child children ih =>
      rw [orderedInsert_cons, map_cons, orderedInsert_cons]
      split
      · rfl
      · rw [map_cons, ih]

theorem names_addChild (children : List ChildInfo) (name : Block) :
    (addChild children name).map (·.name) = insertName (children.map (·.name)) name := by
  unfold addChild insertName
  split
  · rfl
  · exact names_orderedInsert children name

theorem names_foldl (children : List ChildInfo) (keys : List Block) :
    (keys.foldl addChild children).map (·.name) =
      keys.foldl insertName (children.map (·.name)) := by
  induction keys generalizing children with
  | nil => rfl
  | cons key keys ih => rw [foldl_cons, ih, names_addChild, foldl_cons]

/-- The children that were there are kept; a new one has no node. -/
theorem mem_addChild {children : List ChildInfo} {child : ChildInfo}
    (mem : child ∈ addChild children name) : child ∈ children ∨ child = { name := name } := by
  unfold addChild at mem
  split at mem
  · exact Or.inl mem
  · exact ((mem_orderedInsert _).mp mem).symm

theorem subset_addChild (children : List ChildInfo) (name : Block) :
    children ⊆ addChild children name := by
  intro child mem
  unfold addChild
  split
  · exact mem
  · exact (mem_orderedInsert _).mpr (Or.inr mem)

theorem cached_foldl {keys : List Block} {children : List ChildInfo} {child : ChildInfo}
    (mem : child ∈ keys.foldl addChild children) : child ∈ children ∨ child.cached = none := by
  induction keys generalizing children with
  | nil => exact Or.inl mem
  | cons key keys ih =>
      rcases ih mem with added | new
      · rcases mem_addChild added with old | rfl
        · exact Or.inl old
        · exact Or.inr rfl
      · exact Or.inr new

theorem subset_foldl (keys : List Block) (children : List ChildInfo) :
    children ⊆ keys.foldl addChild children := by
  induction keys generalizing children with
  | nil => exact List.Subset.refl _
  | cons key keys ih =>
      intro child mem
      exact ih _ (subset_addChild children key mem)

section Merging

variable [ExpressionParser] [JsonLibrary]

/-- The keys of the children that the documents have at a path. -/
def keysAt (overlays : List JsonValue) (path : Path) : List Block :=
  overlays.flatMap fun overlay =>
    match overlay.findPath path with
    | some (some found) => found.childKeys
    | _ => []

/-- None of the documents accesses an element outside of an array. -/
def InBounds (overlays : List JsonValue) (path : Path) : Prop :=
  ∀ overlay ∈ overlays, overlay.findPath path ≠ none

/-- The names of the children at a path of the merged tree. -/
def mergedNames (overlays : List JsonValue) (path : Path) : List Block :=
  (keysAt overlays path).foldl insertName []

theorem ordered_mergedNames (overlays : List JsonValue) (path : Path) :
    Ordered (mergedNames overlays path) :=
  ordered_nil.foldl _

variable {overlays : List JsonValue} {path : Path}

theorem mem_mergedNames :
    name ∈ mergedNames overlays path ↔ name ∈ keysAt overlays path := by
  rw [mergedNames, mem_foldl_insertName]
  simp

theorem scan_inBounds (inBounds : InBounds overlays path) (children : List ChildInfo) :
    overlays.foldlM (scanOverlay path) children =
      some ((keysAt overlays path).foldl addChild children) := by
  induction overlays generalizing children with
  | nil => rfl
  | cons overlay overlays ih =>
      have tail : InBounds overlays path := fun other mem =>
        inBounds other (mem_cons_of_mem overlay mem)
      rw [foldlM_cons, keysAt, flatMap_cons, foldl_append, scanOverlay]
      cases found : overlay.findPath path with
      | none => exact absurd found (inBounds overlay mem_cons_self)
      | some made =>
          cases made with
          | none => exact ih tail children
          | some node => exact ih tail _

theorem scan_outOfBounds (outOfBounds : ¬InBounds overlays path)
    (children : List ChildInfo) : overlays.foldlM (scanOverlay path) children = none := by
  induction overlays generalizing children with
  | nil => exact absurd (fun _ mem => nomatch mem) outOfBounds
  | cons overlay overlays ih =>
      rw [foldlM_cons, scanOverlay]
      cases found : overlay.findPath path with
      | none => rfl
      | some made =>
          have tail : ¬InBounds overlays path := by
            intro inBounds
            apply outOfBounds
            rintro other mem
            rcases mem_cons.mp mem with rfl | later
            · rw [found]
              exact Option.some_ne_none made
            · exact inBounds other later
          cases made with
          | none => exact ih tail children
          | some node => exact ih tail _

end Merging

end Eagine.ValueTree
