import Eagine.ValueTree.OverlayMerge

/-!
# Coherence of an overlay

What holds of an overlay after any calls. The attributes have children of the merged
tree, and all of them where no scan is needed; the references that they keep are to nodes
at the paths of the children, as long as the nodes are there.
-/

open List

namespace Eagine.ValueTree

open Serialization FromString Option NodeTable

namespace OverlayCompound

theorem unwrap_update (compound : OverlayCompound) (attrib other : Attribute)
    (later : OverlayAttribute) :
    (compound.update attrib later).unwrap other =
      if other = attrib then (compound.unwrap attrib).map fun _ => later
      else compound.unwrap other := by
  cases attrib with
  | root =>
      cases other with
      | root => rfl
      | node address => rfl
  | node address =>
      cases other with
      | root => rfl
      | node otherAddress =>
          have replaced := nodeAt_replace compound.table address otherAddress later
          by_cases same : otherAddress = address
          · subst same
            rw [if_pos rfl] at replaced ⊢
            exact replaced
          · have apart : Attribute.node otherAddress ≠ Attribute.node address := fun equal =>
              same (Attribute.node.inj equal)
            rw [if_neg same] at replaced
            rw [if_neg apart]
            exact replaced

variable {attrib : Attribute} {compound : OverlayCompound} {node found later : OverlayAttribute}
  {child : ChildInfo} {position address : Nat}

theorem unwrap_update_self (inUse : compound.unwrap attrib = some node) (later : OverlayAttribute) :
    (compound.update attrib later).unwrap attrib = some later := by
  rw [unwrap_update, if_pos rfl, inUse]
  rfl

theorem unwrap_update_other (compound : OverlayCompound) {other : Attribute}
    (apart : other ≠ attrib) (later : OverlayAttribute) :
    (compound.update attrib later).unwrap other = compound.unwrap other := by
  rw [unwrap_update, if_neg apart]

@[simp] theorem overlays_update (compound : OverlayCompound) (attrib : Attribute)
    (later : OverlayAttribute) : (compound.update attrib later).overlays = compound.overlays := by
  cases attrib <;> rfl

@[simp] theorem fresh_update (compound : OverlayCompound) (attrib : Attribute)
    (later : OverlayAttribute) :
    (compound.update attrib later).table.fresh = compound.table.fresh := by
  cases attrib <;> rfl

theorem refCountAt_update (compound : OverlayCompound) (attrib : Attribute)
    (later : OverlayAttribute) (address : Nat) :
    (compound.update attrib later).table.refCountAt address =
      compound.table.refCountAt address := by
  cases attrib with
  | root => rfl
  | node changed => exact refCountAt_replace compound.table changed address later

theorem isNone_update (compound : OverlayCompound) (attrib other : Attribute)
    (later : OverlayAttribute) :
    (compound.update attrib later).unwrap other = none ↔ compound.unwrap other = none := by
  rw [unwrap_update]
  split
  · rename_i same
    rw [same, map_eq_none_iff]
  · rfl

theorem update_self (valid : compound.table.Valid) (inUse : compound.unwrap attrib = some node) :
    compound.update attrib node = compound := by
  cases attrib with
  | root =>
      cases inUse
      rfl
  | node address =>
      have same : compound.table.replace address node = compound.table :=
        replace_self valid inUse
      rw [update, same]

theorem names_set {children : List ChildInfo} (atPosition : children[position]? = some child)
    (address : Nat) : (children.set position { child with cached := some address }).map (·.name) =
      children.map (·.name) := by
  have same : (children.map (·.name))[position]? = some child.name := by
    rw [getElem?_map, atPosition]
    rfl
  rcases List.getElem?_eq_some_iff.mp same with ⟨bound, value⟩
  rw [map_set, ← value]
  exact set_getElem_self bound

/-- The child at the position has no reference, and another has the one it had. -/
theorem mem_set_of_uncached {children : List ChildInfo} {later : ChildInfo}
    (atPosition : children[position]? = some child) (uncached : child.cached = none)
    {other : ChildInfo} (mem : other ∈ children) (cached : other.cached ≠ none) :
    other ∈ children.set position later := by
  rcases mem_iff_getElem?.mp mem with ⟨place, found⟩
  by_cases same : place = position
  · rw [same, atPosition] at found
    cases found
    exact absurd uncached cached
  · apply mem_of_getElem? (i := place)
    rw [getElem?_set_ne (Ne.symm same)]
    exact found

/-- A node is referred to by one with a shorter path, unless a node between them is gone. -/
def Hung (compound : OverlayCompound) (address : Nat) (node : OverlayAttribute) : Prop :=
  ∃ attrib parent child reference, compound.unwrap attrib = some parent ∧
    child ∈ parent.children ∧ child.cached = some reference ∧
    parent.path.length < node.path.length ∧
    (reference = address ∨ compound.table.nodeAt reference = none)

theorem Hung.congr {other : OverlayAttribute} (same : node.path.length = other.path.length)
    (hung : Hung compound address node) : Hung compound address other := by
  rw [Hung, same] at hung
  exact hung

/-- References that are kept by an attribute that changes still hold the others. -/
theorem Hung.update (inUse : compound.unwrap attrib = some node) (samePath : later.path = node.path)
    (kept : ∀ child ∈ node.children, child.cached ≠ none → child ∈ later.children)
    (hung : Hung compound address found) : Hung (compound.update attrib later) address found := by
  rcases hung with ⟨other, parent, child, reference, otherInUse, mem, cached, shorter, held⟩
  have heldStill : reference = address ∨
      (compound.update attrib later).table.nodeAt reference = none := by
    rcases held with same | gone
    · exact Or.inl same
    · exact Or.inr ((isNone_update compound attrib (.node reference) later).mpr gone)
  by_cases same : other = attrib
  · rw [same, inUse] at otherInUse
    cases otherInUse
    have reason : child.cached ≠ none := by
      rw [cached]
      exact some_ne_none reference
    exact ⟨attrib, later, child, reference, unwrap_update_self inUse later, kept child mem reason,
      cached, samePath ▸ shorter, heldStill⟩
  · exact ⟨other, parent, child, reference,
      (unwrap_update_other compound same later).trans otherInUse, mem, cached, shorter, heldStill⟩

theorem Hung.addRef (retained : Nat) (hung : Hung compound address found) :
    Hung (compound.addRef (.node retained)) address found := by
  rcases hung with ⟨other, parent, child, reference, otherInUse, mem, cached, shorter, held⟩
  have same := nodeAt_addRef compound.table retained
  have inUse : (compound.addRef (.node retained)).unwrap other = some parent := by
    cases other with
    | root => exact otherInUse
    | node address => exact (same address).trans otherInUse
  exact ⟨other, parent, child, reference, inUse, mem, cached, shorter,
    held.imp_right fun gone => (same reference).trans gone⟩

/-- The references of the nodes that are left still hold the others: where a node is gone,
the one that refers to it has a reference to nothing. -/
theorem Hung.release (valid : compound.table.Valid)
    (allHung : ∀ {address node}, compound.table.nodeAt address = some node →
      Hung compound address node) (released : Nat) (hung : Hung compound address found) :
    Hung (compound.release (.node released)) address found := by
  have gone : ∀ other, compound.table.nodeAt other = none →
      (compound.table.release released).nodeAt other = none := by
    intro other none
    rcases nodeAt_release valid released other with same | absent
    · exact same.trans none
    · exact absent
  have stays : ∀ {other parent}, compound.unwrap other = some parent →
      (compound.release (.node released)).unwrap other = some parent ∨
        (other = .node released ∧ (compound.table.release released).nodeAt released = none) := by
    intro other parent otherInUse
    cases other with
    | root => exact Or.inl otherInUse
    | node otherAddress =>
        by_cases same : otherAddress = released
        · subst same
          rcases nodeAt_release valid otherAddress otherAddress with kept | absent
          · exact Or.inl (kept.trans otherInUse)
          · exact Or.inr ⟨rfl, absent⟩
        · left
          have kept : (compound.table.release released).nodeAt otherAddress =
              compound.table.nodeAt otherAddress := by
            rw [NodeTable.nodeAt, entryAt_release valid, if_neg same]
            rfl
          exact kept.trans otherInUse
  rcases hung with ⟨other, parent, child, reference, otherInUse, mem, cached, shorter, held⟩
  rcases stays otherInUse with still | ⟨rfl, absent⟩
  · exact ⟨other, parent, child, reference, still, mem, cached, shorter, held.imp_right (gone _)⟩
  · rcases allHung otherInUse with
      ⟨above, grand, between, link, aboveInUse, memGrand, cachedGrand, shorterGrand, heldGrand⟩
    have linkGone : (compound.table.release released).nodeAt link = none := by
      rcases heldGrand with rfl | dangling
      · exact absent
      · exact gone _ dangling
    rcases stays aboveInUse with still | ⟨rfl, _⟩
    · exact ⟨above, grand, between, link, still, memGrand, cachedGrand,
        shorterGrand.trans shorter, Or.inr linkGone⟩
    · rw [otherInUse] at aboveInUse
      cases aboveInUse
      exact absurd shorterGrand (Nat.lt_irrefl _)

section Queries

variable [ExpressionParser] [JsonLibrary]

/-- The children that an attribute has, beside those of the merged tree. -/
structure Scanned (overlays : List JsonValue) (node : OverlayAttribute) : Prop where
  ordered : Ordered (node.children.map (·.name))
  within : ∀ child ∈ node.children, child.name ∈ keysAt overlays node.path
  complete : node.needsScan = false →
    InBounds overlays node.path ∧ ∀ key ∈ keysAt overlays node.path, key ∈ node.children.map (·.name)

variable {overlays : List JsonValue}

theorem Scanned.names (scanned : Scanned overlays node) (unflagged : node.needsScan = false) :
    node.children.map (·.name) = mergedNames overlays node.path := by
  apply scanned.ordered.ext (ordered_mergedNames overlays node.path)
  intro name
  rw [mem_mergedNames]
  constructor
  · intro mem
    rcases mem_map.mp mem with ⟨child, within, rfl⟩
    exact scanned.within child within
  · exact (scanned.complete unflagged).2 name

/-- Only the names of the children matter. -/
theorem Scanned.congr (scanned : Scanned overlays node) (samePath : later.path = node.path)
    (sameFlag : later.needsScan = node.needsScan)
    (sameNames : later.children.map (·.name) = node.children.map (·.name)) :
    Scanned overlays later where
  ordered := sameNames ▸ scanned.ordered
  within child mem := by
    have named : child.name ∈ node.children.map (·.name) := by
      rw [← sameNames]
      exact mem_map_of_mem mem
    rcases mem_map.mp named with ⟨before, within, same⟩
    rw [← same, samePath]
    exact scanned.within before within
  complete unflagged := by
    rw [samePath, sameNames]
    exact scanned.complete (sameFlag ▸ unflagged)

/-- What each attribute in use says of itself, and of the nodes that it refers to. -/
structure Sound (compound : OverlayCompound) : Prop where
  valid : compound.table.Valid
  distinct : (compound.table.contents.map (·.path)).Nodup
  root : compound.root.path = []
  scanned : ∀ {attrib node}, compound.unwrap attrib = some node → Scanned compound.overlays node
  linked : ∀ {attrib node child address}, compound.unwrap attrib = some node →
    child ∈ node.children → child.cached = some address →
    address < compound.table.fresh ∧ ∀ made, compound.table.nodeAt address = some made →
      made.path = node.path ++ [fixName child.name]

structure Coherent (compound : OverlayCompound) : Prop extends Sound compound where
  hung : ∀ {address node}, compound.table.nodeAt address = some node → Hung compound address node

/-- An attribute that changes needs what an attribute needs, and has the same path. -/
theorem Sound.update (sound : Sound compound) (inUse : compound.unwrap attrib = some node)
    (samePath : later.path = node.path) (scanned : Scanned compound.overlays later)
    (linked : ∀ {child address}, child ∈ later.children → child.cached = some address →
      address < compound.table.fresh ∧ ∀ made, compound.table.nodeAt address = some made →
        made.path = node.path ++ [fixName child.name]) :
    Sound (compound.update attrib later) where
  valid := by
    cases attrib with
    | root => exact sound.valid
    | node address => exact valid_replace sound.valid address later
  distinct := by
    cases attrib with
    | root => exact sound.distinct
    | node address =>
        have same := map_contents_replace (·.path) sound.valid inUse samePath
        exact same ▸ sound.distinct
  root := by
    cases attrib with
    | root =>
        cases inUse
        exact samePath.trans sound.root
    | node address => exact sound.root
  scanned {other found} otherInUse := by
    rw [overlays_update]
    by_cases same : other = attrib
    · rw [same, unwrap_update_self inUse] at otherInUse
      cases otherInUse
      exact scanned
    · rw [unwrap_update_other compound same] at otherInUse
      exact sound.scanned otherInUse
  linked {other found child address} otherInUse mem cached := by
    have pathKept : ∀ made, (compound.update attrib later).table.nodeAt address = some made →
        ∃ before, compound.table.nodeAt address = some before ∧ before.path = made.path := by
      intro made atAddress
      have unwrapped : (compound.update attrib later).unwrap (.node address) = some made :=
        atAddress
      by_cases same : Attribute.node address = attrib
      · rw [← same] at inUse unwrapped
        rw [unwrap_update_self inUse] at unwrapped
        cases unwrapped
        exact ⟨node, inUse, samePath.symm⟩
      · rw [unwrap_update_other compound same] at unwrapped
        exact ⟨made, unwrapped, rfl⟩
    rw [fresh_update]
    have before : address < compound.table.fresh ∧
        ∀ made, compound.table.nodeAt address = some made →
          made.path = found.path ++ [fixName child.name] := by
      by_cases same : other = attrib
      · rw [same, unwrap_update_self inUse] at otherInUse
        cases otherInUse
        rw [samePath]
        exact linked mem cached
      · rw [unwrap_update_other compound same] at otherInUse
        exact sound.linked otherInUse mem cached
    constructor
    · exact before.1
    · intro made atAddress
      rcases pathKept made atAddress with ⟨earlier, earlierAt, path⟩
      rw [← path]
      exact before.2 earlier earlierAt

/-- Nodes may be taken away, and new ones added that have not been scanned. -/
theorem Sound.withTable (sound : Sound compound) {table : NodeTable OverlayAttribute}
    (valid : table.Valid) (distinct : (table.contents.map (·.path)).Nodup)
    (later : compound.table.fresh ≤ table.fresh)
    (known : ∀ {address node}, table.nodeAt address = some node →
      compound.table.nodeAt address = some node ∨
        (address = compound.table.fresh ∧ node.children = [] ∧ node.needsScan = true)) :
    Sound { compound with table := table } where
  valid := valid
  distinct := distinct
  root := sound.root
  scanned {attrib node} inUse := by
    cases attrib with
    | root =>
        have before : compound.unwrap .root = some node := inUse
        exact sound.scanned before
    | node address =>
        rcases known inUse with before | ⟨_, noChildren, unscanned⟩
        · have before : compound.unwrap (.node address) = some node := before
          exact sound.scanned before
        · constructor
          · rw [noChildren]
            exact ordered_nil
          · intro child mem
            rw [noChildren] at mem
            cases mem
          · intro scanned
            rw [unscanned] at scanned
            cases scanned
  linked {attrib node child address} inUse mem cached := by
    have before : compound.unwrap attrib = some node := by
      cases attrib with
      | root => exact inUse
      | node other =>
          rcases known inUse with before | ⟨_, noChildren, _⟩
          · exact before
          · rw [noChildren] at mem
            cases mem
    rcases sound.linked before mem cached with ⟨bound, path⟩
    constructor
    · exact Nat.lt_of_lt_of_le bound later
    · intro made atAddress
      rcases known atAddress with same | ⟨rfl, _, _⟩
      · exact path made same
      · exact absurd bound (Nat.lt_irrefl _)

theorem Sound.addRef (sound : Sound compound) (address : Nat) :
    Sound (compound.addRef (.node address)) := by
  apply sound.withTable (valid_addRef sound.valid address)
  · rw [contents_addRef]
    exact sound.distinct
  · exact Nat.le_refl _
  · intro other node atAddress
    rw [nodeAt_addRef] at atAddress
    exact Or.inl atAddress

theorem Sound.release (sound : Sound compound) (address : Nat) :
    Sound (compound.release (.node address)) := by
  apply sound.withTable (valid_release sound.valid address)
  · exact ((contents_release compound.table address).map _).nodup sound.distinct
  · exact Nat.le_refl _
  · intro other node atAddress
    rcases nodeAt_release sound.valid address other with same | absent
    · exact Or.inl (same.symm.trans atAddress)
    · rw [absent] at atAddress
      cases atAddress

theorem Sound.insert (sound : Sound compound) {path : Path}
    (new : path ∉ compound.table.contents.map (·.path)) :
    Sound { compound with table := compound.table.insert { path := path } } := by
  apply sound.withTable (valid_insert sound.valid _)
  · rw [contents_insert, map_append]
    exact List.Nodup.append sound.distinct (nodup_singleton _)
      (disjoint_singleton.mpr new)
  · exact Nat.le_succ _
  · intro other node atAddress
    rw [nodeAt_insert sound.valid] at atAddress
    split at atAddress
    · rename_i here
      cases atAddress
      exact Or.inr ⟨here, rfl, rfl⟩
    · exact Or.inl atAddress

/-- An attribute that changes keeps its path and its references. -/
theorem Coherent.update (coherent : Coherent compound) (inUse : compound.unwrap attrib = some node)
    (samePath : later.path = node.path) (scanned : Scanned compound.overlays later)
    (kept : ∀ child ∈ node.children, child.cached ≠ none → child ∈ later.children)
    (old : ∀ child ∈ later.children, child.cached ≠ none → child ∈ node.children) :
    Coherent (compound.update attrib later) where
  toSound := by
    apply coherent.toSound.update inUse samePath scanned
    intro child address mem cached
    have reason : child.cached ≠ none := by
      rw [cached]
      exact some_ne_none address
    exact coherent.linked inUse (old child mem reason) cached
  hung {address found} atAddress := by
    have unwrapped : (compound.update attrib later).unwrap (.node address) = some found := atAddress
    by_cases same : Attribute.node address = attrib
    · subst same
      rw [unwrap_update_self inUse] at unwrapped
      cases unwrapped
      have lengths : node.path.length = later.path.length := by rw [samePath]
      exact ((coherent.hung inUse).congr lengths).update inUse samePath kept
    · rw [unwrap_update_other compound same] at unwrapped
      exact (coherent.hung unwrapped).update inUse samePath kept

/-- An attribute after a scan. -/
structure Rescan (overlays : List JsonValue) (node later : OverlayAttribute) : Prop where
  samePath : later.path = node.path
  unflagged : later.needsScan = false
  scanned : Scanned overlays later
  kept : node.children ⊆ later.children
  old : ∀ child ∈ later.children, child.cached ≠ none → child ∈ node.children

theorem rescan_children (scanned : Scanned overlays node) (inBounds : InBounds overlays node.path) :
    Rescan overlays node
      ⟨node.path, (keysAt overlays node.path).foldl addChild node.children, false⟩ where
  samePath := rfl
  unflagged := rfl
  scanned := by
    have names := names_foldl node.children (keysAt overlays node.path)
    constructor
    · rw [names]
      exact scanned.ordered.foldl _
    · intro child mem
      have named := mem_map_of_mem (f := ChildInfo.name) mem
      rw [names, mem_foldl_insertName] at named
      rcases named with key | before
      · exact key
      · rcases mem_map.mp before with ⟨earlier, within, same⟩
        exact same ▸ scanned.within earlier within
    · intro _
      constructor
      · exact inBounds
      · intro key mem
        rw [names, mem_foldl_insertName]
        exact Or.inl mem
  kept := subset_foldl _ _
  old child mem reason := (cached_foldl mem).resolve_right reason

theorem scan_spec (coherent : Coherent compound) (inUse : compound.unwrap attrib = some node)
    (inBounds : InBounds compound.overlays node.path) :
    ∃ later, scan attrib compound = some (later, compound.update attrib later) ∧
      Rescan compound.overlays node later := by
  have scanned := coherent.scanned inUse
  cases flag : node.needsScan with
  | true =>
      have immutable : compound.overlays.all JsonValue.isImmutable = true :=
        all_eq_true.mpr fun _ _ => rfl
      refine ⟨_, ?_, rescan_children scanned inBounds⟩
      simp only [scan, inUse, bind_eq_bind, bind_some, flag, if_true,
        scan_inBounds inBounds, immutable, Bool.not_true]
  | false =>
      refine ⟨node, ?_, rfl, flag, scanned, List.Subset.refl _, fun _ mem _ => mem⟩
      rw [update_self coherent.valid inUse, scan]
      simp only [inUse, bind_eq_bind, bind_some, flag]
      rfl

/-- There is no scan with an access outside of an array. -/
theorem scan_eq_none (coherent : Coherent compound) (inUse : compound.unwrap attrib = some node)
    (outOfBounds : ¬InBounds compound.overlays node.path) : scan attrib compound = none := by
  cases flag : node.needsScan with
  | true =>
      simp only [scan, inUse, bind_eq_bind, bind_some, flag, if_true,
        scan_outOfBounds outOfBounds, bind_none]
  | false => exact absurd ((coherent.scanned inUse).complete flag).1 outOfBounds

theorem Coherent.rescan (coherent : Coherent compound) (inUse : compound.unwrap attrib = some node)
    (rescan : Rescan compound.overlays node later) : Coherent (compound.update attrib later) :=
  coherent.update inUse rescan.samePath rescan.scanned (fun _ mem _ => rescan.kept mem) rescan.old

/-- The compound after a child at a position was asked for. -/
structure Linked (compound : OverlayCompound) (attrib : Attribute) (node : OverlayAttribute)
    (position : Nat) (child : ChildInfo) (address : Nat) (after : OverlayCompound) : Prop where
  coherent : Coherent after
  overlays : after.overlays = compound.overlays
  parent : after.unwrap attrib =
    some { node with children := node.children.set position { child with cached := some address } }
  path : ∀ made, after.table.nodeAt address = some made →
    made.path = node.path ++ [fixName child.name]
  stays : ∀ other, compound.table.nodeAt other ≠ none → after.table.nodeAt other ≠ none
  absent : ∀ other < compound.table.fresh, compound.table.nodeAt other = none →
    after.table.nodeAt other = none
  others : ∀ {other found}, other ≠ attrib → after.unwrap other = some found →
    compound.unwrap other = some found ∨ found.children = []
  counts : ∀ other, after.table.refCountAt other = compound.table.refCountAt other +
    if child.cached = none ∧ other = address then 1 else 0
  made : child.cached = some address ∨ (child.cached = none ∧ after.table.nodeAt address ≠ none)

/-- The attribute with a reference for the child at a position. -/
abbrev link (node : OverlayAttribute) (position : Nat) (child : ChildInfo) (address : Nat) :
    OverlayAttribute :=
  { node with children := node.children.set position { child with cached := some address } }

/-- The table has what it had and a node for the child, which is the only one that may be new. -/
structure HasChild (compound : OverlayCompound) (node : OverlayAttribute) (child : ChildInfo)
    (table : NodeTable OverlayAttribute) (address : Nat) (made : OverlayAttribute) : Prop where
  sound : Sound { compound with table := table }
  atAddress : table.nodeAt address = some made
  path : made.path = node.path ++ [fixName child.name]
  bound : address < table.fresh
  keeps : ∀ {other found}, compound.table.nodeAt other = some found →
    table.nodeAt other = some found
  fewer : ∀ {other found}, compound.table.nodeAt other = none →
    table.nodeAt other = some found →
    other = address ∧ other = compound.table.fresh ∧ found.children = []
  counts : ∀ other, table.refCountAt other =
    compound.table.refCountAt other + if other = address then 1 else 0

namespace HasChild

variable {compound : OverlayCompound} {node made : OverlayAttribute} {child : ChildInfo}
  {table : NodeTable OverlayAttribute} {address position : Nat} {attrib : Attribute}

theorem unwrap (has : HasChild compound node child table address made) {other : Attribute}
    (inUse : compound.unwrap other = some found) :
    OverlayCompound.unwrap other { compound with table := table } = some found := by
  cases other with
  | root => exact inUse
  | node otherAddress => exact has.keeps inUse

theorem absent (has : HasChild compound node child table address made) {other : Nat}
    (old : other < compound.table.fresh) (gone : compound.table.nodeAt other = none) :
    table.nodeAt other = none := by
  cases present : table.nodeAt other with
  | none => rfl
  | some found => exact absurd (has.fewer gone present).2.1 (Nat.ne_of_lt old)

theorem stays (has : HasChild compound node child table address made) {other : Nat}
    (alive : compound.table.nodeAt other ≠ none) : table.nodeAt other ≠ none := by
  rcases ne_none_iff_exists'.mp alive with ⟨found, foundAt⟩
  rw [has.keeps foundAt]
  exact some_ne_none found

/-- The new node hangs on the reference, and the others on what they hung on. -/
theorem hung (has : HasChild compound node child table address made) (coherent : Coherent compound)
    (inUse : compound.unwrap attrib = some node)
    (atPosition : node.children[position]? = some child) (uncached : child.cached = none)
    {other : Nat} (foundAt : table.nodeAt other = some found) :
    Hung (update attrib (link node position child address) { compound with table := table }) other
      found := by
  cases before : compound.table.nodeAt other with
  | some earlier =>
      rw [has.keeps before] at foundAt
      cases foundAt
      rcases coherent.hung before with
        ⟨above, parent, info, reference, aboveInUse, mem, cached, shorter, held⟩
      have bound := (coherent.linked aboveInUse mem cached).1
      have heldStill := held.imp_right (has.absent bound)
      have samePath : (link node position child address).path = node.path := rfl
      exact Hung.update (has.unwrap inUse) samePath
        (fun other mem cached => mem_set_of_uncached atPosition uncached mem cached)
        ⟨above, parent, info, reference, has.unwrap aboveInUse, mem, cached, shorter, heldStill⟩
  | none =>
      have new := (has.fewer before foundAt).1
      rw [new] at foundAt ⊢
      rw [has.atAddress] at foundAt
      cases foundAt
      refine ⟨attrib, link node position child address, _, address,
        unwrap_update_self (has.unwrap inUse) _,
        List.mem_set (List.getElem?_eq_some_iff.mp atPosition).1 _, rfl, ?_, Or.inl rfl⟩
      rw [has.path, length_append]
      exact Nat.lt_succ_self _

theorem sound_update (has : HasChild compound node child table address made)
    (inUse : compound.unwrap attrib = some node)
    (atPosition : node.children[position]? = some child) :
    Sound (update attrib (link node position child address) { compound with table := table }) := by
  have samePath : (link node position child address).path = node.path := rfl
  apply has.sound.update (has.unwrap inUse) samePath
  · exact (has.sound.scanned (has.unwrap inUse)).congr rfl rfl (names_set atPosition address)
  · intro other reference mem cached
    rcases mem_or_eq_of_mem_set mem with before | rfl
    · exact has.sound.linked (has.unwrap inUse) before cached
    · cases cached
      refine ⟨has.bound, fun other otherAt => ?_⟩
      rw [has.atAddress] at otherAt
      cases otherAt
      exact has.path

theorem coherent_update (has : HasChild compound node child table address made)
    (coherent : Coherent compound) (inUse : compound.unwrap attrib = some node)
    (atPosition : node.children[position]? = some child) (uncached : child.cached = none) :
    Coherent (update attrib (link node position child address) { compound with table := table }) := by
  constructor
  · exact has.sound_update inUse atPosition
  · intro other found foundAt
    have unwrapped : (update attrib (link node position child address)
        { compound with table := table }).unwrap (.node other) = some found := foundAt
    by_cases same : Attribute.node other = attrib
    · subst same
      rw [unwrap_update_self (has.unwrap inUse)] at unwrapped
      cases unwrapped
      exact (has.hung coherent inUse atPosition uncached (has.keeps inUse)).congr rfl
    · rw [unwrap_update_other _ same] at unwrapped
      exact has.hung coherent inUse atPosition uncached unwrapped

theorem linked (has : HasChild compound node child table address made)
    (coherent : Coherent compound) (inUse : compound.unwrap attrib = some node)
    (atPosition : node.children[position]? = some child) (uncached : child.cached = none) :
    Linked compound attrib node position child address
      (update attrib (link node position child address) { compound with table := table }) := by
  have isNone := isNone_update { compound with table := table } attrib
  constructor
  · exact has.coherent_update coherent inUse atPosition uncached
  · exact overlays_update _ _ _
  · exact unwrap_update_self (has.unwrap inUse) _
  · intro other otherAt
    have mem : { child with cached := some address } ∈
        (link node position child address).children :=
      List.mem_set (List.getElem?_eq_some_iff.mp atPosition).1 _
    exact ((has.sound_update inUse atPosition).linked
      (unwrap_update_self (has.unwrap inUse) _) mem rfl).2 other otherAt
  · exact fun other alive none => has.stays alive ((isNone (.node other) _).mp none)
  · exact fun other old absent => (isNone (.node other) _).mpr (has.absent old absent)
  · intro other found apart otherInUse
    rw [unwrap_update_other _ apart] at otherInUse
    cases other with
    | root => exact Or.inl otherInUse
    | node otherAddress =>
        cases before : compound.table.nodeAt otherAddress with
        | some earlier =>
            have same : some earlier = some found := (has.keeps before).symm.trans otherInUse
            exact Or.inl (before.trans same)
        | none => exact Or.inr (has.fewer before otherInUse).2.2
  · intro other
    rw [refCountAt_update, has.counts]
    simp only [uncached, true_and]
  · right
    constructor
    · exact uncached
    · have before : table.nodeAt address ≠ none := has.atAddress ▸ some_ne_none made
      exact fun none => before ((isNone (.node address) _).mp none)

end HasChild

/-- The reference that a child has is what is found. -/
theorem getChild_cached (coherent : Coherent compound) (inUse : compound.unwrap attrib = some node)
    (atPosition : node.children[position]? = some child) (cached : child.cached = some address) :
    getChild attrib node position compound = some (.node address, compound) ∧
      Linked compound attrib node position child address compound := by
  constructor
  · rw [getChild, atPosition]
    simp only [bind_eq_bind, bind_some, cached]
  · have same : node.children.set position { child with cached := some address } =
        node.children := by
      rcases List.getElem?_eq_some_iff.mp atPosition with ⟨bound, value⟩
      rw [← cached, ← value]
      exact set_getElem_self bound
    constructor
    · exact coherent
    · rfl
    · rw [same]
      exact inUse
    · exact (coherent.linked inUse (mem_of_getElem? atPosition) cached).2
    · exact fun _ alive => alive
    · exact fun _ _ absent => absent
    · exact fun _ otherInUse => Or.inl otherInUse
    · intro other
      rw [if_neg fun new => absurd (cached.symm.trans new.1) (some_ne_none address)]
      exact (Int.add_zero _).symm
    · exact Or.inl cached

/-- A node with the path of the child is used once more. -/
theorem hasChild_addRef (coherent : Coherent compound) {entry : NodeEntry OverlayAttribute}
    (mem : entry ∈ compound.table.nodes)
    (path : entry.node.path = node.path ++ [fixName child.name])
    (counts : ∀ other, (compound.table.addRef entry.address).refCountAt other =
      compound.table.refCountAt other + if other = entry.address then 1 else 0) :
    HasChild compound node child (compound.table.addRef entry.address) entry.address
      entry.node where
  sound := coherent.addRef entry.address
  atAddress := by
    have found : compound.table.entryAt entry.address = some entry :=
      entryIn_of_mem coherent.valid.distinct mem
    rw [nodeAt_addRef, NodeTable.nodeAt, found]
    rfl
  path := path
  bound := coherent.valid.bounded entry mem
  keeps := by
    intro other found otherAt
    rw [nodeAt_addRef]
    exact otherAt
  fewer := by
    intro other found absent present
    rw [nodeAt_addRef, absent] at present
    cases present
  counts := counts

/-- There is one more node, with the path of the child. -/
theorem hasChild_insert (coherent : Coherent compound) {temp : OverlayAttribute}
    (path : temp.path = node.path ++ [fixName child.name]) (empty : temp.children = [])
    (sound : Sound { compound with table := compound.table.insert temp })
    (counts : ∀ other, (compound.table.insert temp).refCountAt other =
      compound.table.refCountAt other + if other = compound.table.fresh then 1 else 0) :
    HasChild compound node child (compound.table.insert temp) compound.table.fresh temp where
  sound := sound
  atAddress := by
    rw [nodeAt_insert coherent.valid, if_pos rfl]
  path := path
  bound := Nat.lt_succ_self _
  keeps := by
    intro other found otherAt
    rw [nodeAt_insert coherent.valid]
    split
    · rename_i here
      rw [here, NodeTable.nodeAt, entryAt_fresh coherent.valid] at otherAt
      cases otherAt
    · exact otherAt
  fewer := by
    intro other found absent present
    rw [nodeAt_insert coherent.valid] at present
    split at present
    · rename_i here
      cases present
      exact ⟨here, here, empty⟩
    · rw [absent] at present
      cases present
  counts := counts

/-- A child without a reference gets one, to the node with its path. -/
theorem getChild_uncached (coherent : Coherent compound)
    (inUse : compound.unwrap attrib = some node)
    (atPosition : node.children[position]? = some child) (uncached : child.cached = none) :
    ∃ address after, getChild attrib node position compound = some (.node address, after) ∧
      Linked compound attrib node position child address after := by
  let temp : OverlayAttribute := { path := node.path ++ [fixName child.name] }
  have result : getChild attrib node position compound =
      some (.node (compound.table.makeNode temp).1,
        update attrib (link node position child (compound.table.makeNode temp).1)
          { compound with table := (compound.table.makeNode temp).2 }) := by
    rw [getChild, atPosition]
    simp only [bind_eq_bind, bind_some, uncached]
    rfl
  refine ⟨_, _, result, ?_⟩
  have counts := refCountAt_makeNode coherent.valid temp
  rcases makeNode_cases coherent.valid temp with ⟨entry, mem, first, made⟩ | ⟨new, made⟩
  · rw [made] at counts ⊢
    have equal := find?_some first
    have same : temp.path = entry.node.path := beq_iff_eq.mp equal
    have has := hasChild_addRef coherent mem same.symm counts
    exact has.linked coherent inUse atPosition uncached
  · rw [made] at counts ⊢
    have newPath : temp.path ∉ compound.table.contents.map (·.path) := by
      intro mem
      rcases mem_map.mp mem with ⟨other, otherMem, same⟩
      rcases mem_map.mp otherMem with ⟨entry, within, rfl⟩
      have apart : (temp.path == entry.node.path) = false := new entry within
      rw [same, beq_self_eq_true] at apart
      cases apart
    have has := hasChild_insert coherent rfl rfl (coherent.insert newPath) counts
    exact has.linked coherent inUse atPosition uncached

theorem getChild_spec (coherent : Coherent compound) (inUse : compound.unwrap attrib = some node)
    (atPosition : node.children[position]? = some child) :
    ∃ address after, getChild attrib node position compound = some (.node address, after) ∧
      Linked compound attrib node position child address after := by
  cases cached : child.cached with
  | some address => exact ⟨address, compound, getChild_cached coherent inUse atPosition cached⟩
  | none => exact getChild_uncached coherent inUse atPosition cached

end Queries

end OverlayCompound

end Eagine.ValueTree
