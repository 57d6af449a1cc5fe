import Eagine.ValueTree.Handles
import Eagine.ValueTree.OverlayCoherence
import Mathlib.Data.List.MinMax

/-!
# Runs of an overlay

Documents are added between queries, and handles are copied and destroyed. Adding a
document marks each attribute that is in use, so that an overlay stays coherent.
-/

open List

namespace Eagine.ValueTree

open Serialization FromString Relation Option

namespace OverlayCompound

/-- An attribute keeps a reference to another one. -/
def Refers (compound : OverlayCompound) (attrib other : Attribute) : Prop :=
  ∃ node child address, compound.unwrap attrib = some node ∧ child ∈ node.children ∧
    child.cached = some address ∧ other = .node address

/-- Some attributes are marked, and nothing else is changed. -/
structure Remarked (compound after : OverlayCompound) : Prop where
  overlays : after.overlays = compound.overlays
  unwrapped : ∀ attrib, ∃ flag, after.unwrap attrib =
    (compound.unwrap attrib).map fun node => { node with needsScan := node.needsScan || flag }

/-- The attribute needs a scan. -/
def Marked (compound : OverlayCompound) (attrib : Attribute) : Prop :=
  ∃ node, compound.unwrap attrib = some node ∧ node.needsScan = true

theorem Remarked.refl (compound : OverlayCompound) : Remarked compound compound where
  overlays := rfl
  unwrapped attrib := by
    refine ⟨false, ?_⟩
    cases compound.unwrap attrib with
    | none => rfl
    | some node => rw [map_some, Bool.or_false]

variable {compound : OverlayCompound} {attrib : Attribute} {node later : OverlayAttribute}
  {made : Option Attribute}

section

variable {after : OverlayCompound}

theorem Remarked.trans {middle after : OverlayCompound} (first : Remarked compound middle)
    (second : Remarked middle after) : Remarked compound after where
  overlays := second.overlays.trans first.overlays
  unwrapped attrib := by
    rcases first.unwrapped attrib with ⟨flag, before⟩
    rcases second.unwrapped attrib with ⟨more, later⟩
    refine ⟨flag || more, ?_⟩
    rw [later, before, Option.map_map]
    cases compound.unwrap attrib with
    | none => rfl
    | some node => simp only [map_some, Function.comp_apply, Bool.or_assoc]

theorem Remarked.inUse (remarked : Remarked compound after)
    (inUse : compound.unwrap attrib = some node) :
    ∃ flag, after.unwrap attrib = some { node with needsScan := node.needsScan || flag } := by
  rcases remarked.unwrapped attrib with ⟨flag, later⟩
  exact ⟨flag, later.trans (by rw [inUse]; rfl)⟩

theorem Remarked.wasInUse (remarked : Remarked compound after)
    (inUse : after.unwrap attrib = some later) :
    ∃ node flag, compound.unwrap attrib = some node ∧
      later = { node with needsScan := node.needsScan || flag } := by
  rcases remarked.unwrapped attrib with ⟨flag, same⟩
  rw [inUse] at same
  rcases map_eq_some_iff.mp same.symm with ⟨node, before, equal⟩
  exact ⟨node, flag, before, equal.symm⟩

theorem Remarked.marked (remarked : Remarked compound after)
    (marked : Marked compound attrib) : Marked after attrib := by
  rcases marked with ⟨node, inUse, flag⟩
  rcases remarked.inUse inUse with ⟨more, later⟩
  refine ⟨_, later, ?_⟩
  rw [flag, Bool.true_or]

theorem Remarked.refers_iff (remarked : Remarked compound after)
    (attrib other : Attribute) : Refers after attrib other ↔ Refers compound attrib other := by
  constructor
  · rintro ⟨later, child, address, inUse, mem, cached, same⟩
    rcases remarked.wasInUse inUse with ⟨node, flag, before, rfl⟩
    exact ⟨node, child, address, before, mem, cached, same⟩
  · rintro ⟨node, child, address, inUse, mem, cached, same⟩
    rcases remarked.inUse inUse with ⟨flag, later⟩
    exact ⟨_, child, address, later, mem, cached, same⟩

theorem Remarked.refers (remarked : Remarked compound after) :
    Refers after = Refers compound := by
  funext attrib other
  exact propext (remarked.refers_iff attrib other)

theorem Remarked.isNone_iff (remarked : Remarked compound after)
    (attrib : Attribute) : after.unwrap attrib = none ↔ compound.unwrap attrib = none := by
  rcases remarked.unwrapped attrib with ⟨flag, later⟩
  rw [later, map_eq_none_iff]

theorem remarked_update (inUse : compound.unwrap attrib = some node) :
    Remarked compound (compound.update attrib { node with needsScan := true }) where
  overlays := overlays_update compound attrib _
  unwrapped other := by
    by_cases same : other = attrib
    · refine ⟨true, ?_⟩
      rw [same, unwrap_update_self inUse, inUse, map_some, Bool.or_true]
    · rw [unwrap_update_other compound same]
      exact (Remarked.refl compound).unwrapped other

/-- No attribute in use has a reference to a node that is gone. -/
def Intact (compound : OverlayCompound) : Prop :=
  ∀ attrib other, Refers compound attrib other → compound.unwrap other ≠ none

theorem Intact.addRef (intact : Intact compound) (attrib : Attribute) :
    Intact (compound.addRef attrib) := by
  cases attrib with
  | root => exact intact
  | node retained =>
      have same : ∀ attrib, (compound.addRef (.node retained)).unwrap attrib =
          compound.unwrap attrib := by
        intro attrib
        cases attrib with
        | root => rfl
        | node address => exact NodeTable.nodeAt_addRef compound.table retained address
      rintro above other ⟨parent, child, address, inUse, mem, cached, rfl⟩
      rw [same] at inUse ⊢
      exact intact _ _ ⟨parent, child, address, inUse, mem, cached, rfl⟩

theorem Remarked.intact (remarked : Remarked compound after)
    (intact : Intact compound) : Intact after := by
  intro attrib other refers
  rw [remarked.refers] at refers
  rw [Ne, remarked.isNone_iff]
  exact intact _ _ refers

/-- The paths of the nodes are shorter than some limit. -/
def Limited (compound : OverlayCompound) (limit : Nat) : Prop :=
  ∀ {attrib node}, compound.unwrap attrib = some node → node.path.length < limit

theorem Remarked.limited (remarked : Remarked compound after)
    {limit : Nat} (limited : Limited compound limit) : Limited after limit := by
  intro attrib later inUse
  rcases remarked.wasInUse inUse with ⟨node, flag, before, rfl⟩
  have bound : node.path.length < limit := limited before
  exact bound

theorem find_result {path : Path}
    (result : find attrib path compound = some (made, after)) : made = none ∧ after = compound := by
  rcases bind_eq_some_iff.mp result with ⟨node, _, same⟩
  cases same
  exact ⟨rfl, rfl⟩

end

section Queries

variable [ExpressionParser] [JsonLibrary]

theorem Coherent.mark (coherent : Coherent compound) (inUse : compound.unwrap attrib = some node) :
    Coherent (compound.update attrib { node with needsScan := true }) := by
  have scanned := coherent.scanned inUse
  apply coherent.update inUse
  · rfl
  · constructor
    · exact scanned.ordered
    · exact scanned.within
    · rintro ⟨⟩
  · exact fun _ mem _ => mem
  · exact fun _ mem _ => mem

/-- What marking from an attribute does: all that it leads to is marked. -/
structure MarkedFrom (compound : OverlayCompound) (attrib : Attribute) (after : OverlayCompound) :
    Prop where
  coherent : Coherent after
  remarked : Remarked compound after
  marked : ∀ other, ReflTransGen (Refers compound) attrib other → Marked after other

/-- The nodes that some children refer to are marked, one after another. -/
theorem markChildren_spec {depth : Nat}
    (spec : ∀ {compound after : OverlayCompound} {attrib : Attribute}, Coherent compound →
      markForScan depth attrib compound = some after → MarkedFrom compound attrib after)
    {children : List ChildInfo} {after : OverlayCompound} (coherent : Coherent compound)
    (run : children.foldlM (fun compound child =>
      match child.cached with
      | some address => markForScan depth (.node address) compound
      | none => some compound) compound = some after) :
    Coherent after ∧ Remarked compound after ∧
      ∀ child ∈ children, ∀ address, child.cached = some address →
        ∀ other, ReflTransGen (Refers compound) (.node address) other → Marked after other := by
  induction children generalizing compound with
  | nil =>
      cases run
      exact ⟨coherent, Remarked.refl _, fun _ mem => nomatch mem⟩
  | cons child children ih =>
      rw [foldlM_cons] at run
      rcases bind_eq_some_iff.mp run with ⟨middle, step, rest⟩
      cases cached : child.cached with
      | none =>
          rw [cached] at step
          cases step
          rcases ih coherent rest with ⟨coherentAfter, remarked, marked⟩
          refine ⟨coherentAfter, remarked, ?_⟩
          intro other mem address cachedOther
          rcases mem_cons.mp mem with rfl | later
          · rw [cached] at cachedOther
            cases cachedOther
          · exact marked other later address cachedOther
      | some reference =>
          rw [cached] at step
          have first := spec coherent step
          rcases ih first.coherent rest with ⟨coherentAfter, remarked, marked⟩
          refine ⟨coherentAfter, first.remarked.trans remarked, ?_⟩
          intro other mem address cachedOther found reaches
          rcases mem_cons.mp mem with rfl | later
          · rw [cached] at cachedOther
            cases cachedOther
            exact remarked.marked (first.marked found reaches)
          · apply marked other later address cachedOther
            rw [first.remarked.refers]
            exact reaches

theorem markForScan_spec {depth : Nat} {after : OverlayCompound} (coherent : Coherent compound)
    (run : markForScan depth attrib compound = some after) : MarkedFrom compound attrib after := by
  induction depth generalizing compound after attrib with
  | zero => cases run
  | succ depth ih =>
      rcases bind_eq_some_iff.mp run with ⟨node, inUse, rest⟩
      have marks := remarked_update inUse
      rcases markChildren_spec ih (coherent.mark inUse) rest with ⟨coherentAfter, remarked, marked⟩
      constructor
      · exact coherentAfter
      · exact marks.trans remarked
      · intro other reaches
        rcases reaches.cases_head with rfl | ⟨next, step, onwards⟩
        · exact remarked.marked ⟨_, unwrap_update_self inUse _, rfl⟩
        · rcases step with ⟨found, child, address, foundInUse, mem, cached, rfl⟩
          rw [inUse] at foundInUse
          cases foundInUse
          apply marked child mem address cached
          rw [marks.refers]
          exact onwards

/-- Each attribute in use is reached from the root, if no reference on the way is to
nothing. -/
theorem reaches_of_inUse (coherent : Coherent compound)
    (alive : ∀ other, ReflTransGen (Refers compound) .root other → compound.unwrap other ≠ none)
    (inUse : compound.unwrap attrib = some node) : ReflTransGen (Refers compound) .root attrib := by
  induction length : node.path.length using Nat.strong_induction_on generalizing attrib node with
  | _ count ih =>
      cases attrib with
      | root => exact ReflTransGen.refl
      | node address =>
          rcases coherent.hung inUse with
            ⟨above, parent, child, reference, aboveInUse, mem, cached, shorter, held⟩
          have toParent := ih parent.path.length (length ▸ shorter) aboveInUse rfl
          have toReference : ReflTransGen (Refers compound) .root (.node reference) :=
            toParent.tail ⟨parent, child, reference, aboveInUse, mem, cached, rfl⟩
          rcases held with rfl | gone
          · exact toReference
          · exact absurd gone (alive _ toReference)

theorem Coherent.addOverlay {after : OverlayCompound} (coherent : Coherent compound)
    {overlay : JsonValue} (added : addOverlay overlay compound = some after) :
    Coherent after ∧ after.overlays = overlay :: compound.overlays := by
  rcases bind_eq_some_iff.mp added with ⟨marked, run, same⟩
  cases same
  have spec := markForScan_spec coherent run
  have alive : ∀ other, ReflTransGen (Refers marked) .root other → marked.unwrap other ≠ none := by
    intro other reaches
    rw [spec.remarked.refers] at reaches
    rcases spec.marked other reaches with ⟨node, inUse, _⟩
    rw [inUse]
    exact some_ne_none node
  have flagged : ∀ {attrib node}, marked.unwrap attrib = some node → node.needsScan = true := by
    intro attrib node inUse
    have reaches := reaches_of_inUse spec.coherent alive inUse
    rw [spec.remarked.refers] at reaches
    rcases spec.marked attrib reaches with ⟨found, foundInUse, flag⟩
    rw [inUse] at foundInUse
    cases foundInUse
    exact flag
  constructor
  · constructor
    · constructor
      · exact spec.coherent.valid
      · exact spec.coherent.distinct
      · exact spec.coherent.root
      · intro attrib node inUse
        have markedInUse : marked.unwrap attrib = some node := inUse
        have scanned := spec.coherent.scanned markedInUse
        constructor
        · exact scanned.ordered
        · intro child mem
          exact mem_append_right _ (scanned.within child mem)
        · intro unflagged
          rw [flagged markedInUse] at unflagged
          cases unflagged
      · intro attrib node child address inUse
        have markedInUse : marked.unwrap attrib = some node := inUse
        exact spec.coherent.linked markedInUse
    · intro address node atAddress
      exact spec.coherent.hung atAddress
  · rw [← spec.remarked.overlays]

theorem markForScan_isSome {depth limit : Nat} (coherent : Coherent compound)
    (intact : Intact compound) (limited : Limited compound limit)
    (inUse : compound.unwrap attrib = some node) (enough : limit ≤ node.path.length + depth) :
    ∃ after, markForScan depth attrib compound = some after := by
  induction depth generalizing compound attrib node with
  | zero => exact absurd (limited inUse) (Nat.not_lt.mpr enough)
  | succ depth ih =>
      have marks := remarked_update inUse
      have children : ∀ {children : List ChildInfo} {compound : OverlayCompound},
          Coherent compound → Intact compound → Limited compound limit →
          ∀ {parent : OverlayAttribute}, compound.unwrap attrib = some parent →
          parent.path = node.path → children ⊆ parent.children →
          ∃ after, children.foldlM (fun compound child =>
            match child.cached with
            | some address => markForScan depth (.node address) compound
            | none => some compound) compound = some after := by
        intro children
        induction children with
        | nil => exact fun _ _ _ _ _ _ _ => ⟨_, rfl⟩
        | cons child children rest =>
            intro compound coherent intact limited parent inUse samePath subset
            rw [foldlM_cons]
            have tail := subset_of_cons_subset subset
            cases cached : child.cached with
            | none => exact rest coherent intact limited inUse samePath tail
            | some address =>
                have mem := subset mem_cons_self
                have alive := intact _ _ ⟨parent, child, address, inUse, mem, cached, rfl⟩
                rcases ne_none_iff_exists'.mp alive with ⟨made, madeInUse⟩
                have path := (coherent.linked inUse mem cached).2 made madeInUse
                have enoughBelow : limit ≤ made.path.length + depth := by
                  rw [path, samePath, length_append, length_singleton]
                  exact enough.trans_eq (by rw [Nat.add_assoc, Nat.add_comm 1])
                rcases ih coherent intact limited madeInUse enoughBelow with ⟨middle, step⟩
                have spec := markForScan_spec coherent step
                rcases spec.remarked.inUse inUse with ⟨flag, parentInUse⟩
                have result := rest spec.coherent (spec.remarked.intact intact)
                  (spec.remarked.limited limited) parentInUse samePath tail
                dsimp only
                rw [step]
                exact result
      rw [markForScan, inUse]
      exact children (coherent.mark inUse) (marks.intact intact) (marks.limited limited)
        (unwrap_update_self inUse _) rfl (List.Subset.refl _)

theorem limited_depth (coherent : Coherent compound) : Limited compound compound.depth := by
  intro attrib node inUse
  cases attrib with
  | root =>
      cases inUse
      rw [coherent.root]
      exact Nat.succ_pos _
  | node address =>
      have mem := mem_map_of_mem (f := fun node : OverlayAttribute => node.path.length)
        (NodeTable.mem_contents_of_nodeAt inUse)
      exact Nat.lt_succ_of_le (le_max_of_le' 0 mem (Nat.le_refl _))

/-- A document can be added where no reference is to a node that is gone. -/
theorem addOverlay_isSome (coherent : Coherent compound) (intact : Intact compound)
    (overlay : JsonValue) : ∃ after, addOverlay overlay compound = some after := by
  have root : compound.unwrap .root = some compound.root := rfl
  have enough : compound.depth ≤ compound.root.path.length + compound.depth :=
    Nat.le_add_left _ _
  rcases markForScan_isSome coherent intact (limited_depth coherent) root enough with ⟨marked, run⟩
  rw [addOverlay, run]
  exact ⟨_, rfl⟩

/-- The calls that an overlay gets. -/
inductive Call where
  | addOverlay (overlay : JsonValue)
  | nestedCount (attrib : Attribute)
  | nestedAt (attrib : Attribute) (index : Int)
  | nested (attrib : Attribute) (name : Block)
  | find (attrib : Attribute) (path : Path)
  | addRef (attrib : Attribute)
  | release (attrib : Attribute)

def perform (compound : OverlayCompound) : Call → Option OverlayCompound
  | .addOverlay overlay => compound.addOverlay overlay
  | .nestedCount attrib => (nestedCount attrib compound).map Prod.snd
  | .nestedAt attrib index => (nestedAt attrib index compound).map Prod.snd
  | .nested attrib name => (nested attrib name compound).map Prod.snd
  | .find attrib path => (find attrib path compound).map Prod.snd
  | .addRef attrib => some (compound.addRef attrib)
  | .release attrib => some (compound.release attrib)

/-- An overlay of documents after some calls. -/
def after (documents : List JsonValue) (calls : List Call) : Option OverlayCompound :=
  calls.foldlM perform { overlays := documents }

/-- The documents that are present after a call, the one added last in front. -/
def Call.present (documents : List JsonValue) : Call → List JsonValue
  | .addOverlay overlay => overlay :: documents
  | _ => documents

theorem coherent_make (documents : List JsonValue) : Coherent { overlays := documents } where
  valid := NodeTable.valid_empty
  distinct := nodup_nil
  root := rfl
  scanned {attrib node} inUse := by
    cases attrib with
    | root =>
        cases inUse
        constructor
        · exact ordered_nil
        · exact fun _ mem => nomatch mem
        · rintro ⟨⟩
    | node address => cases inUse
  linked {attrib node child address} inUse mem := by
    cases attrib with
    | root =>
        cases inUse
        cases mem
    | node other => cases inUse
  hung {address node} atAddress := nomatch atAddress

theorem Coherent.addRef (coherent : Coherent compound) (attrib : Attribute) :
    Coherent (compound.addRef attrib) := by
  cases attrib with
  | root => exact coherent
  | node retained =>
      constructor
      · exact coherent.toSound.addRef retained
      · intro address node atAddress
        have before := (NodeTable.nodeAt_addRef compound.table retained address).symm.trans atAddress
        exact (coherent.hung before).addRef retained

theorem Coherent.release (coherent : Coherent compound) (attrib : Attribute) :
    Coherent (compound.release attrib) := by
  cases attrib with
  | root => exact coherent
  | node released =>
      constructor
      · exact coherent.toSound.release released
      · intro address node atAddress
        have before : compound.table.nodeAt address = some node := by
          rcases NodeTable.nodeAt_release coherent.valid released address with same | gone
          · exact same.symm.trans atAddress
          · have absent : (compound.release (.node released)).table.nodeAt address = none := gone
            rw [absent] at atAddress
            cases atAddress
        exact (coherent.hung before).release coherent.valid coherent.hung released

variable {selected : List Block → Option Nat}

section

variable {after : OverlayCompound}

/-- What a query that has a result did first: a scan in bounds. -/
theorem scan_result (coherent : Coherent compound)
    (result : scan attrib compound = some (later, after)) :
    ∃ node, compound.unwrap attrib = some node ∧ InBounds compound.overlays node.path ∧
      Rescan compound.overlays node later ∧ after = compound.update attrib later := by
  cases inUse : compound.unwrap attrib with
  | none =>
      rw [scan, inUse] at result
      cases result
  | some node =>
      have inBounds : InBounds compound.overlays node.path := by
        by_contra outOfBounds
        rw [scan_eq_none coherent inUse outOfBounds] at result
        cases result
      rcases scan_spec coherent inUse inBounds with ⟨scanned, spec, rescan⟩
      rw [spec] at result
      cases result
      exact ⟨node, rfl, inBounds, rescan, rfl⟩

variable {position : Nat}

theorem getChild_result (coherent : Coherent compound) (inUse : compound.unwrap attrib = some node)
    {made : Attribute}
    (result : getChild attrib node position compound = some (made, after)) :
    ∃ child address, node.children[position]? = some child ∧ made = .node address ∧
      Linked compound attrib node position child address after := by
  cases atPosition : node.children[position]? with
  | none =>
      rw [getChild, atPosition] at result
      cases result
  | some child =>
      rcases getChild_spec coherent inUse atPosition with ⟨address, later, spec, linked⟩
      rw [spec] at result
      cases result
      exact ⟨child, address, rfl, rfl, linked⟩

/-- After a query there are the children that a scan finds; one of them has got a reference,
if the query selects one by the names of all. -/
def Queried (compound : OverlayCompound) (attrib : Attribute)
    (selected : List Block → Option Nat) (made : Option Attribute) (after : OverlayCompound) :
    Prop :=
  ∃ node later, compound.unwrap attrib = some node ∧ InBounds compound.overlays node.path ∧
    Rescan compound.overlays node later ∧
    (selected (mergedNames compound.overlays node.path) = none ∧ made = none ∧
        after = compound.update attrib later ∨
      ∃ position child address,
        selected (mergedNames compound.overlays node.path) = some position ∧
        made = some (.node address) ∧ later.children[position]? = some child ∧
        Linked (compound.update attrib later) attrib later position child address after)

/-- The position of the child that a query asks for. -/
def selects (question : Query) (names : List Block) : Option Nat :=
  match question with
  | .nestedAt (.ofNat position) => if position < names.length then some position else none
  | .nested view => names.findIdx? fun name => viewsEquivalent name view
  | _ => none

theorem Rescan.names {overlays : List JsonValue} (rescan : Rescan overlays node later) :
    later.children.map (·.name) = mergedNames overlays node.path := by
  rw [rescan.scanned.names rescan.unflagged, rescan.samePath]

theorem nestedCount_queried (coherent : Coherent compound) {count : Nat}
    (result : nestedCount attrib compound = some (count, after)) :
    Queried compound attrib (fun _ => none) none after := by
  rcases bind_eq_some_iff.mp result with ⟨⟨later, middle⟩, scanned, rest⟩
  cases rest
  rcases scan_result coherent scanned with ⟨node, inUse, inBounds, rescan, rfl⟩
  exact ⟨node, later, inUse, inBounds, rescan, Or.inl ⟨rfl, rfl, rfl⟩⟩

theorem nestedAt_queried (coherent : Coherent compound) {index : Int}
    (result : nestedAt attrib index compound = some (made, after)) :
    Queried compound attrib (selects (.nestedAt index)) made after := by
  rcases bind_eq_some_iff.mp result with ⟨⟨later, middle⟩, scanned, rest⟩
  rcases scan_result coherent scanned with ⟨node, inUse, inBounds, rescan, rfl⟩
  refine ⟨node, later, inUse, inBounds, rescan, ?_⟩
  have length : later.children.length = (mergedNames compound.overlays node.path).length := by
    rw [← rescan.names, length_map]
  dsimp only at rest
  split at rest
  · rename_i bound
    cases index with
    | ofNat position =>
        have inRange : position < (mergedNames compound.overlays node.path).length :=
          length ▸ Int.ofNat_lt.mp bound
        rcases bind_eq_some_iff.mp rest with ⟨⟨child, last⟩, got, same⟩
        cases same
        rcases getChild_result (coherent.rescan inUse rescan) (unwrap_update_self inUse later) got
          with ⟨info, address, atPosition, rfl, linked⟩
        exact Or.inr ⟨position, info, address, if_pos inRange, rfl, atPosition, linked⟩
    | negSucc below => cases rest
  · rename_i beyond
    cases rest
    left
    refine ⟨?_, rfl, rfl⟩
    cases index with
    | ofNat position =>
        have outside : ¬position < (mergedNames compound.overlays node.path).length := fun bound =>
          beyond (Int.ofNat_lt.mpr (length ▸ bound))
        exact if_neg outside
    | negSucc below => rfl

theorem nestedAt_of_scan {middle after : OverlayCompound} {made : Attribute}
    (scanned : scan attrib compound = some (node, middle))
    (got : getChild attrib node position middle = some (made, after))
    (bound : position < node.children.length) :
    nestedAt attrib position compound = some (some made, after) := by
  have inRange : (position : Int) < node.children.length := Int.ofNat_lt.mpr bound
  refine bind_eq_some_iff.mpr ⟨_, scanned, ?_⟩
  dsimp only
  rw [if_pos inRange]
  exact bind_eq_some_iff.mpr ⟨_, got, rfl⟩

theorem nested_queried (coherent : Coherent compound) {name : Block}
    (result : nested attrib name compound = some (made, after)) :
    Queried compound attrib (selects (.nested name)) made after := by
  rcases bind_eq_some_iff.mp result with ⟨⟨later, middle⟩, scanned, rest⟩
  rcases scan_result coherent scanned with ⟨node, inUse, inBounds, rescan, rfl⟩
  refine ⟨node, later, inUse, inBounds, rescan, ?_⟩
  have same : selects (.nested name) (mergedNames compound.overlays node.path) =
      later.children.findIdx? fun child => viewsEquivalent child.name name := by
    rw [selects, ← rescan.names, findIdx?_map]
    rfl
  rw [same]
  dsimp only at rest
  split at rest
  swap
  · cases rest
  cases found : later.children.findIdx? fun child => viewsEquivalent child.name name with
  | some position =>
      simp only [found] at rest
      rcases bind_eq_some_iff.mp rest with ⟨⟨child, last⟩, got, equal⟩
      cases equal
      rcases getChild_result (coherent.rescan inUse rescan) (unwrap_update_self inUse later) got
        with ⟨info, address, atPosition, rfl, linked⟩
      exact Or.inr ⟨position, info, address, rfl, rfl, atPosition, linked⟩
  | none =>
      simp only [found] at rest
      cases rest
      exact Or.inl ⟨rfl, rfl, rfl⟩

theorem Queried.coherent
    (coherent : Coherent compound) (queried : Queried compound attrib selected made after) :
    Coherent after ∧ after.overlays = compound.overlays := by
  rcases queried with ⟨node, later, inUse, _, rescan, ⟨_, _, rfl⟩ | ⟨_, _, _, _, _, _, linked⟩⟩
  · exact ⟨coherent.rescan inUse rescan, overlays_update _ _ _⟩
  · exact ⟨linked.coherent, linked.overlays.trans (overlays_update _ _ _)⟩

/-- A call keeps an overlay coherent, and only adding one changes the documents. -/
theorem Coherent.perform (coherent : Coherent compound) {call : Call}
    (performed : perform compound call = some after) :
    Coherent after ∧ after.overlays = call.present compound.overlays := by
  cases call with
  | addOverlay overlay => exact coherent.addOverlay performed
  | nestedCount attrib =>
      rcases map_eq_some_iff.mp performed with ⟨⟨count, _⟩, result, rfl⟩
      exact (nestedCount_queried coherent result).coherent coherent
  | nestedAt attrib index =>
      rcases map_eq_some_iff.mp performed with ⟨⟨made, _⟩, result, rfl⟩
      exact (nestedAt_queried coherent result).coherent coherent
  | nested attrib name =>
      rcases map_eq_some_iff.mp performed with ⟨⟨made, _⟩, result, rfl⟩
      exact (nested_queried coherent result).coherent coherent
  | find attrib path =>
      rcases map_eq_some_iff.mp performed with ⟨⟨made, _⟩, result, rfl⟩
      rcases find_result result with ⟨_, rfl⟩
      exact ⟨coherent, rfl⟩
  | addRef attrib =>
      cases performed
      exact ⟨coherent.addRef attrib, by cases attrib <;> rfl⟩
  | release attrib =>
      cases performed
      exact ⟨coherent.release attrib, by cases attrib <;> rfl⟩

end

variable {calls : List Call}

theorem coherent_run {after : OverlayCompound} (coherent : Coherent compound)
    (run : calls.foldlM OverlayCompound.perform compound = some after) :
    Coherent after ∧ after.overlays = calls.foldl Call.present compound.overlays := by
  induction calls generalizing compound with
  | nil =>
      cases run
      exact ⟨coherent, rfl⟩
  | cons call calls ih =>
      rw [foldlM_cons] at run
      rcases bind_eq_some_iff.mp run with ⟨middle, step, rest⟩
      rcases coherent.perform step with ⟨coherentMiddle, present⟩
      rw [foldl_cons, ← present]
      exact ih coherentMiddle rest

/-- In any run an overlay is coherent, and has the documents that were added, in front of
those that it was made with. -/
theorem coherent_after {documents : List JsonValue} (run : after documents calls = some compound) :
    Coherent compound ∧ compound.overlays = calls.foldl Call.present documents :=
  coherent_run (coherent_make documents) run

/-- A scan adds no references. -/
theorem Rescan.intact (inUse : compound.unwrap attrib = some node)
    (rescan : Rescan compound.overlays node later) (intact : Intact compound) :
    Intact (compound.update attrib later) := by
  rintro above other ⟨parent, child, address, aboveInUse, mem, cached, rfl⟩
  rw [Ne, isNone_update]
  by_cases same : above = attrib
  · subst same
    rw [unwrap_update_self inUse] at aboveInUse
    cases aboveInUse
    have reason : child.cached ≠ none := by
      rw [cached]
      exact some_ne_none address
    exact intact _ _ ⟨node, child, address, inUse, rescan.old child mem reason, cached, rfl⟩
  · rw [unwrap_update_other compound same] at aboveInUse
    exact intact _ _ ⟨parent, child, address, aboveInUse, mem, cached, rfl⟩

theorem Linked.intact {after : OverlayCompound} (inUse : compound.unwrap attrib = some node)
    {child : ChildInfo} {address : Nat} (atPosition : node.children[position]? = some child)
    (linked : Linked compound attrib node position child address after) (intact : Intact compound) :
    Intact after := by
  rintro above other ⟨parent, found, reference, aboveInUse, mem, cached, rfl⟩
  by_cases same : above = attrib
  · subst same
    rw [linked.parent] at aboveInUse
    cases aboveInUse
    rcases mem_or_eq_of_mem_set mem with old | rfl
    · exact linked.stays reference (intact _ _ ⟨node, found, reference, inUse, old, cached, rfl⟩)
    · cases cached
      rcases linked.made with before | ⟨_, alive⟩
      · have childMem := mem_of_getElem? atPosition
        exact linked.stays address (intact _ _ ⟨node, child, address, inUse, childMem, before, rfl⟩)
      · exact alive
  · rcases linked.others same aboveInUse with before | noChildren
    · exact linked.stays reference (intact _ _ ⟨parent, found, reference, before, mem, cached, rfl⟩)
    · rw [noChildren] at mem
      cases mem

theorem Queried.intact {after : OverlayCompound}
    (queried : Queried compound attrib selected made after) (intact : Intact compound) :
    Intact after := by
  rcases queried with
    ⟨node, later, inUse, _, rescan, ⟨_, _, rfl⟩ | ⟨_, _, _, _, _, atPosition, linked⟩⟩
  · exact rescan.intact inUse intact
  · exact linked.intact (unwrap_update_self inUse later) atPosition (rescan.intact inUse intact)

/-- No handle is destroyed by the call. -/
def Call.Keeps : Call → Prop
  | .release _ => False
  | _ => True

theorem intact_perform {after : OverlayCompound} (coherent : Coherent compound)
    (intact : Intact compound) {call : Call} (keeps : call.Keeps)
    (performed : perform compound call = some after) : Intact after := by
  cases call with
  | addOverlay overlay =>
      rcases bind_eq_some_iff.mp performed with ⟨marked, run, same⟩
      cases same
      exact (markForScan_spec coherent run).remarked.intact intact
  | nestedCount attrib =>
      rcases map_eq_some_iff.mp performed with ⟨⟨count, _⟩, result, rfl⟩
      exact (nestedCount_queried coherent result).intact intact
  | nestedAt attrib index =>
      rcases map_eq_some_iff.mp performed with ⟨⟨made, _⟩, result, rfl⟩
      exact (nestedAt_queried coherent result).intact intact
  | nested attrib name =>
      rcases map_eq_some_iff.mp performed with ⟨⟨made, _⟩, result, rfl⟩
      exact (nested_queried coherent result).intact intact
  | find attrib path =>
      rcases map_eq_some_iff.mp performed with ⟨⟨made, _⟩, result, rfl⟩
      rcases find_result result with ⟨_, rfl⟩
      exact intact
  | addRef attrib =>
      cases performed
      exact intact.addRef attrib
  | release attrib => exact keeps.elim

theorem intact_run {after : OverlayCompound} (coherent : Coherent compound)
    (intact : Intact compound) (keeps : ∀ call ∈ calls, call.Keeps)
    (run : calls.foldlM OverlayCompound.perform compound = some after) : Intact after := by
  induction calls generalizing compound with
  | nil =>
      cases run
      exact intact
  | cons call calls ih =>
      rw [foldlM_cons] at run
      rcases bind_eq_some_iff.mp run with ⟨middle, step, rest⟩
      have kept := intact_perform coherent intact (keeps call mem_cons_self) step
      exact ih (coherent.perform step).1 kept
        (fun other mem => keeps other (mem_cons_of_mem call mem)) rest

/-- In a run that destroys no handles, all references are to nodes. -/
theorem intact_after {documents : List JsonValue} (keeps : ∀ call ∈ calls, call.Keeps)
    (run : after documents calls = some compound) : Intact compound := by
  apply intact_run (coherent_make documents) _ keeps run
  rintro above other ⟨parent, child, address, inUse, mem, cached, rfl⟩
  cases above with
  | root =>
      cases inUse
      cases mem
  | node address => cases inUse

end Queries

end OverlayCompound

end Eagine.ValueTree
