import Eagine.ValueTree.OverlayRuns
import Eagine.ValueTree.YamlNode

/-!
# Accounting for handles

The compounds of JSON and YAML documents count each handle that they give out. An overlay
does not count the handle of a child that it has a reference to already, and its own
references do not keep the nodes: these accounts are right only as long as no child is asked
for again, and no last handle of a node is destroyed.
-/

namespace Eagine.ValueTree

open Serialization FromString Option

variable {made : Option Attribute}

theorem JsonCompound.adds_makeValueNode {compound after : JsonCompound} {node : Option JsonNode}
    (valid : compound.table.Valid) (result : makeValueNode node compound = some (made, after)) :
    Adds compound.table after.table made := by
  cases node with
  | none =>
      cases result
      exact adds_none valid
  | some temp =>
      cases result
      exact adds_makeNode valid temp

theorem YamlCompound.adds_makeNewNode [YamlLibrary] {compound after : YamlCompound}
    {node : Option YamlNode} (valid : compound.table.Valid)
    (result : makeNewNode node compound = some (made, after)) :
    Adds compound.table after.table made := by
  cases node with
  | none =>
      cases result
      exact adds_none valid
  | some temp =>
      cases result
      exact adds_makeNode valid temp

variable {attrib : Attribute} {question : Query}

section Documents

variable [ExpressionParser]

def JsonCompound.interface [JsonLibrary] : CompoundInterface JsonCompound where
  query attrib question :=
    match question with
    | .nestedAt index => nestedAt attrib index
    | .nested name => nested attrib name
    | .find path tags => findTagged attrib path tags
  addRef := addRef
  release := release

def YamlCompound.interface [YamlLibrary] : CompoundInterface YamlCompound where
  query attrib question :=
    match question with
    | .nestedAt index => nestedAt attrib index
    | .nested name => nested attrib name
    | .find path tags => find attrib path tags
  addRef := addRef
  release := release

theorem JsonCompound.refcounted [JsonLibrary] : Refcounted interface JsonCompound.table where
  addRef_root _ := rfl
  addRef_node _ _ := rfl
  release_root _ := rfl
  release_node _ _ := rfl

theorem YamlCompound.refcounted [YamlLibrary] : Refcounted interface YamlCompound.table where
  addRef_root _ := rfl
  addRef_node _ _ := rfl
  release_root _ := rfl
  release_node _ _ := rfl

theorem JsonCompound.adds_query [JsonLibrary]
    {compound after : JsonCompound} (valid : compound.table.Valid)
    (asked : interface.query attrib question compound = some (made, after)) :
    Adds compound.table after.table made := by
  cases question with
  | nestedAt index =>
      rcases bind_eq_some_iff.mp asked with ⟨node, _, rest⟩
      rcases bind_eq_some_iff.mp rest with ⟨temp, _, result⟩
      exact adds_makeValueNode valid result
  | nested name =>
      rcases bind_eq_some_iff.mp asked with ⟨node, _, rest⟩
      rcases bind_eq_some_iff.mp rest with ⟨temp, _, result⟩
      exact adds_makeValueNode valid result
  | find path tags =>
      rcases bind_eq_some_iff.mp asked with ⟨node, _, rest⟩
      rcases bind_eq_some_iff.mp rest with ⟨temp, _, result⟩
      exact adds_makeValueNode valid result

theorem YamlCompound.adds_query [YamlLibrary]
    {compound after : YamlCompound} (valid : compound.table.Valid)
    (asked : interface.query attrib question compound = some (made, after)) :
    Adds compound.table after.table made := by
  cases question with
  | nestedAt index =>
      rcases bind_eq_some_iff.mp asked with ⟨node, _, rest⟩
      rcases bind_eq_some_iff.mp rest with ⟨temp, _, result⟩
      exact adds_makeNewNode valid result
  | nested name =>
      rcases bind_eq_some_iff.mp asked with ⟨node, _, result⟩
      exact adds_makeNewNode valid result
  | find path tags =>
      rcases bind_eq_some_iff.mp asked with ⟨node, _, rest⟩
      rcases bind_eq_some_iff.mp rest with ⟨temp, _, result⟩
      exact adds_makeNewNode valid result

end Documents

namespace OverlayCompound

variable {compound : OverlayCompound} {session : Session OverlayCompound}

theorem refers_release {released : Nat}
    (same : ∀ other, (compound.table.release released).nodeAt other =
      compound.table.nodeAt other) (attrib : Attribute) :
    (compound.release (.node released)).unwrap attrib = compound.unwrap attrib := by
  cases attrib with
  | root => rfl
  | node address => exact same address

/-- The accounts of an overlay also have to keep the nodes that it refers to itself. -/
structure InOrder (session : Session OverlayCompound) : Prop where
  accounted : Accounted session.compound.table session.handles
  intact : Intact session.compound

/-- The handle at a place is not the last one of a node. -/
def Spare (session : Session OverlayCompound) (target : Nat) : Prop :=
  ∀ address, session.handles[target]? = some (some (.node address)) →
    1 < session.handles.count (some (.node address))

variable {handle : Option Attribute}

theorem refCountAt_of_handle (inOrder : InOrder session) {target : Nat}
    (atTarget : session.handles[target]? = some handle) (address : Nat)
    (same : handle = some (.node address)) : 0 < session.compound.table.refCountAt address := by
  subst same
  rw [(accounted_iff.mp inOrder.accounted).2, Int.natCast_pos, List.count_pos_iff]
  exact List.mem_of_getElem? atTarget

section Overlays

variable [ExpressionParser] [JsonLibrary]

def interface : CompoundInterface OverlayCompound where
  query attrib question :=
    match question with
    | .nestedAt index => nestedAt attrib index
    | .nested name => nested attrib name
    | .find path _ => find attrib path
  addRef := addRef
  release := release

theorem refcounted : Refcounted interface OverlayCompound.table where
  addRef_root _ := rfl
  addRef_node _ _ := rfl
  release_root _ := rfl
  release_node _ _ := rfl

theorem query_queried {after : OverlayCompound} (coherent : Coherent compound)
    (asked : interface.query attrib question compound = some (made, after)) :
    Queried compound attrib (selects question) made after ∨
      (∃ path tags, question = .find path tags) ∧ made = none ∧ after = compound := by
  cases question with
  | nestedAt index => exact Or.inl (nestedAt_queried coherent asked)
  | nested name => exact Or.inl (nested_queried coherent asked)
  | find path tags =>
      have found : find attrib path compound = some (made, after) := asked
      exact Or.inr ⟨⟨path, tags, rfl⟩, find_result found⟩

/-- No handle of the child that a query selects was given out. -/
def Unasked (compound : OverlayCompound) (attrib : Attribute) (question : Query) : Prop :=
  ∀ node position, compound.unwrap attrib = some node →
    selects question (mergedNames compound.overlays node.path) = some position →
    ∀ child ∈ node.children,
      (mergedNames compound.overlays node.path)[position]? = some child.name →
      child.cached = none

/-- A query counts the handle that it gives if and only if it is the first one of the child. -/
theorem adds_iff_unasked {after : OverlayCompound} (coherent : Coherent compound)
    (queried : Queried compound attrib (selects question) made after) :
    Adds compound.table after.table made ↔ Unasked compound attrib question := by
  have valid := (queried.coherent coherent).1.valid
  rcases queried with ⟨node, later, inUse, _, rescan, result⟩
  have same := fun address => refCountAt_update compound attrib later address
  rcases result with ⟨nothing, rfl, rfl⟩
    | ⟨position, child, address, selected, rfl, atPosition, linked⟩
  · apply iff_of_true
    · constructor
      · exact valid
      · exact fun address => (same address).trans (Int.add_zero _).symm
    · intro found position foundInUse selected
      rw [inUse] at foundInUse
      cases foundInUse
      rw [nothing] at selected
      cases selected
  · have named : (mergedNames compound.overlays node.path)[position]? = some child.name := by
      rw [← rescan.names, List.getElem?_map, atPosition]
      rfl
    constructor
    · intro adds found other foundInUse otherSelected before mem beforeNamed
      rw [inUse] at foundInUse
      cases foundInUse
      rw [selected] at otherSelected
      cases otherSelected
      rw [named] at beforeNamed
      have sameName : before.name = child.name := (Option.some.inj beforeNamed).symm
      have equal : before = child := by
        have nodup : (later.children.map (·.name)).Nodup := rescan.scanned.ordered.nodup
        exact List.inj_on_of_nodup_map nodup (rescan.kept mem) (List.mem_of_getElem? atPosition)
          sameName
      by_contra cached
      rw [equal] at cached
      have counts := linked.counts address
      rw [if_neg fun new => cached new.1, same, adds.counts, weight, if_pos rfl] at counts
      omega
    · intro unasked
      have uncached : child.cached = none := by
        by_contra cached
        have mem := rescan.old child (List.mem_of_getElem? atPosition) cached
        exact cached (unasked node position inUse selected child mem named)
      constructor
      · exact valid
      · intro other
        rw [linked.counts, same, weight]
        simp only [uncached, true_and, Option.some.injEq, Attribute.node.injEq, eq_comm]

/-- References are kept where a handle goes that is not the last one. -/
theorem intact_release (coherent : Coherent compound) (intact : Intact compound)
    (spare : ∀ address, attrib = .node address → 1 < compound.table.refCountAt address) :
    Intact (compound.release attrib) := by
  cases attrib with
  | root => exact intact
  | node released =>
      have same := refers_release
        (NodeTable.nodeAt_release_of_refCount coherent.valid (spare released rfl))
      rintro above other ⟨parent, child, address, inUse, mem, cached, rfl⟩
      rw [same] at inUse ⊢
      exact intact _ _ ⟨parent, child, address, inUse, mem, cached, rfl⟩

/-- The last handle of a node takes it away from the one that refers to it. -/
theorem not_intact_release (coherent : Coherent compound) (intact : Intact compound) {address : Nat}
    (last : compound.table.refCountAt address = 1) :
    ¬Intact (compound.release (.node address)) := by
  intro intactAfter
  have listed : compound.table.nodeAt address ≠ none := by
    rw [NodeTable.nodeAt_ne_none, ← NodeTable.refCountAt_pos coherent.valid, last]
    exact Int.one_pos
  rcases ne_none_iff_exists'.mp listed with ⟨node, atAddress⟩
  rcases coherent.hung atAddress with
    ⟨above, parent, child, reference, inUse, mem, cached, shorter, held⟩
  have here : reference = address := by
    rcases held with same | gone
    · exact same
    · exact absurd gone (intact _ _ ⟨parent, child, reference, inUse, mem, cached, rfl⟩)
  have apart : above ≠ .node address := by
    rintro rfl
    have same : some parent = some node := inUse.symm.trans atAddress
    cases same
    exact Nat.lt_irrefl _ shorter
  have still : (compound.release (.node address)).unwrap above = some parent := by
    cases above with
    | root => exact inUse
    | node other =>
        have different : other ≠ address := fun same => apart (congrArg Attribute.node same)
        have kept : (compound.table.release address).nodeAt other = compound.table.nodeAt other := by
          rw [NodeTable.nodeAt, NodeTable.entryAt_release coherent.valid, if_neg different]
          rfl
        exact kept.trans inUse
  apply intactAfter above (.node address)
  · exact ⟨parent, child, address, still, mem, here ▸ cached, rfl⟩
  · exact NodeTable.nodeAt_release_last coherent.valid last

/-- No child is asked for again, and no last handle of a node is destroyed. -/
def Careful (session : Session OverlayCompound) : Action → Prop
  | .query source question => ∀ attrib, session.handles[source]? = some (some attrib) →
      Unasked session.compound attrib question
  | .copyAssign target source => target = source ∨ Spare session target
  | .destroy target => Spare session target
  | _ => True

theorem Coherent.retain (coherent : Coherent compound) (handle : Option Attribute) :
    Coherent (interface.retain handle compound) := by
  cases handle with
  | none => exact coherent
  | some attrib => exact coherent.addRef attrib

theorem Coherent.drop (coherent : Coherent compound) (handle : Option Attribute) :
    Coherent (interface.drop handle compound) := by
  cases handle with
  | none => exact coherent
  | some attrib => exact coherent.release attrib

variable {after : Session OverlayCompound}

theorem Coherent.act (coherent : Coherent session.compound) {action : Action}
    (performed : interface.act session action = some after) : Coherent after.compound := by
  cases action with
  | root =>
      cases performed
      exact coherent
  | query source question =>
      rcases bind_eq_some_iff.mp performed with ⟨handle, atSource, rest⟩
      rcases bind_eq_some_iff.mp rest with ⟨⟨made, compound⟩, asked, same⟩
      cases same
      cases handle with
      | none =>
          cases asked
          exact coherent
      | some attrib =>
          rcases query_queried coherent asked with queried | ⟨_, _, rfl⟩
          · exact (queried.coherent coherent).1
          · exact coherent
  | copy source =>
      rcases bind_eq_some_iff.mp performed with ⟨handle, atSource, same⟩
      cases same
      exact coherent.retain handle
  | move source =>
      rcases bind_eq_some_iff.mp performed with ⟨handle, atSource, same⟩
      cases same
      exact coherent
  | copyAssign target source =>
      rcases bind_eq_some_iff.mp performed with ⟨temp, atTarget, rest⟩
      rcases bind_eq_some_iff.mp rest with ⟨handle, atSource, same⟩
      split at same
      · cases same
        exact coherent
      · cases same
        exact (coherent.retain handle).drop temp
  | moveAssign target source =>
      rcases bind_eq_some_iff.mp performed with ⟨temp, atTarget, rest⟩
      rcases bind_eq_some_iff.mp rest with ⟨handle, atSource, same⟩
      cases same
      exact coherent
  | destroy target =>
      rcases bind_eq_some_iff.mp performed with ⟨handle, atTarget, same⟩
      cases same
      exact coherent.drop handle

theorem intact_drop_iff (coherent : Coherent compound) (intact : Intact compound)
    (listed : ∀ address, handle = some (.node address) → 0 < compound.table.refCountAt address) :
    Intact (interface.drop handle compound) ↔
      ∀ address, handle = some (.node address) → 1 < compound.table.refCountAt address := by
  constructor
  · rintro intactAfter address rfl
    by_contra few
    have last : compound.table.refCountAt address = 1 :=
      Int.le_antisymm (Int.not_lt.mp few) (listed address rfl)
    exact not_intact_release coherent intact last intactAfter
  · intro spare
    cases handle with
    | none => exact intact
    | some attrib =>
        apply intact_release coherent intact
        rintro address rfl
        exact spare address rfl

theorem Intact.retain (intact : Intact compound) (handle : Option Attribute) :
    Intact (interface.retain handle compound) := by
  cases handle with
  | none => exact intact
  | some attrib => exact intact.addRef attrib

theorem inOrder_query_iff (coherent : Coherent session.compound) (inOrder : InOrder session)
    {source : Nat} (performed : interface.act session (.query source question) = some after) :
    InOrder after ↔ Careful session (.query source question) := by
  rcases bind_eq_some_iff.mp performed with ⟨handle, atSource, rest⟩
  rcases bind_eq_some_iff.mp rest with ⟨⟨made, compound⟩, asked, same⟩
  cases same
  cases handle with
  | none =>
      cases asked
      apply iff_of_true
      · exact ⟨inOrder.accounted.append (adds_none inOrder.accounted.valid), inOrder.intact⟩
      · intro attrib used
        rw [atSource] at used
        cases used
  | some attrib =>
      have careful : Careful session (.query source question) ↔
          Unasked session.compound attrib question := by
        constructor
        · exact fun unasked => unasked attrib atSource
        · intro unasked other used
          rw [atSource] at used
          cases used
          exact unasked
      rw [careful]
      rcases query_queried coherent asked with queried | ⟨⟨path, tags, rfl⟩, rfl, rfl⟩
      · rw [← adds_iff_unasked coherent queried]
        constructor
        · exact fun inOrderAfter => inOrder.accounted.adds inOrderAfter.accounted
        · exact fun adds => ⟨inOrder.accounted.append adds, queried.intact inOrder.intact⟩
      · apply iff_of_true
        · exact ⟨inOrder.accounted.append (adds_none inOrder.accounted.valid), inOrder.intact⟩
        · intro node position _ selected
          cases selected

theorem inOrder_destroy_iff (coherent : Coherent session.compound) (inOrder : InOrder session)
    {target : Nat} (performed : interface.act session (.destroy target) = some after) :
    InOrder after ↔ Careful session (.destroy target) := by
  have accounted := act_accounted_of_ne refcounted inOrder.accounted (by rintro _ _ ⟨⟩) performed
  rcases bind_eq_some_iff.mp performed with ⟨handle, atTarget, same⟩
  cases same
  have counts := (accounted_iff.mp inOrder.accounted).2
  have spare : Careful session (.destroy target) ↔
      ∀ address, handle = some (.node address) →
        1 < session.compound.table.refCountAt address := by
    apply forall_congr'
    intro address
    rw [atTarget, some_inj, counts, Nat.one_lt_cast]
  rw [spare, ← intact_drop_iff coherent inOrder.intact (refCountAt_of_handle inOrder atTarget)]
  exact ⟨InOrder.intact, fun intact => ⟨accounted, intact⟩⟩

theorem inOrder_copyAssign_iff (coherent : Coherent session.compound) (inOrder : InOrder session)
    {target source : Nat}
    (performed : interface.act session (.copyAssign target source) = some after) :
    InOrder after ↔ Careful session (.copyAssign target source) := by
  have accounted := act_accounted_of_ne refcounted inOrder.accounted (by rintro _ _ ⟨⟩) performed
  rcases bind_eq_some_iff.mp performed with ⟨temp, atTarget, rest⟩
  rcases bind_eq_some_iff.mp rest with ⟨handle, atSource, same⟩
  split at same
  · rename_i self
    cases same
    exact iff_of_true inOrder (Or.inl self)
  · rename_i apart
    cases same
    have listed : ∀ address, handle = some (.node address) →
        session.compound.table.entryAt address ≠ none := fun address same =>
      (NodeTable.refCountAt_pos inOrder.accounted.valid).mp
        (refCountAt_of_handle inOrder atSource address same)
    have adds := refcounted.retain inOrder.accounted.valid listed
    have counts := (accounted_iff.mp inOrder.accounted).2
    -- The new handle is counted before the old one goes.
    have spare : Careful session (.copyAssign target source) ↔
        ∀ address, temp = some (.node address) →
          1 < (interface.retain handle session.compound).table.refCountAt address := by
      have either : Careful session (.copyAssign target source) ↔ Spare session target :=
        or_iff_right apart
      rw [either]
      apply forall_congr'
      intro address
      rw [atTarget, some_inj]
      apply imp_congr_right
      rintro rfl
      rw [adds.counts, counts, weight]
      split
      · rename_i both
        have more := one_lt_count apart atTarget (both ▸ atSource)
        exact iff_of_true more (by omega)
      · rw [Int.add_zero, Nat.one_lt_cast]
    have positive : ∀ address, temp = some (.node address) →
        0 < (interface.retain handle session.compound).table.refCountAt address := by
      intro address same
      have before := refCountAt_of_handle inOrder atTarget address same
      have more : 0 ≤ weight handle address := by
        unfold weight
        split <;> decide
      rw [adds.counts]
      exact Int.add_pos_of_pos_of_nonneg before more
    rw [spare, ← intact_drop_iff (coherent.retain handle) (inOrder.intact.retain handle) positive]
    exact ⟨InOrder.intact, fun intact => ⟨accounted, intact⟩⟩

/-- What a session does leaves it in order if and only if it is careful. -/
theorem inOrder_act_iff (coherent : Coherent session.compound) (inOrder : InOrder session)
    {action : Action} (performed : interface.act session action = some after) :
    InOrder after ↔ Careful session action := by
  have accounted := fun other => act_accounted_of_ne refcounted inOrder.accounted other performed
  cases action with
  | root =>
      cases performed
      exact iff_of_true ⟨accounted fun _ _ => nofun, inOrder.intact⟩ trivial
  | query source question => exact inOrder_query_iff coherent inOrder performed
  | copy source =>
      rcases bind_eq_some_iff.mp performed with ⟨handle, atSource, same⟩
      cases same
      exact iff_of_true
        ⟨accounted fun _ _ => nofun, inOrder.intact.retain handle⟩ trivial
  | move source =>
      rcases bind_eq_some_iff.mp performed with ⟨handle, atSource, same⟩
      cases same
      exact iff_of_true ⟨accounted fun _ _ => nofun, inOrder.intact⟩ trivial
  | copyAssign target source => exact inOrder_copyAssign_iff coherent inOrder performed
  | moveAssign target source =>
      rcases bind_eq_some_iff.mp performed with ⟨temp, atTarget, rest⟩
      rcases bind_eq_some_iff.mp rest with ⟨handle, atSource, same⟩
      cases same
      exact iff_of_true ⟨accounted fun _ _ => nofun, inOrder.intact⟩ trivial
  | destroy target => exact inOrder_destroy_iff coherent inOrder performed

/-- The overlay is in order throughout a session. -/
def AlwaysInOrder (documents : List JsonValue) (actions : List Action) : Prop :=
  ∀ before rest, actions = before ++ rest → ∀ session,
    run interface { overlays := documents } before = some session → InOrder session

/-- Each step of a session is careful. -/
def AlwaysCareful (documents : List JsonValue) (actions : List Action) : Prop :=
  ∀ before action rest, actions = before ++ action :: rest → ∀ session after,
    run interface { overlays := documents } before = some session →
    interface.act session action = some after → Careful session action

theorem coherent_session {documents : List JsonValue} {actions : List Action}
    (performed : run interface { overlays := documents } actions = some session) :
    Coherent session.compound := by
  induction actions using List.reverseRecOn generalizing session with
  | nil =>
      cases performed
      exact coherent_make documents
  | append_singleton actions action ih =>
      rw [run_concat] at performed
      rcases bind_eq_some_iff.mp performed with ⟨middle, before, step⟩
      exact (ih before).act step

/-- An overlay is in order throughout a session if and only if each step is careful. -/
theorem alwaysInOrder_iff (documents : List JsonValue) (actions : List Action) :
    AlwaysInOrder documents actions ↔ AlwaysCareful documents actions := by
  constructor
  · rintro always before action rest rfl session after performed step
    have inOrder := always before (action :: rest) rfl session performed
    have stepped : run interface { overlays := documents } (before ++ [action]) = some after := by
      rw [run_concat, performed]
      exact step
    have inOrderAfter := always (before ++ [action]) rest
      (List.append_assoc before [action] rest).symm after stepped
    exact (inOrder_act_iff (coherent_session performed) inOrder step).mp inOrderAfter
  · intro always before
    induction before using List.reverseRecOn with
    | nil =>
        rintro rest _ session performed
        cases performed
        constructor
        · exact accounted_empty rfl
        · rintro above other ⟨parent, child, address, inUse, mem, _⟩
          cases above with
          | root =>
              cases inUse
              cases mem
          | node address => cases inUse
    | append_singleton before action ih =>
        rintro rest rfl session performed
        rw [List.append_assoc] at always
        rw [run_concat] at performed
        rcases bind_eq_some_iff.mp performed with ⟨middle, reached, step⟩
        have inOrder := ih (action :: rest) (List.append_assoc before [action] rest) middle reached
        have careful := always before action rest rfl middle session reached step
        exact (inOrder_act_iff (coherent_session reached) inOrder step).mpr careful

end Overlays

end OverlayCompound

/-- Handles are accounted for in any session with a JSON or a YAML document, and in a session
with an overlay if and only if each step of it is careful. -/
theorem handles_accounted [ExpressionParser] [JsonLibrary] [YamlLibrary] :
    (∀ document actions session,
      run JsonCompound.interface { document := document } actions = some session →
        Accounted session.compound.table session.handles) ∧
    (∀ root actions session,
      run YamlCompound.interface { root := root } actions = some session →
        Accounted session.compound.table session.handles) ∧
    ∀ documents actions, OverlayCompound.AlwaysInOrder documents actions ↔
      OverlayCompound.AlwaysCareful documents actions := by
  constructor
  · intro document actions session performed
    exact accounted_run JsonCompound.refcounted JsonCompound.adds_query rfl performed
  constructor
  · intro root actions session performed
    exact accounted_run YamlCompound.refcounted YamlCompound.adds_query rfl performed
  · exact OverlayCompound.alwaysInOrder_iff

/-- The root of an overlay is asked for the same child twice. -/
def askedTwice : List Action :=
  [.root, .query 0 (.nested [byteOf 'a']), .query 0 (.nested [byteOf 'a'])]

/-- There are two handles, but only one of them is counted. -/
theorem not_alwaysInOrder_askedTwice :
    ¬@OverlayCompound.AlwaysInOrder noExpressions linearSearch
      [.object [([byteOf 'a'], .null)]] askedTwice := by
  intro always
  have inOrder := always askedTwice [] rfl _ rfl
  have counts := (accounted_iff.mp inOrder.accounted).2 0
  revert counts
  decide

end Eagine.ValueTree
