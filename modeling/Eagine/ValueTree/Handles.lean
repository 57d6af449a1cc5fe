import Eagine.ValueTree.JsonNode

/-!
# Handles of attributes

The handles that a program has, and what it does with them. A compound counts the handles
of a node if it counts one for each node that it gives out.
-/

namespace Eagine.ValueTree

open Serialization Option NodeTable

/-- How a program gets from an attribute to another one. -/
inductive Query where
  | nestedAt (index : Int)
  | nested (name : Block)
  | find (path : Path) (tags : List Block)

/-- What handles need of a `compound_interface`. -/
structure CompoundInterface (S : Type) where
  query : Attribute → Query → S → Option (Option Attribute × S)
  addRef : Attribute → S → S
  release : Attribute → S → S

/-- A compound and the variables that hold handles of its attributes. An empty handle
refers to nothing; so does a variable that is gone. -/
structure Session (S : Type) where
  compound : S
  handles : List (Option Attribute) := []

inductive Action where
  | root
  | query (source : Nat) (question : Query)
  | copy (source : Nat)
  | move (source : Nat)
  | copyAssign (target source : Nat)
  | moveAssign (target source : Nat)
  | destroy (target : Nat)

namespace CompoundInterface

variable {S : Type} (interface : CompoundInterface S)

def retain (handle : Option Attribute) (compound : S) : S :=
  handle.elim compound fun attrib => interface.addRef attrib compound

def drop (handle : Option Attribute) (compound : S) : S :=
  handle.elim compound fun attrib => interface.release attrib compound

/-- The query of a handle. An empty one gives an empty one. -/
def ask (handle : Option Attribute) (question : Query) (compound : S) :
    Option (Option Attribute × S) :=
  handle.elim (some (none, compound)) fun attrib => interface.query attrib question compound

/-- The members of `attribute`, and `compound::structure`. The new handle of a query, a copy or
a move is a new variable. -/
def act (session : Session S) : Action → Option (Session S)
  | .root => some { session with handles := session.handles ++ [some .root] }
  | .query source question => do
      let handle ← session.handles[source]?
      let (made, compound) ← interface.ask handle question session.compound
      some ⟨compound, session.handles ++ [made]⟩
  | .copy source => do
      let handle ← session.handles[source]?
      some ⟨interface.retain handle session.compound, session.handles ++ [handle]⟩
  | .move source => do
      let handle ← session.handles[source]?
      some { session with handles := session.handles.set source none ++ [handle] }
  | .copyAssign target source => do
      let temp ← session.handles[target]?
      let handle ← session.handles[source]?
      if target = source then some session
      else some ⟨interface.drop temp (interface.retain handle session.compound),
        session.handles.set target handle⟩
  | .moveAssign target source => do
      let temp ← session.handles[target]?
      let handle ← session.handles[source]?
      some { session with handles := (session.handles.set target handle).set source temp }
  | .destroy target => do
      let handle ← session.handles[target]?
      some ⟨interface.drop handle session.compound, session.handles.set target none⟩

end CompoundInterface

/-- Each node has as many references as there are handles of it. So it is in the list as
long as there is a handle of it, and no longer. -/
structure Accounted {N : Type} (table : NodeTable N) (handles : List (Option Attribute)) :
    Prop where
  valid : table.Valid
  counted : ∀ entry ∈ table.nodes,
    entry.refCount = handles.count (some (Attribute.node entry.address))
  listed : ∀ address, some (Attribute.node address) ∈ handles ↔ table.entryAt address ≠ none

variable {handles : List (Option Attribute)} {old : Option Attribute} {target : Nat}

theorem accounted_iff {N : Type} {table : NodeTable N} :
    Accounted table handles ↔ table.Valid ∧
      ∀ address, table.refCountAt address = handles.count (some (Attribute.node address)) := by
  constructor
  · rintro ⟨valid, counted, listed⟩
    refine ⟨valid, fun address => ?_⟩
    rw [NodeTable.refCountAt]
    cases found : table.entryAt address with
    | some entry =>
        rcases mem_of_entryIn found with ⟨mem, rfl⟩
        exact counted entry mem
    | none =>
        have absent : some (Attribute.node address) ∉ handles := fun mem =>
          (listed address).mp mem found
        rw [List.count_eq_zero_of_not_mem absent]
        rfl
  · rintro ⟨valid, same⟩
    constructor
    · exact valid
    · intro entry mem
      have found : table.entryAt entry.address = some entry :=
        entryIn_of_mem valid.distinct mem
      rw [← same, NodeTable.refCountAt, found]
      rfl
    · intro address
      rw [← List.count_pos_iff, ← Int.natCast_pos, ← same, NodeTable.refCountAt]
      cases found : table.entryAt address with
      | some entry =>
          exact iff_of_true (valid.counted entry (mem_of_entryIn found).1)
            (some_ne_none entry)
      | none => exact iff_of_false (Int.lt_irrefl 0) fun listed => listed rfl

/-- One reference for a handle, if it is one of a node. -/
def weight (handle : Option Attribute) (address : Nat) : Int :=
  if handle = some (.node address) then 1 else 0

theorem count_append_handle (handles : List (Option Attribute)) (handle : Option Attribute)
    (address : Nat) :
    ((handles ++ [handle]).count (some (.node address)) : Int) =
      handles.count (some (.node address)) + weight handle address := by
  rw [List.count_append, List.count_singleton, weight, Int.natCast_add]
  by_cases same : handle = some (.node address)
  · simp [same]
  · simp [same]

theorem count_set_handle (atTarget : handles[target]? = some old) (handle : Option Attribute)
    (address : Nat) :
    ((handles.set target handle).count (some (.node address)) : Int) =
      handles.count (some (.node address)) + weight handle address - weight old address := by
  rcases List.getElem?_eq_some_iff.mp atTarget with ⟨bound, rfl⟩
  have positive : handles[target] = some (.node address) →
      0 < handles.count (some (.node address)) := fun same =>
    List.count_pos_iff.mpr (same ▸ List.getElem_mem bound)
  rw [List.count_set bound, weight, weight]
  by_cases before : handles[target] = some (.node address)
  · have some := positive before
    by_cases after : handle = Option.some (.node address)
    · simp [before, after]
      omega
    · simp [before, after]
      omega
  · by_cases after : handle = Option.some (.node address)
    · simp [before, after]
    · simp [before, after]

/-- Handles of one node at two places are more than one. -/
theorem one_lt_count {source address : Nat} (apart : target ≠ source)
    (atTarget : handles[target]? = some (some (.node address)))
    (atSource : handles[source]? = some (some (.node address))) :
    1 < handles.count (some (.node address)) := by
  have removed := count_set_handle atTarget none address
  have still : (handles.set target none)[source]? = some (some (.node address)) := by
    rw [List.getElem?_set_ne apart]
    exact atSource
  have positive := List.count_pos_iff.mpr (List.mem_of_getElem? still)
  have nothing : weight none address = 0 := rfl
  have one : weight (some (.node address)) address = 1 := if_pos rfl
  rw [nothing, one] at removed
  omega

/-- The references to nodes after a new handle. -/
structure Adds {N : Type} (table after : NodeTable N) (handle : Option Attribute) : Prop where
  valid : after.Valid
  counts : ∀ address, after.refCountAt address = table.refCountAt address + weight handle address

/-- The references to nodes after a handle is gone. -/
structure Removes {N : Type} (table after : NodeTable N) (handle : Option Attribute) : Prop where
  valid : after.Valid
  counts : ∀ address, after.refCountAt address = table.refCountAt address - weight handle address

section Accounts

variable {N : Type} {table after : NodeTable N} {handles : List (Option Attribute)}
  {handle : Option Attribute}

theorem adds_none (valid : table.Valid) : Adds table table none where
  valid := valid
  counts _ := (Int.add_zero _).symm

theorem adds_makeNode [BEq N] (valid : table.Valid) (temp : N) :
    Adds table (table.makeNode temp).2 (some (.node (table.makeNode temp).1)) where
  valid := valid_makeNode valid temp
  counts address := by
    rw [refCountAt_makeNode valid, weight]
    congr 1
    by_cases same : address = (table.makeNode temp).1
    · rw [if_pos same, if_pos (by rw [same])]
    · have apart : some (Attribute.node (table.makeNode temp).1) ≠ some (.node address) := by
        intro equal
        cases equal
        exact same rfl
      rw [if_neg same, if_neg apart]

theorem Accounted.append (accounted : Accounted table handles) (adds : Adds table after handle) :
    Accounted after (handles ++ [handle]) := by
  rw [accounted_iff] at accounted ⊢
  refine ⟨adds.valid, fun address => ?_⟩
  rw [adds.counts, accounted.2, count_append_handle]

/-- What the new handle of a session is counted by. -/
theorem Accounted.adds (accounted : Accounted table handles)
    (appended : Accounted after (handles ++ [handle])) : Adds table after handle := by
  rw [accounted_iff] at accounted appended
  constructor
  · exact appended.1
  · intro address
    rw [appended.2, accounted.2, count_append_handle]

theorem Accounted.destroy (accounted : Accounted table handles)
    (atTarget : handles[target]? = some handle) (removes : Removes table after handle) :
    Accounted after (handles.set target none) := by
  rw [accounted_iff] at accounted ⊢
  refine ⟨removes.valid, fun address => ?_⟩
  have nothing : weight none address = 0 := rfl
  rw [removes.counts, accounted.2, count_set_handle atTarget, nothing, Int.add_zero]

theorem Accounted.assign (accounted : Accounted table handles)
    (atTarget : handles[target]? = some old) {middle : NodeTable N}
    (adds : Adds table middle handle) (removes : Removes middle after old) :
    Accounted after (handles.set target handle) := by
  rw [accounted_iff] at accounted ⊢
  refine ⟨removes.valid, fun address => ?_⟩
  rw [removes.counts, adds.counts, accounted.2, count_set_handle atTarget]

theorem Accounted.move (accounted : Accounted table handles) {source : Nat}
    (atSource : handles[source]? = some handle) :
    Accounted table (handles.set source none ++ [handle]) := by
  rw [accounted_iff] at accounted ⊢
  refine ⟨accounted.1, fun address => ?_⟩
  have nothing : weight none address = 0 := rfl
  rw [accounted.2, count_append_handle, count_set_handle atSource, nothing, Int.add_zero,
    Int.sub_add_cancel]

theorem Accounted.swap (accounted : Accounted table handles) {source : Nat}
    (atTarget : handles[target]? = some old) (atSource : handles[source]? = some handle) :
    Accounted table ((handles.set target handle).set source old) := by
  rw [accounted_iff] at accounted ⊢
  refine ⟨accounted.1, fun address => ?_⟩
  have atSourceStill : (handles.set target handle)[source]? = some handle := by
    by_cases same : target = source
    · subst same
      exact List.getElem?_set_self (List.getElem?_eq_some_iff.mp atTarget).1
    · rw [List.getElem?_set_ne same]
      exact atSource
  rw [accounted.2, count_set_handle atSourceStill, count_set_handle atTarget]
  omega

end Accounts

/-- The counts are those of a `compound_with_refcounted_node`; its root is not one of the
nodes. -/
structure Refcounted {S N : Type} (interface : CompoundInterface S) (table : S → NodeTable N) :
    Prop where
  addRef_root : ∀ compound, table (interface.addRef .root compound) = table compound
  addRef_node : ∀ address compound,
    table (interface.addRef (.node address) compound) = (table compound).addRef address
  release_root : ∀ compound, table (interface.release .root compound) = table compound
  release_node : ∀ address compound,
    table (interface.release (.node address) compound) = (table compound).release address

section Sessions

variable {S N : Type} {interface : CompoundInterface S} {table : S → NodeTable N} {compound : S}

variable {handle : Option Attribute}

theorem Refcounted.retain (refcounted : Refcounted interface table) (valid : (table compound).Valid)
    (listed : ∀ address, handle = some (.node address) → (table compound).entryAt address ≠ none) :
    Adds (table compound) (table (interface.retain handle compound)) handle := by
  cases handle with
  | none => exact adds_none valid
  | some attrib =>
      cases attrib with
      | root =>
          constructor
          · exact (refcounted.addRef_root compound).symm ▸ valid
          · intro address
            rw [CompoundInterface.retain, elim_some, refcounted.addRef_root]
            exact (Int.add_zero _).symm
      | node retained =>
          have same := refcounted.addRef_node retained compound
          constructor
          · exact same.symm ▸ valid_addRef valid retained
          · intro address
            rw [CompoundInterface.retain, elim_some, same,
              refCountAt_addRef _ (listed retained rfl), weight]
            simp only [Option.some.injEq, Attribute.node.injEq, eq_comm]

theorem Refcounted.drop (refcounted : Refcounted interface table) (valid : (table compound).Valid)
    (listed : ∀ address, handle = some (.node address) → (table compound).entryAt address ≠ none) :
    Removes (table compound) (table (interface.drop handle compound)) handle := by
  cases handle with
  | none =>
      constructor
      · exact valid
      · exact fun _ => (Int.sub_zero _).symm
  | some attrib =>
      cases attrib with
      | root =>
          constructor
          · exact (refcounted.release_root compound).symm ▸ valid
          · intro address
            rw [CompoundInterface.drop, elim_some, refcounted.release_root]
            exact (Int.sub_zero _).symm
      | node released =>
          have same := refcounted.release_node released compound
          constructor
          · exact same.symm ▸ valid_release valid released
          · intro address
            rw [CompoundInterface.drop, elim_some, same,
              refCountAt_release valid (listed released rfl), weight]
            simp only [Option.some.injEq, Attribute.node.injEq, eq_comm]

variable {session : Session S}

/-- What a session does keeps the accounts, if a query counts the handle that it gives. -/
theorem act_accounted (refcounted : Refcounted interface table) {after : Session S}
    (accounted : Accounted (table session.compound) session.handles) {action : Action}
    (answers : ∀ source question attrib made compound, action = .query source question →
      session.handles[source]? = some (some attrib) →
      interface.query attrib question session.compound = some (made, compound) →
      Adds (table session.compound) (table compound) made)
    (performed : interface.act session action = some after) :
    Accounted (table after.compound) after.handles := by
  have listed : ∀ {source : Nat} {handle : Option Attribute},
      session.handles[source]? = some handle → ∀ address, handle = some (.node address) →
      (table session.compound).entryAt address ≠ none := by
    rintro source _ atSource address rfl
    exact (accounted.listed address).mp (List.mem_of_getElem? atSource)
  cases action with
  | root =>
      cases performed
      apply accounted.append
      constructor
      · exact accounted.valid
      · exact fun _ => (Int.add_zero _).symm
  | query source question =>
      rcases bind_eq_some_iff.mp performed with ⟨handle, atSource, rest⟩
      rcases bind_eq_some_iff.mp rest with ⟨⟨made, compound⟩, asked, same⟩
      cases same
      apply accounted.append
      cases handle with
      | none =>
          cases asked
          exact adds_none accounted.valid
      | some attrib => exact answers source question attrib made compound rfl atSource asked
  | copy source =>
      rcases bind_eq_some_iff.mp performed with ⟨handle, atSource, same⟩
      cases same
      exact accounted.append (refcounted.retain accounted.valid (listed atSource))
  | move source =>
      rcases bind_eq_some_iff.mp performed with ⟨handle, atSource, same⟩
      cases same
      exact accounted.move atSource
  | copyAssign target source =>
      rcases bind_eq_some_iff.mp performed with ⟨temp, atTarget, rest⟩
      rcases bind_eq_some_iff.mp rest with ⟨handle, atSource, same⟩
      split at same
      · cases same
        exact accounted
      · cases same
        have adds := refcounted.retain accounted.valid (listed atSource)
        apply accounted.assign atTarget adds
        apply refcounted.drop adds.valid
        intro address same
        rw [← refCountAt_pos adds.valid, adds.counts]
        have before := (refCountAt_pos accounted.valid).mpr (listed atTarget address same)
        have more : 0 ≤ weight handle address := by
          unfold weight
          split <;> decide
        exact Int.add_pos_of_pos_of_nonneg before more
  | moveAssign target source =>
      rcases bind_eq_some_iff.mp performed with ⟨temp, atTarget, rest⟩
      rcases bind_eq_some_iff.mp rest with ⟨handle, atSource, same⟩
      cases same
      exact accounted.swap atTarget atSource
  | destroy target =>
      rcases bind_eq_some_iff.mp performed with ⟨handle, atTarget, same⟩
      cases same
      exact accounted.destroy atTarget (refcounted.drop accounted.valid (listed atTarget))

theorem act_accounted_of_ne (refcounted : Refcounted interface table) {after : Session S}
    (accounted : Accounted (table session.compound) session.handles) {action : Action}
    (other : ∀ source question, action ≠ .query source question)
    (performed : interface.act session action = some after) :
    Accounted (table after.compound) after.handles := by
  apply act_accounted refcounted accounted _ performed
  intro source question attrib made compound same
  exact absurd same (other source question)

/-- The session after some actions. -/
def run (interface : CompoundInterface S) (compound : S) (actions : List Action) :
    Option (Session S) :=
  actions.foldlM interface.act { compound := compound }

theorem run_concat (interface : CompoundInterface S) (compound : S)
    (actions : List Action) (action : Action) :
    run interface compound (actions ++ [action]) =
      (run interface compound actions).bind fun session => interface.act session action := by
  rw [run, List.foldlM_append, run]
  apply congrArg (Option.bind _)
  funext session
  rw [List.foldlM_cons]
  cases interface.act session action <;> rfl

theorem accounted_empty (empty : table compound = {}) :
    Accounted (table compound) [] := by
  rw [accounted_iff, empty]
  exact ⟨valid_empty, fun _ => rfl⟩

theorem accounted_foldlM (refcounted : Refcounted interface table)
    (answers : ∀ {attrib question compound made after}, (table compound).Valid →
      interface.query attrib question compound = some (made, after) →
      Adds (table compound) (table after) made) {after : Session S}
    (accounted : Accounted (table session.compound) session.handles) {actions : List Action}
    (performed : actions.foldlM interface.act session = some after) :
    Accounted (table after.compound) after.handles := by
  induction actions generalizing session with
  | nil =>
      cases performed
      exact accounted
  | cons action actions ih =>
      rw [List.foldlM_cons] at performed
      rcases bind_eq_some_iff.mp performed with ⟨middle, step, rest⟩
      apply ih _ rest
      apply act_accounted refcounted accounted _ step
      intro source question attrib made compound _ _ asked
      exact answers accounted.valid asked

/-- Where each query counts the handle that it gives, the handles are accounted for in any
session. -/
theorem accounted_run (refcounted : Refcounted interface table)
    (answers : ∀ {attrib question compound made after}, (table compound).Valid →
      interface.query attrib question compound = some (made, after) →
      Adds (table compound) (table after) made) (empty : table compound = {})
    {actions : List Action} (performed : run interface compound actions = some session) :
    Accounted (table session.compound) session.handles :=
  accounted_foldlM refcounted answers (accounted_empty empty) performed

end Sessions

end Eagine.ValueTree
