import Mathlib.Data.List.Nodup

/-!
# Nodes with reference counts

The list of nodes of a compound. Nodes that are equal are shared: whoever makes a node
again gets the one that is there. The address of a node is its identity.
-/

namespace Eagine.ValueTree

open List

structure NodeEntry (N : Type) where
  refCount : Int
  address : Nat
  node : N

/-- The nodes of a `compound_with_refcounted_node`. No node had the fresh address yet. -/
structure NodeTable (N : Type) where
  nodes : List (NodeEntry N) := []
  fresh : Nat := 0

namespace NodeEntry

variable {N : Type}

def retain (entry : NodeEntry N) : NodeEntry N :=
  { entry with refCount := entry.refCount + 1 }

/-- An entry with one reference less; the last reference takes the node with it. -/
def drop (entry : NodeEntry N) : Option (NodeEntry N) :=
  if entry.refCount - 1 ≤ 0 then none
  else some { entry with refCount := entry.refCount - 1 }

@[simp] theorem retain_address (entry : NodeEntry N) : entry.retain.address = entry.address :=
  rfl

theorem drop_address {entry left : NodeEntry N} (dropped : entry.drop = some left) :
    left.address = entry.address := by
  unfold drop at dropped
  split at dropped
  · cases dropped
  · cases dropped
    rfl

theorem drop_node {entry left : NodeEntry N} (dropped : entry.drop = some left) :
    left.node = entry.node := by
  unfold drop at dropped
  split at dropped
  · cases dropped
  · cases dropped
    rfl

end NodeEntry

namespace NodeTable

variable {N : Type}

/-- The loop of `_do_make_new`: the first node that is equal gets a reference more. -/
def share [BEq N] (temp : N) : List (NodeEntry N) → Option (Nat × List (NodeEntry N))
  | [] => none
  | entry :: entries =>
      if temp == entry.node then some (entry.address, entry.retain :: entries)
      else (share temp entries).map fun shared => (shared.1, entry :: shared.2)

/-- A new node behind the others, with a single reference. -/
def insert (temp : N) (table : NodeTable N) : NodeTable N :=
  ⟨table.nodes ++ [⟨1, table.fresh, temp⟩], table.fresh + 1⟩

/-- `make_node`, with the address of the node. -/
def makeNode [BEq N] (temp : N) (table : NodeTable N) : Nat × NodeTable N :=
  match share temp table.nodes with
  | some shared => (shared.1, { table with nodes := shared.2 })
  | none => (table.fresh, table.insert temp)

/-- `add_ref`. -/
def addRef (address : Nat) (table : NodeTable N) : NodeTable N :=
  { table with nodes := table.nodes.map fun entry =>
      if address = entry.address then entry.retain else entry }

/-- The loop of `release`. It ends where a node is erased. -/
def releaseFrom (address : Nat) : List (NodeEntry N) → List (NodeEntry N)
  | [] => []
  | entry :: entries =>
      if address = entry.address then
        match entry.drop with
        | some left => left :: releaseFrom address entries
        | none => entries
      else entry :: releaseFrom address entries

def release (address : Nat) (table : NodeTable N) : NodeTable N :=
  { table with nodes := releaseFrom address table.nodes }

/-- The node with an address is changed to another one. -/
def replace (address : Nat) (node : N) (table : NodeTable N) : NodeTable N :=
  { table with nodes := table.nodes.map fun entry =>
      if address = entry.address then { entry with node := node } else entry }

/-- The entry of the node with this address. -/
def entryIn (address : Nat) : List (NodeEntry N) → Option (NodeEntry N)
  | [] => none
  | entry :: entries => if entry.address = address then some entry else entryIn address entries

def entryAt (address : Nat) (table : NodeTable N) : Option (NodeEntry N) :=
  entryIn address table.nodes

/-- The node with this address. -/
def nodeAt (address : Nat) (table : NodeTable N) : Option N :=
  (table.entryAt address).map (·.node)

/-- The nodes without their counts and addresses. -/
def contents (table : NodeTable N) : List N :=
  table.nodes.map (·.node)

/-- No address is used twice, and a node in the list has references. -/
structure Valid (table : NodeTable N) : Prop where
  distinct : (table.nodes.map (·.address)).Nodup
  bounded : ∀ entry ∈ table.nodes, entry.address < table.fresh
  counted : ∀ entry ∈ table.nodes, 0 < entry.refCount

theorem valid_empty : Valid ({} : NodeTable N) where
  distinct := nodup_nil
  bounded _ mem := nomatch mem
  counted _ mem := nomatch mem

variable {address : Nat} {entries : List (NodeEntry N)} {table : NodeTable N} {entry : NodeEntry N}

theorem mem_of_entryIn (found : entryIn address entries = some entry) :
    entry ∈ entries ∧ entry.address = address := by
  induction entries with
  | nil => cases found
  | cons first entries ih =>
      unfold entryIn at found
      split at found
      · rename_i here
        cases found
        exact ⟨mem_cons_self, here⟩
      · exact ⟨mem_cons_of_mem first (ih found).1, (ih found).2⟩

theorem entryIn_eq_none : entryIn address entries = none ↔ address ∉ entries.map (·.address) := by
  induction entries with
  | nil => simp [entryIn]
  | cons first entries ih =>
      unfold entryIn
      split
      · rename_i here
        simp [here]
      · rename_i other
        rw [ih, map_cons, mem_cons, not_or, and_iff_right (Ne.symm other)]

theorem entryIn_of_mem (distinct : (entries.map (·.address)).Nodup)
    (mem : entry ∈ entries) : entryIn entry.address entries = some entry := by
  induction entries with
  | nil => exact absurd mem not_mem_nil
  | cons first entries ih =>
      rw [map_cons, nodup_cons] at distinct
      unfold entryIn
      rcases mem_cons.mp mem with rfl | later
      · exact if_pos rfl
      · have other : first.address ≠ entry.address := fun same =>
          distinct.1 (same ▸ mem_map_of_mem later)
        rw [if_neg other, ih distinct.2 later]

theorem entryIn_append (address : Nat) (entries others : List (NodeEntry N)) :
    entryIn address (entries ++ others) =
      ((entryIn address entries).or (entryIn address others)) := by
  induction entries with
  | nil => rfl
  | cons first entries ih =>
      rw [cons_append, entryIn, entryIn, ih]
      split <;> rfl

theorem mem_contents_of_nodeAt {node : N} (atAddress : table.nodeAt address = some node) :
    node ∈ table.contents := by
  rcases Option.map_eq_some_iff.mp atAddress with ⟨entry, found, rfl⟩
  exact mem_map_of_mem (mem_of_entryIn found).1

theorem entryAt_fresh (valid : table.Valid) : table.entryAt table.fresh = none := by
  rw [entryAt, entryIn_eq_none]
  intro mem
  rcases mem_map.mp mem with ⟨entry, within, same⟩
  exact Nat.ne_of_lt (valid.bounded entry within) same

/-- A table stays in order where one of its entries is changed. -/
theorem valid_change {change : NodeEntry N → NodeEntry N} (valid : table.Valid) (address : Nat)
    (stays : ∀ entry, (change entry).address = entry.address)
    (counted : ∀ entry, 0 < entry.refCount → 0 < (change entry).refCount) :
    Valid { table with nodes := table.nodes.map fun entry =>
      if address = entry.address then change entry else entry } where
  distinct := by
    have addresses : ((·.address) ∘ fun entry =>
        if address = entry.address then change entry else entry) = (·.address) := by
      funext entry
      dsimp only [Function.comp]
      split
      · exact stays entry
      · rfl
    rw [map_map, addresses]
    exact valid.distinct
  bounded entry mem := by
    rcases mem_map.mp mem with ⟨before, within, rfl⟩
    have bound := valid.bounded before within
    split
    · exact (stays before).symm ▸ bound
    · exact bound
  counted entry mem := by
    rcases mem_map.mp mem with ⟨before, within, rfl⟩
    have positive := valid.counted before within
    split
    · exact counted before positive
    · exact positive

theorem entryIn_change {change : NodeEntry N → NodeEntry N}
    (stays : ∀ entry, (change entry).address = entry.address) (address other : Nat)
    (entries : List (NodeEntry N)) :
    entryIn other (entries.map fun entry =>
        if address = entry.address then change entry else entry) =
      if other = address then (entryIn other entries).map change else entryIn other entries := by
  induction entries with
  | nil => simp [entryIn]
  | cons entry entries ih =>
      rw [map_cons, entryIn, entryIn, ih]
      by_cases changed : address = entry.address
      · rw [if_pos changed, stays]
        by_cases here : entry.address = other
        · rw [if_pos here, if_pos here, if_pos (here.symm.trans changed.symm), Option.map_some]
        · rw [if_neg here, if_neg here]
      · rw [if_neg changed]
        by_cases here : entry.address = other
        · have apart : other ≠ address := fun same => changed (same.symm.trans here.symm)
          rw [if_pos here, if_pos here, if_neg apart]
        · rw [if_neg here, if_neg here]

theorem contents_addRef (table : NodeTable N) (address : Nat) :
    (table.addRef address).contents = table.contents := by
  rw [contents, contents, addRef, map_map]
  apply map_congr_left
  intro entry _
  dsimp only [Function.comp]
  split <;> rfl

theorem valid_addRef (valid : table.Valid) (address : Nat) : (table.addRef address).Valid :=
  valid_change valid address (fun _ => rfl) fun _ positive =>
    Int.lt_add_one_of_le (Int.le_of_lt positive)

theorem entryAt_addRef (table : NodeTable N) (address other : Nat) :
    (table.addRef address).entryAt other =
      if other = address then (table.entryAt other).map NodeEntry.retain
      else table.entryAt other :=
  entryIn_change NodeEntry.retain_address address other table.nodes

theorem nodeAt_addRef (table : NodeTable N) (address other : Nat) :
    (table.addRef address).nodeAt other = table.nodeAt other := by
  rw [nodeAt, nodeAt, entryAt_addRef]
  split
  · rw [Option.map_map]
    rfl
  · rfl

theorem valid_replace (valid : table.Valid) (address : Nat) (node : N) :
    (table.replace address node).Valid :=
  valid_change valid address (fun _ => rfl) fun _ => id

theorem entryAt_replace (table : NodeTable N) (address other : Nat) (node : N) :
    (table.replace address node).entryAt other =
      if other = address then (table.entryAt other).map fun entry => { entry with node := node }
      else table.entryAt other :=
  entryIn_change (fun entry => (rfl : { entry with node := node }.address = entry.address)) address
    other table.nodes

theorem nodeAt_replace (table : NodeTable N) (address other : Nat) (node : N) :
    (table.replace address node).nodeAt other =
      if other = address then (table.nodeAt other).map fun _ => node else table.nodeAt other := by
  rw [nodeAt, nodeAt, entryAt_replace]
  split
  · rw [Option.map_map, Option.map_map]
    rfl
  · rfl

theorem node_eq_of_mem (valid : table.Valid) {node : N}
    (atAddress : table.nodeAt address = some node) (mem : entry ∈ table.nodes)
    (here : address = entry.address) : entry.node = node := by
  have found : table.entryAt address = some entry := by
    rw [here]
    exact entryIn_of_mem valid.distinct mem
  rw [nodeAt, found] at atAddress
  exact Option.some.inj atAddress

theorem replace_self (valid : table.Valid) {node : N}
    (atAddress : table.nodeAt address = some node) : table.replace address node = table := by
  have kept : table.nodes.map (fun entry =>
      if address = entry.address then { entry with node := node } else entry) = table.nodes := by
    rw [map_congr_left (g := id), map_id]
    intro entry mem
    split
    · rename_i here
      rw [← node_eq_of_mem valid atAddress mem here]
      rfl
    · rfl
  rw [replace, kept]

/-- What another node has in common with the one before it, the contents keep. -/
theorem map_contents_replace {P : Type} (property : N → P) (valid : table.Valid) {node later : N}
    (atAddress : table.nodeAt address = some node) (same : property later = property node) :
    (table.replace address later).contents.map property = table.contents.map property := by
  rw [contents, contents, replace, map_map, map_map, map_map]
  apply map_congr_left
  intro entry mem
  dsimp only [Function.comp]
  split
  · rename_i here
    rw [node_eq_of_mem valid atAddress mem here]
    exact same
  · rfl

theorem mem_releaseFrom (mem : entry ∈ releaseFrom address entries) :
    entry ∈ entries ∨ ∃ before ∈ entries, before.drop = some entry := by
  induction entries with
  | nil => exact absurd mem not_mem_nil
  | cons first entries ih =>
      have onwards : entry ∈ releaseFrom address entries →
          entry ∈ first :: entries ∨ ∃ before ∈ first :: entries, before.drop = some entry := by
        intro later
        rcases ih later with same | ⟨before, within, dropped⟩
        · exact Or.inl (mem_cons_of_mem _ same)
        · exact Or.inr ⟨before, mem_cons_of_mem _ within, dropped⟩
      unfold releaseFrom at mem
      split at mem
      · cases dropped : first.drop with
        | some left =>
            rw [dropped] at mem
            rcases mem_cons.mp mem with rfl | later
            · exact Or.inr ⟨first, mem_cons_self, dropped⟩
            · exact onwards later
        | none =>
            rw [dropped] at mem
            exact Or.inl (mem_cons_of_mem _ mem)
      · rcases mem_cons.mp mem with rfl | later
        · exact Or.inl mem_cons_self
        · exact onwards later

/-- What is not changed in an entry by a reference less is left of the entries in their order. -/
theorem sublist_releaseFrom {A : Type*} {part : NodeEntry N → A}
    (kept : ∀ {entry left : NodeEntry N}, entry.drop = some left → part left = part entry)
    (address : Nat) (entries : List (NodeEntry N)) :
    ((releaseFrom address entries).map part).Sublist (entries.map part) := by
  induction entries with
  | nil => exact List.Sublist.refl _
  | cons first entries ih =>
      unfold releaseFrom
      split
      · cases dropped : first.drop with
        | some left =>
            dsimp only
            rw [map_cons, map_cons, kept dropped]
            exact ih.cons_cons _
        | none => exact sublist_cons_self _ _
      · exact ih.cons_cons _

theorem contents_release (table : NodeTable N) (address : Nat) :
    (table.release address).contents.Sublist table.contents :=
  sublist_releaseFrom NodeEntry.drop_node address table.nodes

theorem valid_release (valid : table.Valid) (address : Nat) :
    (table.release address).Valid where
  distinct := (sublist_releaseFrom NodeEntry.drop_address address table.nodes).nodup valid.distinct
  bounded entry mem := by
    rcases mem_releaseFrom mem with same | ⟨before, within, dropped⟩
    · exact valid.bounded entry same
    · rw [NodeEntry.drop_address dropped]
      exact valid.bounded before within
  counted entry mem := by
    rcases mem_releaseFrom mem with same | ⟨before, within, dropped⟩
    · exact valid.counted entry same
    · unfold NodeEntry.drop at dropped
      split at dropped
      · cases dropped
      · rename_i positive
        cases dropped
        exact Int.not_le.mp positive

theorem entryIn_releaseFrom (distinct : (entries.map (·.address)).Nodup) (address other : Nat) :
    entryIn other (releaseFrom address entries) =
      if other = address then (entryIn other entries).bind NodeEntry.drop
      else entryIn other entries := by
  induction entries with
  | nil => simp [releaseFrom, entryIn]
  | cons first entries ih =>
      rw [map_cons, nodup_cons] at distinct
      have tail := ih distinct.2
      unfold releaseFrom
      by_cases released : address = first.address
      · subst released
        have noOther : entryIn first.address entries = none := entryIn_eq_none.mpr distinct.1
        rw [if_pos rfl, entryIn]
        cases dropped : first.drop with
        | some left =>
            have atAddress := NodeEntry.drop_address dropped
            dsimp only
            rw [entryIn, tail, atAddress]
            by_cases here : first.address = other
            · rw [if_pos here, if_pos here, if_pos here.symm, Option.bind_some, dropped]
            · rw [if_neg here, if_neg here, if_neg (Ne.symm here)]
        | none =>
            by_cases here : first.address = other
            · rw [if_pos here, if_pos here.symm, Option.bind_some, dropped, ← here, noOther]
            · rw [if_neg here, if_neg (Ne.symm here)]
      · rw [if_neg released, entryIn, entryIn, tail]
        by_cases here : first.address = other
        · have apart : other ≠ address := fun same => released (same.symm.trans here.symm)
          rw [if_pos here, if_pos here, if_neg apart]
        · rw [if_neg here, if_neg here]

theorem entryAt_release (valid : table.Valid) (address other : Nat) :
    (table.release address).entryAt other =
      if other = address then (table.entryAt other).bind NodeEntry.drop
      else table.entryAt other :=
  entryIn_releaseFrom valid.distinct address other

/-- A reference less takes a node away, or none. -/
theorem nodeAt_release (valid : table.Valid) (address other : Nat) :
    (table.release address).nodeAt other = table.nodeAt other ∨
      (table.release address).nodeAt other = none := by
  rw [nodeAt, nodeAt, entryAt_release valid]
  split
  · cases table.entryAt other with
    | none => exact Or.inl rfl
    | some entry =>
        cases dropped : entry.drop with
        | none => exact Or.inr (by rw [Option.bind_some, dropped]; rfl)
        | some left =>
            left
            rw [Option.bind_some, dropped, Option.map_some, Option.map_some,
              NodeEntry.drop_node dropped]
  · exact Or.inl rfl

theorem valid_insert (valid : table.Valid) (temp : N) :
    (table.insert temp).Valid where
  distinct := by
    rw [insert, map_append, nodup_append]
    constructor
    · exact valid.distinct
    constructor
    · exact nodup_singleton _
    · intro address mem other same
      rcases mem_map.mp mem with ⟨entry, within, rfl⟩
      rw [mem_singleton.mp same]
      exact Nat.ne_of_lt (valid.bounded entry within)
  bounded entry mem := by
    rcases mem_append.mp mem with before | new
    · exact Nat.lt_succ_of_lt (valid.bounded entry before)
    · rw [mem_singleton.mp new]
      exact Nat.lt_succ_self _
  counted entry mem := by
    rcases mem_append.mp mem with before | new
    · exact valid.counted entry before
    · rw [mem_singleton.mp new]
      exact Int.one_pos

theorem contents_insert (table : NodeTable N) (temp : N) :
    (table.insert temp).contents = table.contents ++ [temp] := by
  rw [contents, insert, map_append]
  rfl

theorem entryAt_insert (valid : table.Valid) (temp : N) (other : Nat) :
    (table.insert temp).entryAt other =
      if other = table.fresh then some ⟨1, table.fresh, temp⟩ else table.entryAt other := by
  have appended : (table.insert temp).entryAt other =
      (table.entryAt other).or (entryIn other [⟨1, table.fresh, temp⟩]) :=
    entryIn_append other table.nodes _
  rw [appended]
  by_cases new : other = table.fresh
  · rw [new, entryAt_fresh valid, if_pos rfl]
    simp [entryIn]
  · simp [entryIn, new, Ne.symm new]

theorem nodeAt_insert (valid : table.Valid) (temp : N) (other : Nat) :
    (table.insert temp).nodeAt other =
      if other = table.fresh then some temp else table.nodeAt other := by
  rw [nodeAt, entryAt_insert valid]
  split <;> rfl

section Shared

variable [BEq N]

/-- Sharing is taking a reference to the first node that is equal. -/
theorem share_eq (distinct : (entries.map (·.address)).Nodup) (temp : N) :
    share temp entries = (entries.find? fun entry => temp == entry.node).map fun found =>
      (found.address, entries.map fun entry =>
        if found.address = entry.address then entry.retain else entry) := by
  induction entries with
  | nil => rfl
  | cons first entries ih =>
      rw [map_cons, nodup_cons] at distinct
      rw [share, find?_cons]
      cases temp == first.node with
      | true =>
          have kept : (entries.map fun entry =>
              if first.address = entry.address then entry.retain else entry) = entries := by
            rw [map_congr_left (g := id), map_id]
            intro entry mem
            have other : first.address ≠ entry.address := fun same =>
              distinct.1 (same ▸ mem_map_of_mem mem)
            exact if_neg other
          simp [kept]
      | false =>
          rw [ih distinct.2]
          cases found : entries.find? fun entry => temp == entry.node with
          | none => rfl
          | some entry =>
              have other : entry.address ≠ first.address := fun same =>
                distinct.1 (same ▸ mem_map_of_mem (mem_of_find?_eq_some found))
              simp [other]

/-- A node is shared, or it is new. -/
theorem makeNode_cases (valid : table.Valid) (temp : N) :
    (∃ entry ∈ table.nodes, table.nodes.find? (fun entry => temp == entry.node) = some entry ∧
      table.makeNode temp = (entry.address, table.addRef entry.address)) ∨
    ((∀ entry ∈ table.nodes, (temp == entry.node) = false) ∧
      table.makeNode temp = (table.fresh, table.insert temp)) := by
  rw [makeNode, share_eq valid.distinct]
  cases found : table.nodes.find? fun entry => temp == entry.node with
  | some entry => exact Or.inl ⟨entry, mem_of_find?_eq_some found, rfl, rfl⟩
  | none =>
      right
      constructor
      · intro entry mem
        exact Bool.eq_false_iff.mpr (find?_eq_none.mp found entry mem)
      · rfl

/-- The node that is made is the first one that is equal, or else a new one. -/
theorem makeNode_spec (valid : table.Valid) (temp : N) :
    (table.makeNode temp).2.nodeAt (table.makeNode temp).1 =
        some ((table.contents.find? (temp == ·)).getD temp) ∧
      (table.makeNode temp).2.contents =
        if (table.contents.find? (temp == ·)).isSome then table.contents
        else table.contents ++ [temp] := by
  have found : table.contents.find? (temp == ·) =
      (table.nodes.find? fun entry => temp == entry.node).map (·.node) := find?_map ..
  rcases makeNode_cases valid temp with ⟨entry, mem, first, made⟩ | ⟨apart, made⟩
  · have atAddress : table.entryAt entry.address = some entry := entryIn_of_mem valid.distinct mem
    rw [made, found, first, nodeAt_addRef, nodeAt, atAddress, contents_addRef]
    exact ⟨rfl, rfl⟩
  · have none : (table.nodes.find? fun entry => temp == entry.node) = none := by
      rw [find?_eq_none]
      intro entry mem same
      rw [apart entry mem] at same
      cases same
    rw [made, found, none, nodeAt, entryAt_insert valid, if_pos rfl, contents_insert]
    exact ⟨rfl, rfl⟩

theorem valid_makeNode (valid : table.Valid) (temp : N) : (table.makeNode temp).2.Valid := by
  rcases makeNode_cases valid temp with ⟨entry, _, _, made⟩ | ⟨_, made⟩
  · rw [made]
    exact valid_addRef valid entry.address
  · rw [made]
    exact valid_insert valid temp

end Shared

/-- The number of references to a node; there are none to one that is gone. -/
def refCountAt (table : NodeTable N) (address : Nat) : Int :=
  (table.entryAt address).elim 0 (·.refCount)

theorem refCountAt_addRef (table : NodeTable N) (listed : table.entryAt address ≠ none)
    (other : Nat) :
    (table.addRef address).refCountAt other =
      table.refCountAt other + if other = address then 1 else 0 := by
  rw [refCountAt, entryAt_addRef, refCountAt]
  by_cases same : other = address
  · rcases Option.ne_none_iff_exists'.mp listed with ⟨entry, found⟩
    rw [if_pos same, if_pos same, same, found]
    rfl
  · rw [if_neg same, if_neg same, Int.add_zero]

theorem refCountAt_release (valid : table.Valid) (listed : table.entryAt address ≠ none)
    (other : Nat) :
    (table.release address).refCountAt other =
      table.refCountAt other - if other = address then 1 else 0 := by
  rw [refCountAt, entryAt_release valid, refCountAt]
  by_cases same : other = address
  · rcases Option.ne_none_iff_exists'.mp listed with ⟨entry, found⟩
    have positive := valid.counted entry (mem_of_entryIn found).1
    rw [if_pos same, if_pos same, same, found, Option.bind_some, NodeEntry.drop]
    split
    · rename_i last
      exact (Int.le_antisymm last (Int.le_sub_one_of_lt positive)).symm
    · rfl
  · rw [if_neg same, if_neg same, Int.sub_zero]

theorem refCountAt_makeNode [BEq N] (valid : table.Valid) (temp : N) (other : Nat) :
    (table.makeNode temp).2.refCountAt other =
      table.refCountAt other + if other = (table.makeNode temp).1 then 1 else 0 := by
  rcases makeNode_cases valid temp with ⟨entry, mem, _, made⟩ | ⟨_, made⟩
  · rw [made]
    apply refCountAt_addRef
    have found : table.entryAt entry.address = some entry := entryIn_of_mem valid.distinct mem
    rw [found]
    exact Option.some_ne_none entry
  · rw [made, refCountAt, entryAt_insert valid, refCountAt]
    by_cases new : other = table.fresh
    · rw [if_pos new, if_pos new, new, entryAt_fresh valid]
      rfl
    · rw [if_neg new, if_neg new, Int.add_zero]

/-- A node has the references that it had before another one took its place. -/
theorem refCountAt_replace (table : NodeTable N) (address other : Nat) (node : N) :
    (table.replace address node).refCountAt other = table.refCountAt other := by
  rw [refCountAt, entryAt_replace, refCountAt]
  split
  · cases table.entryAt other <;> rfl
  · rfl

theorem refCountAt_pos (valid : table.Valid) :
    0 < table.refCountAt address ↔ table.entryAt address ≠ none := by
  rw [refCountAt]
  cases found : table.entryAt address with
  | some entry =>
      exact iff_of_true (valid.counted entry (mem_of_entryIn found).1)
        (Option.some_ne_none entry)
  | none => exact iff_of_false (Int.lt_irrefl 0) fun listed => listed rfl

theorem nodeAt_ne_none : table.nodeAt address ≠ none ↔ table.entryAt address ≠ none := by
  rw [nodeAt, Ne, Option.map_eq_none_iff]

/-- A node with more references than one stays, when one is released; all others stay too. -/
theorem nodeAt_release_of_refCount (valid : table.Valid) (more : 1 < table.refCountAt address)
    (other : Nat) : (table.release address).nodeAt other = table.nodeAt other := by
  have listed : table.entryAt address ≠ none :=
    (refCountAt_pos valid).mp (Int.lt_trans Int.one_pos more)
  rcases nodeAt_release valid address other with same | gone
  · exact same
  · cases before : table.nodeAt other with
    | none => exact gone
    | some node =>
        have positive : 0 < table.refCountAt other := by
          rw [refCountAt_pos valid, ← nodeAt_ne_none, before]
          exact Option.some_ne_none node
        have still : 0 < (table.release address).refCountAt other := by
          rw [refCountAt_release valid listed]
          by_cases same : other = address
          · rw [if_pos same, same]
            exact Int.sub_pos_of_lt more
          · rw [if_neg same, Int.sub_zero]
            exact positive
        rw [refCountAt_pos (valid_release valid address), ← nodeAt_ne_none] at still
        exact absurd gone still

/-- The last reference takes the node with it. -/
theorem nodeAt_release_last (valid : table.Valid) (last : table.refCountAt address = 1) :
    (table.release address).nodeAt address = none := by
  have listed : table.entryAt address ≠ none :=
    (refCountAt_pos valid).mp (last ▸ Int.one_pos)
  have nothing : ¬0 < (table.release address).refCountAt address := by
    rw [refCountAt_release valid listed, if_pos rfl, last]
    exact Int.lt_irrefl 0
  rw [refCountAt_pos (valid_release valid address), ← nodeAt_ne_none] at nothing
  exact Classical.not_not.mp nothing

end NodeTable

end Eagine.ValueTree
