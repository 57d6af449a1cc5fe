import Eagine.Theory.Refinement
import Eagine.Container.StaticVector
import Mathlib.Algebra.Order.Ring.Nat
import Mathlib.Data.Fintype.Card

/-!
# The accounts of object pools

The slots of a pool are always right about which objects are in use. But an object that was
returned is eaten again if its slot is still there, and then the count is one too low.
-/

/-!
## Object pools

A pool owns objects and hands them out. An object that is returned stays in its slot, to be
handed out again, until no more than half of the slots are in use: then those that are not
are removed.
-/

open List

namespace Eagine.Container

universe u

/-- A pointer to an object, of 64 bits. -/
abbrev Address :=
  {p : Fin (2 ^ 64) // p ≠ 0}

namespace ObjectPool

/-- An object with its address, and if it is in use. -/
structure Slot (Object : Type u) where
  address : Address
  object : Object
  inUse : Bool

end ObjectPool

/-- The elements of the small vector of slots, and the number of the objects in use, which is a
`std::size_t`. -/
structure ObjectPool (Object : Type u) where
  storage : List (ObjectPool.Slot Object)
  count : Nat

namespace ObjectPool

variable {Object : Type u}

def init : ObjectPool Object :=
  ⟨[], 0⟩

def size (pool : ObjectPool Object) : Nat :=
  pool.count

def addresses (pool : ObjectPool Object) : List Address :=
  pool.storage.map Slot.address

/-- `++_count` -/
def increment (count : Nat) : Nat :=
  (count + 1) % 2 ^ 64

/-- `--_count` -/
def decrement (count : Nat) : Nat :=
  (count + (2 ^ 64 - 1)) % 2 ^ 64

/-- What `make` and `get` share: the first slot that is not in use, or else a new one at the
address that is allocated. No object that is allocated is at the address of another one. -/
def handOut (pool : ObjectPool Object) (constructed : Object) (assign : Object → Object)
    (allocated : Address) : Option (ObjectPool Object × Address) :=
  let count := increment pool.count
  match pool.storage.findIdx? fun slot => !slot.inUse with
  | none =>
      if allocated ∈ pool.addresses then none
      else some (⟨pool.storage ++ [⟨allocated, constructed, true⟩], count⟩, allocated)
  | some pos =>
      (pool.storage[pos]?).map fun slot =>
        (⟨pool.storage.set pos ⟨slot.address, assign slot.object, true⟩, count⟩, slot.address)

/-- The object is constructed, and a slot's own object is replaced by it. -/
def make (pool : ObjectPool Object) (object : Object) (allocated : Address) :
    Option (ObjectPool Object × Address) :=
  pool.handOut object (fun _ => object) allocated

/-- A slot's own object stays as it was left. -/
def get [Inhabited Object] (pool : ObjectPool Object) (allocated : Address) :
    Option (ObjectPool Object × Address) :=
  pool.handOut default id allocated

/-- The slots that are not in use are removed if they are as many as the others. -/
def compacted (storage : List (Slot Object)) (count : Nat) : List (Slot Object) :=
  if count * 2 % 2 ^ 64 ≤ storage.length then
    StdVector.eraseIf storage fun slot => !slot.inUse
  else storage

def eat (pool : ObjectPool Object) (p : Address) : ObjectPool Object × Bool :=
  match pool.storage.findIdx? fun slot => p == slot.address with
  | none => (pool, false)
  | some pos =>
      let storage := pool.storage.modify pos fun slot => { slot with inUse := false }
      let count := decrement pool.count
      (⟨compacted storage count, count⟩, true)

/-- An operation with its arguments, and with the address at which an object is allocated if
there is no slot for it. -/
inductive Operation (Object : Type u)
  | make (object : Object) (allocated : Address)
  | get (allocated : Address)
  | eat (p : Address)

inductive Response
  | handedOut (p : Address)
  | eaten (success : Bool)

def perform [Inhabited Object] (pool : ObjectPool Object) :
    Operation Object → Option (ObjectPool Object × Response)
  | .make object allocated =>
      (pool.make object allocated).map fun done => (done.1, .handedOut done.2)
  | .get allocated => (pool.get allocated).map fun done => (done.1, .handedOut done.2)
  | .eat p => some ((pool.eat p).1, .eaten (pool.eat p).2)

/-- The objects that are in use: those that were handed out and not returned yet. -/
def record (inUse : Finset Address) : Operation Object → Response → Finset Address
  | _, .handedOut p => insert p inUse
  | .eat p, .eaten _ => inUse.erase p
  | _, .eaten _ => inUse

/-- A pool with the objects that are in use. -/
structure Accounted (Object : Type u) where
  pool : ObjectPool Object
  inUse : Finset Address

def step [Inhabited Object] (s : Accounted Object) (op : Operation Object) :
    Option (Accounted Object) :=
  (s.pool.perform op).map fun done => ⟨done.1, record s.inUse op done.2⟩

/-- A response that agrees with the objects in use: no such object is handed out, and only those
are eaten. -/
def Agrees (inUse : Finset Address) : Operation Object → Response → Prop
  | _, .handedOut p => p ∉ inUse
  | .eat p, .eaten success => success = decide (p ∈ inUse)
  | _, .eaten _ => False

end ObjectPool

end Eagine.Container

namespace Eagine.Container

open Theory

universe u

namespace ObjectPool

variable {Object : Type u}

theorem exists_slot_of_findIdx? {storage : List (Slot Object)} {isWanted : Slot Object → Bool}
    {pos : Nat} (found : storage.findIdx? isWanted = some pos) :
    ∃ front slot back, storage = front ++ slot :: back ∧ front.length = pos ∧
      isWanted slot = true := by
  rcases findIdx?_eq_some_iff_getElem.mp found with ⟨inside, wanted, -⟩
  refine ⟨storage.take pos, storage[pos], storage.drop (pos + 1), ?_, ?_, wanted⟩
  · rw [getElem_cons_drop, take_append_drop]
  · rw [length_take, Nat.min_eq_left inside.le]

variable {assign : Object → Object} {p : Address} {slot : Slot Object} {op : Operation Object}
  {s : Accounted Object} {ops : List (Operation Object)}

variable {constructed : Object} {allocated : Address}

/-- What is handed out is a new object, or one that is not in use. -/
theorem handOut_cases {pool pool' : ObjectPool Object}
    (handedOut : pool.handOut constructed assign allocated = some (pool', p)) :
    pool'.count = increment pool.count ∧
      ((p ∉ pool.addresses ∧ pool'.storage = pool.storage ++ [⟨p, constructed, true⟩]) ∨
        ∃ front slot back, pool.storage = front ++ slot :: back ∧ slot.inUse = false ∧
          p = slot.address ∧
          pool'.storage = front ++ ⟨slot.address, assign slot.object, true⟩ :: back) := by
  rw [handOut] at handedOut
  split at handedOut
  · split_ifs at handedOut with owned
    obtain ⟨rfl, rfl⟩ := Prod.mk.inj (Option.some_inj.mp handedOut)
    exact ⟨rfl, Or.inl ⟨owned, rfl⟩⟩
  · next pos found =>
      rcases exists_slot_of_findIdx? found with ⟨front, slot, back, whole, place, empty⟩
      have here : pool.storage[pos]? = some slot := by
        rw [whole, ← place, getElem?_append_right le_rfl, Nat.sub_self]
        rfl
      rw [here, Option.map_some, Option.some_inj] at handedOut
      obtain ⟨rfl, rfl⟩ := Prod.mk.inj handedOut
      refine ⟨rfl, Or.inr ⟨front, slot, back, whole, ?_, rfl, ?_⟩⟩
      · rwa [Bool.not_eq_true'] at empty
      · simp only [whole, ← place]
        rw [set_append_right _ _ le_rfl, Nat.sub_self, set_cons_zero]

theorem compacted_eq (storage : List (Slot Object)) (count : Nat) :
    compacted storage count = storage ∨ compacted storage count = storage.filter Slot.inUse := by
  rw [compacted]
  split_ifs
  · exact Or.inr (by simp [StdVector.eraseIf])
  · exact Or.inl rfl

/-- The slot of the object that is eaten is not in use afterwards, and may be removed. -/
theorem eat_cases (pool : ObjectPool Object) (p : Address) :
    (p ∉ pool.addresses ∧ pool.eat p = (pool, false)) ∨
      ∃ front slot back storage, pool.storage = front ++ slot :: back ∧ slot.address = p ∧
        pool.eat p = (⟨storage, decrement pool.count⟩, true) ∧
        (storage = front ++ { slot with inUse := false } :: back ∨
          storage = (front ++ { slot with inUse := false } :: back).filter Slot.inUse) := by
  rw [eat]
  split
  · next missing =>
      refine Or.inl ⟨fun owned => ?_, rfl⟩
      rcases mem_map.mp owned with ⟨slot, within, rfl⟩
      have other := findIdx?_eq_none_iff.mp missing slot within
      simp at other
  · next pos found =>
      rcases exists_slot_of_findIdx? found with ⟨front, slot, back, whole, place, same⟩
      have cleared : (pool.storage.modify pos fun slot => { slot with inUse := false }) =
          front ++ { slot with inUse := false } :: back := by
        rw [whole, ← place, modify_eq_take_drop, take_left, drop_left,
          modifyHead_cons]
      rw [cleared]
      exact Or.inr ⟨front, slot, back, _, whole, (beq_iff_eq.mp same).symm, rfl,
        compacted_eq _ _⟩

/-- The addresses of the slots that are in use. -/
def usedAddresses (storage : List (Slot Object)) : List Address :=
  (storage.filter Slot.inUse).map Slot.address

theorem usedAddresses_append (front back : List (Slot Object)) :
    usedAddresses (front ++ back) = usedAddresses front ++ usedAddresses back := by
  rw [usedAddresses, filter_append, map_append]
  rfl

theorem usedAddresses_cons_of_inUse (inUse : slot.inUse = true) (back : List (Slot Object)) :
    usedAddresses (slot :: back) = slot.address :: usedAddresses back := by
  rw [usedAddresses, filter_cons_of_pos inUse, map_cons]
  rfl

theorem usedAddresses_cons_of_not_inUse (free : slot.inUse = false) (back : List (Slot Object)) :
    usedAddresses (slot :: back) = usedAddresses back := by
  rw [usedAddresses, filter_cons_of_neg (by rw [free]; exact Bool.false_ne_true)]
  rfl

variable {front back : List (Slot Object)}

theorem mem_usedAddresses_middle :
    p ∈ usedAddresses (front ++ slot :: back) ↔
      (slot.inUse = true ∧ p = slot.address) ∨ p ∈ usedAddresses (front ++ back) := by
  rw [usedAddresses_append, usedAddresses_append, mem_append, mem_append]
  cases inUse : slot.inUse with
  | true =>
      rw [usedAddresses_cons_of_inUse inUse, mem_cons]
      simp only [true_and]
      exact or_left_comm
  | false =>
      rw [usedAddresses_cons_of_not_inUse inUse]
      simp

theorem usedAddresses_filter (storage : List (Slot Object)) :
    usedAddresses (storage.filter Slot.inUse) = usedAddresses storage := by
  rw [usedAddresses, filter_filter]
  simp [usedAddresses]

theorem usedAddresses_sublist (storage : List (Slot Object)) :
    (usedAddresses storage).Sublist (storage.map Slot.address) :=
  filter_sublist.map _

/-- Every object has one slot, and the slots know which objects are in use. -/
structure Owns (pool : ObjectPool Object) (inUse : Finset Address) : Prop where
  nodup : pool.addresses.Nodup
  inUse_eq : inUse = (usedAddresses pool.storage).toFinset

theorem owns_init : Owns (init : ObjectPool Object) ∅ :=
  ⟨nodup_nil, rfl⟩

namespace Owns

variable {pool pool' : ObjectPool Object} {inUse : Finset Address}

theorem card_eq (owns : Owns pool inUse) : inUse.card = (usedAddresses pool.storage).length := by
  rw [owns.inUse_eq]
  exact toFinset_card_of_nodup (owns.nodup.sublist (usedAddresses_sublist _))

/-- There are fewer objects than values of the count. -/
theorem length_lt (owns : Owns pool inUse) : (usedAddresses pool.storage).length < 2 ^ 64 := by
  have few : Fintype.card Address < Fintype.card (Fin (2 ^ 64)) :=
    Fintype.card_subtype_lt (x := 0) (not_not.mpr rfl)
  rw [Fintype.card_fin] at few
  have distinct := owns.nodup.sublist (usedAddresses_sublist _)
  exact distinct.length_le_card.trans_lt few

theorem mem_iff (owns : Owns pool inUse)
    (whole : pool.storage = front ++ slot :: back) : slot.address ∈ inUse ↔ slot.inUse = true := by
  have nodup := owns.nodup
  rw [addresses, whole, map_append, map_cons, nodup_middle,
    nodup_cons] at nodup
  have absent : slot.address ∉ usedAddresses (front ++ back) := by
    intro used
    rw [← map_append] at nodup
    exact nodup.1 ((usedAddresses_sublist _).subset used)
  rw [owns.inUse_eq, mem_toFinset, whole, mem_usedAddresses_middle, or_iff_left absent,
    and_iff_left rfl]

theorem not_mem_of_not_mem_addresses (owns : Owns pool inUse) (missing : p ∉ pool.addresses) :
    p ∉ inUse := by
  rw [owns.inUse_eq, mem_toFinset]
  exact fun used => missing ((usedAddresses_sublist _).subset used)

/-- An object that is not in use is handed out, and there is one more in use. -/
theorem handOut (owns : Owns pool inUse)
    (handedOut : pool.handOut constructed assign allocated = some (pool', p)) :
    p ∉ inUse ∧ Owns pool' (insert p inUse) := by
  rcases (handOut_cases handedOut).2 with
    ⟨missing, storage⟩ | ⟨front, slot, back, whole, free, rfl, storage⟩
  · refine ⟨owns.not_mem_of_not_mem_addresses missing, ?_, ?_⟩
    · rw [addresses, storage, map_append]
      exact nodup_append_comm.mp (nodup_cons.mpr ⟨missing, owns.nodup⟩)
    · rw [storage, usedAddresses_append, usedAddresses_cons_of_inUse rfl, toFinset_append,
        ← owns.inUse_eq, Finset.union_comm]
      rfl
  · have notUsed := (owns.mem_iff whole).not.mpr (by rw [free]; exact Bool.false_ne_true)
    refine ⟨notUsed, ?_, ?_⟩
    · have nodup := owns.nodup
      rw [addresses, whole] at nodup
      rw [addresses, storage]
      simpa using nodup
    · rw [storage, usedAddresses_append, usedAddresses_cons_of_inUse rfl, owns.inUse_eq, whole,
        usedAddresses_append, usedAddresses_cons_of_not_inUse free]
      simp

/-- What is eaten is not in use. -/
theorem eat (owns : Owns pool inUse) (p : Address) : Owns (pool.eat p).1 (inUse.erase p) := by
  rcases pool.eat_cases p with
    ⟨missing, same⟩ | ⟨front, slot, back, storage, whole, rfl, eaten, result⟩
  · rw [same, Finset.erase_eq_of_notMem (owns.not_mem_of_not_mem_addresses missing)]
    exact owns
  · have nodup := owns.nodup
    rw [addresses, whole, map_append, map_cons, nodup_middle,
      nodup_cons, ← map_append] at nodup
    have absent : slot.address ∉ usedAddresses (front ++ back) :=
      fun used => nodup.1 ((usedAddresses_sublist _).subset used)
    have distinct : ((front ++ { slot with inUse := false } :: back).map Slot.address).Nodup := by
      rw [map_append, map_cons, nodup_middle, nodup_cons, ← map_append]
      exact nodup
    have kept : usedAddresses (front ++ { slot with inUse := false } :: back) =
        usedAddresses (front ++ back) := by
      rw [usedAddresses_append, usedAddresses_cons_of_not_inUse rfl, ← usedAddresses_append]
    have used : usedAddresses storage = usedAddresses (front ++ back) := by
      rcases result with rfl | rfl
      · exact kept
      · rw [usedAddresses_filter, kept]
    rw [eaten]
    constructor
    · rcases result with rfl | rfl
      · exact distinct
      · exact distinct.sublist (filter_sublist.map _)
    · ext q
      rw [used, owns.inUse_eq, whole, Finset.mem_erase, mem_toFinset, mem_toFinset,
        mem_usedAddresses_middle]
      constructor
      · rintro ⟨other, ⟨-, same⟩ | rest⟩
        · exact absurd same other
        · exact rest
      · intro rest
        exact ⟨fun same => absent (same ▸ rest), Or.inr rest⟩

end Owns

/-- The count is the number of the objects in use. -/
def Counts (pool : ObjectPool Object) (inUse : Finset Address) : Prop :=
  pool.count = inUse.card

def Accounted.Balanced (s : Accounted Object) : Prop :=
  Owns s.pool s.inUse ∧ Counts s.pool s.inUse

/-- The object of a slot that is still there was returned. -/
def StoresReturned (pool : ObjectPool Object) (p : Address) : Prop :=
  ∃ slot ∈ pool.storage, slot.address = p ∧ slot.inUse = false

section Counts

variable {pool pool' : ObjectPool Object} {inUse : Finset Address}

theorem counts_handOut (owns : Owns pool inUse) (counts : Counts pool inUse)
    (handedOut : pool.handOut constructed assign allocated = some (pool', p)) :
    Counts pool' (insert p inUse) := by
  rcases owns.handOut handedOut with ⟨notUsed, owns'⟩
  have few := owns'.length_lt
  rw [← owns'.card_eq, Finset.card_insert_of_notMem notUsed] at few
  rw [Counts, (handOut_cases handedOut).1, increment, counts, Nat.mod_eq_of_lt few,
    Finset.card_insert_of_notMem notUsed]

/-- An object that is not one of those returned is eaten if, and only if, it is in use. -/
theorem eat_of_not_storesReturned (owns : Owns pool inUse) (good : ¬pool.StoresReturned p) :
    (pool.eat p).2 = decide (p ∈ inUse) ∧
      (Counts pool inUse → Counts (pool.eat p).1 (inUse.erase p)) := by
  rcases pool.eat_cases p with ⟨missing, same⟩ | ⟨front, slot, back, storage, whole, rfl, eaten, -⟩
  · have notUsed := owns.not_mem_of_not_mem_addresses missing
    rw [same, decide_eq_false notUsed, Finset.erase_eq_of_notMem notUsed]
    exact ⟨rfl, id⟩
  · have inUse' : slot.inUse = true := by
      by_contra free
      have member : slot ∈ pool.storage := whole ▸ mem_append_right _ mem_cons_self
      exact good ⟨slot, member, rfl, Bool.not_eq_true _ ▸ free⟩
    have used := (owns.mem_iff whole).mpr inUse'
    rw [eaten, decide_eq_true used]
    refine ⟨rfl, fun counts => ?_⟩
    have few := owns.length_lt
    rw [← owns.card_eq] at few
    have some_used : 0 < inUse.card := Finset.card_pos.mpr ⟨_, used⟩
    change decrement pool.count = _
    rw [decrement, counts, Finset.card_erase_of_mem used]
    omega

/-- A returned object is eaten again. -/
theorem eat_of_storesReturned (owns : Owns pool inUse) (bad : pool.StoresReturned p) :
    (pool.eat p).2 = true ∧ p ∉ inUse := by
  rcases bad with ⟨slot, member, rfl, free⟩
  rcases append_of_mem member with ⟨front, back, whole⟩
  refine ⟨?_, (owns.mem_iff whole).not.mpr (by rw [free]; exact Bool.false_ne_true)⟩
  rcases pool.eat_cases slot.address with ⟨missing, -⟩ | ⟨_, _, _, _, -, -, eaten, -⟩
  · exact absurd (mem_map_of_mem member) missing
  · rw [eaten]

end Counts

variable [Inhabited Object]

/-- The operation is answered rightly, and the size is then the number of the objects in use. -/
def Accounts (s : Accounted Object) (op : Operation Object) : Prop :=
  ∀ done ∈ s.pool.perform op,
    Agrees s.inUse op done.2 ∧ done.1.size = (record s.inUse op done.2).card

/-- The states of a pool after operations on an empty one. -/
def after (ops : List (Operation Object)) : Option (Accounted Object) :=
  run step ⟨init, ∅⟩ ops

theorem owns_step {s' : Accounted Object} (owns : Owns s.pool s.inUse)
    (taken : step s op = some s') : Owns s'.pool s'.inUse := by
  rcases Option.map_eq_some_iff.mp taken with ⟨⟨pool, response⟩, performed, rfl⟩
  cases op with
  | make object allocated =>
      rcases Option.map_eq_some_iff.mp performed with ⟨⟨pool', p⟩, made, same⟩
      obtain ⟨rfl, rfl⟩ := Prod.mk.inj same
      exact (owns.handOut made).2
  | get allocated =>
      rcases Option.map_eq_some_iff.mp performed with ⟨⟨pool', p⟩, got, same⟩
      obtain ⟨rfl, rfl⟩ := Prod.mk.inj same
      exact (owns.handOut got).2
  | eat p =>
      obtain ⟨rfl, rfl⟩ := Prod.mk.inj (Option.some_inj.mp performed)
      exact owns.eat p

theorem owns_after (reached : after ops = some s) : Owns s.pool s.inUse :=
  run_invariant (fun _ _ _ _ owns taken => owns_step owns taken) owns_init reached

/-- Operations account for the objects, except for eating one that was returned. -/
theorem accounts_of_not_storesReturned (owns : Owns s.pool s.inUse) (counts : Counts s.pool s.inUse)
    (good : ∀ p, op = .eat p → ¬s.pool.StoresReturned p) : Accounts s op := by
  rintro ⟨pool, response⟩ performed
  rw [Option.mem_def] at performed
  cases op with
  | make object allocated =>
      rcases Option.map_eq_some_iff.mp performed with ⟨⟨pool', p⟩, made, same⟩
      obtain ⟨rfl, rfl⟩ := Prod.mk.inj same
      exact ⟨(owns.handOut made).1, counts_handOut owns counts made⟩
  | get allocated =>
      rcases Option.map_eq_some_iff.mp performed with ⟨⟨pool', p⟩, got, same⟩
      obtain ⟨rfl, rfl⟩ := Prod.mk.inj same
      exact ⟨(owns.handOut got).1, counts_handOut owns counts got⟩
  | eat p =>
      obtain ⟨rfl, rfl⟩ := Prod.mk.inj (Option.some_inj.mp performed)
      rcases eat_of_not_storesReturned owns (good p rfl) with ⟨success, counted⟩
      exact ⟨success, counted counts⟩

theorem counts_of_accounts {s' : Accounted Object} (accounts : Accounts s op)
    (taken : step s op = some s') : Counts s'.pool s'.inUse := by
  rcases Option.map_eq_some_iff.mp taken with ⟨done, performed, rfl⟩
  exact (accounts done performed).2

theorem not_accounts_eat (owns : Owns s.pool s.inUse) (bad : s.pool.StoresReturned p) :
    ¬Accounts s (.eat p) := by
  intro accounts
  rcases eat_of_storesReturned owns bad with ⟨eaten, notUsed⟩
  have agrees := (accounts _ rfl).1
  rw [Agrees, eaten, decide_eq_false notUsed] at agrees
  exact Bool.false_ne_true agrees.symm

/-- No object is eaten in a run while it is returned and still has its slot. -/
def EatsNoReturned (ops : List (Operation Object)) : Prop :=
  ∀ done p rest s, ops = done ++ .eat p :: rest → after done = some s →
    ¬s.pool.StoresReturned p

theorem EatsNoReturned.accounts {done rest : List (Operation Object)} (good : EatsNoReturned ops)
    (whole : ops = done ++ op :: rest) (reached : after done = some s) (owns : Owns s.pool s.inUse)
    (counts : Counts s.pool s.inUse) : Accounts s op :=
  accounts_of_not_storesReturned owns counts fun p eats => good done p rest s (eats ▸ whole) reached

theorem EatsNoReturned.counts (good : EatsNoReturned ops) (reached : after ops = some s) :
    s.Balanced := by
  have start : Accounted.Balanced (⟨init, ∅⟩ : Accounted Object) := ⟨owns_init, rfl⟩
  refine run_invariant_of_reached start ?_ reached
  intro done op rest t t' whole reached' kept taken
  have accounts := good.accounts whole reached' kept.1 kept.2
  exact ⟨owns_step kept.1 taken, counts_of_accounts accounts taken⟩

theorem EatsNoReturned.of_append {first second : List (Operation Object)}
    (good : EatsNoReturned (first ++ second)) : EatsNoReturned first := by
  intro done p rest s whole reached
  exact good done p (rest ++ second) s (by rw [whole, append_assoc]; rfl) reached

/-- A run accounts for the objects at every operation if, and only if, it never eats an object
that was returned and still has its slot. -/
theorem accounts_iff (ops : List (Operation Object)) :
    (∀ done op rest s, ops = done ++ op :: rest → after done = some s → Accounts s op) ↔
      EatsNoReturned ops := by
  constructor
  · intro accounts done p rest s whole reached bad
    exact not_accounts_eat (owns_after reached) bad (accounts done (.eat p) rest s whole reached)
  · intro good done op rest s whole reached
    have goodBefore : EatsNoReturned done := EatsNoReturned.of_append (whole ▸ good)
    rcases goodBefore.counts reached with ⟨owns, counts⟩
    exact good.accounts whole reached owns counts

/-- Three objects are handed out, and the first one is returned twice. -/
theorem not_forall_accounts :
    ¬∀ (ops done rest : List (Operation Nat)) (op : Operation Nat) (s : Accounted Nat),
      ops = done ++ op :: rest → after done = some s → Accounts s op := by
  intro accounts
  let first : Address := ⟨1, by decide⟩
  let second : Address := ⟨2, by decide⟩
  let third : Address := ⟨3, by decide⟩
  let done : List (Operation Nat) := [.get first, .get second, .get third, .eat first]
  have returned : ((after done).map fun s =>
      s.pool.storage.any fun slot => slot.address == first && !slot.inUse) = some true := by
    decide +kernel
  rcases Option.map_eq_some_iff.mp returned with ⟨s, reached, stored⟩
  rcases any_eq_true.mp stored with ⟨slot, member, same⟩
  rw [Bool.and_eq_true, beq_iff_eq, Bool.not_eq_true'] at same
  have bad : s.pool.StoresReturned first := ⟨slot, member, same.1, same.2⟩
  exact not_accounts_eat (owns_after reached) bad (accounts _ done [] (.eat first) s rfl reached)

end ObjectPool

end Eagine.Container
