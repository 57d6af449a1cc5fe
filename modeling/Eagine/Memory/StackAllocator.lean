import Eagine.Theory.Packing
import Eagine.Theory.Refinement

/-!
# Stack allocator

Blocks are handed out one behind the other. What is returned out of order is tracked by two
positions and one difference: everything below the lower position is held, and the difference is
the number of the bytes that are held above it.
-/

namespace Eagine.Memory

open Theory List

/-- A block of bytes at an address. -/
structure OwnedBlock where
  addr : Int
  size : Int
deriving DecidableEq

namespace OwnedBlock

/-- The block that owns nothing. -/
def empty : OwnedBlock :=
  ⟨0, 0⟩

def past (b : OwnedBlock) : Int :=
  b.addr + b.size

def extent (b : OwnedBlock) : Extent :=
  ⟨b.addr, b.past⟩

/-- A block counts between the bounds with its size, or not at all. -/
theorem amount_inside {b : OwnedBlock} {lower upper : Int} (sized : 0 < b.size)
    (above : lower ≤ b.addr) (below : b.past ≤ upper) : b.extent.amount lower upper = b.size := by
  have length : b.extent.past - b.extent.first = b.size := add_sub_cancel_left b.addr b.size
  rw [Extent.amount_inside (by omega) above below, length]

theorem amount_below {b : OwnedBlock} {lower : Int} (below : b.past ≤ lower) (upper : Int) :
    b.extent.amount lower upper = 0 :=
  Extent.amount_outside (Or.inl below)

theorem amount_above {b : OwnedBlock} {upper : Int} (above : upper ≤ b.addr) (lower : Int) :
    b.extent.amount lower upper = 0 :=
  Extent.amount_outside (Or.inr above)

/-- Nothing of one block is in the other. -/
def Apart (b other : OwnedBlock) : Prop :=
  b.extent.Apart other.extent

end OwnedBlock

/-- `base_stack_allocator` of bytes. -/
structure StackAllocator where
  btm : Int
  top : Int
  pos : Int
  min : Int
  dif : Int
deriving DecidableEq

namespace StackAllocator

/-- The allocator of a store. -/
def ofStore (btm top : Int) : StackAllocator :=
  { btm, top, pos := btm, min := btm, dif := 0 }

/-- The size of what is available. There is no result where an assertion fails, here and below. -/
def maxSize (a : StackAllocator) : Option Int :=
  if a.pos ≤ a.top then some (a.top - a.pos) else none

/-- The size of what is below the position. -/
def allocatedSize (a : StackAllocator) : Option Int :=
  if a.btm ≤ a.pos then some (a.pos - a.btm) else none

/-- The position goes up, and with it the lower one if they are the same. -/
def raise (a : StackAllocator) (n : Int) : StackAllocator :=
  let raised := if a.min = a.pos then { a with min := a.min + n } else { a with dif := a.dif + n }
  { raised with pos := a.pos + n }

def lower (a : StackAllocator) (n : Int) : StackAllocator :=
  let lowered := if a.min = a.pos then { a with min := a.min - n } else { a with dif := a.dif - n }
  { lowered with pos := a.pos - n }

def allocate (a : StackAllocator) (n : Int) : Option (OwnedBlock × StackAllocator) :=
  a.maxSize.bind fun available =>
    if available < n then some (.empty, a)
    else if a.min ≤ a.pos then some (⟨a.pos, n⟩, a.raise n)
    else none

def truncate (a : StackAllocator) (b : OwnedBlock) (nn : Int) :
    Option (OwnedBlock × StackAllocator) :=
  if nn ≤ b.size then
    if b.past = a.pos then
      if a.min ≤ a.pos then some (⟨b.addr, nn⟩, a.lower (b.size - nn)) else none
    else some (⟨b.addr, nn⟩, a)
  else none

/-- Nothing is held between the positions. -/
def collapse (a : StackAllocator) : StackAllocator :=
  if a.dif = 0 then { a with pos := a.min } else a

def deallocate (a : StackAllocator) (b : OwnedBlock) : Option StackAllocator :=
  if b.past ≤ a.pos then
    if b.past = a.pos then
      if a.min ≤ a.pos then some (a.lower b.size).collapse else none
    else if b.past = a.min then some { a with min := a.min - b.size }.collapse
    else if a.min < b.past then some { a with dif := a.dif - b.size }.collapse
    else some { a with dif := a.dif + (a.min - b.addr - b.size), min := b.addr }.collapse
  else none

@[simp]
theorem raise_btm (a : StackAllocator) (n : Int) : (a.raise n).btm = a.btm := by
  rw [raise]
  split_ifs <;> rfl

@[simp]
theorem raise_top (a : StackAllocator) (n : Int) : (a.raise n).top = a.top := by
  rw [raise]
  split_ifs <;> rfl

@[simp]
theorem lower_btm (a : StackAllocator) (n : Int) : (a.lower n).btm = a.btm := by
  rw [lower]
  split_ifs <;> rfl

@[simp]
theorem lower_top (a : StackAllocator) (n : Int) : (a.lower n).top = a.top := by
  rw [lower]
  split_ifs <;> rfl

@[simp]
theorem lower_pos (a : StackAllocator) (n : Int) : (a.lower n).pos = a.pos - n := by
  rw [lower]

@[simp]
theorem collapse_btm (a : StackAllocator) : a.collapse.btm = a.btm := by
  rw [collapse]
  split_ifs <;> rfl

@[simp]
theorem collapse_top (a : StackAllocator) : a.collapse.top = a.top := by
  rw [collapse]
  split_ifs <;> rfl

/-- The positions and the difference account for the blocks that are held. -/
structure Tracks (a : StackAllocator) (held : List OwnedBlock) : Prop where
  above : a.btm ≤ a.min
  between : a.min ≤ a.pos
  below : a.pos ≤ a.top
  sized : ∀ b ∈ held, 0 < b.size
  placed : ∀ b ∈ held, a.btm ≤ b.addr ∧ b.past ≤ a.pos
  sided : ∀ b ∈ held, b.past ≤ a.min ∨ a.min ≤ b.addr
  apart : held.Pairwise OwnedBlock.Apart
  full : covered a.btm a.min (held.map OwnedBlock.extent) = a.min - a.btm
  counted : covered a.min a.pos (held.map OwnedBlock.extent) = a.dif

/-- Between calls the positions are the same if nothing is held between them. -/
structure Accounts (a : StackAllocator) (held : List OwnedBlock) : Prop extends Tracks a held where
  collapsed : a.dif = 0 → a.min = a.pos

namespace Tracks

variable {a : StackAllocator} {b : OwnedBlock} {held others : List OwnedBlock}

/-- The order of the blocks does not matter. -/
theorem perm (tracks : Tracks a held) (same : held.Perm others) : Tracks a others where
  above := tracks.above
  between := tracks.between
  below := tracks.below
  sized b mem := tracks.sized b (same.mem_iff.mpr mem)
  placed b mem := tracks.placed b (same.mem_iff.mpr mem)
  sided b mem := tracks.sided b (same.mem_iff.mpr mem)
  apart := tracks.apart.perm same Extent.Apart.symm
  full := by rw [← tracks.full, covered_perm (same.map _)]
  counted := by rw [← tracks.counted, covered_perm (same.map _)]

theorem apart_extents (tracks : Tracks a held) :
    (held.map OwnedBlock.extent).Pairwise Extent.Apart :=
  pairwise_map.mpr tracks.apart

/-- The position may be anywhere above what is held. -/
theorem setPos (tracks : Tracks a held) {q : Int} (above : a.min ≤ q) (below : q ≤ a.top)
    (past : ∀ b ∈ held, b.past ≤ q) : Tracks { a with pos := q } held where
  above := tracks.above
  between := above
  below := below
  sized := tracks.sized
  placed b mem := ⟨(tracks.placed b mem).1, past b mem⟩
  sided := tracks.sided
  apart := tracks.apart
  full := tracks.full
  counted := by
    rw [← tracks.counted]
    have outside : ∀ p r : Int, (∀ b ∈ held, b.past ≤ p) →
        covered p r (held.map OwnedBlock.extent) = 0 := by
      intro p r within
      apply covered_outside
      intro e mem
      rcases mem_map.mp mem with ⟨b, held, rfl⟩
      exact Or.inl (within b held)
    rcases le_total q a.pos with lower | higher
    · rw [covered_add above lower, outside q a.pos past, Int.add_zero]
    · rw [covered_add tracks.between higher,
        outside a.pos q fun b mem => (tracks.placed b mem).2, Int.add_zero]

/-- Where nothing counts above the lower position there is no block. -/
theorem past_le_min (tracks : Tracks a held) (nothing : a.dif = 0) (mem : b ∈ held) :
    b.past ≤ a.min := by
  rcases tracks.sided b mem with below | above
  · exact below
  · have size := tracks.sized b mem
    have counted := tracks.counted
    rw [covered_perm ((perm_cons_erase mem).map _), map_cons, covered_cons,
      OwnedBlock.amount_inside size above (tracks.placed b mem).2] at counted
    have others := covered_nonneg a.min a.pos ((held.erase b).map OwnedBlock.extent)
    omega

theorem collapse (tracks : Tracks a held) : Accounts a.collapse held := by
  rw [StackAllocator.collapse]
  split_ifs with nothing
  · have lowered := tracks.setPos le_rfl (tracks.between.trans tracks.below)
      fun b mem => tracks.past_le_min nothing mem
    exact { lowered with collapsed := fun _ => rfl }
  · exact { tracks with collapsed := fun none => absurd none nothing }

/-- What is new above the lower position counts. -/
theorem insert (tracks : Tracks a held) (sized : 0 < b.size) (above : a.min ≤ b.addr)
    (below : b.past ≤ a.pos) (apart : ∀ other ∈ held, b.Apart other) :
    Tracks { a with dif := a.dif + b.size } (b :: held) where
  above := tracks.above
  between := tracks.between
  below := tracks.below
  sized := forall_mem_cons.mpr ⟨sized, tracks.sized⟩
  placed := forall_mem_cons.mpr ⟨⟨tracks.above.trans above, below⟩, tracks.placed⟩
  sided := forall_mem_cons.mpr ⟨Or.inr above, tracks.sided⟩
  apart := pairwise_cons.mpr ⟨apart, tracks.apart⟩
  full := by rw [map_cons, covered_cons, OwnedBlock.amount_above above, tracks.full,
    Int.zero_add]
  counted := by rw [map_cons, covered_cons, OwnedBlock.amount_inside sized above below,
    tracks.counted, Int.add_comm]

/-- The lower position goes over a block that is there. -/
theorem advance (tracks : Tracks a (b :: held)) (there : b.addr = a.min) :
    Tracks { a with min := b.past, dif := a.dif - b.size } (b :: held) := by
  have size := tracks.sized b mem_cons_self
  have place := tracks.placed b mem_cons_self
  have passed : a.min ≤ b.past := by
    rw [OwnedBlock.past]
    omega
  have block : covered a.min b.past ((b :: held).map OwnedBlock.extent) = b.size := by
    have most := covered_le tracks.apart_extents passed
    have others := covered_nonneg a.min b.past (held.map OwnedBlock.extent)
    rw [map_cons, covered_cons, OwnedBlock.amount_inside size there.ge le_rfl] at most ⊢
    rw [OwnedBlock.past] at most others ⊢
    omega
  refine ⟨tracks.above.trans passed, place.2, tracks.below, tracks.sized, tracks.placed, ?_,
    tracks.apart, ?_, ?_⟩
  · refine forall_mem_cons.mpr ⟨Or.inl le_rfl, fun other mem => ?_⟩
    rcases (pairwise_cons.mp tracks.apart).1 other mem with behind | before
    · exact Or.inr behind
    · exact Or.inl (le_trans before (there.le.trans passed))
  · have full := covered_add tracks.above passed ((b :: held).map OwnedBlock.extent)
    rw [block, tracks.full] at full
    dsimp only
    rw [full, OwnedBlock.past]
    omega
  · have counted := covered_add passed place.2 ((b :: held).map OwnedBlock.extent)
    rw [block, tracks.counted] at counted
    dsimp only
    omega

section Returned

variable (tracks : Tracks a (b :: held))

include tracks

theorem apart_of_mem {other : OwnedBlock} (mem : other ∈ held) :
    b.past ≤ other.addr ∨ other.past ≤ b.addr :=
  (pairwise_cons.mp tracks.apart).1 other mem

/-- What is below the lower position is full, and what is above a block there counts from now on. -/
theorem withdraw_below (below : b.past ≤ a.min) :
    Tracks { a with dif := a.dif + (a.min - b.addr - b.size), min := b.addr } held := by
  have size := tracks.sized b mem_cons_self
  have place := tracks.placed b mem_cons_self
  have inside : b.addr ≤ a.min := by
    rw [OwnedBlock.past] at below
    omega
  have parts := covered_part tracks.apart_extents place.1 inside tracks.full
  have counted := tracks.counted
  rw [map_cons, covered_cons, covered_cons,
    OwnedBlock.amount_inside size le_rfl below, OwnedBlock.amount_above le_rfl,
    Int.zero_add] at parts
  rw [map_cons, covered_cons, OwnedBlock.amount_below below, Int.zero_add] at counted
  refine ⟨place.1, inside.trans tracks.between, tracks.below, ?_, ?_, ?_, ?_, ?_, ?_⟩
  · exact fun other mem => tracks.sized other (mem_cons_of_mem b mem)
  · exact fun other mem => tracks.placed other (mem_cons_of_mem b mem)
  · intro other mem
    have sided := tracks.sided other (mem_cons_of_mem b mem)
    have apart := tracks.apart_of_mem mem
    simp only [OwnedBlock.past] at sided apart ⊢
    omega
  · exact (pairwise_cons.mp tracks.apart).2
  · exact parts.1
  · dsimp only
    rw [covered_add inside tracks.between]
    omega

theorem withdraw_above (above : a.min ≤ b.addr) :
    Tracks { a with dif := a.dif - b.size } held := by
  have full := tracks.full
  have counted := tracks.counted
  rw [map_cons, covered_cons, OwnedBlock.amount_above above, Int.zero_add] at full
  rw [map_cons, covered_cons, OwnedBlock.amount_inside
    (tracks.sized b mem_cons_self) above (tracks.placed b mem_cons_self).2] at counted
  refine ⟨tracks.above, tracks.between, tracks.below, ?_, ?_, ?_, ?_, full, ?_⟩
  · exact fun other mem => tracks.sized other (mem_cons_of_mem b mem)
  · exact fun other mem => tracks.placed other (mem_cons_of_mem b mem)
  · exact fun other mem => tracks.sided other (mem_cons_of_mem b mem)
  · exact (pairwise_cons.mp tracks.apart).2
  · dsimp only
    omega

/-- The topmost block is cut off. -/
theorem lower (topmost : b.past = a.pos) : Tracks (a.lower b.size) held := by
  have size := tracks.sized b mem_cons_self
  have place := tracks.placed b mem_cons_self
  have past : ∀ other ∈ held, other.past ≤ b.addr := by
    intro other mem
    have otherSize := tracks.sized other (mem_cons_of_mem b mem)
    have otherPlace := tracks.placed other (mem_cons_of_mem b mem)
    have apart := tracks.apart_of_mem mem
    simp only [OwnedBlock.past] at topmost otherPlace apart ⊢
    omega
  have addr : a.pos - b.size = b.addr := by
    rw [← topmost, OwnedBlock.past, Int.add_sub_cancel]
  have position : b.addr ≤ a.top := by
    have below := tracks.below
    omega
  rw [StackAllocator.lower, addr]
  split_ifs with same
  · have withdrawn := tracks.withdraw_below (by rw [topmost, same])
    have account : a.dif + (a.min - b.addr - b.size) = a.dif := by omega
    rw [account] at withdrawn
    rw [same, addr]
    exact withdrawn.setPos le_rfl position past
  · have above : a.min ≤ b.addr := by
      have between := tracks.between
      have sided := tracks.sided b mem_cons_self
      rw [topmost] at sided
      omega
    exact (tracks.withdraw_above above).setPos above position past

end Returned

end Tracks

namespace Accounts

variable {a : StackAllocator} {b : OwnedBlock} {held others : List OwnedBlock}

theorem ofStore {btm top : Int} (store : btm ≤ top) : Accounts (ofStore btm top) [] where
  above := le_rfl
  between := le_rfl
  below := store
  sized := by simp
  placed := by simp
  sided := by simp
  apart := List.Pairwise.nil
  full := (Int.sub_self btm).symm
  counted := rfl
  collapsed _ := rfl

/-- Without blocks the allocator is as at the beginning. -/
theorem eq_ofStore (accounts : Accounts a []) : a = StackAllocator.ofStore a.btm a.top := by
  have lowest : a.min = a.btm := by
    have full := accounts.full
    rw [map_nil, covered_nil] at full
    omega
  have nothing : a.dif = 0 := accounts.counted.symm
  have position := accounts.collapsed nothing
  cases a
  simp_all [StackAllocator.ofStore]

/-- A block that is held is below the position. -/
theorem btm_lt_pos (accounts : Accounts a held) (mem : b ∈ held) : a.btm < a.pos := by
  have size := accounts.sized b mem
  have place := accounts.placed b mem
  rw [OwnedBlock.past] at place
  omega

theorem maxSize_eq (accounts : Accounts a held) : a.maxSize = some (a.top - a.pos) :=
  if_pos accounts.below

theorem perm (accounts : Accounts a held) (same : held.Perm others) : Accounts a others :=
  { accounts.toTracks.perm same with collapsed := accounts.collapsed }

theorem dif_nonneg (accounts : Accounts a held) : 0 ≤ a.dif :=
  (covered_nonneg _ _ _).trans_eq accounts.counted

/-- The next block starts at the position. -/
theorem raise (accounts : Accounts a held) {n : Int} (positive : 0 < n) (fits : n ≤ a.top - a.pos) :
    Accounts (a.raise n) (⟨a.pos, n⟩ :: held) := by
  have between := accounts.between
  have past : ∀ b ∈ held, b.past ≤ a.pos + n := by
    intro b mem
    exact (accounts.placed b mem).2.trans (by omega)
  have moved := accounts.toTracks.setPos (by omega) (by omega) past
  have inserted := moved.insert (b := ⟨a.pos, n⟩) positive between le_rfl
    fun other mem => Or.inr (accounts.placed other mem).2
  rw [StackAllocator.raise]
  split_ifs with same
  · have advanced := inserted.advance same.symm
    rw [show a.dif + n - n = a.dif by omega] at advanced
    rw [same]
    exact { advanced with collapsed := fun _ => rfl }
  · have counts : a.dif + n ≠ 0 := by
      have nonneg := accounts.dif_nonneg
      omega
    exact { inserted with collapsed := fun none => absurd none counts }

theorem allocate (accounts : Accounts a held) (n : Int) :
    a.allocate n =
      if a.top - a.pos < n then some (.empty, a) else some (⟨a.pos, n⟩, a.raise n) := by
  rw [StackAllocator.allocate, accounts.maxSize_eq, Option.bind_some, if_pos accounts.between]

/-- Every block that is held can be returned. -/
theorem deallocate (accounts : Accounts a (b :: held)) :
    ∃ next, a.deallocate b = some next ∧ Accounts next held ∧ next.btm = a.btm ∧
      next.top = a.top := by
  have tracks := accounts.toTracks
  have size := tracks.sized b mem_cons_self
  have sided := tracks.sided b mem_cons_self
  rw [StackAllocator.deallocate, if_pos (tracks.placed b mem_cons_self).2,
    if_pos tracks.between]
  split_ifs with topmost lowest above
  · exact ⟨_, rfl, (tracks.lower topmost).collapse, by simp, by simp⟩
  · have withdrawn := tracks.withdraw_below lowest.le
    have addr : a.min - b.size = b.addr := by
      rw [← lowest, OwnedBlock.past]
      omega
    rw [show a.dif + (a.min - b.addr - b.size) = a.dif by omega] at withdrawn
    rw [addr]
    exact ⟨_, rfl, withdrawn.collapse, by simp, by simp⟩
  · have higher : a.min ≤ b.addr := sided.resolve_left above.not_ge
    exact ⟨_, rfl, (tracks.withdraw_above higher).collapse, by simp, by simp⟩
  · have below : b.past ≤ a.min := not_lt.mp above
    exact ⟨_, rfl, (tracks.withdraw_below below).collapse, by simp, by simp⟩

/-- A part of a block is where the block is. -/
theorem part (accounts : Accounts a (b :: held)) (part : OwnedBlock) (above : b.addr ≤ part.addr)
    (below : part.past ≤ b.past) :
    (a.btm ≤ part.addr ∧ part.past ≤ a.pos) ∧ (part.past ≤ a.min ∨ a.min ≤ part.addr) ∧
      ∀ other ∈ held, part.Apart other := by
  have placed := accounts.placed b mem_cons_self
  refine ⟨⟨placed.1.trans above, below.trans placed.2⟩, ?_, ?_⟩
  · exact (accounts.sided b mem_cons_self).imp below.trans fun higher => higher.trans above
  · intro other mem
    exact (accounts.toTracks.apart_of_mem mem).imp below.trans fun before => before.trans above

/-- A block may be seen as two, one behind the other. -/
theorem cut (accounts : Accounts a (b :: held)) {nn : Int} (positive : 0 < nn) (less : nn < b.size) :
    Accounts a (⟨b.addr + nn, b.size - nn⟩ :: ⟨b.addr, nn⟩ :: held) := by
  have ends : b.addr + nn + (b.size - nn) = b.past := by
    rw [OwnedBlock.past]
    omega
  have middle : b.addr + nn < b.past := by omega
  have back := accounts.part ⟨b.addr + nn, b.size - nn⟩ (by dsimp only; omega) ends.le
  have front := accounts.part ⟨b.addr, nn⟩ le_rfl middle.le
  have same : ∀ lower upper : Int,
      covered lower upper ((⟨b.addr + nn, b.size - nn⟩ :: ⟨b.addr, nn⟩ :: held).map
        OwnedBlock.extent) = covered lower upper ((b :: held).map OwnedBlock.extent) := by
    intro lower upper
    have after : b.addr ≤ b.addr + nn := by omega
    have whole := Extent.amount_cut after middle.le lower upper
    simp only [map_cons, covered_cons, OwnedBlock.extent] at whole ⊢
    simp only [OwnedBlock.past] at whole ends ⊢
    rw [ends, whole]
    omega
  have sized := (forall_mem_cons.mp accounts.sized).2
  have placed := (forall_mem_cons.mp accounts.placed).2
  have sided := (forall_mem_cons.mp accounts.sided).2
  have apart := (pairwise_cons.mp accounts.apart).2
  exact { accounts with
    sized := forall_mem_cons.mpr ⟨by dsimp only; omega,
      forall_mem_cons.mpr ⟨positive, sized⟩⟩
    placed := forall_mem_cons.mpr ⟨back.1, forall_mem_cons.mpr ⟨front.1, placed⟩⟩
    sided := forall_mem_cons.mpr ⟨back.2.1, forall_mem_cons.mpr ⟨front.2.1, sided⟩⟩
    apart := pairwise_cons.mpr ⟨forall_mem_cons.mpr ⟨Or.inr le_rfl, back.2.2⟩,
      pairwise_cons.mpr ⟨front.2.2, apart⟩⟩
    full := by rw [same, accounts.full]
    counted := by rw [same, accounts.counted] }

/-- Where the block is the topmost one, what is cut off it is available again. -/
theorem truncate_topmost (accounts : Accounts a (b :: held)) {nn : Int} (positive : 0 < nn)
    (less : nn < b.size) (topmost : b.past = a.pos) :
    a.truncate b nn = some (⟨b.addr, nn⟩, a.lower (b.size - nn)) ∧
      Accounts (a.lower (b.size - nn)) (⟨b.addr, nn⟩ :: held) := by
  constructor
  · rw [truncate, if_pos less.le, if_pos topmost, if_pos accounts.between]
  · rw [OwnedBlock.past] at topmost
    have past : (⟨b.addr + nn, b.size - nn⟩ : OwnedBlock).past = a.pos := by
      dsimp only [OwnedBlock.past]
      omega
    have lowered := (accounts.cut positive less).toTracks.lower past
    refine { lowered with collapsed := fun nothing => le_antisymm lowered.between ?_ }
    have full := lowered.past_le_min nothing mem_cons_self
    dsimp only [OwnedBlock.past] at full
    rw [lower_pos]
    omega

/-- Otherwise it is lost. -/
theorem truncate_covered {nn : Int} (less : nn < b.size) (covered : b.past ≠ a.pos) :
    a.truncate b nn = some (⟨b.addr, nn⟩, a) := by
  rw [truncate, if_pos less.le, if_neg covered]

end Accounts

end StackAllocator

inductive StackCall where
  | allocate (n : Int)
  | truncate (b : OwnedBlock) (nn : Int)
  | deallocate (b : OwnedBlock)

/-- The allocator, and the blocks that it has handed out and not got back. -/
structure Stack where
  allocator : StackAllocator
  live : List OwnedBlock

namespace Stack

def ofStore (btm top : Int) : Stack :=
  ⟨StackAllocator.ofStore btm top, []⟩

/-- A request that is refused hands out no block. -/
def step (s : Stack) : StackCall → Option Stack
  | .allocate n =>
      (s.allocator.allocate n).map fun (b, next) =>
        ⟨next, if b = .empty then s.live else b :: s.live⟩
  | .truncate b nn =>
      (s.allocator.truncate b nn).map fun (rest, next) => ⟨next, rest :: s.live.erase b⟩
  | .deallocate b => (s.allocator.deallocate b).map fun next => ⟨next, s.live.erase b⟩

/-- Something is requested, and only what is held is truncated or returned. -/
def Permits (s : Stack) : StackCall → Prop
  | .allocate n => 0 < n
  | .truncate b nn => b ∈ s.live ∧ 0 < nn ∧ nn < b.size
  | .deallocate b => b ∈ s.live

/-- Only the topmost block is truncated. -/
def TruncatesTopmost (s : Stack) : StackCall → Prop
  | .truncate b _ => b.past = s.allocator.pos
  | _ => True

instance (s : Stack) : ∀ call, Decidable (s.Permits call)
  | .allocate n => inferInstanceAs (Decidable (0 < n))
  | .truncate b nn => inferInstanceAs (Decidable (b ∈ s.live ∧ 0 < nn ∧ nn < b.size))
  | .deallocate b => inferInstanceAs (Decidable (b ∈ s.live))

/-- The allocator accounts for the blocks that are live and for those that are lost. -/
structure Accounted (btm top : Int) (s : Stack) (lost : List OwnedBlock) : Prop where
  btm_eq : s.allocator.btm = btm
  top_eq : s.allocator.top = top
  accounts : s.allocator.Accounts (s.live ++ lost)

variable {btm top : Int} {s : Stack} {lost : List OwnedBlock}

/-- Every call that is permitted is carried out. What is cut off a block that is not the topmost
one is lost. -/
theorem Accounted.step (accounted : Accounted btm top s lost) {call : StackCall}
    (permitted : s.Permits call) :
    ∃ next lostNext, s.step call = some next ∧ Accounted btm top next lostNext ∧
      (lostNext = [] ↔ lost = [] ∧ s.TruncatesTopmost call) := by
  rcases accounted with ⟨btm_eq, top_eq, accounts⟩
  have taken : ∀ b ∈ s.live, s.allocator.Accounts (b :: (s.live.erase b ++ lost)) := by
    intro b mem
    exact accounts.perm ((perm_cons_erase mem).append_right lost)
  cases call with
  | allocate n =>
      rw [Stack.step, accounts.allocate]
      split_ifs with exhausted
      · refine ⟨⟨s.allocator, s.live⟩, lost, rfl, ⟨btm_eq, top_eq, accounts⟩, ?_⟩
        exact (and_iff_left trivial).symm
      · have owning : (⟨s.allocator.pos, n⟩ : OwnedBlock) ≠ .empty := by
          intro none
          exact absurd (congrArg OwnedBlock.size none) permitted.ne'
        refine ⟨⟨s.allocator.raise n, ⟨s.allocator.pos, n⟩ :: s.live⟩, lost, ?_, ⟨?_, ?_, ?_⟩, ?_⟩
        · dsimp only [Option.map_some]
          rw [if_neg owning]
        · rw [StackAllocator.raise_btm, btm_eq]
        · rw [StackAllocator.raise_top, top_eq]
        · exact accounts.raise permitted (not_lt.mp exhausted)
        · exact (and_iff_left trivial).symm
  | truncate b nn =>
      rcases permitted with ⟨mem, positive, less⟩
      by_cases topmost : b.past = s.allocator.pos
      · have truncated := (taken b mem).truncate_topmost positive less topmost
        refine ⟨⟨s.allocator.lower (b.size - nn), ⟨b.addr, nn⟩ :: s.live.erase b⟩, lost, ?_,
          ⟨?_, ?_, ?_⟩, ?_⟩
        · rw [Stack.step, truncated.1]
          rfl
        · rw [StackAllocator.lower_btm, btm_eq]
        · rw [StackAllocator.lower_top, top_eq]
        · exact truncated.2
        · exact (and_iff_left topmost).symm
      · have truncated := StackAllocator.Accounts.truncate_covered less topmost
        refine ⟨⟨s.allocator, ⟨b.addr, nn⟩ :: s.live.erase b⟩,
          ⟨b.addr + nn, b.size - nn⟩ :: lost, ?_, ⟨btm_eq, top_eq, ?_⟩, ?_⟩
        · rw [Stack.step, truncated]
          rfl
        · have lose : (⟨b.addr, nn⟩ :: s.live.erase b ++ ⟨b.addr + nn, b.size - nn⟩ :: lost).Perm
              (⟨b.addr + nn, b.size - nn⟩ :: ⟨b.addr, nn⟩ :: (s.live.erase b ++ lost)) :=
            perm_middle
          exact ((taken b mem).cut positive less).perm lose.symm
        · exact iff_of_false (cons_ne_nil _ _) fun topmost' => topmost topmost'.2
  | deallocate b =>
      rcases (taken b permitted).deallocate with ⟨next, returned, accountsNext, btmNext, topNext⟩
      refine ⟨⟨next, s.live.erase b⟩, lost, ?_, ⟨btmNext.trans btm_eq, topNext.trans top_eq,
        accountsNext⟩, (and_iff_left trivial).symm⟩
      rw [Stack.step, returned]
      rfl

/-- The same for whole runs. -/
theorem Accounted.run (accounted : Accounted btm top s lost) {calls : List StackCall}
    (permitted : Throughout Stack.step Permits s calls) :
    ∃ final lostFinal, run Stack.step s calls = some final ∧ Accounted btm top final lostFinal ∧
      (lostFinal = [] ↔ lost = [] ∧ Throughout Stack.step TruncatesTopmost s calls) := by
  induction calls generalizing s lost with
  | nil => exact ⟨s, lost, rfl, accounted, (and_iff_left trivial).symm⟩
  | cons call calls ih =>
      rcases accounted.step permitted.1 with ⟨next, lostNext, stepped, accountedNext, lostNext_iff⟩
      rcases ih accountedNext (permitted.2 next stepped) with
        ⟨final, lostFinal, ran, accountedFinal, lostFinal_iff⟩
      refine ⟨final, lostFinal, ?_, accountedFinal, ?_⟩
      · rw [Theory.run, stepped, Option.bind_some, ran]
      · rw [lostFinal_iff, lostNext_iff, throughout_cons_iff stepped, and_assoc]

theorem accounted_ofStore (store : btm ≤ top) : Accounted btm top (ofStore btm top) [] :=
  ⟨rfl, rfl, StackAllocator.Accounts.ofStore store⟩

/-- Without truncation blocks can be returned in any order. They do not overlap and are in the
store, and the allocator is as at the beginning when all are back. -/
theorem reclaims (store : btm ≤ top) {calls : List StackCall}
    (permitted : Throughout step Permits (ofStore btm top) calls)
    (untruncated : ∀ b nn, .truncate b nn ∉ calls) :
    ∃ final, run step (ofStore btm top) calls = some final ∧
      final.live.Pairwise OwnedBlock.Apart ∧
      (∀ b ∈ final.live, 0 < b.size ∧ btm ≤ b.addr ∧ b.past ≤ top) ∧
      (final.live = [] → final.allocator = StackAllocator.ofStore btm top) := by
  rcases (accounted_ofStore store).run permitted with ⟨final, lost, ran, accounted, lost_iff⟩
  have nothing : lost = [] := by
    refine lost_iff.mpr ⟨rfl, throughout_of_forall (fun call mem s => ?_) _⟩
    cases call with
    | truncate b nn => exact absurd mem (untruncated b nn)
    | _ => trivial
  rcases accounted with ⟨rfl, rfl, accounts⟩
  rw [nothing, append_nil] at accounts
  refine ⟨final, ran, accounts.apart, fun b mem => ?_, fun none => ?_⟩
  · have placed := accounts.placed b mem
    exact ⟨accounts.sized b mem, placed.1, placed.2.trans accounts.below⟩
  · rw [none] at accounts
    exact accounts.eq_ofStore

/-- Two blocks are returned, and the lower one first. -/
theorem reclaims_two :
    ∃ final, run step (ofStore 0 10)
        [.allocate 4, .allocate 4, .deallocate ⟨0, 4⟩, .deallocate ⟨4, 4⟩] = some final ∧
      final.live.Pairwise OwnedBlock.Apart ∧
      (∀ b ∈ final.live, 0 < b.size ∧ 0 ≤ b.addr ∧ b.past ≤ 10) ∧
      (final.live = [] → final.allocator = StackAllocator.ofStore 0 10) :=
  reclaims (by decide) (by decide) (by simp)

/-- With truncation the whole store is available in the end exactly if only topmost blocks were
truncated. -/
theorem available_iff (store : btm ≤ top) {calls : List StackCall}
    (permitted : Throughout step Permits (ofStore btm top) calls) :
    ∃ final, run step (ofStore btm top) calls = some final ∧
      (final.live = [] →
        (final.allocator.maxSize = some (top - btm) ↔
          Throughout step TruncatesTopmost (ofStore btm top) calls)) := by
  rcases (accounted_ofStore store).run permitted with ⟨final, lost, ran, accounted, lost_iff⟩
  rw [eq_self, true_and] at lost_iff
  refine ⟨final, ran, fun none => ?_⟩
  rcases accounted with ⟨rfl, rfl, accounts⟩
  rw [none, nil_append] at accounts
  rw [← lost_iff, accounts.maxSize_eq, Option.some_inj]
  constructor
  · intro available
    cases lost with
    | nil => rfl
    | cons b lost =>
        have held := accounts.btm_lt_pos mem_cons_self
        omega
  · rintro rfl
    rw [accounts.eq_ofStore]
    rfl

/-- A block is truncated above another one and below a third one, and they are returned in turn. -/
def nestedCalls : List StackCall :=
  [.allocate 8, .allocate 6, .truncate ⟨8, 6⟩ 2, .allocate 4, .deallocate ⟨10, 4⟩,
    .deallocate ⟨8, 2⟩, .deallocate ⟨0, 8⟩]

theorem available_topmost :
    ∃ final, run step (ofStore 0 20) nestedCalls = some final ∧
      (final.live = [] →
        (final.allocator.maxSize = some (20 - 0) ↔
          Throughout step TruncatesTopmost (ofStore 0 20) nestedCalls)) :=
  available_iff (by decide) (by decide)

/-- A block is truncated that has another one above it, and then both are returned. -/
theorem not_forall_available :
    ¬∀ (btm top : Int) (calls : List StackCall) (final : Stack), btm ≤ top →
      Throughout step Permits (ofStore btm top) calls →
      run step (ofStore btm top) calls = some final → final.live = [] →
      final.allocator.maxSize = some (top - btm) := by
  intro available
  have leaked := available 0 20
    [.allocate 10, .allocate 10, .truncate ⟨0, 10⟩ 5, .deallocate ⟨0, 5⟩, .deallocate ⟨10, 10⟩]
    ⟨⟨0, 20, 10, 0, 5⟩, []⟩ (by decide) (by decide) (by rfl) rfl
  exact absurd leaked (by decide)

end Stack

end Eagine.Memory
