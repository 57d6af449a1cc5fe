import Eagine.Memory.StackAllocator
import Mathlib.Algebra.Order.Ring.Int
import Mathlib.Data.List.Forall2

/-!
# Stack byte allocator

The blocks are padded to alignments. The padding follows from how much is allocated, as if the store
began at a multiple of every alignment, and it is also asked for where the store is exhausted.
-/

namespace Eagine.Memory

open Theory

structure BlockRequest where
  size : Int
  alignment : Int

/-- `stack_byte_allocator_only`. -/
structure StackByteAllocatorOnly where
  alloc : StackAllocator

namespace StackByteAllocatorOnly

def ofStore (btm top : Int) : StackByteAllocatorOnly :=
  ⟨StackAllocator.ofStore btm top⟩

def padding (allocated alignment : Int) : Int :=
  (alignment - allocated % alignment) % alignment

def IsAlignedTo (addr alignment : Int) : Prop :=
  addr % alignment = 0

instance (addr alignment : Int) : Decidable (IsAlignedTo addr alignment) :=
  inferInstanceAs (Decidable (_ = _))

/-- There is no result where an assertion fails. -/
def allocate (s : StackByteAllocatorOnly) (r : BlockRequest) :
    Option (OwnedBlock × StackByteAllocatorOnly) :=
  s.alloc.allocatedSize.bind fun allocated =>
    let m := padding allocated r.alignment
    (s.alloc.allocate (m + r.size)).bind fun (b, alloc) =>
      if (1 ≤ b.size → IsAlignedTo (b.addr + m) r.alignment) ∧ m ≤ b.size then
        some (⟨b.addr + m, b.size - m⟩, ⟨alloc⟩)
      else none

def step (s : StackByteAllocatorOnly) (r : BlockRequest) : Option StackByteAllocatorOnly :=
  (s.allocate r).map Prod.snd

/-- What is handed out for some requests, one after the other. -/
def allocateAll : StackByteAllocatorOnly → List BlockRequest → Option (List OwnedBlock)
  | _, [] => some []
  | s, r :: requests =>
      (s.allocate r).bind fun (b, next) => (next.allocateAll requests).map (b :: ·)

/-- The size and the alignment are those that are requested, or the block is empty. -/
def Honours (r : BlockRequest) (b : OwnedBlock) : Prop :=
  b.size = 0 ∨ b.size = r.size ∧ r.alignment ∣ b.addr

/-- No assertion fails, and every request is honoured. -/
def HonoursAll (s : StackByteAllocatorOnly) (requests : List BlockRequest) : Prop :=
  ∃ blocks, s.allocateAll requests = some blocks ∧ List.Forall₂ Honours requests blocks

/-- The padded block fits into the store, and the store begins at a multiple of the alignment unless
nothing is needed. Or it does not fit, but no padding is needed. -/
def Suits (s : StackByteAllocatorOnly) (r : BlockRequest) : Prop :=
  let needed := padding (s.alloc.pos - s.alloc.btm) r.alignment + r.size
  if needed ≤ s.alloc.top - s.alloc.pos then needed = 0 ∨ r.alignment ∣ s.alloc.btm
  else r.alignment ∣ s.alloc.pos - s.alloc.btm

/-- Nothing is returned, and so both positions are where the next block starts. -/
structure Filled (s : StackByteAllocatorOnly) : Prop where
  above : s.alloc.btm ≤ s.alloc.pos
  below : s.alloc.pos ≤ s.alloc.top
  together : s.alloc.min = s.alloc.pos

theorem filled_ofStore {btm top : Int} (store : btm ≤ top) : Filled (ofStore btm top) :=
  ⟨le_rfl, store, rfl⟩

section Padding

variable {alignment : Int} (positive : 0 < alignment) (allocated : Int)

include positive

theorem padding_nonneg : 0 ≤ padding allocated alignment :=
  Int.emod_nonneg _ positive.ne'

theorem padding_lt : padding allocated alignment < alignment :=
  Int.emod_lt_of_pos _ positive

omit positive in
/-- The padding goes up to the next multiple. -/
theorem dvd_add_padding : alignment ∣ allocated + padding allocated alignment := by
  apply Int.dvd_of_emod_eq_zero
  rw [padding, Int.sub_emod_emod, Int.add_emod_emod, add_sub_cancel, Int.emod_self]

theorem padding_eq_zero_iff : padding allocated alignment = 0 ↔ alignment ∣ allocated := by
  have next : alignment ∣ _ := dvd_add_padding allocated
  constructor
  · intro none
    rwa [none, Int.add_zero] at next
  · intro multiple
    exact Int.eq_zero_of_dvd_of_nonneg_of_lt (padding_nonneg positive allocated)
      (padding_lt positive allocated) ((Int.dvd_add_right multiple).mp next)

end Padding

variable {s : StackByteAllocatorOnly} {r : BlockRequest}

theorem isAlignedTo_iff (addr alignment : Int) : IsAlignedTo addr alignment ↔ alignment ∣ addr :=
  Int.dvd_iff_emod_eq_zero.symm

/-- Where the store is exhausted, an empty block is handed out unless there is padding. -/
theorem Filled.allocate_exhausted (filled : s.Filled)
    (exhausted : s.alloc.top - s.alloc.pos <
      padding (s.alloc.pos - s.alloc.btm) r.alignment + r.size) :
    s.allocate r =
      if padding (s.alloc.pos - s.alloc.btm) r.alignment ≤ 0 then
        some (⟨padding (s.alloc.pos - s.alloc.btm) r.alignment,
          -padding (s.alloc.pos - s.alloc.btm) r.alignment⟩, s)
      else none := by
  rw [StackByteAllocatorOnly.allocate, StackAllocator.allocatedSize, if_pos filled.above,
    Option.bind_some]
  dsimp only
  rw [StackAllocator.allocate, StackAllocator.maxSize, if_pos filled.below, Option.bind_some,
    if_pos exhausted, Option.bind_some]
  simp [OwnedBlock.empty]

theorem Filled.allocate_fits (filled : s.Filled) (size : 0 ≤ r.size)
    (fits : padding (s.alloc.pos - s.alloc.btm) r.alignment + r.size ≤
      s.alloc.top - s.alloc.pos) :
    s.allocate r =
      if 1 ≤ padding (s.alloc.pos - s.alloc.btm) r.alignment + r.size →
          r.alignment ∣ s.alloc.pos + padding (s.alloc.pos - s.alloc.btm) r.alignment then
        some (⟨s.alloc.pos + padding (s.alloc.pos - s.alloc.btm) r.alignment, r.size⟩,
          ⟨s.alloc.raise (padding (s.alloc.pos - s.alloc.btm) r.alignment + r.size)⟩)
      else none := by
  rw [StackByteAllocatorOnly.allocate, StackAllocator.allocatedSize, if_pos filled.above,
    Option.bind_some]
  dsimp only
  rw [StackAllocator.allocate, StackAllocator.maxSize, if_pos filled.below, Option.bind_some,
    if_neg (not_lt.mpr fits), if_pos filled.together.le, Option.bind_some]
  simp [isAlignedTo_iff, size]

/-- The first multiple behind what is allocated is one of the addresses if the store begins at
one. -/
theorem dvd_pos_add_padding_iff (s : StackByteAllocatorOnly) (alignment : Int) :
    alignment ∣ s.alloc.pos + padding (s.alloc.pos - s.alloc.btm) alignment ↔
      alignment ∣ s.alloc.btm := by
  have next : alignment ∣ _ := dvd_add_padding (s.alloc.pos - s.alloc.btm)
  have address : s.alloc.pos + padding (s.alloc.pos - s.alloc.btm) alignment =
      s.alloc.btm + (s.alloc.pos - s.alloc.btm +
        padding (s.alloc.pos - s.alloc.btm) alignment) := by omega
  rw [address, Int.dvd_add_left next]

theorem Filled.raise (filled : s.Filled) {n : Int} (size : 0 ≤ n)
    (fits : n ≤ s.alloc.top - s.alloc.pos) : Filled ⟨s.alloc.raise n⟩ := by
  have above := filled.above
  rw [StackAllocator.raise, if_pos filled.together]
  refine ⟨by dsimp only; omega, by dsimp only; omega, ?_⟩
  dsimp only
  rw [filled.together]

/-- A request that suits the allocator is honoured. -/
theorem Filled.allocate_of_suits (filled : s.Filled) (positive : 0 < r.alignment)
    (size : 0 ≤ r.size) (suits : s.Suits r) :
    ∃ b next, s.allocate r = some (b, next) ∧ Honours r b ∧ next.Filled := by
  have nonneg := padding_nonneg positive (s.alloc.pos - s.alloc.btm)
  rw [Suits] at suits
  split_ifs at suits with fits
  · have allocated := filled.allocate_fits size fits
    have aligned := dvd_pos_add_padding_iff s r.alignment
    rw [if_pos fun some => aligned.mpr (suits.resolve_left (by omega))] at allocated
    refine ⟨_, _, allocated, ?_, filled.raise (Int.add_nonneg nonneg size) fits⟩
    rcases suits with none | multiple
    · exact Or.inl (by dsimp only; omega)
    · exact Or.inr ⟨rfl, aligned.mpr multiple⟩
  · have allocated := filled.allocate_exhausted (not_le.mp fits)
    have none := (padding_eq_zero_iff positive _).mpr suits
    rw [if_pos none.le] at allocated
    exact ⟨_, _, allocated, Or.inl (by rw [none]; rfl), filled⟩

/-- On any other an assertion fails. -/
theorem Filled.allocate_of_not_suits (filled : s.Filled) (positive : 0 < r.alignment)
    (size : 0 ≤ r.size) (unsuited : ¬s.Suits r) : s.allocate r = none := by
  have nonneg := padding_nonneg positive (s.alloc.pos - s.alloc.btm)
  rw [Suits] at unsuited
  split_ifs at unsuited with fits
  · rcases not_or.mp unsuited with ⟨some, unaligned⟩
    rw [filled.allocate_fits size fits, if_neg]
    exact fun aligned =>
      unaligned ((dvd_pos_add_padding_iff s r.alignment).mp (aligned (by omega)))
  · rw [filled.allocate_exhausted (not_le.mp fits), if_neg]
    exact fun none => unsuited ((padding_eq_zero_iff positive _).mp (le_antisymm none nonneg))

/-- Requests are honoured exactly as long as they suit the allocator. -/
theorem Filled.honours_iff (filled : s.Filled) {requests : List BlockRequest}
    (valid : ∀ r ∈ requests, 0 ≤ r.size ∧ 0 < r.alignment) :
    s.HonoursAll requests ↔ Throughout step Suits s requests := by
  induction requests generalizing s with
  | nil => exact iff_of_true ⟨[], rfl, List.Forall₂.nil⟩ trivial
  | cons r requests ih =>
      rcases List.forall_mem_cons.mp valid with ⟨⟨size, positive⟩, others⟩
      by_cases suits : s.Suits r
      · rcases filled.allocate_of_suits positive size suits with
          ⟨b, next, allocated, honours, filledNext⟩
        have stepped : s.step r = some next := by rw [step, allocated, Option.map_some]
        rw [throughout_cons_iff stepped, ← ih filledNext others]
        constructor
        · rintro ⟨blocks, made, all⟩
          rw [allocateAll, allocated, Option.bind_some] at made
          rcases Option.map_eq_some_iff.mp made with ⟨rest, madeRest, rfl⟩
          exact ⟨suits, rest, madeRest, (List.forall₂_cons.mp all).2⟩
        · rintro ⟨-, rest, madeRest, all⟩
          refine ⟨b :: rest, ?_, List.forall₂_cons.mpr ⟨honours, all⟩⟩
          rw [allocateAll, allocated, Option.bind_some]
          dsimp only
          rw [madeRest, Option.map_some]
      · refine iff_of_false ?_ fun throughout => suits throughout.1
        rintro ⟨blocks, made, -⟩
        rw [allocateAll, filled.allocate_of_not_suits positive size suits] at made
        cases made

/-- The same for a whole store. -/
theorem honoursAll_iff {btm top : Int} (store : btm ≤ top) {requests : List BlockRequest}
    (valid : ∀ r ∈ requests, 0 ≤ r.size ∧ ∃ exponent : Nat, r.alignment = 2 ^ exponent) :
    (ofStore btm top).HonoursAll requests ↔ Throughout step Suits (ofStore btm top) requests := by
  refine (filled_ofStore store).honours_iff fun r mem => ?_
  rcases valid r mem with ⟨size, exponent, alignment⟩
  exact ⟨size, alignment ▸ Int.pow_pos (by decide)⟩

/-- The second block is padded. -/
theorem honoursAll_padded :
    (ofStore 16 32).HonoursAll [⟨1, 1⟩, ⟨4, 4⟩] ↔
      Throughout step Suits (ofStore 16 32) [⟨1, 1⟩, ⟨4, 4⟩] :=
  honoursAll_iff (by decide) (by
    intro r mem
    rcases List.mem_pair.mp mem with rfl | rfl
    · exact ⟨by decide, 0, rfl⟩
    · exact ⟨by decide, 2, rfl⟩)

/-- The store begins at an odd address. -/
theorem not_forall_honoursAll :
    ¬∀ (btm top : Int) (requests : List BlockRequest), btm ≤ top →
      (∀ r ∈ requests, 0 ≤ r.size ∧ ∃ exponent : Nat, r.alignment = 2 ^ exponent) →
      (ofStore btm top).HonoursAll requests := by
  intro honours
  have all := honours 17 32 [⟨2, 2⟩] (by decide) (by
    intro r mem
    obtain rfl := List.mem_singleton.mp mem
    exact ⟨by decide, 1, rfl⟩)
  rcases all with ⟨blocks, made, -⟩
  cases made

end StackByteAllocatorOnly

end Eagine.Memory
