import Eagine.Memory.BitDensity

/-!
# Base64

The characters of a text are read by a table of the groups of six bits that they stand for.
The decoder takes groups until there is none, which is the end of the text or a character that
stands for none.
-/

namespace Eagine.Base64

open BitDensity Theory

theorem one_le_six : 1 ≤ 6 :=
  Nat.succ_pos 5

theorem six_le_byteBits : 6 ≤ byteBits := by
  decide

def sixBits : GroupSize where
  bits := 6
  one_le := one_le_six
  le_byteBits := six_le_byteBits

/-- The characters of the alphabet, in the order of their groups. -/
def alphabet : List UInt8 :=
  "ABCDEFGHIJKLMNOPQRSTUVWXYZabcdefghijklmnopqrstuvwxyz0123456789+/".toList.map fun c =>
    UInt8.ofNat c.toNat

/-- The character that `make_base64_encode_transform` makes of a group. -/
def base64EncodeTransform (b : BitVec 8) : UInt8 :=
  (alphabet ++ [0x3D]).getD (min b.toNat 64) 0

def base64EncodedLength (origSize : Nat) : Nat :=
  dissolvedBitsLength origSize sixBits

/-- The content of the container, if a reference to it is returned: the characters of the
groups that the putter sets. -/
def base64Encode (W : Nat) (src : List (BitVec 8)) : Option (List UInt8) :=
  let done := doDissolveBits W (putWithin (base64EncodedLength src.length)) sixBits src []
  if done.1 then some (done.2.map base64EncodeTransform) else none

/-- The array has two elements more than the alphabet. -/
def invtable : List UInt8 :=
  alphabet ++ [0, 0]

/-- The table of `make_base64_decode_transform`. -/
def table : List UInt8 :=
  let filled := invtable.foldl
    (fun state x => (state.1.set (UInt8.toNat x) state.2, state.2 + 1))
    (List.replicate 256 (0xFF : UInt8), (0 : UInt8))
  filled.1.set 0 0xFF

/-- A character as a size of 64 bits: where characters have a sign, the upper half of them is
negative. -/
def stdSize (hasSign : Bool) (c : UInt8) : Nat :=
  if hasSign && decide (0x80 ≤ c) then 2 ^ 64 + c.toNat - 256 else c.toNat

/-- The entry of the table, if there is one, and the group if the entry is valid. -/
def base64DecodeTransform (hasSign : Bool) (c : UInt8) : Option (Option (BitVec 8)) :=
  table[stdSize hasSign c]?.map fun r => if r &&& 0x80 ≠ 0x80 then some r.toBitVec else none

/-- The groups that the getter produces up to where it produces none, if all of them are read
inside the table. -/
def groupsOf (hasSign : Bool) : List UInt8 → Option (List (BitVec 8))
  | [] => some []
  | c :: src =>
      match base64DecodeTransform hasSign c with
      | some (some group) => (groupsOf hasSign src).map (group :: ·)
      | some none => some []
      | none => none

def base64DecodedLength (origSize : Nat) : Nat :=
  concentratedBitsLength origSize sixBits

/-- The content of the container, if a reference to it is returned. There is nothing at all
where a character is read outside the table. -/
def base64Decode (W : Nat) (hasSign : Bool) (src : List UInt8) :
    Option (Option (List (BitVec 8))) :=
  (groupsOf hasSign src).map fun groups =>
    let done := doConcentrateBits W (putWithin (base64DecodedLength src.length)) sixBits groups []
    if done.1 then some done.2 else none

/-- The characters of the alphabet have their groups in the table, with a sign or without. -/
theorem exists_group {c : UInt8} (mem : c ∈ alphabet) (hasSign : Bool) :
    ∃ group, base64DecodeTransform hasSign c = some (some group) := by
  have all : alphabet.all (fun c => (base64DecodeTransform true c).join.isSome &&
      (base64DecodeTransform false c).join.isSome) = true := by decide +kernel
  rw [List.all_eq_true] at all
  rcases Bool.and_eq_true_iff.mp (all c mem) with ⟨signed, unsigned⟩
  have valid : (base64DecodeTransform hasSign c).join.isSome = true := by
    cases hasSign with
    | true => exact signed
    | false => exact unsigned
  rcases Option.isSome_iff_exists.mp valid with ⟨group, joined⟩
  exact ⟨group, Option.join_eq_some_iff.mp joined⟩

variable {src : List UInt8}

theorem exists_groupsOf (text : ∀ c ∈ src, c ∈ alphabet) (hasSign : Bool) :
    ∃ groups, groupsOf hasSign src = some groups := by
  induction src with
  | nil => exact ⟨[], rfl⟩
  | cons c src ih =>
      rcases List.forall_mem_cons.mp text with ⟨mem, others⟩
      rcases exists_group mem hasSign with ⟨group, found⟩
      rcases ih others with ⟨groups, read⟩
      refine ⟨group :: groups, ?_⟩
      rw [groupsOf, found]
      dsimp only
      rw [read, Option.map_some]

variable {groups : List (BitVec 8)}

theorem length_groupsOf_le {hasSign : Bool}
    (read : groupsOf hasSign src = some groups) : groups.length ≤ src.length := by
  induction src generalizing groups with
  | nil =>
      cases read
      exact Nat.le_refl 0
  | cons c src ih =>
      rw [groupsOf] at read
      split at read
      · rcases Option.map_eq_some_iff.mp read with ⟨others, readOthers, rfl⟩
        exact Nat.succ_le_succ (ih readOthers)
      · cases read
        exact Nat.zero_le _
      · cases read

/-- Whatever groups there are in front of the end or of a character that has none, the
container has room for their bytes. -/
theorem base64Decode_of_groupsOf (W : Nat) {hasSign : Bool}
    (read : groupsOf hasSign src = some groups) :
    base64Decode W hasSign src = some (some (doConcentrateBits W accept sixBits groups []).2) := by
  have room : ([] : List (BitVec 8)).length * byteBits + 0 + groups.length * sixBits.bits ≤
      base64DecodedLength src.length * byteBits := by
    rw [List.length_nil, Nat.zero_mul, Nat.zero_add]
    exact (Nat.mul_le_mul_right _ (length_groupsOf_le read)).trans
      (le_concentratedBitsLength src.length sixBits)
  rcases concentrateFrom_putWithin sixBits (BitVec.ofNat W (2 ^ sixBits.bits - 1)) 0 0 groups []
    room with ⟨same, done⟩
  rw [base64Decode, read, Option.map_some, doConcentrateBits, same]
  exact congrArg some (if_pos done)

/-- Every character is read inside the table, and a result is returned for text of the alphabet
only. -/
def AcceptsExactly (W : Nat) (hasSign : Bool) (src : List UInt8) : Prop :=
  ∃ result, base64Decode W hasSign src = some result ∧
    (result.isSome = true ↔ ∀ c ∈ src, c ∈ alphabet)

/-- The decoder never rejects what it has read inside the table. -/
theorem acceptsExactly_iff (W : Nat) (hasSign : Bool) (src : List UInt8) :
    AcceptsExactly W hasSign src ↔ ∀ c ∈ src, c ∈ alphabet := by
  constructor
  · rintro ⟨result, decoded, accepted⟩
    apply accepted.mp
    rcases Option.map_eq_some_iff.mp decoded with ⟨groups, read, _⟩
    rw [base64Decode_of_groupsOf W read] at decoded
    cases decoded
    rfl
  · intro text
    rcases exists_groupsOf text hasSign with ⟨groups, read⟩
    exact ⟨_, base64Decode_of_groupsOf W read, iff_of_true rfl text⟩

/-- A character that ends the text, and one behind the end of the table. -/
theorem not_forall_acceptsExactly :
    ¬(∀ src, AcceptsExactly 16 false src) ∧ ¬∀ src, AcceptsExactly 16 true src := by
  constructor
  · intro exactly
    rcases exactly [0x2D] with ⟨result, decoded, accepted⟩
    have returned : base64Decode 16 false [0x2D] = some (some []) := by decide +kernel
    rw [returned] at decoded
    cases decoded
    have inAlphabet : (0x2D : UInt8) ∈ alphabet := accepted.mp rfl 0x2D List.mem_cons_self
    exact absurd inAlphabet (by decide)
  · intro exactly
    rcases exactly [0xE9] with ⟨result, decoded, _⟩
    have outside : base64Decode 16 true [0xE9] = none := by decide +kernel
    rw [outside] at decoded
    cases decoded

theorem base64DecodeTransform_encode {group : BitVec 8}
    (small : group.toNat < 2 ^ sixBits.bits) (hasSign : Bool) :
    base64DecodeTransform hasSign (base64EncodeTransform group) = some (some group) := by
  have all : ∀ group < 2 ^ sixBits.bits, ∀ hasSign, base64DecodeTransform hasSign
      (base64EncodeTransform (BitVec.ofNat 8 group)) = some (some (BitVec.ofNat 8 group)) := by
    decide +kernel
  have same := all group.toNat small hasSign
  rwa [BitVec.ofNat_toNat, BitVec.setWidth_eq] at same

theorem groupsOf_map (hasSign : Bool) (small : ∀ group ∈ groups, group.toNat < 2 ^ sixBits.bits) :
    groupsOf hasSign (groups.map base64EncodeTransform) = some groups := by
  induction groups with
  | nil => rfl
  | cons group groups ih =>
      rw [List.forall_mem_cons] at small
      rw [List.map_cons, groupsOf, base64DecodeTransform_encode small.1]
      dsimp only
      rw [ih small.2, Option.map_some]

/-- What is encoded is decoded again, whatever the platform's characters are. -/
theorem base64Decode_base64Encode {W : Nat} (wide : 16 ≤ W) (hasSign : Bool)
    (data : List (BitVec 8)) :
    ∃ text, base64Encode W data = some text ∧ text.length = base64EncodedLength data.length ∧
      base64Decode W hasSign text = some (some data) := by
  rcases dissolveFrom_accept wide sixBits 0 0 one_le_six data [] with
    ⟨groups, padding, dissolved, paddingLess, small, bits⟩
  rcases concentrateFrom_accept wide sixBits 0 0 (by decide) groups [] with
    ⟨restored, left, concentrated, leftLess, restoredBits⟩
  rw [lowBits, List.nil_append] at bits restoredBits
  have padded : (List.replicate padding false).length < byteBits := by
    rw [List.length_replicate]
    exact lt_of_lt_of_le paddingLess six_le_byteBits
  have same : restored = data := eq_of_flatMap_lowBits (restoredBits.trans bits) leftLess padded
  have total : groups.length * sixBits.bits = data.length * byteBits + padding := by
    simpa using congrArg List.length bits
  have lengthEq : groups.length = base64EncodedLength data.length :=
    eq_dissolvedBitsLength total paddingLess
  have room : ([] : List (BitVec 8)).length * sixBits.bits + (0 + data.length * byteBits) ≤
      base64EncodedLength data.length * sixBits.bits := by
    rw [← lengthEq, total]
    simp
  refine ⟨groups.map base64EncodeTransform, ?_, (List.length_map _).trans lengthEq, ?_⟩
  · rw [base64Encode, doDissolveBits, dissolveFrom_putWithin sixBits 0 0 data [] room, dissolved]
    rfl
  · rw [base64Decode_of_groupsOf W (groupsOf_map hasSign small), doConcentrateBits, concentrated,
      same, List.nil_append]

/-- One byte makes two characters, and four of their bits are padded. -/
theorem base64Decode_base64Encode_byte :
    ∃ text, base64Encode 16 [0xFF] = some text ∧ text.length = base64EncodedLength 1 ∧
      base64Decode 16 true text = some (some [0xFF]) :=
  base64Decode_base64Encode (by decide) true [0xFF]

end Eagine.Base64
