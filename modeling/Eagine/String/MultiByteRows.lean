import Eagine.String.MultiByteDecoding
import Eagine.Theory.Framing

/-!
# Rows of multi-byte sequences

The functions over many sequences take the length of each of them from its head byte. The
decoders do not look at the codes of the tail bytes, and the function that counts the
sequences does not look at the end of the span.
-/

namespace Eagine.MultiByte

open Theory List Nat

theorem doDecodeSequenceLength_pos {b : UInt8} {len : Nat}
    (announced : doDecodeSequenceLength b = some len) : 0 < len :=
  (doDecodeSequenceLength_eq_some_iff.mp announced).1

/-- The length of a sequence by its head byte. -/
def sequenceSize : List UInt8 → Option Nat
  | [] => none
  | b :: _ => doDecodeSequenceLength b

def sequences : Framing UInt8 where
  size := sequenceSize
  positive text len announced := by
    cases text with
    | nil => cases announced
    | cons b rest => exact doDecodeSequenceLength_pos announced
  settled text len rest announced _ := by
    cases text with
    | nil => cases announced
    | cons b tail =>
        rcases exists_eq_add_one.mpr (doDecodeSequenceLength_pos announced) with ⟨more, rfl⟩
        exact announced

/-- A sequence that is as long as its head byte says. -/
abbrev IsSequence (seq : List UInt8) : Prop :=
  sequences.IsFrame seq

/-- Sequences one after another. -/
abbrev AreSequences (seqs : List (List UInt8)) : Prop :=
  sequences.IsRow seqs

variable {seq rest : List UInt8} {seqs : List (List UInt8)}

theorem exists_head_of_isSequence (isSequence : IsSequence seq) :
    ∃ b rest, seq = b :: rest ∧ doDecodeSequenceLength b = some seq.length := by
  cases seq with
  | nil => cases isSequence
  | cons b rest => exact ⟨b, rest, rfl, isSequence⟩

theorem exists_head_of_isStuck (isStuck : sequences.IsStuck rest) :
    ∃ b tail, rest = b :: tail ∧ doDecodeSequenceLength b = none := by
  rcases isStuck with ⟨nonempty, announced⟩
  cases rest with
  | nil => exact absurd rfl nonempty
  | cons b tail => exact ⟨b, tail, rfl, announced⟩

theorem exists_head_of_isCut (isCut : sequences.IsCut rest) :
    ∃ b tail len, rest = b :: tail ∧ doDecodeSequenceLength b = some len ∧
      rest.length < len := by
  rcases isCut with ⟨nonempty, len, announced, short⟩
  cases rest with
  | nil => exact absurd rfl nonempty
  | cons b tail => exact ⟨b, tail, len, rfl, announced, short⟩

/-- The bytes behind the head byte are tail bytes. -/
def IsMarked (seq : List UInt8) : Prop :=
  ∀ b ∈ seq.tail, isValidTailByte b = true

/-- A sequence that does not stand for the invalid code point. -/
def IsDecodable (seq : List UInt8) : Prop :=
  IsSequence seq ∧ ¬(seq.length = 6 ∧ HasAllBits seq)

theorem isSequence_iff :
    IsSequence seq ↔ seq ≠ [] ∧ decodeSequenceLength seq = some seq.length := by
  constructor
  · intro isSequence
    rcases exists_head_of_isSequence isSequence with ⟨b, rest, rfl, announced⟩
    exact ⟨cons_ne_nil b rest, announced⟩
  · rintro ⟨nonempty, announced⟩
    cases seq with
    | nil => exact absurd rfl nonempty
    | cons b rest => exact announced

theorem decodeSequenceLength_append (isSequence : IsSequence seq) (rest : List UInt8) :
    decodeSequenceLength (seq ++ rest) = some seq.length := by
  rcases exists_head_of_isSequence isSequence with ⟨b, tail, rfl, announced⟩
  exact announced

theorem length_bounds (isSequence : IsSequence seq) : 1 ≤ seq.length ∧ seq.length ≤ 6 := by
  rcases exists_head_of_isSequence isSequence with ⟨b, tail, rfl, announced⟩
  rcases doDecodeSequenceLength_eq_some_iff.mp announced with ⟨positive, atMost, _⟩
  exact ⟨positive, atMost⟩

/-- At the start of a span the bytes of one sequence are validated. -/
theorem isValidEncoding_append_iff (isSequence : IsSequence seq) (rest : List UInt8) :
    isValidEncoding (seq ++ rest) = true ↔ IsMarked seq := by
  have enough : ¬(seq ++ rest).length < seq.length := by
    rw [length_append]
    exact not_lt.mpr (le_add_right _ _)
  rw [isValidEncoding, decodeSequenceLength_append isSequence]
  rcases exists_head_of_isSequence isSequence with ⟨b, tail, rfl, announced⟩
  rcases doDecodeSequenceLength_eq_some_iff.mp announced with ⟨_, _, head⟩
  have headEq : ((b :: tail) ++ rest).getD 0 0 = b := rfl
  dsimp only
  rw [headEq, head, Bool.not_true, if_neg Bool.false_ne_true, if_neg enough, all_eq_true,
    IsMarked, tail_cons]
  have here {i : Nat} (inside : i < tail.length) :
      (b :: tail ++ rest).getD (i + 1) 0 = tail[i] := by
    rw [cons_append, getD_cons_succ, getD_append _ _ _ _ inside,
      getD_eq_getElem _ _ inside]
  constructor
  · intro marked t mem
    rcases getElem_of_mem mem with ⟨i, inside, rfl⟩
    rw [← here inside]
    apply marked
    rw [mem_range'_1, length_cons]
    omega
  · intro marked i mem
    rw [mem_range'_1, length_cons] at mem
    rcases exists_eq_add_one.mpr mem.1 with ⟨j, rfl⟩
    have inside : j < tail.length := by omega
    rw [here inside]
    exact marked _ (getElem_mem inside)

theorem isValidEncoding_iff (isSequence : IsSequence seq) :
    isValidEncoding seq = true ↔ IsMarked seq := by
  have whole := isValidEncoding_append_iff isSequence []
  rwa [append_nil] at whole

theorem hasAllBits_append_iff (six : seq.length = 6) (rest : List UInt8) :
    HasAllBits (seq ++ rest) ↔ HasAllBits seq := by
  have here {i : Nat} (inside : i < 6) : (seq ++ rest).getD i 0 = seq.getD i 0 :=
    getD_append _ _ _ _ (six.symm ▸ inside)
  rw [HasAllBits, HasAllBits, here (by decide)]
  apply and_congr_right
  intro _
  constructor
  · intro all i first inside
    rw [← here inside]
    exact all i first inside
  · intro all i first inside
    rw [here inside]
    exact all i first inside

theorem isSome_doDecodeCodePoint_append (isSequence : IsSequence seq) (rest : List UInt8) :
    (doDecodeCodePoint (seq ++ rest) (some seq.length)).isSome = true ↔ IsDecodable seq := by
  rcases length_bounds isSequence with ⟨positive, atMost⟩
  have enough : seq.length ≤ (seq ++ rest).length := by
    rw [length_append]
    exact le_add_right _ _
  have bits : seq.length = 6 ∧ HasAllBits (seq ++ rest) ↔ seq.length = 6 ∧ HasAllBits seq :=
    and_congr_right fun six => hasAllBits_append_iff six rest
  rw [isSome_doDecodeCodePoint_iff positive atMost, bits, IsDecodable]
  exact ⟨fun decoded => ⟨isSequence, decoded.2⟩, fun decodable => ⟨enough, decodable.2⟩⟩

/-- The sequence that is decoded is at the start of the span. -/
theorem exists_sequence_of_isSome {src : List UInt8} {len : Nat}
    (announced : decodeSequenceLength src = some len)
    (decoded : (doDecodeCodePoint src (some len)).isSome = true) :
    ∃ seq rest, src = seq ++ rest ∧ IsDecodable seq ∧ seq.length = len := by
  rcases doDecodeSequenceLength_eq_some_iff.mp announced with ⟨positive, atMost, _⟩
  rcases (isSome_doDecodeCodePoint_iff positive atMost src).mp decoded with ⟨enough, _⟩
  have length : (src.take len).length = len := length_take_of_le enough
  have isSequence : IsSequence (src.take len) := by
    apply isSequence_iff.mpr
    constructor
    · intro empty
      rw [empty] at length
      exact absurd length (Nat.ne_of_lt positive)
    · cases src with
      | nil => exact absurd (positive.trans enough) (not_succ_le_zero 0)
      | cons b rest =>
          rw [length]
          rcases exists_eq_add_one.mpr positive with ⟨more, rfl⟩
          exact announced
  have split : src.take len ++ src.drop len = src := take_append_drop len src
  have accepted := isSome_doDecodeCodePoint_append isSequence (src.drop len)
  rw [length, split] at accepted
  exact ⟨src.take len, src.drop len, split.symm, accepted.mp decoded, length⟩

theorem isSome_decodeCodePoint_iff (src : List UInt8) :
    (decodeCodePoint src).isSome = true ↔ ∃ seq rest, src = seq ++ rest ∧ IsDecodable seq := by
  constructor
  · intro decoded
    cases announced : decodeSequenceLength src with
    | none =>
        rw [decodeCodePoint, announced] at decoded
        cases decoded
    | some len =>
        rw [decodeCodePoint, announced] at decoded
        rcases exists_sequence_of_isSome announced decoded with ⟨seq, rest, split, decodable, _⟩
        exact ⟨seq, rest, split, decodable⟩
  · rintro ⟨seq, rest, rfl, decodable⟩
    rw [decodeCodePoint, decodeSequenceLength_append decodable.1]
    exact (isSome_doDecodeCodePoint_append decodable.1 rest).mpr decodable

/-- A span has so many sequences at its start. -/
def StartsWith (seqs : List (List UInt8)) (src : List UInt8) : Prop :=
  seqs.flatten <+: src

theorem decodeCodePoints_cons (decodable : IsDecodable seq) (rest : List UInt8)
    (cp : Option CodePoint) (cps : List (Option CodePoint)) :
    (decodeCodePoints (seq ++ rest) (cp :: cps)).1 = (decodeCodePoints rest cps).1 := by
  have nonempty : ¬(seq ++ rest).length = 0 := by
    rw [length_append]
    exact Nat.ne_of_gt (Nat.lt_add_right _ (length_bounds decodable.1).1)
  have decoded := (isSome_doDecodeCodePoint_append decodable.1 rest).mpr decodable
  rcases Option.isSome_iff_exists.mp decoded with ⟨tcp, found⟩
  rw [decodeCodePoints, if_neg nonempty, decodeSequenceLength_append decodable.1]
  simp only [found, drop_left]

/-- The decoder of many code points succeeds if the span starts with as many sequences that
can be decoded. -/
theorem decodeCodePoints_fst_iff (src : List UInt8) (cps : List (Option CodePoint)) :
    (decodeCodePoints src cps).1 = true ↔
      ∃ seqs, StartsWith seqs src ∧ (∀ seq ∈ seqs, IsDecodable seq) ∧
        seqs.length = cps.length := by
  induction cps generalizing src with
  | nil =>
      constructor
      · intro _
        exact ⟨[], nil_prefix, fun seq mem => absurd mem not_mem_nil, rfl⟩
      · intro _
        rw [decodeCodePoints]
  | cons cp cps ih =>
      constructor
      · intro success
        rw [decodeCodePoints] at success
        split at success
        · cases success
        · split at success
          · rename_i len announced
            split at success
            · rename_i tcp found
              rcases exists_sequence_of_isSome announced (found ▸ rfl) with
                ⟨seq, rest, rfl, decodable, rfl⟩
              rw [drop_left] at success
              rcases (ih rest).mp success with ⟨seqs, starts, decodables, lengths⟩
              refine ⟨seq :: seqs, ?_, ?_, congrArg Nat.succ lengths⟩
              · rw [StartsWith, flatten_cons]
                exact (prefix_append_right_inj seq).mpr starts
              · exact forall_mem_cons.mpr ⟨decodable, decodables⟩
            · cases success
          · cases success
      · rintro ⟨seqs, ⟨rest, split⟩, decodables, lengths⟩
        cases seqs with
        | nil => cases lengths
        | cons seq seqs =>
            rcases forall_mem_cons.mp decodables with ⟨decodable, others⟩
            rw [flatten_cons, append_assoc] at split
            rw [← split, decodeCodePoints_cons decodable]
            exact (ih _).mpr ⟨seqs, prefix_append _ _, others, Nat.succ.inj lengths⟩

/-- How the loop of `decoding_code_points_required` ends: with the number of the sequences, at
a byte that is no head byte, or where the assertion fails, behind the end of the span. -/
inductive ScanEnd where
  | counted (result : Nat)
  | invalid
  | past
  | running
deriving DecidableEq

/-- The number, if it is valid. -/
def ScanEnd.toOption : ScanEnd → Option Nat
  | .counted result => some result
  | .invalid => none
  | .past => none
  | .running => none

/-- The loop of `decoding_code_points_required` from a position, for so many steps. -/
def scanFrom (bytes : List UInt8) : Nat → Nat → Nat → ScanEnd
  | 0, _, _ => .running
  | steps + 1, i, result =>
      if i = bytes.length then .counted result
      else
        match bytes[i]? with
        | some b =>
            match doDecodeSequenceLength b with
            | some len =>
                if bytes.length < i + len then .past
                else scanFrom bytes steps (i + len) (result + 1)
            | none => .invalid
        | none => .past

/-- Every step that stays inside the span passes a byte of it. -/
def scanCodePoints (bytes : List UInt8) : ScanEnd :=
  scanFrom bytes (bytes.length + 1) 0 0

theorem scanFrom_sequence {before : List UInt8} (isSequence : IsSequence seq) (steps result : Nat) :
    scanFrom (before ++ (seq ++ rest)) (steps + 1) before.length result =
      scanFrom (before ++ (seq ++ rest)) steps (before ++ seq).length (result + 1) := by
  rcases exists_head_of_isSequence isSequence with ⟨b, tail, rfl, announced⟩
  have inside : ¬before.length = (before ++ (b :: tail ++ rest)).length := by
    rw [length_append, length_append, length_cons]
    omega
  have notPast : ¬(before ++ (b :: tail ++ rest)).length <
      before.length + (b :: tail).length := by
    rw [length_append, length_append]
    omega
  have here : (before ++ (b :: tail ++ rest))[before.length]? = some b := by
    rw [getElem?_append_right le_rfl, Nat.sub_self]
    rfl
  have length : (before ++ b :: tail).length = before.length + (b :: tail).length :=
    length_append
  rw [scanFrom, if_neg inside, here]
  dsimp only
  rw [announced]
  dsimp only
  rw [if_neg notPast, length]

/-- A row of sequences is passed, one of them with each step. -/
theorem scanFrom_row (areSequences : AreSequences seqs) (before rest : List UInt8)
    (steps result : Nat) :
    scanFrom (before ++ (seqs.flatten ++ rest)) (seqs.length + steps) before.length result =
      scanFrom (before ++ (seqs.flatten ++ rest)) steps (before ++ seqs.flatten).length
        (result + seqs.length) := by
  induction seqs generalizing before result with
  | nil => rw [flatten_nil, append_nil, length_nil, zero_add, add_zero]
  | cons seq seqs ih =>
      rcases Framing.isRow_cons_iff.mp areSequences with ⟨isSequence, others⟩
      have tail := ih others (before ++ seq) (result + 1)
      rw [append_assoc] at tail
      rw [flatten_cons, append_assoc, length_cons, add_right_comm,
        scanFrom_sequence isSequence, tail, append_assoc, add_assoc,
        add_comm 1 seqs.length]

/-- Behind the row at the start of the span there are enough steps left. -/
theorem scanCodePoints_row (areSequences : AreSequences seqs) (rest : List UInt8) :
    ∃ steps, rest.length ≤ steps ∧ scanCodePoints (seqs.flatten ++ rest) =
      scanFrom (seqs.flatten ++ rest) (steps + 1) seqs.flatten.length seqs.length := by
  have fewer := areSequences.length_le
  have run := scanFrom_row areSequences [] rest
    (seqs.flatten.length - seqs.length + rest.length + 1) 0
  have total : seqs.length + (seqs.flatten.length - seqs.length + rest.length + 1) =
      (seqs.flatten ++ rest).length + 1 := by
    rw [length_append]
    omega
  rw [total, nil_append, nil_append, length_nil, zero_add] at run
  exact ⟨_, le_add_left _ _, run⟩

theorem scanCodePoints_whole (areSequences : AreSequences seqs) :
    scanCodePoints seqs.flatten = .counted seqs.length := by
  rcases scanCodePoints_row areSequences [] with ⟨steps, _, run⟩
  rw [append_nil] at run
  rw [run, scanFrom, if_pos rfl]

theorem scanCodePoints_stuck (areSequences : AreSequences seqs) (isStuck : sequences.IsStuck rest) :
    scanCodePoints (seqs.flatten ++ rest) = .invalid := by
  rcases exists_head_of_isStuck isStuck with ⟨b, tail, rfl, announced⟩
  rcases scanCodePoints_row areSequences (b :: tail) with ⟨steps, _, run⟩
  have inside : ¬seqs.flatten.length = (seqs.flatten ++ b :: tail).length := by
    rw [length_append, length_cons]
    omega
  rw [run, scanFrom, if_neg inside, getElem?_append_right le_rfl, Nat.sub_self]
  simp only [getElem?_cons_zero, announced]

theorem scanCodePoints_cut (areSequences : AreSequences seqs) (isCut : sequences.IsCut rest) :
    scanCodePoints (seqs.flatten ++ rest) = .past := by
  rcases exists_head_of_isCut isCut with ⟨b, tail, len, rfl, announced, short⟩
  rcases scanCodePoints_row areSequences (b :: tail) with ⟨steps, _, run⟩
  have inside : ¬seqs.flatten.length = (seqs.flatten ++ b :: tail).length := by
    rw [length_append, length_cons]
    omega
  have past : (seqs.flatten ++ b :: tail).length < seqs.flatten.length + len := by
    rw [length_append]
    exact Nat.add_lt_add_left short _
  rw [run, scanFrom, if_neg inside, getElem?_append_right le_rfl, Nat.sub_self]
  simp only [getElem?_cons_zero, announced, if_pos past]

/-- In the function by the bytes that remain, a number that is invalid and a position behind
the end are not told apart. -/
theorem decodingCodePointsFrom_row (areSequences : AreSequences seqs) (rest : List UInt8)
    (fuel result : Nat) :
    decodingCodePointsFrom (seqs.length + fuel) (seqs.flatten ++ rest) result =
      decodingCodePointsFrom fuel rest (result + seqs.length) := by
  induction seqs generalizing result with
  | nil => rw [flatten_nil, nil_append, length_nil, zero_add, add_zero]
  | cons seq seqs ih =>
      rcases Framing.isRow_cons_iff.mp areSequences with ⟨isSequence, others⟩
      rcases exists_head_of_isSequence isSequence with ⟨b, tail, rfl, announced⟩
      have notPast : ¬(tail ++ (seqs.flatten ++ rest)).length + 1 < (b :: tail).length := by
        rw [length_append, length_cons]
        omega
      have dropped : (b :: (tail ++ (seqs.flatten ++ rest))).drop (b :: tail).length =
          seqs.flatten ++ rest := drop_left
      rw [flatten_cons, append_assoc, length_cons, add_right_comm,
        cons_append, decodingCodePointsFrom, announced]
      dsimp only
      rw [if_neg notPast, dropped, ih others, add_assoc, add_comm 1]

theorem decodingCodePointsRequired_eq (bytes : List UInt8) :
    decodingCodePointsRequired bytes = (scanCodePoints bytes).toOption := by
  rcases sequences.exists_row bytes with
    ⟨seqs, rest, rfl, areSequences, ends⟩
  have fewer := areSequences.length_le
  have total : (seqs.flatten ++ rest).length =
      seqs.length + (seqs.flatten.length - seqs.length + rest.length) := by
    rw [length_append]
    omega
  rw [decodingCodePointsRequired, total, decodingCodePointsFrom_row areSequences, zero_add]
  rcases ends with rfl | stuck | cut
  · rw [decodingCodePointsFrom, append_nil, scanCodePoints_whole areSequences]
    rfl
  · rw [scanCodePoints_stuck areSequences stuck]
    rcases exists_head_of_isStuck stuck with ⟨b, tail, rfl, announced⟩
    rw [length_cons, ← add_assoc, decodingCodePointsFrom, announced]
    rfl
  · rw [scanCodePoints_cut areSequences cut]
    rcases exists_head_of_isCut cut with ⟨b, tail, len, rfl, announced, short⟩
    rw [length_cons, ← add_assoc, decodingCodePointsFrom, announced]
    exact if_pos short

/-- The scan stays inside the span, it ends, and what is counted are all the sequences that
the span consists of. -/
def ScansInside (bytes : List UInt8) : Prop :=
  scanCodePoints bytes = .invalid ∨
    ∃ seqs, AreSequences seqs ∧ seqs.flatten = bytes ∧
      scanCodePoints bytes = .counted seqs.length

/-- The scan passes the end of the span if the last sequence before it is not complete. -/
theorem scansInside_iff (bytes : List UInt8) :
    ScansInside bytes ↔
      ¬∃ seqs rest, bytes = seqs.flatten ++ rest ∧ AreSequences seqs ∧
        sequences.IsCut rest := by
  constructor
  · rintro inside ⟨seqs, rest, rfl, areSequences, isCut⟩
    have past := scanCodePoints_cut areSequences isCut
    rcases inside with invalid | ⟨others, _, _, counted⟩
    · rw [past] at invalid
      cases invalid
    · rw [past] at counted
      cases counted
  · intro notCut
    rcases sequences.exists_row bytes with
      ⟨seqs, rest, rfl, areSequences, ended | stuck | cut⟩
    · right
      rw [ended, append_nil]
      exact ⟨seqs, areSequences, rfl, scanCodePoints_whole areSequences⟩
    · left
      exact scanCodePoints_stuck areSequences stuck
    · exact absurd ⟨seqs, rest, rfl, areSequences, cut⟩ notCut

/-- The head byte of a sequence of two bytes at the end of the span. -/
theorem not_forall_scansInside : ¬∀ bytes, ScansInside bytes := by
  intro inside
  have past : scanCodePoints [0xC3] = .past := by decide
  rcases inside [0xC3] with invalid | ⟨seqs, _, _, counted⟩
  · rw [past] at invalid
    cases invalid
  · rw [past] at counted
    cases counted

/-- The decoders accept valid encodings only. The decoder of many code points reads as many
sequences as there are code points to be read, which is the whole span if these are as many
as it requires. -/
structure AcceptsOnlyValid (src : List UInt8) : Prop where
  codePoint : (decodeCodePoint src).isSome = true → isValidEncoding src = true
  codePoints : ∀ cps, (decodeCodePoints src cps).1 = true →
    ∃ seqs, StartsWith seqs src ∧ seqs.length = cps.length ∧
      (∀ seq ∈ seqs, IsSequence seq ∧ isValidEncoding seq = true) ∧
      (decodingCodePointsRequired src = some cps.length → seqs.flatten = src)

/-- As many sequences at the start of a span as it requires are the whole span. -/
theorem flatten_eq_of_required {src : List UInt8} (starts : StartsWith seqs src)
    (areSequences : AreSequences seqs)
    (required : decodingCodePointsRequired src = some seqs.length) : seqs.flatten = src := by
  rcases starts with ⟨rest, rfl⟩
  rw [decodingCodePointsRequired_eq] at required
  rcases sequences.exists_row (seqs.flatten ++ rest) with
    ⟨others, otherRest, split, areOthers, ended | stuck | cut⟩
  · rw [ended] at split
    rw [split, append_nil, scanCodePoints_whole areOthers] at required
    rcases areSequences.unique areOthers split (Option.some.inj required).symm with ⟨_, rfl⟩
    exact (append_nil _).symm
  · rw [split, scanCodePoints_stuck areOthers stuck] at required
    cases required
  · rw [split, scanCodePoints_cut areOthers cut] at required
    cases required

/-- The decoders accept valid encodings only, if in every row of sequences at the start of the
span, none of which stands for the invalid code point, all the bytes behind the head bytes
are tail bytes. -/
theorem acceptsOnlyValid_iff (src : List UInt8) :
    AcceptsOnlyValid src ↔
      ∀ seqs, StartsWith seqs src → (∀ seq ∈ seqs, IsDecodable seq) →
        ∀ seq ∈ seqs, IsMarked seq := by
  constructor
  · intro accepts seqs starts decodables
    have areSequences : AreSequences seqs := fun seq mem => (decodables seq mem).1
    have lengths : seqs.length = (List.replicate seqs.length (none : Option CodePoint)).length :=
      length_replicate.symm
    have success := (decodeCodePoints_fst_iff src (List.replicate seqs.length none)).mpr
      ⟨seqs, starts, decodables, lengths⟩
    rcases accepts.codePoints _ success with ⟨others, ⟨otherRest, otherSplit⟩, same, valid, _⟩
    rcases starts with ⟨rest, split⟩
    have areOthers : AreSequences others := fun seq mem => (valid seq mem).1
    rcases areSequences.unique areOthers (split.trans otherSplit.symm) (lengths.trans same.symm)
      with ⟨rfl, _⟩
    intro seq mem
    exact (isValidEncoding_iff (areSequences seq mem)).mp (valid seq mem).2
  · intro marked
    constructor
    · intro decoded
      rcases (isSome_decodeCodePoint_iff src).mp decoded with ⟨seq, rest, rfl, decodable⟩
      have starts : StartsWith [seq] (seq ++ rest) := by
        rw [StartsWith, flatten_singleton]
        exact prefix_append seq rest
      apply (isValidEncoding_append_iff decodable.1 rest).mpr
      apply marked [seq] starts _ seq (mem_singleton_self seq)
      intro other mem
      rw [mem_singleton.mp mem]
      exact decodable
    · intro cps success
      rcases (decodeCodePoints_fst_iff src cps).mp success with
        ⟨seqs, starts, decodables, lengths⟩
      have areSequences : AreSequences seqs := fun seq mem => (decodables seq mem).1
      refine ⟨seqs, starts, lengths, ?_, ?_⟩
      · intro seq mem
        exact ⟨areSequences seq mem, (isValidEncoding_iff (areSequences seq mem)).mpr
          (marked seqs starts decodables seq mem)⟩
      · intro required
        exact flatten_eq_of_required starts areSequences (lengths ▸ required)

/-- A byte behind a head byte that is no tail byte is decoded. -/
theorem not_forall_acceptsOnlyValid :
    ¬∀ src : List UInt8, src ≠ [] → AcceptsOnlyValid src := by
  intro accepts
  have decoded := (accepts [0xC3, 0x28] (cons_ne_nil _ _)).codePoint (by decide)
  exact absurd decoded (by decide)

end Eagine.MultiByte
