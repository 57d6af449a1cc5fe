import Eagine.Serialization.Consumption
import Eagine.Serialization.PortableUnsigned

/-!
# The plain values of the portable format

Which plain values the portable format keeps, and what its reader consumes for those that it
returns: the text of the value at least, since every digit has a place in the number.
-/

/-!
## Signed integers in the portable format

The magnitude of a signed integer is written behind its sign. The reader takes a magnitude that
is a positive number of the type, which the one of the smallest number is not.
-/

open List

namespace Eagine.Serialization.Portable

open Theory

/-- The smallest number is the only one with a magnitude that is no positive number. -/
theorem magnitude_lt_iff {width : Nat} (positive : 0 < width) {value : BitVec width} :
    (magnitude value).toNat < 2 ^ (width - 1) ↔ value ≠ BitVec.intMin width := by
  have double : 2 ^ width = 2 * 2 ^ (width - 1) := by
    rw [← Nat.pow_succ', Nat.succ_eq_add_one, Nat.sub_add_cancel positive]
  have smallest : (BitVec.intMin width).toNat = 2 ^ (width - 1) :=
    BitVec.toNat_intMin_of_pos positive
  have bound := value.isLt
  have isSmallest : value = BitVec.intMin width ↔ value.toNat = 2 ^ (width - 1) := by
    rw [← BitVec.toNat_inj, smallest]
  rw [ne_eq, isSmallest, magnitude]
  cases sign : value.msb with
  | false =>
      have small : value.toNat < 2 ^ (width - 1) := by
        rw [BitVec.msb_eq_decide, decide_eq_false_iff_not] at sign
        exact Nat.lt_of_not_le sign
      rw [if_neg Bool.false_ne_true]
      omega
  | true =>
      have large : 2 ^ (width - 1) ≤ value.toNat := by
        rw [BitVec.msb_eq_decide, decide_eq_true_iff] at sign
        exact sign
      have negated : (-value).toNat = 2 ^ width - value.toNat := by
        rw [BitVec.toNat_neg, Nat.mod_eq_of_lt]
        have some_bits := Nat.two_pow_pos (width - 1)
        omega
      rw [if_pos rfl, negated]
      omega

theorem write_single {leaf : PortableLeaf} (value : Leaf.Rep leaf) {sink : BlockDataSink}
    (room : (format.leaf leaf value).length ≤ sink.remainingSize) :
    serializer.write leaf [value] sink = ((∅, 1), sink.store (format.leaf leaf value)) := by
  have applied := doWriteFrom_apply (writeOne_eq leaf) [value] 0 sink
  rw [map_singleton] at applied
  have enough : (leafText leaf value ++ [byteOf ';']).length ≤ sink.remainingSize := room
  simp only [flatten_singleton, if_neg (Nat.not_lt.mpr enough), fitting, if_pos enough]
    at applied
  exact applied

/-- The value is read, or it is a format error behind its text. -/
theorem read_single {width : IntWidth} (value target : BitVec width.bits)
    {source : BlockDataSource} {rest : Block}
    (starts : source.remaining = signedText value ++ [byteOf ';'] ++ rest) :
    deserializer.read (.scalar (.int width)) [target] source =
      some (if value ≠ BitVec.intMin width.bits then (∅, [value], 1)
        else (.ofBit .invalidFormat, [target], 0),
        source.pop (signedText value ++ [byteOf ';']).length) := by
  have positive : 0 < width.bits := Nat.lt_of_lt_of_le (by decide) (four_le_bits width)
  have run := signedRead_of_append (by decide) value target width.bits_le starts
  have readEq : deserializer.read (.scalar (.int width)) [target] =
      doReadFrom (fun target => signedRead target (byteOf ';')) 0 [target] := rfl
  rw [readEq, doReadFrom, read_bind_apply, run, Option.bind_some]
  by_cases moderate : (magnitude value).toNat < 2 ^ (width.bits - 1)
  · have other := (magnitude_lt_iff positive).mp moderate
    rw [if_pos moderate, if_pos other]
    rfl
  · have smallest : ¬value ≠ BitVec.intMin width.bits := fun other =>
      moderate ((magnitude_lt_iff positive).mpr other)
    rw [if_neg moderate, if_neg smallest]
    rfl

/-- A signed integer survives a sink with room for it: it is written without an error, and read
from the front of what remains without an error. -/
def Survives (width : IntWidth) (value : BitVec width.bits) : Prop :=
  ∀ (room : Nat) (target : BitVec width.bits) (rest : Block),
    (signedText value ++ [byteOf ';']).length ≤ room →
    ∃ sink, serializer.write (.scalar (.int width)) [value] (.ofSize room) = ((∅, 1), sink) ∧
      ∃ source, deserializer.read (.scalar (.int width)) [target]
          (.ofBlock (sink.written ++ rest)) = some ((∅, [value], 1), source) ∧
        source.remaining = rest

/-- Every signed integer survives but the smallest one of its width. -/
theorem survives_iff (width : IntWidth) (value : BitVec width.bits) :
    Survives width value ↔ value ≠ BitVec.intMin width.bits := by
  let text := signedText value ++ [byteOf ';']
  have written {room : Nat} (enough : text.length ≤ room) :
      serializer.write (.scalar (.int width)) [value] (.ofSize room) =
        ((∅, 1), (BlockDataSink.ofSize room).store text) := by
    apply @write_single (.scalar (.int width)) value
    rwa [BlockDataSink.remainingSize_ofSize]
  have stored {room : Nat} (enough : text.length ≤ room) :
      ((BlockDataSink.ofSize room).store text).written = text :=
    BlockDataSink.written_store_ofSize enough
  constructor
  · rintro survives rfl
    rcases survives text.length 0 [] (Nat.le_refl _) with ⟨sink, write, source, read, _⟩
    rw [written (Nat.le_refl _)] at write
    cases write
    rw [stored (Nat.le_refl _), read_single _ 0 rfl, if_neg (not_not_intro rfl)] at read
    have report : (.ofBit .invalidFormat : DeserializationErrors) = ∅ :=
      congrArg (fun result => result.1.1) (Option.some.inj read)
    exact absurd report (by decide)
  · intro other room target rest enough
    have starts : (BlockDataSource.ofBlock (text ++ rest)).remaining = text ++ rest := rfl
    have read := read_single value target starts
    rw [if_pos other] at read
    refine ⟨_, written enough, _, (stored enough).symm ▸ read, ?_⟩
    rw [BlockDataSource.remaining_pop, stored enough, starts, drop_left]

/-- The smallest number of eight bits. -/
theorem not_forall_survives : ¬∀ (width : IntWidth) (value : BitVec width.bits),
    Survives width value := by
  intro survives
  rcases survives .w8 0x80#8 4 0x00#8 [] (by decide) with ⟨sink, write, source, read, _⟩
  have stored : (serializer.write (.scalar (.int .w8)) [0x80#8] (.ofSize 4)).2.written =
      [byteOf '-', byteOf '0', byteOf '8', byteOf ';'] := by decide
  rw [write] at stored
  have refused : (deserializer.read (.scalar (.int .w8)) [0x00#8]
      (.ofBlock ([byteOf '-', byteOf '0', byteOf '8', byteOf ';'] ++ []))).map (·.1.1) =
        some (.ofBit .invalidFormat) := by decide
  rw [← stored, read] at refused
  have report : (∅ : DeserializationErrors) = .ofBit .invalidFormat := Option.some.inj refused
  exact absurd report (by decide)

end Eagine.Serialization.Portable

namespace Eagine.Serialization.Portable

open Theory
open BlockDataSource (pop_pop remaining_pop top)
open FloatType (compose decompose)
open BitVec (intMin isLt ofNat ofNat_toNat setWidth_eq toInt toNat_ofNat)

/-- The plain values that are read back as they were written. -/
def Faithful : (leaf : PortableLeaf) → Leaf.Rep leaf → Prop
  | .scalar .bool, _ => True
  | .scalar (.int width), value => value ≠ intMin width.bits
  | .scalar (.uint _), _ => True
  | .floating _, value => FloatType.Floating.Kept value
  | .identifier, id => Identifier.name id ≠ []

variable {type : FloatType}

theorem exponent_ne_intMin (value : type.Floating) :
    (decompose value).exponent ≠ intMin type.exponentWidth := by
  cases value with
  | zero negative => cases type <;> cases negative <;> decide
  | infinite negative => cases type <;> cases negative <;> decide
  | nan negative => cases type <;> cases negative <;> decide
  | finite negative fraction exponent fits =>
      intro smallest
      have same := congrArg toInt smallest
      have above := fits.2.2.1
      rw [FloatType.toInt_decompose] at same
      subst same
      cases type <;> exact absurd above (by decide)

theorem magnitude_exponent_lt (value : type.Floating) :
    (magnitude (decompose value).exponent).toNat < 2 ^ (type.exponentWidth - 1) :=
  (magnitude_lt_iff (by cases type <;> decide)).mpr (exponent_ne_intMin value)

theorem width_le (type : FloatType) : type.width ≤ 64 ∧ type.exponentWidth ≤ 64 := by
  cases type <;> decide

theorem floatRead_reads (value target : type.Floating) :
    Reads (floatRead target (byteOf ';')) (.exact (floatText value ++ [byteOf ';'])) True
      (∅, compose (decompose value)) := by
  apply Reads.ofExact
  intro source rest starts
  let fraction := hexText (decompose value).fraction.toNat ++ [graveAccent]
  let exponent := signedText (decompose value).exponent ++ [byteOf ';']
  have textEq : floatText value ++ [byteOf ';'] = fraction ++ exponent := by
    simp [floatText, fraction, exponent]
  rw [textEq, append_assoc] at starts
  have fractionRun := (unsignedRead_reads (by decide) _ (width_le type).1).accept trivial
    source _ starts
  have behind : (source.pop fraction.length).remaining = exponent ++ rest := by
    exact BlockDataSource.remaining_pop_of_append starts
  have exponentRun := (signedRead_reads (by decide) _ 0 (width_le type).2
    (magnitude_exponent_lt value)).accept trivial _ rest behind
  have run : floatRead target (byteOf ';') source =
      some ((∅, compose (decompose value)),
        (source.pop fraction.length).pop exponent.length) := by
    unfold floatRead
    rw [read_bind_apply, fractionRun, Option.bind_some]
    dsimp only
    rw [(Bitfield.isEmpty_iff _).mpr rfl, if_pos rfl, read_bind_apply]
    change Option.bind (signedRead 0 (byteOf ';') (source.pop fraction.length)) _ = _
    rw [exponentRun]
    rfl
  rw [run, pop_pop, textEq, ← length_append]

theorem identifierRead_reads {id : Identifier} (named : id.name ≠ []) (target : Identifier) :
    Reads (identifierRead target (byteOf ';')) (.exact (id.name ++ [byteOf ';'])) True
      (∅, id) := by
  apply Reads.ofExact
  intro source rest starts
  rw [append_assoc, singleton_append] at starts
  have short : id.name.length < scanStep := lt_of_le_of_lt id.length_name_le (by decide)
  have absent : byteOf ';' ∉ id.name := by
    intro mem
    rw [← id.canonical] at mem
    exact absurd (isIdentifierChar_of_mem mem) (by decide)
  have srcEq := stringBefore_of_append starts absent short 32
  have run : identifierRead target (byteOf ';') source =
      some ((∅, id), source.pop (id.name.length + 1)) := by
    change (if (source.stringBefore (byteOf ';') 32).isEmpty then _ else _ : SourceM _) source = _
    rw [srcEq, isEmpty_eq_false_iff.mpr named]
    change some ((∅, Identifier.ofChars id.name), _) = _
    rw [Identifier.ofChars_name]
  rw [run, length_append]
  rfl

theorem readOne_reads_of_faithful {leaf : PortableLeaf} {value : Leaf.Rep leaf}
    (faithful : Faithful leaf value) (target : Leaf.Rep leaf) :
    Reads (readOne leaf target (byteOf ';')) (.exact (format.leaf leaf value)) True (∅, value) := by
  cases leaf with
  | scalar type =>
      cases type with
      | bool => exact boolRead_reads value target (byteOf ';')
      | int width =>
          have positive : 0 < width.bits := Nat.lt_of_lt_of_le (by decide) (four_le_bits width)
          exact signedRead_reads (by decide) value target width.bits_le
            ((magnitude_lt_iff positive).mpr faithful)
      | uint width => exact unsignedRead_reads (by decide) value width.bits_le
  | floating type =>
      have reads := floatRead_reads value target
      rw [(FloatType.compose_decompose_iff value).mpr faithful] at reads
      exact reads
  | identifier => exact identifierRead_reads faithful target

theorem plainReads : format.PlainReads Faithful deserializer := by
  intro leaf values targets sameLength faithful
  rw [← Payload.concat_map_exact]
  exact readValues_reads values targets sameLength fun value mem target =>
    readOne_reads_of_faithful (faithful value mem) target

theorem require_takes (text : Block) : Takes (require text) text.length := by
  intro source after run
  unfold require at run
  dsimp only at run
  split at run
  · cases run
  · rename_i enough
    split at run
    · cases run
      rw [top, length_take] at enough
      exact ⟨by omega, rfl⟩
    · cases run

variable {width : Nat}

/-- A number takes a digit for each digit of its text, and its delimiter. -/
theorem unsignedRead_spends (delimiter : UInt8) :
    Spends (unsignedRead delimiter) fun (value : BitVec width) _ spent =>
      (hexText value.toNat).length + 1 ≤ spent := by
  intro source value after run
  rcases digits_of_unsignedRead run with ⟨nonempty, digits, isHex, rfl, rfl⟩
  refine ⟨_, rfl, Nat.succ_le_succ (length_hexText_le ?_ (length_pos_of_ne_nil nonempty))⟩
  have bound := Nat.ofDigits_lt_base_pow_length (by decide) isHex.small
  rw [← length_map hexDigit, isHex.text_eq] at bound
  rw [toNat_ofNat]
  exact Nat.lt_of_le_of_lt (Nat.mod_le _ _) bound

/-- A positive number is the magnitude of itself and of its negative. -/
theorem magnitude_signed (positive : 0 < width) {temp : BitVec width}
    (moderate : temp.toNat < 2 ^ (width - 1)) (isNegative : Prop) [Decidable isNegative] :
    magnitude (if isNegative then -temp else temp) = temp := by
  have double : 2 ^ width = 2 * 2 ^ (width - 1) := by
    rw [← Nat.pow_succ', Nat.succ_eq_add_one, Nat.sub_add_cancel positive]
  by_cases negative : isNegative
  · rw [if_pos negative]
    by_cases isZero : temp = 0
    · rw [isZero]
      simp [magnitude]
    · have nonzero : temp.toNat ≠ 0 := by
        intro toNatZero
        exact isZero (BitVec.eq_of_toNat_eq (by simpa using toNatZero))
      have negated : (-temp).toNat = 2 ^ width - temp.toNat := by
        rw [BitVec.toNat_neg, Nat.mod_eq_of_lt]
        omega
      have sign : (-temp).msb = true := by
        rw [BitVec.msb_eq_decide, decide_eq_true_iff, negated]
        omega
      rw [magnitude, if_pos sign, BitVec.neg_neg]
  · have sign : temp.msb = false := by
      rw [BitVec.msb_eq_decide, decide_eq_false_iff_not]
      exact Nat.not_le.mpr moderate
    rw [if_neg negative, magnitude, sign, if_neg Bool.false_ne_true]

theorem signedRead_spends (positive : 0 < width) (target : BitVec width) (delimiter : UInt8) :
    Spends (signedRead target delimiter) fun value _ spent =>
      (signedText value).length + 1 ≤ spent ∧ value ≠ intMin width := by
  intro source value after run
  unfold signedRead at run
  rcases bind_eq_some.mp run with ⟨sign, unchanged, signRun, more⟩
  cases signRun
  by_cases isSign : source.top 1 = [byteOf '+'] ∨ source.top 1 = [byteOf '-']
  · rw [if_pos isSign] at more
    rcases bind_eq_some.mp more with ⟨_, behind, popRun, rest⟩
    cases popRun
    rcases bind_eq_some.mp rest with ⟨⟨errors, temp⟩, middle, tempRun, last⟩
    dsimp only at last
    by_cases moderate : temp.toNat < 2 ^ (width - 1)
    · rw [if_pos moderate] at last
      rcases pure_eq_some.mp last with ⟨same, rfl⟩
      obtain ⟨rfl, rfl⟩ := Prod.mk.inj same
      rcases unsignedRead_spends delimiter _ _ _ tempRun with ⟨spent, rfl, enough⟩
      have restored := magnitude_signed positive moderate (source.top 1 = [byteOf '-'])
      refine ⟨1 + spent, pop_pop _ _ _, ?_, ?_⟩
      · rw [signedText, restored, length_cons]
        omega
      · apply (magnitude_lt_iff positive).mp
        rw [restored]
        exact moderate
    · rw [if_neg moderate] at last
      rcases pure_eq_some.mp last with ⟨same, _⟩
      have clean := (Bitfield.or_eq_empty.mp (congrArg Prod.fst same)).2
      exact absurd clean (by decide)
  · rw [if_neg isSign] at more
    cases more

/-- A size takes its text at least; a negative one counts as none. -/
theorem sizeRead_spends (delimiter : UInt8) :
    Spends (sizeRead delimiter) fun found _ spent => (sizeText found.toNat).length + 1 ≤ spent := by
  apply (signedRead_spends (by decide) (0 : BitVec 64) delimiter).map (f := toInt)
  rintro size source spent ⟨enough, _⟩
  refine Nat.le_trans (Nat.succ_le_succ ?_) enough
  rcases Int.lt_or_le size.toInt 0 with negative | natural
  · rw [Int.toNat_of_nonpos negative.le, sizeText, signedText, signedText, length_cons,
      length_cons]
    apply Nat.succ_le_succ
    exact length_pos_of_ne_nil (hexText_ne_nil _)
  · have sameSize : ofNat 64 size.toInt.toNat = size := by
      have sameNumber : size.toInt = size.toNat := by
        have bound := size.isLt
        rw [BitVec.toInt_eq_toNat_cond] at natural ⊢
        split at natural
        · rename_i small
          rw [if_pos small]
        · omega
      rw [sameNumber, Int.toNat_natCast, ofNat_toNat, setWidth_eq]
    rw [sizeText, sameSize]

theorem consume_spends {text : Block} {source after : BlockDataSource} {found : Bool}
    {errors : DeserializationErrors} (run : consume text source = some ((found, errors), after)) :
    (found = true ∧ after = source.pop text.length) ∨
      (found = false ∧ errors ≠ ∅ ∧ after = source) := by
  unfold consume at run
  dsimp only at run
  split at run
  · cases run
    exact Or.inr ⟨rfl, by decide, rfl⟩
  · split at run
    · cases run
      exact Or.inl ⟨rfl, rfl⟩
    · cases run
      exact Or.inr ⟨rfl, by decide, rfl⟩

/-- One character and the delimiter. -/
theorem boolRead_spends (target : Bool) (delimiter : UInt8) :
    Spends (boolRead target delimiter) fun _ _ spent => spent = 2 := by
  have delimited {value : Bool} {source after : BlockDataSource} {chosen : Bool}
      (run : (do let errors ← require [delimiter]; pure (errors, chosen) : SourceM _)
        source = some ((∅, value), after)) : after = source.pop 1 := by
    rcases bind_eq_some.mp run with ⟨errors, closed, requireRun, last⟩
    rcases pure_eq_some.mp last with ⟨same, rfl⟩
    obtain ⟨rfl, rfl⟩ := Prod.mk.inj same
    exact (require_takes [delimiter] _ _ requireRun).2
  intro source value after run
  unfold boolRead at run
  rcases bind_eq_some.mp run with ⟨⟨isSet, first⟩, opened, setRun, more⟩
  dsimp only at more
  rcases consume_spends setRun with ⟨rfl, rfl⟩ | ⟨rfl, _, rfl⟩
  · rw [if_pos rfl] at more
    exact ⟨2, by rw [delimited more, pop_pop]; rfl, rfl⟩
  · rw [if_neg Bool.false_ne_true] at more
    rcases bind_eq_some.mp more with ⟨⟨isClear, temp⟩, cleared, clearRun, rest⟩
    dsimp only at rest
    rcases consume_spends clearRun with ⟨rfl, rfl⟩ | ⟨rfl, failed, rfl⟩
    · rw [if_pos rfl] at rest
      exact ⟨2, by rw [delimited rest, pop_pop]; rfl, rfl⟩
    · rw [if_neg Bool.false_ne_true] at rest
      rcases pure_eq_some.mp rest with ⟨same, _⟩
      exact absurd (congrArg Prod.fst same) failed

variable {source : BlockDataSource}

/-- Digits that do not have the delimiter among them are read with all that is in front of it. -/
theorem prefix_stringBefore {text rest : Block} {delimiter : UInt8}
    (starts : source.remaining = text ++ rest) (absent : delimiter ∉ text)
    (short : text.length ≤ 48) (some : source.stringBefore delimiter 48 ≠ []) :
    text <+: source.stringBefore delimiter 48 := by
  have isPrefix : text <+: source.remaining := ⟨rest, starts.symm⟩
  rcases stringBefore_cases 48 with nothing | ⟨behind, delimited, _⟩ | ⟨undelimited, long⟩
  · exact absurd nothing some
  · have before : source.stringBefore delimiter 48 <+: source.remaining := ⟨_, delimited.symm⟩
    rcases prefix_or_prefix_of_prefix isPrefix before with within | ⟨others, textEq⟩
    · exact within
    · rw [delimited, ← textEq, append_assoc, append_cancel_left_eq] at starts
      cases others with
      | nil => exact ⟨[], by rw [append_nil, ← textEq, append_nil]⟩
      | cons first others =>
          cases starts
          exact absurd (textEq ▸ mem_append_right _ mem_cons_self) absent
  · rw [stringBefore_of_undelimited undelimited long (by decide)]
    exact prefix_take_iff.mpr ⟨isPrefix, short⟩

/-- A number is not read from a text with something else in front of the delimiter. -/
theorem unsignedRead_ne_of_mem {source after : BlockDataSource} {text rest : Block}
    {delimiter : UInt8} (char : UInt8) {value : BitVec width}
    (starts : source.remaining = text ++ rest) (absent : delimiter ∉ text)
    (short : text.length ≤ 48) (mem : char ∈ text) (notDigit : hexDigitValue char = none) :
    unsignedRead delimiter source ≠ some ((∅, value), after) := by
  intro run
  rcases digits_of_unsignedRead run with ⟨nonempty, digits, ⟨small, textEq⟩, _⟩
  have within := (prefix_stringBefore starts absent short nonempty).subset mem
  rw [← textEq] at within
  rcases mem_map.mp within with ⟨digit, digitMem, rfl⟩
  rw [hexDigitValue_hexDigit (small digit digitMem)] at notDigit
  cases notDigit

/-- What is left of the digits of a number is its quotient, which is less. -/
theorem ofDigits_drop_hexText (number late : Nat) :
    IsHexOf ((number % 16 :: Nat.digits 16 (number / 16)).drop late)
      ((hexText number).drop late) ∧
      Nat.ofDigits 16 ((number % 16 :: Nat.digits 16 (number / 16)).drop late) =
        number / 16 ^ late := by
  refine ⟨⟨fun digit mem => hexText_small digit (mem_of_mem_drop mem), map_drop⟩, ?_⟩
  rw [← Nat.ofDigits_div_pow_eq_ofDigits_drop late (by decide) _ hexText_small, ofDigits_hexText]

theorem length_hexText_toNat_le (narrow : width ≤ 64) (value : BitVec width) :
    (hexText value.toNat).length ≤ 16 := by
  apply length_hexText_le (Nat.lt_of_lt_of_le value.isLt _) (by decide)
  exact Nat.pow_le_pow_right (by decide) narrow

theorem pow_le_of_lt_length_hexText {number late : Nat}
    (within : late + 1 < (hexText number).length) :
    16 ^ (late + 1) ≤ number := by
  have more : late < (Nat.digits 16 (number / 16)).length := by
    simpa [hexText] using within
  rw [Nat.pow_succ]
  exact (Nat.le_div_iff_mul_le (by decide)).mp ((Nat.lt_digits_length_iff (by decide) _).mp more)

/-- Whoever reads a number late within its digits reads what is left of them. -/
theorem unsignedRead_drop {number late spent : Nat} {rest : Block}
    {delimiter : UInt8} {value : BitVec width} (notDigit : hexDigitValue delimiter = none)
    (starts : source.remaining = (hexText number).drop late ++ delimiter :: rest)
    (short : (hexText number).length < scanStep)
    (run : unsignedRead delimiter source = some ((∅, value), source.pop spent)) :
    late < (hexText number).length ∧ value = ofNat width (number / 16 ^ late) ∧
      spent = (hexText number).length - late + 1 := by
  have absent : delimiter ∉ (hexText number).drop late := fun mem =>
    notMem_hexText notDigit number (mem_of_mem_drop mem)
  have shorter : ((hexText number).drop late).length < scanStep := by
    rw [length_drop]
    omega
  have before := stringBefore_of_append starts absent shorter 48
  rcases digits_of_unsignedRead run with ⟨nonempty, digits, isHex, valueEq, popped⟩
  rw [before] at nonempty isHex popped
  rcases ofDigits_drop_hexText number late with ⟨dropHex, quotient⟩
  rw [isHex.unique dropHex, quotient] at valueEq
  refine ⟨Nat.lt_of_not_le fun past => nonempty (drop_eq_nil_of_le past), valueEq, ?_⟩
  rw [← length_drop]
  exact Nat.add_left_cancel (congrArg BlockDataSource.done popped)

/-- The digits that are left of the fraction of a number are those of another one. -/
theorem compose_quotient_ne (value : type.Floating) {late : Nat}
    (within : late + 1 < (hexText (decompose value).fraction.toNat).length) :
    compose ⟨.ofNat _ ((decompose value).fraction.toNat / 16 ^ (late + 1)),
      (decompose value).exponent⟩ ≠ value := by
  let number := (decompose value).fraction.toNat
  have least := pow_le_of_lt_length_hexText within
  have quotient := Nat.div_mul_le_self number (16 ^ (late + 1))
  have some_left := Nat.div_pos least (Nat.pow_pos (by decide))
  have leftEq : (ofNat type.width (number / 16 ^ (late + 1))).toNat =
      number / 16 ^ (late + 1) := by
    rw [toNat_ofNat, Nat.mod_eq_of_lt]
    exact Nat.lt_of_le_of_lt (Nat.div_le_self _ _) (isLt _)
  refine FloatType.compose_ne rfl ?_ ?_
  · rw [leftEq]
    exact some_left
  · rw [leftEq, Nat.mul_comm]
    refine Nat.le_trans (Nat.mul_le_mul_left _ ?_) quotient
    exact Nat.le_self_pow (Nat.succ_ne_zero late) 16

theorem floatText_delimited (value : type.Floating) :
    floatText value ++ [byteOf ';'] = hexText (decompose value).fraction.toNat ++
      graveAccent :: (signedText (decompose value).exponent ++ [byteOf ';']) := by
  simp [floatText]

/-- There is no fraction behind the one of a float. -/
theorem unsignedRead_ne_of_behind (value : type.Floating) {late : Nat} {rest : Block}
    {fraction : BitVec type.width} {after : BlockDataSource}
    (behind : (hexText (decompose value).fraction.toNat).length < late)
    (inside : late ≤ (floatText value).length)
    (starts : source.remaining = (floatText value ++ [byteOf ';']).drop late ++ rest) :
    unsignedRead graveAccent source ≠ some ((∅, fraction), after) := by
  let tail := signedText (decompose value).exponent ++ [byteOf ';']
  have within : (floatText value ++ [byteOf ';']).drop late ⊆ tail := by
    rw [floatText_delimited, drop_append, drop_eq_nil_of_le behind.le, nil_append]
    rcases Nat.exists_eq_add_of_lt behind with ⟨more, lateEq⟩
    rw [lateEq, Nat.add_assoc, Nat.add_sub_cancel_left, drop_succ_cons]
    exact drop_subset more tail
  have absent : graveAccent ∉ tail := by
    simp only [tail, signedText, cons_append, mem_cons, mem_append, not_or, not_mem_nil]
    refine ⟨?_, notMem_hexText (by decide) _, by decide, not_false⟩
    unfold signOf
    split <;> decide
  refine unsignedRead_ne_of_mem (byteOf ';') starts ?_ ?_ ?_ ?_
  · exact fun mem => absent (within mem)
  · have short := length_hexText_toNat_le (width_le type).1 (decompose value).fraction
    have exponentShort := length_hexText_toNat_le (width_le type).2
      (magnitude (decompose value).exponent)
    rw [length_drop, floatText_delimited]
    simp only [signedText, length_append, length_cons, length_nil]
    omega
  · rw [drop_append_of_le_length inside]
    exact mem_append_right _ (mem_singleton_self _)
  · decide

/-- A float that is not read from the front of its text is not read within it. -/
theorem floatText_covers {value : type.Floating} {first second : Nat}
    {fraction : BitVec type.width} {exponent : BitVec type.exponentWidth}
    (fractionRun : unsignedRead graveAccent source = some ((∅, fraction), source.pop first))
    (exponentRun : signedRead 0 (byteOf ';') (source.pop first) =
      some ((∅, exponent), (source.pop first).pop second))
    (composed : compose ⟨fraction, exponent⟩ = value) (positive : 0 < first) :
    Covers (floatText value ++ [byteOf ';']) value.Kept source (first + second) := by
  intro late rest starts
  have short := length_hexText_toNat_le (width_le type).1 (decompose value).fraction
  rcases Nat.lt_or_ge (floatText value ++ [byteOf ';']).length (late + (first + second))
    with beyond | inside
  · exact Or.inl beyond
  by_cases early : late ≤ (hexText (decompose value).fraction.toNat).length
  · rw [floatText_delimited, append_assoc, drop_append_of_le_length early] at starts
    rcases unsignedRead_drop (by decide) starts (short.trans_lt (by decide)) fractionRun with
      ⟨within, rfl, rfl⟩
    have behind := BlockDataSource.remaining_pop_of_delimited starts
    rw [length_drop] at behind
    rw [signedRead_of_append (by decide) _ 0 (width_le type).2 behind,
      if_pos (magnitude_exponent_lt value)] at exponentRun
    obtain ⟨same, popped⟩ := Prod.mk.inj (Option.some.inj exponentRun)
    obtain ⟨-, rfl⟩ := Prod.mk.inj same
    have secondEq := Nat.add_left_cancel (congrArg BlockDataSource.done popped)
    cases late with
    | zero =>
        refine Or.inr ⟨rfl, ?_, ?_⟩
        · rw [floatText_delimited, ← secondEq]
          simp
          omega
        · rw [Nat.pow_zero, Nat.div_one, ofNat_toNat, setWidth_eq] at composed
          exact (FloatType.compose_decompose_iff value).mp composed
    | succ late => exact absurd composed (compose_quotient_ne value within)
  · have late_le : late ≤ (floatText value).length := by
      rw [length_append, length_singleton] at inside
      omega
    rw [drop_append_of_le_length (by rw [length_append]; omega)] at starts
    exact absurd fractionRun
      (unsignedRead_ne_of_behind value (Nat.lt_of_not_le early) late_le starts)

theorem floatRead_spends (target : type.Floating) :
    Spends (floatRead target (byteOf ';')) fun value =>
      Covers (floatText value ++ [byteOf ';']) value.Kept := by
  intro source value after run
  unfold floatRead at run
  rcases bind_eq_some.mp run with ⟨⟨errors, fraction⟩, middle, fractionRun, more⟩
  dsimp only at more
  rcases continues_of_clean more with ⟨rfl, more⟩
  rcases bind_eq_some.mp more with ⟨⟨found, exponent⟩, closed, exponentRun, last⟩
  dsimp only at last
  rcases continues_of_clean last with ⟨rfl, last⟩
  rcases pure_eq_some.mp last with ⟨same, rfl⟩
  cases same
  rcases unsignedRead_spends graveAccent _ _ _ fractionRun with ⟨first, rfl, firstEnough⟩
  rcases signedRead_spends (by cases type <;> decide) 0 (byteOf ';') _ _ _ exponentRun with
    ⟨second, rfl, _⟩
  exact ⟨first + second, pop_pop _ _ _, floatText_covers fractionRun exponentRun rfl (by omega)⟩

theorem length_identifierNameOf_le_length (src : Block) :
    (identifierNameOf src).length ≤ src.length := by
  rw [identifierNameOf]
  split
  · exact Nat.zero_le _
  · exact (List.takeWhile_prefix _).length_le.trans (length_take_le' _ _)

/-- The name is not longer than the text, and the text is not empty. -/
theorem identifierRead_spends (target : Identifier) (delimiter : UInt8) :
    Spends (identifierRead target delimiter) fun id =>
      Covers (id.name ++ [byteOf ';']) (id.name ≠ []) := by
  intro source value after run
  change (if (source.stringBefore delimiter 32).isEmpty then _ else _ : SourceM _) source = _ at run
  by_cases empty : (source.stringBefore delimiter 32).isEmpty = true
  · rw [if_pos empty] at run
    cases run
  · rw [if_neg empty] at run
    cases run
    have shorter := length_identifierNameOf_le_length (source.stringBefore delimiter 32)
    refine ⟨_, rfl, .of_le ?_ ?_⟩
    · rw [length_append]
      exact Nat.succ_le_succ shorter
    intro same nameless
    rw [length_append] at same
    have textless : (source.stringBefore delimiter 32).length = 0 := by
      rw [Nat.succ.inj same, nameless]
      rfl
    exact empty (isEmpty_iff.mpr (length_eq_zero_iff.mp textless))

/-- A plain value takes its text and the delimiter. -/
theorem readOne_spends (leaf : PortableLeaf) (target : Leaf.Rep leaf) :
    Spends (readOne leaf target (byteOf ';')) fun value =>
      Covers (format.leaf leaf value) (Faithful leaf value) := by
  have delimited {text : Block} {faithful : Prop} {source : BlockDataSource} {spent : Nat}
      (enough : text.length + 1 ≤ spent) (holds : faithful) :
      Covers (text ++ [byteOf ';']) faithful source spent := by
    refine .of_le ?_ fun _ => holds
    rw [length_append]
    exact enough
  cases leaf with
  | scalar type =>
      cases type with
      | bool =>
          apply (boolRead_spends target (byteOf ';')).mono
          rintro value source spent rfl
          cases value with
          | false => exact delimited (Nat.le_refl 2) trivial
          | true => exact delimited (Nat.le_refl 2) trivial
      | int width =>
          have positive : 0 < width.bits := Nat.lt_of_lt_of_le (by decide) (four_le_bits width)
          apply (signedRead_spends positive target (byteOf ';')).mono
          rintro value source spent ⟨enough, other⟩
          exact delimited enough other
      | uint width =>
          apply (unsignedRead_spends (byteOf ';')).mono
          intro value source spent enough
          exact delimited enough trivial
  | floating type => exact floatRead_spends target
  | identifier => exact identifierRead_spends target (byteOf ';')

/-- A string takes its length, its characters and everything around them. -/
theorem stringReadOne_spends (target : Block) (delimiter : UInt8) :
    Spends (stringReadOne target delimiter) fun str _ spent =>
      (stringText str).length + 1 ≤ spent := by
  intro source value after run
  unfold stringReadOne at run
  rcases bind_eq_some.mp run with ⟨errors, opened, openRun, more⟩
  rcases continues_of_clean more with ⟨rfl, more⟩
  rcases require_takes _ _ _ openRun with ⟨_, rfl⟩
  rcases bind_eq_some.mp more with ⟨⟨found, length⟩, sized, sizeRun, rest⟩
  dsimp only at rest
  rcases continues_of_clean rest with ⟨rfl, rest⟩
  rcases sizeRead_spends (byteOf '|') _ _ _ sizeRun with ⟨first, rfl, enough⟩
  rcases bind_eq_some.mp rest with ⟨str, unchanged, strRun, tail⟩
  have strEq : ((source.pop 1).pop first).top length.toNat = str :=
    congrArg Prod.fst (Option.some.inj strRun)
  have sourceEq : (source.pop 1).pop first = unchanged :=
    congrArg Prod.snd (Option.some.inj strRun)
  subst sourceEq
  by_cases missing : (str.length : Int) < length
  · rw [if_pos missing] at tail
    cases tail
  · rw [if_neg missing] at tail
    have sameLength : length.toNat = str.length := by
      have bounded : str.length ≤ length.toNat := by
        rw [← strEq]
        exact length_take_le _ _
      omega
    rcases bind_eq_some.mp tail with ⟨_, behind, popRun, closing⟩
    cases popRun
    rcases bind_eq_some.mp closing with ⟨closed, quoted, closeRun, delimiting⟩
    rcases bind_eq_some.mp delimiting with ⟨delimited, last, delimitRun, finish⟩
    rcases pure_eq_some.mp finish with ⟨same, rfl⟩
    obtain ⟨merged, rfl⟩ := Prod.mk.inj same
    rcases Bitfield.or_eq_empty.mp merged with ⟨rfl, rfl⟩
    rcases require_takes _ _ _ closeRun with ⟨_, rfl⟩
    rcases require_takes _ _ _ delimitRun with ⟨_, rfl⟩
    refine ⟨1 + first + str.length + 1 + 1, ?_, ?_⟩
    · simp only [pop_pop, length_cons, length_nil]
    · rw [sameLength] at enough
      simp only [stringText, length_append, length_cons, length_nil]
      omega

theorem readCount_spends (bracket : Char) :
    Spends (readCount bracket) fun found _ spent =>
      (countText bracket found.toNat).length ≤ spent := by
  intro source value after run
  unfold readCount at run
  rcases bind_eq_some.mp run with ⟨errors, opened, openRun, more⟩
  rcases continues_of_clean more with ⟨rfl, more⟩
  rcases require_takes _ _ _ openRun with ⟨_, rfl⟩
  rcases sizeRead_spends (byteOf '|') _ _ _ more with ⟨spent, rfl, enough⟩
  refine ⟨1 + spent, pop_pop _ _ _, ?_⟩
  simp only [countText, length_append, length_cons, length_nil]
  omega

theorem requireMember_takes (name : Block) :
    Takes (requireMember name) (name ++ [byteOf ':']).length := by
  intro source after run
  unfold requireMember at run
  rcases bind_eq_some.mp run with ⟨errors, named, nameRun, more⟩
  by_cases clean : errors.isEmpty = true
  · rw [if_pos clean] at more
    rw [(Bitfield.isEmpty_iff _).mp clean] at nameRun
    rcases require_takes _ _ _ nameRun with ⟨nameEnough, rfl⟩
    rcases require_takes _ _ _ more with ⟨enough, rfl⟩
    rw [remaining_pop, length_drop] at enough
    rw [length_append]
    refine ⟨?_, pop_pop _ _ _⟩
    rw [length_singleton] at enough ⊢
    omega
  · rw [if_neg clean] at more
    rcases pure_eq_some.mp more with ⟨same, _⟩
    exact absurd ((Bitfield.isEmpty_iff _).mpr same) clean

/-- The deserializer backend consumes the portable format. -/
theorem spentBy : format.SpentBy Faithful deserializer where
  read leaf targets := by
    have spends (target : Leaf.Rep leaf) : Spends (readOne leaf target (byteOf ';')) fun value =>
        Covers (Payload.exact (format.leaf leaf value)).elems (Faithful leaf value) :=
      readOne_spends leaf target
    have loop := doReadFrom_spends spends targets 0
    simp only [Payload.concat_map_exact] at loop
    apply loop.map (f := fun result => result.1)
    intro values source spent bound
    exact bound
  readStrings targets := by
    have spends (target : Block) : Spends (stringReadOne target (byteOf ';')) fun str =>
        Covers (format.string str).elems True := by
      apply (stringReadOne_spends target (byteOf ';')).mono
      intro str source spent enough
      refine .of_le ?_ fun _ => trivial
      change (stringText str ++ [byteOf ';']).length ≤ spent
      rw [length_append]
      exact enough
    have loop := doReadFrom_spends spends targets 0
    apply loop.map (f := fun result => result.1)
    rintro ⟨strs, done⟩ source spent ⟨sameLength, covers⟩
    exact ⟨sameLength, covers.mono fun _ => trivial⟩
  beginStruct := readCount_spends _
  beginMember := requireMember_takes
  finishMember _ := rfl
  finishStruct := require_takes _
  beginList := readCount_spends _
  beginElement _ := rfl
  finishElement _ := rfl
  finishList := require_takes _
  finish := require_takes _
  leaf_pos leaf value := length_pos_of_ne_nil (by simp [format])
  string_pos str := length_pos_of_ne_nil (by simp [format])
  finishList_pos := Nat.one_pos
  finishStruct_pos := Nat.one_pos
  finish_pos := Nat.two_pos
  beginList_one := by decide

end Eagine.Serialization.Portable
