import Eagine.Identifier.IdentifierLaws
import Eagine.Serialization.PortableRoundTrip

/-!
# Identifiers in the portable format

Identifiers are written by their unpacked names, without quotes, and the reader packs the name up
to the delimiter again. It takes an empty name for missing data.
-/

namespace Eagine.Serialization.Portable

open Theory IdentifierEncoding BasicIdentifier

/-- `_write_one` of an identifier. -/
def packedWriteOne (id : Eagine.Identifier) : SinkM SerializationErrors :=
  BlockDataSink.write id.name.str

/-- `_read_one` of an identifier. -/
def packedReadOne (target : Eagine.Identifier) (delimiter : UInt8) :
    SourceM (DeserializationErrors × Eagine.Identifier) := do
  let source ← get
  let src := source.stringBefore delimiter 32
  if src.isEmpty then
    pure (.ofBit .notEnoughData, target)
  else
    popTop (src.length + 1)
    pure (∅, .ofChars src)

variable {id : Eagine.Identifier}

theorem write_packed {sink : BlockDataSink}
    (room : (id.name.str ++ [byteOf ';']).length ≤ sink.remainingSize) :
    doWrite packedWriteOne [id] sink = ((∅, 1), sink.store (id.name.str ++ [byteOf ';'])) := by
  have writeOneEq : ∀ value : Eagine.Identifier,
      packedWriteOne value = BlockDataSink.write value.name.str := fun _ => rfl
  have applied := doWriteFrom_apply writeOneEq [id] 0 sink
  rw [List.map_singleton] at applied
  simp only [List.flatten_singleton, if_neg (Nat.not_lt.mpr room), fitting, if_pos room] at applied
  exact applied

/-- A name that is not empty is read up to the delimiter. -/
theorem read_packed {name rest : Block} {source : BlockDataSource}
    (starts : source.remaining = name ++ byteOf ';' :: rest) (absent : byteOf ';' ∉ name)
    (short : name.length < scanStep) (target : Eagine.Identifier) :
    doRead packedReadOne [target] source =
      some (if name = [] then (.ofBit .notEnoughData, [target], 0) else (∅, [.ofChars name], 1),
        if name = [] then source else source.pop (name.length + 1)) := by
  have before := stringBefore_of_append starts absent short 32
  have run : packedReadOne target (byteOf ';') source =
      if name = [] then some ((.ofBit .notEnoughData, target), source)
      else some ((∅, .ofChars name), source.pop (name.length + 1)) := by
    change (if (source.stringBefore (byteOf ';') 32).isEmpty then _ else _ : SourceM _) source = _
    rw [before]
    by_cases empty : name = []
    · rw [if_pos empty, if_pos (List.isEmpty_iff.mpr empty)]
      rfl
    · rw [if_neg empty, if_neg (fun isEmpty => empty (List.isEmpty_iff.mp isEmpty))]
      rfl
  rw [doRead, doReadFrom, read_bind_apply, run]
  by_cases empty : name = []
  · simp only [if_pos empty]
    rfl
  · simp only [if_neg empty]
    rfl

/-- The identifiers that the format is to keep. -/
inductive Constructed : Eagine.Identifier → Prop where
  | default : Constructed ⟨.init⟩
  | ofChars (str : Block) (encodable : canBeEncoded 10 defaultIdentifierCharSet str = true) :
      Constructed (.ofChars str)

/-- An identifier survives a sink with room for it: it is written without an error, and read
from the front of what remains without an error. -/
def IdentifierSurvives (id : Eagine.Identifier) : Prop :=
  ∀ (room : Nat) (target : Eagine.Identifier) (rest : Block),
    (id.name.str ++ [byteOf ';']).length ≤ room →
    ∃ sink, doWrite packedWriteOne [id] (.ofSize room) = ((∅, 1), sink) ∧
      ∃ source, doRead packedReadOne [target] (.ofBlock (sink.written ++ rest)) =
          some ((∅, [id], 1), source) ∧
        source.remaining = rest

/-- The characters of a name have codes, which the delimiter has not. -/
theorem Constructed.notMem_name (constructed : Constructed id) :
    byteOf ';' ∉ id.name.str := by
  cases constructed with
  | default => decide
  | ofChars str encodable =>
      rw [Identifier.str_name_eq_identifierNameOf]
      intro member
      exact absurd (isIdentifierChar_of_mem member) (by decide)

theorem length_name_lt (id : Eagine.Identifier) : id.name.str.length < scanStep := by
  rw [IdentifierName.str, List.length_take]
  refine Nat.lt_of_le_of_lt (Nat.min_le_right _ _) ?_
  rw [id.name.length_data]
  decide

/-- The identifier of this string is the default one. -/
theorem ofChars_zeroEncodedName : (.ofChars zeroEncodedName : Eagine.Identifier) = ⟨.init⟩ := by
  decide

theorem name_init : (⟨.init⟩ : Eagine.Identifier).name.str = [] := by
  decide

/-- The name is the whole string, unless that is encoded as zero. -/
theorem name_ofChars {str : Block}
    (encodable : canBeEncoded 10 defaultIdentifierCharSet str = true) :
    (.ofChars str : Eagine.Identifier).name.str = if str = zeroEncodedName then [] else str := by
  have nonzero : UInt8.ofNat '_'.toNat ≠ 0 := by decide
  obtain ⟨upTo, whole⟩ := encodablePrefix_eq (by decide) encodable
  rw [str_name_ofChars (by decide) (by decide) Identifier.values_eq nonzero,
    List.take_of_length_le upTo, whole]
  rfl

theorem Constructed.name_eq_nil_or (constructed : Constructed id) :
    id.name.str = [] ∧ (id = ⟨.init⟩ ∨ id = .ofChars []) ∨
      id.name.str ≠ [] ∧ .ofChars id.name.str = id := by
  cases constructed with
  | default => exact .inl ⟨name_init, .inl rfl⟩
  | ofChars str encodable =>
      have nameEq := name_ofChars encodable
      by_cases zero : str = zeroEncodedName
      · rw [if_pos zero] at nameEq
        exact .inl ⟨nameEq, .inl (zero ▸ ofChars_zeroEncodedName)⟩
      · rw [if_neg zero] at nameEq
        by_cases empty : str = []
        · exact .inl ⟨nameEq.trans empty, .inr (empty ▸ rfl)⟩
        · refine .inr ⟨fun unnamed => empty (nameEq.symm.trans unnamed), ?_⟩
          rw [nameEq]

/-- The name of an identifier is empty if it is the default one, or that of the empty string. -/
theorem Constructed.name_eq_nil_iff (constructed : Constructed id) :
    id.name.str = [] ↔ id = ⟨.init⟩ ∨ id = .ofChars [] := by
  constructor
  · intro unnamed
    rcases constructed.name_eq_nil_or with ⟨_, known⟩ | ⟨named, _⟩
    · exact known
    · exact absurd unnamed named
  · rintro (rfl | rfl)
    · exact name_init
    · decide

theorem Constructed.ofChars_name (constructed : Constructed id)
    (named : id.name.str ≠ []) : .ofChars id.name.str = id := by
  rcases constructed.name_eq_nil_or with ⟨unnamed, _⟩ | ⟨_, packed⟩
  · exact absurd unnamed named
  · exact packed

/-- An identifier survives exactly if its name is not empty. -/
theorem identifierSurvives_iff {id : Eagine.Identifier} (constructed : Constructed id) :
    IdentifierSurvives id ↔ id ≠ ⟨.init⟩ ∧ id ≠ .ofChars [] := by
  let text := id.name.str ++ [byteOf ';']
  have written {room : Nat} (enough : text.length ≤ room) :
      doWrite packedWriteOne [id] (.ofSize room) =
        ((∅, 1), (BlockDataSink.ofSize room).store text) := by
    apply write_packed
    rwa [BlockDataSink.remainingSize_ofSize]
  have stored {room : Nat} (enough : text.length ≤ room) :
      ((BlockDataSink.ofSize room).store text).written = text :=
    BlockDataSink.written_store_ofSize enough
  have starts (rest : Block) : (BlockDataSource.ofBlock (text ++ rest)).remaining =
      id.name.str ++ byteOf ';' :: rest := List.append_assoc _ _ _
  rw [← not_or, ← not_congr constructed.name_eq_nil_iff]
  constructor
  · intro survives unnamed
    rcases survives text.length id [] (Nat.le_refl _) with ⟨sink, write, source, read, _⟩
    rw [written (Nat.le_refl _)] at write
    cases write
    rw [stored (Nat.le_refl _), read_packed (starts []) constructed.notMem_name (length_name_lt id),
      if_pos unnamed] at read
    have report : (.ofBit .notEnoughData : DeserializationErrors) = ∅ :=
      congrArg (fun result => result.1.1) (Option.some.inj read)
    exact absurd report (by decide)
  · intro named room target rest enough
    have read := read_packed (starts rest) constructed.notMem_name (length_name_lt id) target
    rw [if_neg named, if_neg named, constructed.ofChars_name named] at read
    refine ⟨_, written enough, _, (stored enough).symm ▸ read, ?_⟩
    rw [stored enough]
    exact BlockDataSource.remaining_pop_of_delimited (starts rest)

/-- The identifier of a string survives. -/
theorem identifierSurvives_tea :
    IdentifierSurvives (.ofChars [116, 101, 97]) ↔
      (.ofChars [116, 101, 97] : Eagine.Identifier) ≠ ⟨.init⟩ ∧
        (.ofChars [116, 101, 97] : Eagine.Identifier) ≠ .ofChars [] :=
  identifierSurvives_iff (.ofChars [116, 101, 97] (by decide))

/-- The default constructed identifier. -/
theorem not_forall_identifierSurvives :
    ¬∀ id : Eagine.Identifier, Constructed id → IdentifierSurvives id := by
  intro survives
  rcases survives ⟨.init⟩ .default 1 ⟨.init⟩ [] (by decide) with ⟨sink, write, source, read, _⟩
  have stored : (doWrite packedWriteOne [⟨.init⟩] (.ofSize 1)).2.written = [byteOf ';'] := by decide
  rw [write] at stored
  have refused : (doRead packedReadOne [⟨.init⟩] (.ofBlock ([byteOf ';'] ++ []))).map (·.1.1) =
      some (.ofBit .notEnoughData) := by
    decide
  rw [← stored, read] at refused
  have report : (∅ : DeserializationErrors) = .ofBit .notEnoughData := Option.some.inj refused
  exact absurd report (by decide)

end Eagine.Serialization.Portable
