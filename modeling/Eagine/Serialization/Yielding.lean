import Eagine.Serialization.Read

/-!
# What a read operation yields

`Yields operation state last accepted` says which values an operation yields without errors,
and in which state. An error that was reported once stays in the report.
-/

namespace Eagine.Serialization

/-- Without errors the operation yields just what is accepted, and it ends in one state. -/
def Yields {σ α : Type} (operation : ReadM σ (DeserializationErrors × α)) (state last : σ)
    (accepted : α → Prop) : Prop :=
  ∀ value after, operation state = some ((∅, value), after) ↔ accepted value ∧ after = last

/-- There are no errors after an operation only if there were none before it. -/
def KeepsErrors {σ α β : Type}
    (next : DeserializationErrors × α → ReadM σ (DeserializationErrors × β)) : Prop :=
  ∀ errors value state result after,
    next (errors, value) state = some ((∅, result), after) → errors = ∅

variable {σ α β : Type}

variable {state : σ} {errors : DeserializationErrors}

theorem read_bind_eq_some {first : ReadM σ α} {next : α → ReadM σ β} {result : β × σ} :
    (first >>= next) state = some result ↔
      ∃ value mid, first state = some (value, mid) ∧ next value mid = some result := by
  rw [read_bind_apply, Option.bind_eq_some_iff]
  constructor
  · rintro ⟨⟨value, mid⟩, run, rest⟩
    exact ⟨value, mid, run, rest⟩
  · rintro ⟨value, mid, run, rest⟩
    exact ⟨⟨value, mid⟩, run, rest⟩

theorem errors_of_pure {value result : α} {after : σ}
    (run : (pure (errors, value) : ReadM σ (DeserializationErrors × α)) state =
      some ((∅, result), after)) : errors = ∅ :=
  (Prod.mk.inj (Prod.mk.inj (Option.some.inj run)).1).1

/-- Another value is read behind a first one, unless there are errors. -/
theorem keepsErrors_pair {read : DeserializationErrors → ReadM σ (DeserializationErrors × β)}
    {target : β} (stops : ∀ errors, errors ≠ ∅ → read errors = pure (errors, target)) :
    KeepsErrors (fun result : DeserializationErrors × α => (do
      let (errors, values) ← read result.1
      pure (errors, (result.2, values)) : ReadM σ (DeserializationErrors × (α × β)))) := by
  intro errors value state values after run
  by_contra reported
  dsimp only at run
  rw [stops errors reported, pure_bind] at run
  exact reported (errors_of_pure run)

theorem keepsErrors_map (f : α → β) :
    KeepsErrors (fun result : DeserializationErrors × α =>
      (pure (result.1, f result.2) : ReadM σ (DeserializationErrors × β))) := by
  intro errors value state result after run
  exact errors_of_pure run

theorem yields_pure {value : α} :
    Yields (pure (∅, value)) state state (fun other => other = value) := by
  intro other after
  rw [read_pure_apply]
  constructor
  · rintro ⟨⟩
    exact ⟨rfl, rfl⟩
  · rintro ⟨rfl, rfl⟩
    rfl

namespace Yields

variable {operation : ReadM σ (DeserializationErrors × α)} {state mid last : σ}
  {accepted : α → Prop}

theorem congr (yields : Yields operation state last accepted) {accepted' : α → Prop}
    (same : ∀ value, accepted value ↔ accepted' value) :
    Yields operation state last accepted' := by
  intro value after
  rw [yields value after, same]

theorem bind {next : DeserializationErrors × α → ReadM σ (DeserializationErrors × β)}
    {accepted' : α → β → Prop} (first : Yields operation state mid accepted)
    (keeps : KeepsErrors next)
    (second : ∀ value, accepted value → Yields (next (∅, value)) mid last (accepted' value)) :
    Yields (operation >>= next) state last
      (fun result => ∃ value, accepted value ∧ accepted' value result) := by
  intro result after
  rw [read_bind_eq_some]
  constructor
  · rintro ⟨⟨errors, value⟩, reached, run, rest⟩
    have noErrors := keeps errors value reached result after rest
    rw [noErrors] at run rest
    rcases (first value reached).mp run with ⟨taken, rfl⟩
    rcases (second value taken result after).mp rest with ⟨takenNext, same⟩
    exact ⟨⟨value, taken, takenNext⟩, same⟩
  · rintro ⟨⟨value, taken, takenNext⟩, same⟩
    exact ⟨(∅, value), mid, (first value mid).mpr ⟨taken, rfl⟩,
      (second value taken result after).mpr ⟨takenNext, same⟩⟩

/-- Postprocessing of the values. -/
theorem map (yields : Yields operation state last accepted) (f : α → β) :
    Yields (do let result ← operation; pure (result.1, f result.2)) state last
      (fun result => ∃ value, accepted value ∧ result = f value) :=
  yields.bind (keepsErrors_map f) (fun _ _ => yields_pure)

/-- A closing call that has nothing to report. -/
theorem closing (yields : Yields operation state mid accepted)
    {closing : ReadM σ DeserializationErrors} (closed : closing mid = some (∅, last)) :
    Yields (do
      let (errors, value) ← operation
      let finished ← closing
      pure (errors ||| finished, value)) state last accepted := by
  have keeps : KeepsErrors (fun result : DeserializationErrors × α => (do
      let finished ← closing
      pure (result.1 ||| finished, result.2) : ReadM σ (DeserializationErrors × α))) := by
    intro errors value reached result after run
    rcases read_bind_eq_some.mp run with ⟨finished, final, _, rest⟩
    exact (Bitfield.or_eq_empty.mp (errors_of_pure rest)).1
  have second : ∀ value, accepted value →
      Yields (do let finished ← closing; pure ((∅ : DeserializationErrors) ||| finished, value))
        mid last (fun other => other = value) := by
    intro value taken other after
    rw [read_bind_apply, closed, Option.bind_some, Bitfield.or_self]
    exact yields_pure other after
  apply (yields.bind keeps second).congr
  intro value
  constructor
  · rintro ⟨other, taken, rfl⟩
    exact taken
  · intro taken
    exact ⟨value, taken, rfl⟩

end Yields

namespace Deserializer

variable {L : Type} [Leaf L] {backend : DeserializerBackend σ L}

/-- A single object is one of the values of a span. -/
theorem coverOne_yields {readSpan : List α → ReadM σ (DeserializationErrors × List α)} {last : σ}
    {accepted : List α → Prop} {target : α}
    (yields : Yields (readSpan [target]) state last accepted)
    (single : ∀ values, accepted values → values.length = 1) :
    Yields (coverOne readSpan target) state last (fun value => accepted [value]) := by
  apply (yields.map fun values => values.headD target).congr
  intro value
  constructor
  · rintro ⟨values, taken, rfl⟩
    rcases List.length_eq_one_iff.mp (single values taken) with ⟨only, rfl⟩
    exact taken
  · intro taken
    exact ⟨[value], taken, rfl⟩

theorem commonReadFrom_keeps (readElem : α → ReadM σ (DeserializationErrors × α))
    {targets values : List α} {after : σ}
    (run : commonReadFrom readElem errors targets state = some ((∅, values), after)) :
    errors = ∅ := by
  induction targets generalizing errors values state with
  | nil =>
      cases run
      rfl
  | cons target targets ih =>
      rw [commonReadFrom, read_bind_eq_some] at run
      rcases run with ⟨⟨found, value⟩, mid, _, rest⟩
      have merged : errors ||| found = ∅ := by
        dsimp only at rest
        split at rest
        · exact errors_of_pure rest
        · rcases read_bind_eq_some.mp rest with ⟨⟨later, others⟩, last, loop, final⟩
          cases final
          exact ih loop
      exact (Bitfield.or_eq_empty.mp merged).1

theorem commonReadFrom_yields {readElem : α → ReadM σ (DeserializationErrors × α)}
    {accepted : α → Prop} (yields : ∀ target, Yields (readElem target) state state accepted)
    (targets : List α) :
    Yields (commonReadFrom readElem ∅ targets) state state
      (fun values => values.length = targets.length ∧ ∀ value ∈ values, accepted value) := by
  induction targets with
  | nil =>
      apply yields_pure.congr
      intro values
      constructor
      · rintro rfl
        exact ⟨rfl, fun _ mem => absurd mem List.not_mem_nil⟩
      · rintro ⟨noLength, _⟩
        exact List.eq_nil_of_length_eq_zero noLength
  | cons target targets ih =>
      rw [commonReadFrom]
      have keeps : KeepsErrors (fun result : DeserializationErrors × α =>
          (let errors := ∅ ||| result.1
          if errors.has .notEnoughData || errors.has .backendError then
            pure (errors, result.2 :: targets)
          else do
            let others ← commonReadFrom readElem errors targets
            pure (others.1, result.2 :: others.2) : ReadM σ (DeserializationErrors × List α))) := by
        intro errors value mid values after run
        simp only [Bitfield.empty_or] at run
        split at run
        · exact errors_of_pure run
        · rcases read_bind_eq_some.mp run with ⟨⟨later, others⟩, last, loop, final⟩
          cases final
          exact commonReadFrom_keeps readElem loop
      have noStop : ((∅ : DeserializationErrors).has .notEnoughData ||
          (∅ : DeserializationErrors).has .backendError) = false := by decide
      have sequence := (yields target).bind keeps (fun value _ => by
        simp only [Bitfield.or_self, noStop, Bool.false_eq_true, if_false]
        exact ih.map fun others => value :: others)
      apply sequence.congr
      intro values
      constructor
      · rintro ⟨value, taken, others, ⟨sameLength, takenAll⟩, rfl⟩
        constructor
        · rw [List.length_cons, List.length_cons, sameLength]
        · exact List.forall_mem_cons.mpr ⟨taken, takenAll⟩
      · rintro ⟨sameLength, takenAll⟩
        rcases values with _ | ⟨value, others⟩
        · cases sameLength
        rcases List.forall_mem_cons.mp takenAll with ⟨taken, takenOthers⟩
        exact ⟨value, taken, others, ⟨Nat.succ.inj sameLength, takenOthers⟩, rfl⟩

theorem elementRead_errors (reported : errors ≠ ∅) (index : Nat) (target : α)
    (readElem : ReadM σ (DeserializationErrors × α)) :
    elementRead backend index errors target readElem = pure (errors, target) := by
  simp only [elementRead, (Bitfield.isEmpty_eq_false_iff errors).mpr reported,
    Bool.false_eq_true, if_false]

theorem memberRead_errors (reported : errors ≠ ∅) (name : Block) (target : α)
    (readElem : ReadM σ (DeserializationErrors × α)) :
    memberRead backend name errors target readElem = pure (errors, target) := by
  simp only [memberRead, (Bitfield.isEmpty_eq_false_iff errors).mpr reported,
    Bool.false_eq_true, if_false]

/-- After an error the elements behind it are not read. -/
theorem readElements_errors (reported : errors ≠ ∅) (elems : Elems L) (targets : elems.Rep)
    (index : Nat) : readElements backend elems targets index errors = pure (errors, targets) := by
  cases elems with
  | nil => rfl
  | cons head tail =>
      obtain ⟨target, others⟩ := targets
      simp only [readElements, elementRead_errors reported, pure_bind]
      rw [readElements_errors reported tail others (index + 1), pure_bind]

theorem readMembers_errors (reported : errors ≠ ∅) (members : Members L) (targets : members.Rep) :
    readMembers backend members targets errors = pure (errors, targets) := by
  cases members with
  | nil => rfl
  | cons name head tail =>
      obtain ⟨target, others⟩ := targets
      simp only [readMembers, memberRead_errors reported, pure_bind]
      rw [readMembers_errors reported tail others, pure_bind]

end Deserializer

end Eagine.Serialization
