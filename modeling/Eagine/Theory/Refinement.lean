import Mathlib.Data.List.Basic

/-!
# Refinement of runs

A component and its specification take the same operations, and either of them may
refuse one. What relates a single step of the two relates their runs.
-/

namespace Theory

universe u v w

variable {S : Type u} {A : Type v} {Op : Type w}

/-- The state after a sequence of operations, if none of them is refused. -/
def run (step : S → Op → Option S) : S → List Op → Option S
  | s, [] => some s
  | s, op :: ops => (step s op).bind fun next => run step next ops

protected theorem run_append (step : S → Op → Option S) (s : S) (front back : List Op) :
    run step s (front ++ back) = (run step s front).bind fun next => run step next back := by
  induction front generalizing s with
  | nil => rfl
  | cons op ops ih =>
      rw [List.cons_append, run, run, Option.bind_assoc]
      congr 1
      funext next
      exact ih next

theorem run_map {Op' : Type*} (step : S → Op → Option S) (f : Op' → Op) (s : S) (ops : List Op') :
    run step s (ops.map f) = run (fun s op => step s (f op)) s ops := by
  induction ops generalizing s with
  | nil => rfl
  | cons op ops ih =>
      rw [List.map_cons, run, run]
      congr 1
      funext next
      exact ih next

/-- What the operations of a run keep holds after it. -/
theorem run_invariant {step : S → Op → Option S} {invariant : S → Prop} {ops : List Op}
    (keeps : ∀ s s' op, op ∈ ops → invariant s → step s op = some s' → invariant s') {s s' : S}
    (start : invariant s) (ran : run step s ops = some s') : invariant s' := by
  induction ops generalizing s with
  | nil =>
      obtain rfl := Option.some.inj ran
      exact start
  | cons op ops ih =>
      obtain ⟨next, taken, rest⟩ := Option.bind_eq_some_iff.mp ran
      have first : invariant next := keeps s next op List.mem_cons_self start taken
      exact ih (fun s s' op member => keeps s s' op (List.mem_cons_of_mem _ member)) first rest

/-- Every operation of a run meets the condition in the state that it is taken in. -/
def Throughout (step : S → Op → Option S) (condition : S → Op → Prop) : S → List Op → Prop
  | _, [] => True
  | s, op :: ops =>
      condition s op ∧ ∀ next, step s op = some next → Throughout step condition next ops

variable {step : S → Op → Option S} {ops : List Op} {related : S → A → Prop}
  {spec : A → Op → Option A}

variable {condition : S → Op → Prop}

theorem throughout_cons_iff {s next : S} {op : Op} (taken : step s op = some next) (ops : List Op) :
    Throughout step condition s (op :: ops) ↔
      condition s op ∧ Throughout step condition next ops := by
  rw [Throughout, taken]
  exact and_congr_right fun _ =>
    ⟨fun rest => rest next rfl, fun rest other same => Option.some.inj same ▸ rest⟩

instance decidableThroughout (step : S → Op → Option S) (condition : S → Op → Prop)
    [∀ s op, Decidable (condition s op)] :
    ∀ (s : S) (ops : List Op), Decidable (Throughout step condition s ops)
  | _, [] => isTrue trivial
  | s, op :: ops =>
      match taken : step s op with
      | none =>
          decidable_of_iff (condition s op)
            ⟨fun first => ⟨first, fun _ present => nomatch taken.symm.trans present⟩, And.left⟩
      | some next =>
          have := decidableThroughout step condition next ops
          decidable_of_iff _ (throughout_cons_iff taken ops).symm

theorem throughout_of_forall (holds : ∀ op ∈ ops, ∀ s, condition s op)
    (s : S) : Throughout step condition s ops := by
  induction ops generalizing s with
  | nil => trivial
  | cons op ops ih =>
      rcases List.forall_mem_cons.mp holds with ⟨first, others⟩
      exact ⟨first s, fun next _ => ih others next⟩

/-- What every iteration of a loop over some indices keeps holds after it. -/
theorem foldl_finRange_invariant {size : Nat} {body : S → Fin size → S}
    {invariant : Nat → S → Prop}
    (keeps : ∀ (i : Fin size) s, invariant i s → invariant (i + 1) (body s i)) {s : S}
    (start : invariant 0 s) : invariant size ((List.finRange size).foldl body s) := by
  induction size generalizing invariant s with
  | zero => exact start
  | succ size ih =>
      rw [List.finRange_succ, List.foldl_cons, List.foldl_map]
      have first : invariant (0 + 1) (body s 0) := keeps 0 s start
      exact @ih (fun s i => body s i.succ) (fun done => invariant (done + 1))
        (fun i => keeps i.succ) (body s 0) first

/-- The same where the operations may depend on the states that they are taken in. -/
theorem run_invariant_of_reached {invariant : S → Prop} {s final : S} (start : invariant s)
    (keeps : ∀ done op rest s' s'', ops = done ++ op :: rest → run step s done = some s' →
      invariant s' → step s' op = some s'' → invariant s'') (ran : run step s ops = some final) :
    invariant final := by
  induction ops generalizing s with
  | nil =>
      obtain rfl := Option.some.inj ran
      exact start
  | cons op ops ih =>
      rcases Option.bind_eq_some_iff.mp ran with ⟨next, taken, rest⟩
      have first : invariant next := keeps [] op ops s next rfl rfl start taken
      refine ih first (fun done op' rest s' s'' whole reached => ?_) rest
      refine keeps (op :: done) op' rest s' s'' (congrArg (op :: ·) whole) ?_
      rw [run, taken, Option.bind_some, reached]

/-- What the specification allows can be taken, and the states stay related. -/
theorem exists_run (simulates : ∀ s a op a', op ∈ ops → related s a → spec a op = some a' →
      ∃ s', step s op = some s' ∧ related s' a') {s : S} {a a' : A} (start : related s a)
    (specified : run spec a ops = some a') : ∃ s', run step s ops = some s' ∧ related s' a' := by
  induction ops generalizing s a with
  | nil =>
      obtain rfl := Option.some.inj specified
      exact ⟨s, rfl, start⟩
  | cons op ops ih =>
      obtain ⟨next, taken, rest⟩ := Option.bind_eq_some_iff.mp specified
      obtain ⟨s', step_taken, related'⟩ := simulates s a op next List.mem_cons_self start taken
      obtain ⟨final, ran, related_final⟩ :=
        ih (fun s a op a' member => simulates s a op a' (List.mem_cons_of_mem _ member))
          related' rest
      exact ⟨final, by rw [Theory.run, step_taken, Option.bind_some, ran], related_final⟩

/-- Every operation that meets a condition and that the specification allows can be
taken, and keeps the two states related. -/
def Refines (step : S → Op → Option S) (spec : A → Op → Option A) (condition : S → Op → Prop)
    (related : S → A → Prop) : Prop :=
  ∀ ⦃s a op a'⦄, related s a → condition s op → spec a op = some a' →
    ∃ s', step s op = some s' ∧ related s' a'

theorem Refines.run (refines : Refines step spec condition related)
    {s : S} {a a' : A} (start : related s a) (met : Throughout step condition s ops)
    (specified : run spec a ops = some a') : ∃ s', run step s ops = some s' ∧ related s' a' := by
  induction ops generalizing s a with
  | nil =>
      obtain rfl := Option.some.inj specified
      exact ⟨s, rfl, start⟩
  | cons op ops ih =>
      obtain ⟨next, allowed, rest⟩ := Option.bind_eq_some_iff.mp specified
      obtain ⟨s', taken, related'⟩ := refines start met.1 allowed
      obtain ⟨final, ran, related_final⟩ := ih related' (met.2 s' taken) rest
      exact ⟨final, by rw [Theory.run, taken, Option.bind_some, ran], related_final⟩

/-- What relates a step to one of the specification, whether they are refused or
not, relates their runs. -/
theorem run_rel
    (agree : ∀ s a op, op ∈ ops → related s a → Option.Rel related (step s op) (spec a op)) {s : S}
    {a : A} (start : related s a) : Option.Rel related (run step s ops) (run spec a ops) := by
  induction ops generalizing s a with
  | nil => exact Option.Rel.some start
  | cons op ops ih =>
      have first := agree s a op List.mem_cons_self start
      have rest {next : S} {next' : A} := @ih (fun s a op member =>
        agree s a op (List.mem_cons_of_mem _ member)) next next'
      rw [run, run]
      generalize step s op = taken, spec a op = specified at first ⊢
      cases first with
      | none => exact Option.Rel.none
      | some related' => exact rest related'

/-- The component answers an operation as the specification does on what it
stands for. -/
def Commutes (step : S → Op → Option S) (spec : A → Op → Option A) (meaning : S → A) (s : S)
    (op : Op) : Prop :=
  (step s op).map meaning = spec (meaning s) op

/-- A component agrees with its specification after every part of a run exactly if
it answers every operation of the run as the specification does. -/
theorem run_agrees_iff (step : S → Op → Option S) (spec : A → Op → Option A) (meaning : S → A)
    (s : S) (ops : List Op) :
    (∀ done rest, ops = done ++ rest →
        (run step s done).map meaning = run spec (meaning s) done) ↔
      ∀ done op rest s', ops = done ++ op :: rest → run step s done = some s' →
        Commutes step spec meaning s' op := by
  induction ops generalizing s with
  | nil =>
      constructor
      · intro _ done op rest s' whole
        exact absurd whole.symm (List.append_ne_nil_of_right_ne_nil _ (List.cons_ne_nil op rest))
      · intro _ done rest whole
        obtain ⟨rfl, -⟩ := List.append_eq_nil_iff.mp whole.symm
        rfl
  | cons op ops ih =>
      constructor
      · intro agrees done last rest s' whole reached
        have first : Commutes step spec meaning s op := by
          have one := agrees [op] ops rfl
          simp only [run, Option.bind_fun_some] at one
          exact one
        cases done with
        | nil =>
            obtain ⟨rfl, rfl⟩ := List.cons.inj whole
            obtain rfl := Option.some.inj reached
            exact first
        | cons head done =>
            obtain ⟨rfl, tail⟩ := List.cons.inj whole
            obtain ⟨next, taken, ran⟩ := Option.bind_eq_some_iff.mp reached
            rw [Commutes, taken, Option.map_some] at first
            refine (ih next).mp (fun done rest whole => ?_) done last rest s' tail ran
            have longer := agrees (op :: done) rest (congrArg (op :: ·) whole)
            rwa [run, run, taken, ← first, Option.bind_some, Option.bind_some] at longer
      · intro commutes done rest whole
        cases done with
        | nil => rfl
        | cons head done =>
            obtain ⟨rfl, tail⟩ := List.cons.inj whole
            have first := commutes [] op ops s rfl rfl
            rw [run, run, ← first]
            cases taken : step s op with
            | none => rfl
            | some next =>
                refine (ih next).mpr (fun done last rest s' whole reached => ?_) done rest tail
                refine commutes (op :: done) last rest s' (congrArg (op :: ·) whole) ?_
                rw [run, taken, Option.bind_some, reached]

/-- Two outputs of which none is longer than it is to be are right together exactly if each of them
is. -/
theorem append_eq_append_iff_of_le {first second firstWhole secondWhole : List A}
    (firstLe : first.length ≤ firstWhole.length) (secondLe : second.length ≤ secondWhole.length) :
    first ++ second = firstWhole ++ secondWhole ↔ first = firstWhole ∧ second = secondWhole := by
  constructor
  · intro same
    have lengths := congrArg List.length same
    rw [List.length_append, List.length_append] at lengths
    exact List.append_inj same (by omega)
  · rintro ⟨rfl, rfl⟩
    rfl

end Theory
