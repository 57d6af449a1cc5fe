import Mathlib.Logic.Basic

/-!
# Recursive programs

A recursive program asks for other results of the recursion on its way to its own one, and it has
effects, which do not matter to the plain recursion. An implementation of the recursion answers from
a state with a bounded depth, and it is right if it is right for a query whenever it is right for the
program of this query.
-/

namespace Theory

universe u v w x

/-- A program of a recursion -/
inductive Program (Query : Type u) (Effect : Type v) (Result : Type w)
  | ret (result : Result)
  | ask (query : Query) (next : Result → Program Query Effect Result)
  | act (effect : Effect) (next : Program Query Effect Result)

namespace Program

variable {Query : Type u} {Effect : Type v} {Result : Type w}

/-- The plain recursion ends with a result. -/
inductive Ends (body : Query → Program Query Effect Result) :
    Program Query Effect Result → Result → Prop
  | ret (result : Result) : Ends body (.ret result) result
  | ask {query : Query} {next : Result → Program Query Effect Result} {answer result : Result}
      (asked : Ends body (body query) answer) (rest : Ends body (next answer) result) :
      Ends body (.ask query next) result
  | act {effect : Effect} {next : Program Query Effect Result} {result : Result}
      (rest : Ends body next result) : Ends body (.act effect next) result

variable {body : Query → Program Query Effect Result} {program : Program Query Effect Result}

theorem Ends.unique {first second : Result}
    (one : Ends body program first) (other : Ends body program second) : first = second := by
  induction one generalizing second with
  | ret result => cases other; rfl
  | ask asked rest askedIh restIh =>
      cases other with
      | ask asked' rest' =>
          cases askedIh asked'
          exact restIh rest'
  | act rest ih =>
      cases other with
      | act rest' => exact ih rest'

variable {State : Type x}

/-- The result of a program when the queries are answered from a state -/
def run (answer : Query → State → Option (Result × State)) (act : Effect → State → State) :
    Program Query Effect Result → State → Option (Result × State)
  | .ret result, s => some (result, s)
  | .ask query next, s =>
      (answer query s).bind fun answered => run answer act (next answered.1) answered.2
  | .act effect next, s => run answer act next (act effect s)

/-- From some depth on there is the result in each good state, and the state that is left is good. -/
def Eventually (Good : State → Prop) (evaluate : Nat → State → Option (Result × State))
    (result : Result) : Prop :=
  ∃ least, ∀ depth, least ≤ depth → ∀ s, Good s →
    ∃ s', evaluate depth s = some (result, s') ∧ Good s'

variable {Good : State → Prop}

/-- What the evaluation does with the result of another one, a level up -/
theorem Eventually.lift {evaluate lifted : Nat → State → Option (Result × State)} {result : Result}
    (eventually : Eventually Good evaluate result)
    (step : ∀ depth s, Good s →
      (∃ s', evaluate depth s = some (result, s') ∧ Good s') →
        ∃ s', lifted (depth + 1) s = some (result, s') ∧ Good s') :
    Eventually Good lifted result := by
  rcases eventually with ⟨least, right⟩
  refine ⟨least + 1, fun depth enough s good => ?_⟩
  cases depth with
  | zero => cases enough
  | succ depth => exact step depth s good (right depth (Nat.le_of_succ_le_succ enough) s good)

/-- The result is that of the plain recursion, if answers are right when the programs of their
queries are. -/
theorem Ends.eventually_run
    {answer : Nat → Query → State → Option (Result × State)} {act : Effect → State → State}
    (acts : ∀ effect s, Good s → Good (act effect s))
    (answers : ∀ query result, Ends body (body query) result →
      Eventually Good (fun depth => run (answer depth) act (body query)) result →
        Eventually Good (fun depth => answer depth query) result)
    {result : Result} (ends : Ends body program result) :
    Eventually Good (fun depth => run (answer depth) act program) result := by
  induction ends with
  | ret result => exact ⟨0, fun _ _ s good => ⟨s, rfl, good⟩⟩
  | ask asked rest askedIh restIh =>
      rcases answers _ _ asked askedIh with ⟨leastAsked, rightAsked⟩
      rcases restIh with ⟨leastRest, rightRest⟩
      refine ⟨max leastAsked leastRest, fun depth enough s good => ?_⟩
      have enoughAsked : leastAsked ≤ depth := Nat.le_trans (Nat.le_max_left _ _) enough
      have enoughRest : leastRest ≤ depth := Nat.le_trans (Nat.le_max_right _ _) enough
      rcases rightAsked depth enoughAsked s good with ⟨middle, first, goodMiddle⟩
      rcases rightRest depth enoughRest middle goodMiddle with ⟨s', last, good'⟩
      refine ⟨s', ?_, good'⟩
      dsimp only at first ⊢
      rw [run, first, Option.bind_some]
      exact last
  | act rest ih =>
      rcases ih with ⟨least, right⟩
      exact ⟨least, fun depth enough s good => right depth enough _ (acts _ s good)⟩

end Program

end Theory
