import Eagine.Container.FlatMapRefinement
import Eagine.Theory.RecursiveProgram

/-!
# Memoized recursion

A memoized function has a table of the results so far. It is searched before a result is computed,
and by the time that the result is inserted the computation has changed it. All its elements are
results of the plain recursion throughout, thus so are all the answers.
-/

namespace Eagine.Utility

open Container Theory

universe u v

/-- A call of the memoized function, with a key only or also with the function that computes the
result for the key. -/
inductive Query (P : Type u)
  | call (p : P)
  | compute (p : P)

inductive TableUpdate (P : Type u)
  | reset (p : P)
  | clear

/-- The function that is given to `memoized`, and the one that it gives along with keys -/
structure Recursion (P : Type u) (R : Type v) where
  func : P → Program (Query P) (TableUpdate P) R
  f : P → Program (Query P) (TableUpdate P) R

namespace Recursion

variable {P : Type u} {R : Type v}

/-- The program of a query in the plain recursion -/
def body (recursion : Recursion P R) : Query P → Program (Query P) (TableUpdate P) R
  | .call p => recursion.func p
  | .compute p => recursion.f p

/-- The plain recursion ends with this result. -/
def IsResult (recursion : Recursion P R) (query : Query P) (result : R) : Prop :=
  Program.Ends recursion.body (recursion.body query) result

end Recursion

/-- A query with its result, and the table at the time -/
structure Answer (P : Type u) (R : Type v) where
  query : Query P
  result : R
  memo : FlatMap P R

/-- `memoized`, with the answers so far -/
structure Memoized (P : Type u) (R : Type v) [LinearOrder P] where
  memo : FlatMap P R := FlatMap.init
  answers : List (Answer P R) := []

namespace Memoized

variable {P : Type u} {R : Type v} [LinearOrder P]

def reset (s : Memoized P R) (p : P) : Memoized P R :=
  { s with memo := (s.memo.erase p).1 }

def clear (s : Memoized P R) : Memoized P R :=
  { s with memo := FlatMap.init }

def update : TableUpdate P → Memoized P R → Memoized P R
  | .reset p, s => s.reset p
  | .clear, s => s.clear

/-- The call with a key and a function, which is the rest of the recursion -/
def callWith (f : Memoized P R → Option (R × Memoized P R)) (p : P) (s : Memoized P R) :
    Option (R × Memoized P R) :=
  let found := s.memo.find p
  if found = s.memo.size then
    (f s).bind fun computed =>
      let inserted := computed.2.memo.insert (p, computed.1)
      inserted.1.storage[inserted.2.1]?.map fun element =>
        (element.2, { computed.2 with memo := inserted.1 })
  else s.memo.storage[found]?.map fun element => (element.2, s)

def record (query : Query P) (answered : R × Memoized P R) : R × Memoized P R :=
  (answered.1,
    { answered.2 with
      answers := answered.2.answers ++ [⟨query, answered.1, answered.2.memo⟩] })

/-- The calls, up to a depth of the recursion -/
def answer (recursion : Recursion P R) : Nat → Query P → Memoized P R → Option (R × Memoized P R)
  | 0, _, _ => none
  | depth + 1, .call p, s =>
      ((recursion.func p).run (answer recursion depth) update s).map (record (.call p))
  | depth + 1, .compute p, s =>
      (callWith ((recursion.f p).run (answer recursion depth) update) p s).map (record (.compute p))

inductive Operation (P : Type u)
  | ask (query : Query P)
  | update (update : TableUpdate P)

def Operation.query? : Operation P → Option (Query P)
  | .ask query => some query
  | .update _ => none

/-- The results of the calls among some operations -/
def perform (recursion : Recursion P R) (depth : Nat) :
    List (Operation P) → Memoized P R → Option (List R × Memoized P R)
  | [], s => some ([], s)
  | .ask query :: ops, s =>
      (answer recursion depth query s).bind fun answered =>
        (perform recursion depth ops answered.2).map fun rest => (answered.1 :: rest.1, rest.2)
  | .update update :: ops, s => perform recursion depth ops (Memoized.update update s)

/-- The elements are results, with a single one for a key. -/
structure IsTable (recursion : Recursion P R) (memo : FlatMap P R) : Prop where
  sorted : FlatMap.IsSorted memo.storage
  isResult : ∀ p result, (p, result) ∈ memo.storage → recursion.IsResult (.compute p) result

/-- The table and what was answered is right. -/
structure IsRight (recursion : Recursion P R) (s : Memoized P R) : Prop where
  isTable : IsTable recursion s.memo
  answered : ∀ answer ∈ s.answers,
    recursion.IsResult answer.query answer.result ∧ IsTable recursion answer.memo

variable {recursion : Recursion P R}

theorem isTable_init : IsTable recursion FlatMap.init where
  sorted := List.Pairwise.nil
  isResult _ _ inside := absurd inside List.not_mem_nil

variable {memo : FlatMap P R}

theorem IsTable.of_represents {map : Finmap fun _ : P => R}
    (represents : FlatMap.Represents memo map)
    (isResult : ∀ p result, map.lookup p = some result → recursion.IsResult (.compute p) result) :
    IsTable recursion memo where
  sorted := represents.sorted
  isResult p result inside := isResult p result ((represents.mem_iff p result).mp inside)

theorem IsTable.erase (table : IsTable recursion memo) (p : P) :
    IsTable recursion (memo.erase p).1 := by
  rcases table.sorted.exists_represents with ⟨map, represents⟩
  refine .of_represents (represents.erase_eq p).1 fun key result found => ?_
  have other : key ≠ p := by
    rintro rfl
    rw [Finmap.lookup_erase] at found
    cases found
  rw [Finmap.lookup_erase_ne other] at found
  exact table.isResult key result ((represents.mem_iff key result).mpr found)

/-- A key is not in the table, or its result is found. -/
theorem IsTable.find (table : IsTable recursion memo) (p : P) :
    memo.find p = memo.size ∨ memo.find p ≠ memo.size ∧
      ∃ result, memo.storage[memo.find p]? = some (p, result) ∧
        recursion.IsResult (.compute p) result := by
  rcases table.sorted.exists_represents with ⟨map, represents⟩
  rcases represents.find_eq p with ⟨place, element⟩
  cases found : map.lookup p with
  | none =>
      rw [if_neg (Finmap.lookup_eq_none.mp found)] at place
      exact Or.inl place
  | some result =>
      rw [found, Option.map_some] at element
      have inside : memo.find p < memo.size := (List.getElem?_eq_some_iff.mp element).1
      exact Or.inr ⟨inside.ne, result, element,
        table.isResult p result ((represents.mem_iff p result).mpr found)⟩

variable {result : R}

/-- A result is inserted, also if the table has it by then. -/
theorem IsTable.insert (table : IsTable recursion memo) {p : P}
    (isResult : recursion.IsResult (.compute p) result) :
    IsTable recursion (memo.insert (p, result)).1 ∧
      (memo.insert (p, result)).1.storage[(memo.insert (p, result)).2.1]? = some (p, result) := by
  rcases table.sorted.exists_represents with ⟨map, represents⟩
  rcases represents.sorted.exists_place p with ⟨front, place⟩
  rcases represents.emplace_eq place result with ⟨represents', position, element⟩
  have known (old : R) (found : map.lookup p = some old) : old = result :=
    (table.isResult p old ((represents.mem_iff p old).mpr found)).unique isResult
  constructor
  · refine .of_represents represents' fun key value found => ?_
    have isOld (held : map.lookup key = some value) : recursion.IsResult (.compute key) value :=
      table.isResult key value ((represents.mem_iff key value).mpr held)
    rw [FiniteMap.insertNew] at found
    by_cases member : p ∈ map
    · rw [if_pos member] at found
      exact isOld found
    · rw [if_neg member] at found
      rcases eq_or_ne key p with rfl | other
      · rw [Finmap.lookup_insert] at found
        cases found
        exact isResult
      · rw [Finmap.lookup_insert_of_ne map other] at found
        exact isOld found
  · have here : (memo.insert (p, result)).2.1 = front.length := congrArg Prod.fst position
    rw [here]
    refine element.trans ?_
    cases found : map.lookup p with
    | none => rfl
    | some old => rw [known old found]; rfl

theorem isRight_init : IsRight recursion ({} : Memoized P R) where
  isTable := isTable_init
  answered _ inside := absurd inside List.not_mem_nil

variable {s : Memoized P R}

theorem IsRight.update (right : IsRight recursion s) (update : TableUpdate P) :
    IsRight recursion (Memoized.update update s) := by
  cases update with
  | reset p => exact ⟨right.isTable.erase p, right.answered⟩
  | clear => exact ⟨isTable_init, right.answered⟩

theorem IsRight.record (right : IsRight recursion s) {query : Query P}
    (isResult : recursion.IsResult query result) :
    IsRight recursion (Memoized.record query (result, s)).2 where
  isTable := right.isTable
  answered := by
    rw [Memoized.record, List.forall_mem_append, List.forall_mem_singleton]
    exact ⟨right.answered, isResult, right.isTable⟩

/-- A call finds the result of the function, which can change the table before it ends. -/
theorem exists_callWith_eq {f : Memoized P R → Option (R × Memoized P R)} {p : P}
    (isResult : recursion.IsResult (.compute p) result) (right : IsRight recursion s)
    (computes : ∃ s', f s = some (result, s') ∧ IsRight recursion s') :
    ∃ s', callWith f p s = some (result, s') ∧ IsRight recursion s' := by
  rw [callWith]
  rcases right.isTable.find p with missing | ⟨present, stored, element, isStored⟩
  · rcases computes with ⟨middle, computed, rightMiddle⟩
    rcases rightMiddle.isTable.insert isResult with ⟨table, element⟩
    refine ⟨{ middle with memo := (middle.memo.insert (p, result)).1 }, ?_, table,
      rightMiddle.answered⟩
    rw [if_pos missing, computed, Option.bind_some]
    exact congrArg (Option.map _) element
  · refine ⟨s, ?_, right⟩
    rw [if_neg present, element, Option.map_some, isStored.unique isResult]

/-- Each query is answered with its result. -/
theorem eventually_answer (query : Query P) (result : R) (isResult : recursion.IsResult query result)
    (computes : Program.Eventually (IsRight recursion)
      (fun depth => (recursion.body query).run (answer recursion depth) update) result) :
    Program.Eventually (IsRight recursion) (fun depth => answer recursion depth query) result := by
  refine computes.lift fun depth s right computed => ?_
  cases query with
  | call p =>
      rcases computed with ⟨s', ran, right'⟩
      refine ⟨_, ?_, right'.record isResult⟩
      rw [answer]
      exact congrArg (Option.map _) ran
  | compute p =>
      rcases exists_callWith_eq isResult right computed with ⟨s', called, right'⟩
      refine ⟨_, ?_, right'.record isResult⟩
      rw [answer]
      exact congrArg (Option.map _) called

theorem eventually_answer_of_isResult {query : Query P}
    (isResult : recursion.IsResult query result) :
    Program.Eventually (IsRight recursion) (fun depth => answer recursion depth query) result :=
  eventually_answer query result isResult
    (isResult.eventually_run (fun update _ right => right.update update) eventually_answer)

/-- From some depth on all the operations end. The results of the calls among them, and all the
results that they had computed, are those of the plain recursion, and the table was right all the
time. -/
def IsTransparent (recursion : Recursion P R) (ops : List (Operation P)) : Prop :=
  ∃ least, ∀ depth, least ≤ depth →
    ∃ results s, perform recursion depth ops {} = some (results, s) ∧
      List.Forall₂ recursion.IsResult (ops.filterMap Operation.query?) results ∧
      IsRight recursion s

theorem exists_perform_eq {ops : List (Operation P)}
    (ends : ∀ query ∈ ops.filterMap Operation.query?, ∃ result, recursion.IsResult query result) :
    ∃ least, ∀ depth, least ≤ depth → ∀ s, IsRight recursion s →
      ∃ results s', perform recursion depth ops s = some (results, s') ∧
        List.Forall₂ recursion.IsResult (ops.filterMap Operation.query?) results ∧
        IsRight recursion s' := by
  induction ops with
  | nil => exact ⟨0, fun _ _ s right => ⟨[], s, rfl, List.Forall₂.nil, right⟩⟩
  | cons op ops ih =>
      cases op with
      | ask query =>
          rcases List.forall_mem_cons.mp ends with ⟨⟨result, isResult⟩, endsRest⟩
          rcases eventually_answer_of_isResult isResult with ⟨leastFirst, first⟩
          rcases ih endsRest with ⟨leastRest, rest⟩
          refine ⟨max leastFirst leastRest, fun depth enough s right => ?_⟩
          have enoughFirst : leastFirst ≤ depth := (le_max_left _ _).trans enough
          have enoughRest : leastRest ≤ depth := (le_max_right _ _).trans enough
          rcases first depth enoughFirst s right with ⟨middle, answered, rightMiddle⟩
          rcases rest depth enoughRest middle rightMiddle with
            ⟨results, s', performed, areResults, right'⟩
          refine ⟨result :: results, s', ?_, .cons isResult areResults, right'⟩
          dsimp only at answered
          rw [perform, answered, Option.bind_some, performed, Option.map_some]
      | update update =>
          rcases ih ends with ⟨least, rest⟩
          exact ⟨least, fun depth enough s right => rest depth enough _ (right.update update)⟩

/-- The table makes no difference where the plain recursion ends. -/
theorem isTransparent {ops : List (Operation P)}
    (ends : ∀ query ∈ ops.filterMap Operation.query?, ∃ result, recursion.IsResult query result) :
    IsTransparent recursion ops := by
  rcases exists_perform_eq ends with ⟨least, performs⟩
  exact ⟨least, fun depth enough => performs depth enough {} isRight_init⟩

def fibonacci : Recursion Nat Nat where
  func n := if n < 2 then .ret 1 else .ask (.compute n) .ret
  f n := .ask (.call (n - 2)) fun a => .ask (.call (n - 1)) fun b => .ret (a + b)

theorem isResult_compute {n a b : Nat} (first : fibonacci.IsResult (.call (n - 2)) a)
    (second : fibonacci.IsResult (.call (n - 1)) b) : fibonacci.IsResult (.compute n) (a + b) :=
  .ask first (.ask second (.ret (a + b)))

theorem exists_isResult_call (n : Nat) : ∃ result, fibonacci.IsResult (.call n) result := by
  induction n using Nat.strong_induction_on with
  | _ n ih =>
      by_cases small : n < 2
      · have ends : fibonacci.body (.call n) = .ret 1 := if_pos small
        refine ⟨1, ?_⟩
        rw [Recursion.IsResult, ends]
        exact .ret 1
      · have asks : fibonacci.body (.call n) = .ask (.compute n) .ret := if_neg small
        rcases ih (n - 2) (by omega) with ⟨a, first⟩
        rcases ih (n - 1) (by omega) with ⟨b, second⟩
        refine ⟨a + b, ?_⟩
        rw [Recursion.IsResult, asks]
        exact .ask (isResult_compute first second) (.ret (a + b))

theorem exists_isResult_fibonacci (query : Query Nat) :
    ∃ result, fibonacci.IsResult query result := by
  cases query with
  | call n => exact exists_isResult_call n
  | compute n =>
      rcases exists_isResult_call (n - 2) with ⟨a, first⟩
      rcases exists_isResult_call (n - 1) with ⟨b, second⟩
      exact ⟨a + b, isResult_compute first second⟩

example : (perform fibonacci 20
    [.ask (.call 7), .update (.reset 5), .ask (.call 9), .update .clear, .ask (.compute 4)]
    {}).map Prod.fst = some [21, 55, 5] := by
  decide +kernel

theorem isTransparent_fibonacci :
    IsTransparent fibonacci
      [.ask (.call 7), .update (.reset 5), .ask (.call 9), .update .clear, .ask (.compute 4)] :=
  isTransparent fun query _ => exists_isResult_fibonacci query

end Memoized

end Eagine.Utility
