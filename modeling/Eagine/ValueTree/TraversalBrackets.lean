import Eagine.Theory.Brackets
import Eagine.ValueTree.StackTraversal
import Eagine.ValueTree.Traversal

/-!
# Brackets of a traversal

How a visitor is taken through any value tree. A structure or a list begins with the first one of
the nested attributes and is finished with the last one, if these are visited: attributes that are
links are not, nor are those before which the visitor does not want to go on.
-/

namespace Eagine.ValueTree

open Serialization Theory List

/-- The values of an attribute, as they are handed to a visitor. -/
inductive ConsumedValues where
  | bools (values : List Bool)
  | ints (values : List (BitVec 64))
  | floats (values : List (BitVec 32))
  | strings (texts : List Block)

def ConsumedValues.event : ConsumedValues → VisitorEvent
  | bools values => .consumeBools values
  | ints values => .consumeInts values
  | floats values => .consumeFloats values
  | strings texts => .consumeStrings texts

/-- What the traversal sees of an attribute, apart from those that are nested in it. -/
structure TraversedInfo extends AttributeInfo where
  values : Option ConsumedValues

/-- An attribute, with all that is nested in it. -/
abbrev TraversedTree :=
  RoseTree TraversedInfo

/-- The answers of a visitor when it is asked for the n-th time, after the calls so far. -/
abbrev ShouldContinue :=
  Nat → List VisitorEvent → Bool

/-- How often the visitor was asked, and the calls that it got. -/
structure TraversalState where
  asked : Nat := 0
  events : List VisitorEvent

namespace TraversalState

def ask (state : TraversalState) : TraversalState :=
  { state with asked := state.asked + 1 }

def emitIf (condition : Bool) (event : VisitorEvent) (state : TraversalState) : TraversalState :=
  if condition then { state with events := state.events ++ [event] } else state

/-- The values of an attribute, if there are any. -/
def consume (values : Option ConsumedValues) (state : TraversalState) : TraversalState :=
  match values with
  | some values => state.emitIf true values.event
  | none => state

end TraversalState

/-- One iteration of the loop of `_traverse` over the nested attributes. -/
def visitChild (shouldContinue : ShouldContinue) (child : TraversedInfo) (isFirst isLast : Bool)
    (traverse : TraversalState → TraversalState) (state : TraversalState) : TraversalState :=
  if child.isLink then state
  else if shouldContinue state.asked state.events then
    let named := !child.name.isEmpty
    let state := state.ask.emitIf isFirst (if named then .beginStruct else .beginList)
    let state := state.emitIf named (.beginAttribute child.name)
    let state := traverse state
    let state := state.emitIf named (.finishAttribute child.name)
    state.emitIf isLast (if named then .finishStruct else .finishList)
  else state.ask

mutual

/-- `compound::_traverse` -/
def traverseFrom (shouldContinue : ShouldContinue) :
    TraversedTree → TraversalState → TraversalState
  | .node attr nested, state =>
      (traverseNested shouldContinue nested true state).consume attr.values

def traverseNested (shouldContinue : ShouldContinue) :
    List TraversedTree → Bool → TraversalState → TraversalState
  | [], _, state => state
  | child :: others, isFirst, state =>
      traverseNested shouldContinue others false
        (visitChild shouldContinue child.value isFirst others.isEmpty
          (fun state => traverseFrom shouldContinue child state) state)

end

/-- `compound::traverse` -/
def traverse (shouldContinue : ShouldContinue) (root : TraversedTree) : List VisitorEvent :=
  (traverseFrom shouldContinue root { events := [.begin] }).events ++ [.finish]

/-- What is begun and finished. -/
inductive Enclosing where
  | struct
  | list
  | attribute (name : Block)
deriving DecidableEq

def VisitorEvent.mark : VisitorEvent → Mark Enclosing
  | beginStruct => .opens .struct
  | finishStruct => .closes .struct
  | beginList => .opens .list
  | finishList => .closes .list
  | beginAttribute name => .opens (.attribute name)
  | finishAttribute name => .closes (.attribute name)
  | _ => .neither

/-- What is begun is finished in the opposite order. -/
def WellNested (shouldContinue : ShouldContinue) (root : TraversedTree) : Prop :=
  WellBracketed ((traverse shouldContinue root).map VisitorEvent.mark)

/-- The attributes that are reached from the root without a link on the way. -/
inductive Reached (root : TraversedTree) : TraversedTree → Prop
  | root : Reached root root
  | nested {attr child : TraversedTree} : Reached root attr → child ∈ attr.children →
      child.value.isLink = false → Reached root child

/-- A nested attribute is the first one exactly if it is the last one, unless it is a link. -/
def EndsTogether (attr : TraversedTree) : Prop :=
  ∀ index child, attr.children[index]? = some child → child.value.isLink = false →
    (index = 0 ↔ index + 1 = attr.children.length)

/-! ### What is open -/

namespace TraversalState

/-- What is begun and not finished yet. -/
def stack (state : TraversalState) : Option (List Enclosing) :=
  openAfter (state.events.map VisitorEvent.mark)

theorem stack_emitIf_true (event : VisitorEvent) (state : TraversalState) :
    (state.emitIf true event).stack = state.stack.bind fun stack => event.mark.step stack := by
  rw [emitIf, if_pos rfl, stack, map_append]
  exact openAfter_concat _ _

theorem stack_consume (values : Option ConsumedValues) (state : TraversalState) :
    (state.consume values).stack = state.stack := by
  rcases values with _ | values
  · rfl
  · rw [consume, stack_emitIf_true]
    cases values <;> exact Option.bind_fun_some _

end TraversalState

/-- What is begun and finished on the same condition leaves open what was open. -/
theorem stack_enclosed {condition : Bool} {begins finishes : VisitorEvent} {kind : Enclosing}
    (opens : begins.mark = .opens kind) (closes : finishes.mark = .closes kind)
    {inner : TraversalState → TraversalState} (keeps : ∀ state, (inner state).stack = state.stack)
    (state : TraversalState) :
    ((inner (state.emitIf condition begins)).emitIf condition finishes).stack = state.stack := by
  cases condition with
  | false => exact keeps state
  | true =>
      rw [TraversalState.stack_emitIf_true, keeps, TraversalState.stack_emitIf_true, opens, closes,
        Option.bind_assoc]
      refine Eq.trans ?_ (Option.bind_fun_some state.stack)
      apply congrArg (Option.bind _)
      funext stack
      exact Mark.step_closes kind stack

/-- If a nested attribute is the first and the last one, or neither of them. -/
theorem stack_visitChild (shouldContinue : ShouldContinue) (child : TraversedInfo) (isEnd : Bool)
    {traverse : TraversalState → TraversalState}
    (keeps : ∀ state, (traverse state).stack = state.stack) (state : TraversalState) :
    (visitChild shouldContinue child isEnd isEnd traverse state).stack = state.stack := by
  have keepsInside (named : Bool) (state : TraversalState) :
      ((traverse (state.emitIf named (.beginAttribute child.name))).emitIf named
        (.finishAttribute child.name)).stack = state.stack :=
    stack_enclosed rfl rfl keeps state
  rw [visitChild]
  split
  · rfl
  split
  · cases named : !child.name.isEmpty with
    | false => exact stack_enclosed rfl rfl (keepsInside false) state.ask
    | true => exact stack_enclosed rfl rfl (keepsInside true) state.ask
  · rfl

/-! ### Questions -/

mutual

/-- If the attributes for which a visitor is asked are the first ones and the last ones of those
that are nested in an attribute, as long as it goes on. -/
def questions : TraversedTree → List (Bool × Bool)
  | .node _ nested => questionsNested nested true

def questionsNested : List TraversedTree → Bool → List (Bool × Bool)
  | [], _ => []
  | child :: others, isFirst =>
      (if child.value.isLink then [] else (isFirst, others.isEmpty) :: questions child) ++
        questionsNested others false

end

mutual

theorem stack_traverseFrom (shouldContinue : ShouldContinue) : (tree : TraversedTree) →
    (∀ question ∈ questions tree, question.1 = question.2) → ∀ state,
    (traverseFrom shouldContinue tree state).stack = state.stack
  | .node attr nested, together, state => by
      rw [questions] at together
      rw [traverseFrom, TraversalState.stack_consume,
        stack_traverseNested shouldContinue nested true together]

theorem stack_traverseNested (shouldContinue : ShouldContinue) : (nested : List TraversedTree) →
    (isFirst : Bool) → (∀ question ∈ questionsNested nested isFirst, question.1 = question.2) →
    ∀ state, (traverseNested shouldContinue nested isFirst state).stack = state.stack
  | [], _, _, _ => rfl
  | child :: others, isFirst, together, state => by
      rw [questionsNested, forall_mem_append] at together
      rw [traverseNested, stack_traverseNested shouldContinue others false together.2]
      cases isLink : child.value.isLink with
      | true =>
          rw [visitChild, if_pos isLink]
      | false =>
          rw [isLink, if_neg Bool.false_ne_true, forall_mem_cons] at together
          rw [show isFirst = others.isEmpty from together.1.1]
          exact stack_visitChild shouldContinue child.value _
            (stack_traverseFrom shouldContinue child together.1.2) state

end

/-! ### What a visitor that stops leaves open -/

/-- A visitor that goes on so many times. -/
def stopAfter (stop : Nat) : ShouldContinue :=
  fun asked _ => asked < stop

/-- Structures and lists count, and attributes do not. -/
def Enclosing.count : Enclosing → Int
  | .struct => 1
  | .list => 1
  | .attribute _ => 0

open Enclosing (count)

/-- The structures and lists that begin and do not end with an attribute. -/
def begunBy (question : Bool × Bool) : Int :=
  (if question.1 then 1 else 0) - (if question.2 then 1 else 0)

def TraversalState.begun (state : TraversalState) : Int :=
  balance count (state.events.map VisitorEvent.mark)

/-- The traversal comes to these questions until the visitor stops. -/
def Asks (stop : Nat) (traverse : TraversalState → TraversalState)
    (asks : List (Bool × Bool)) : Prop :=
  ∀ state, (traverse state).begun =
      state.begun + ((asks.take (stop - state.asked)).map begunBy).sum ∧
    min stop (traverse state).asked = min stop (state.asked + asks.length)

theorem begun_emitIf (condition : Bool) (event : VisitorEvent) (state : TraversalState) :
    (state.emitIf condition event).begun =
      state.begun + if condition then event.mark.weigh count else 0 := by
  cases condition with
  | false => exact (add_zero _).symm
  | true =>
      rw [TraversalState.emitIf, if_pos rfl, TraversalState.begun, map_append, balance_append,
        if_pos rfl, map_singleton, balance, balance, map_singleton, sum_singleton]
      rfl

theorem Asks.comp {stop : Nat} {first second : TraversalState → TraversalState}
    {asksFirst asksSecond : List (Bool × Bool)} (isFirst : Asks stop first asksFirst)
    (isSecond : Asks stop second asksSecond) :
    Asks stop (fun state => second (first state)) (asksFirst ++ asksSecond) := by
  intro state
  rcases isFirst state with ⟨begunFirst, askedFirst⟩
  rcases isSecond (first state) with ⟨begunSecond, askedSecond⟩
  have left : stop - (first state).asked = stop - state.asked - asksFirst.length := by omega
  constructor
  · rw [begunSecond, begunFirst, left, take_append, map_append, sum_append,
      add_assoc]
  · rw [askedSecond, length_append]
    omega

theorem Asks.nothing {stop : Nat} {traverse : TraversalState → TraversalState}
    (keeps : ∀ state, (traverse state).begun = state.begun ∧ (traverse state).asked = state.asked) :
    Asks stop traverse [] := by
  intro state
  rcases keeps state with ⟨begun, asked⟩
  rw [begun, asked, take_nil]
  exact ⟨(add_zero _).symm, rfl⟩

theorem asked_emitIf (condition : Bool) (event : VisitorEvent) (state : TraversalState) :
    (state.emitIf condition event).asked = state.asked := by
  cases condition <;> rfl

theorem weigh_beginNested (named : Bool) :
    (if named then VisitorEvent.beginStruct else .beginList).mark.weigh count = 1 := by
  cases named <;> rfl

theorem weigh_finishNested (named : Bool) :
    (if named then VisitorEvent.finishStruct else .finishList).mark.weigh count = -1 := by
  cases named <;> rfl

theorem begun_beginAttribute (condition : Bool) (name : Block) (state : TraversalState) :
    (state.emitIf condition (.beginAttribute name)).begun = state.begun := by
  rw [begun_emitIf, show (VisitorEvent.beginAttribute name).mark.weigh count = 0 from rfl,
    ite_self, add_zero]

theorem begun_finishAttribute (condition : Bool) (name : Block) (state : TraversalState) :
    (state.emitIf condition (.finishAttribute name)).begun = state.begun := by
  rw [begun_emitIf, show (VisitorEvent.finishAttribute name).mark.weigh count = 0 from rfl,
    ite_self, add_zero]

theorem Asks.visitChild {stop : Nat} {child : TraversedInfo} (noLink : child.isLink = false)
    (isFirst isLast : Bool) {traverse : TraversalState → TraversalState}
    {asks : List (Bool × Bool)} (below : Asks stop traverse asks) :
    Asks stop (ValueTree.visitChild (stopAfter stop) child isFirst isLast traverse)
      ((isFirst, isLast) :: asks) := by
  intro state
  rw [ValueTree.visitChild, noLink, if_neg Bool.false_ne_true]
  split
  · rename_i goesOn
    have less : state.asked < stop := of_decide_eq_true goesOn
    have left : stop - state.asked = stop - (state.asked + 1) + 1 := by omega
    dsimp only
    generalize (!child.name.isEmpty) = named
    rcases below ((state.ask.emitIf isFirst (if named then .beginStruct else .beginList)).emitIf
      named (.beginAttribute child.name)) with ⟨begun, asked⟩
    rw [begun_beginAttribute, begun_emitIf, weigh_beginNested, asked_emitIf, asked_emitIf] at begun
    rw [asked_emitIf, asked_emitIf] at asked
    constructor
    · rw [begun_emitIf, weigh_finishNested, begun_finishAttribute, begun, left, take_succ_cons,
        map_cons, sum_cons, begunBy]
      have last : (if isLast then (-1 : Int) else 0) = -if isLast then 1 else 0 := by
        cases isLast <;> rfl
      rw [last]
      change state.begun + _ + _ + _ = _
      change _ + ((asks.take (stop - (state.asked + 1))).map begunBy).sum + _ = _
      ring
    · rw [asked_emitIf, asked_emitIf, asked, length_cons]
      change min stop (state.asked + 1 + asks.length) = _
      rw [Nat.add_right_comm, Nat.add_assoc]
  · rename_i stopped
    have reached : stop ≤ state.asked := Nat.le_of_not_lt (mt decide_eq_true stopped)
    rw [Nat.sub_eq_zero_of_le reached, take_zero]
    constructor
    · exact (add_zero _).symm
    · change min stop (state.asked + 1) = _
      omega

mutual

theorem asks_traverseFrom (stop : Nat) : (tree : TraversedTree) →
    Asks stop (traverseFrom (stopAfter stop) tree) (questions tree)
  | .node attr nested => by
      have consumes : Asks stop (fun state => state.consume attr.values) [] := by
        apply Asks.nothing
        intro state
        rcases attr.values with _ | values
        · exact ⟨rfl, rfl⟩
        · refine ⟨?_, asked_emitIf _ _ _⟩
          rw [TraversalState.consume, begun_emitIf]
          cases values <;> exact add_zero _
      have both := (asks_traverseNested stop nested true).comp consumes
      rw [append_nil] at both
      exact both

theorem asks_traverseNested (stop : Nat) : (nested : List TraversedTree) → (isFirst : Bool) →
    Asks stop (traverseNested (stopAfter stop) nested isFirst) (questionsNested nested isFirst)
  | [], _ => Asks.nothing fun _ => ⟨rfl, rfl⟩
  | child :: others, isFirst => by
      have visits : Asks stop (visitChild (stopAfter stop) child.value isFirst others.isEmpty
          fun state => traverseFrom (stopAfter stop) child state)
          (if child.value.isLink then [] else (isFirst, others.isEmpty) :: questions child) := by
        cases isLink : child.value.isLink with
        | true =>
            apply Asks.nothing
            intro state
            rw [visitChild, if_pos isLink]
            exact ⟨rfl, rfl⟩
        | false => exact Asks.visitChild isLink _ _ (asks_traverseFrom stop child)
      exact visits.comp (asks_traverseNested stop others false)

end

/-! ### Ends -/

theorem begun_traverse (stop : Nat) (root : TraversedTree) :
    balance count ((traverse (stopAfter stop) root).map VisitorEvent.mark) =
      (((questions root).take stop).map begunBy).sum := by
  have begun := (asks_traverseFrom stop root { events := [.begin] }).1
  rw [traverse, map_append, balance_append]
  change TraversalState.begun _ + 0 = _
  rw [begun, add_zero]
  exact zero_add _

theorem eq_of_begunBy : ∀ question : Bool × Bool, begunBy question = 0 → question.1 = question.2 := by
  decide

variable {root : TraversedTree}

/-- Every attribute that the visitor is asked for is a first one exactly if it is a last one. -/
theorem together_of_wellNested (nested : ∀ stop, WellNested (stopAfter stop) root) :
    ∀ question ∈ questions root, question.1 = question.2 := by
  intro question mem
  rcases mem_iff_getElem.mp mem with ⟨position, bound, rfl⟩
  have before := (nested position).balance_eq_zero count
  have behind := (nested (position + 1)).balance_eq_zero count
  rw [begun_traverse] at before behind
  rw [take_add_one, getElem?_eq_getElem bound, map_append, sum_append, before,
    zero_add] at behind
  exact eq_of_begunBy _ ((sum_singleton).symm.trans behind)

theorem isLast_zero (child : TraversedTree) (others : List TraversedTree) :
    (0 + 1 == (child :: others).length) = others.isEmpty := by
  cases others <;> rfl

theorem isLast_succ (index : Nat) (child : TraversedTree) (others : List TraversedTree) :
    (index + 1 + 1 == (child :: others).length) = (index + 1 == others.length) := by
  rw [length_cons, Bool.eq_iff_iff, beq_iff_eq, beq_iff_eq, Nat.add_right_cancel_iff]

/-- What is asked for a child comes from its place, and the rest from below it. -/
theorem mem_questionsNested {nested : List TraversedTree} {index : Nat} {child : TraversedTree}
    (found : nested[index]? = some child) (noLink : child.value.isLink = false) (isFirst : Bool) :
    (isFirst && index == 0, index + 1 == nested.length) ∈ questionsNested nested isFirst ∧
      questions child ⊆ questionsNested nested isFirst := by
  induction nested generalizing index isFirst with
  | nil => cases found
  | cons first others ih =>
      rw [questionsNested]
      cases index with
      | zero =>
          cases found
          rw [noLink, if_neg Bool.false_ne_true, isLast_zero, beq_self_eq_true, Bool.and_true]
          exact ⟨mem_append_left _ mem_cons_self, fun question mem =>
            mem_append_left _ (mem_cons_of_mem _ mem)⟩
      | succ index =>
          rcases ih found false with ⟨here, below⟩
          have notFirst : (isFirst && index + 1 == 0) = (false && index == 0) :=
            Bool.and_false isFirst
          rw [isLast_succ, notFirst]
          exact ⟨mem_append_right _ here, fun question mem =>
            mem_append_right _ (below mem)⟩

theorem questions_subset {root attr : TraversedTree} (reached : Reached root attr) :
    questions attr ⊆ questions root := by
  induction reached with
  | root => exact fun _ mem => mem
  | @nested attr child _ mem noLink ih =>
      rcases mem_iff_getElem?.mp mem with ⟨index, found⟩
      rcases attr with ⟨info, nested⟩
      exact fun question inChild => ih ((mem_questionsNested found noLink true).2 inChild)

theorem endsTogether_of_together
    (together : ∀ question ∈ questions root, question.1 = question.2) {attr : TraversedTree}
    (reached : Reached root attr) : EndsTogether attr := by
  rcases attr with ⟨info, nested⟩
  intro index child found noLink
  have same := together _ (questions_subset reached (mem_questionsNested found noLink true).1)
  rw [Bool.true_and, Bool.eq_iff_iff, beq_iff_eq, beq_iff_eq] at same
  exact same

theorem Reached.of_child {root child attr : TraversedTree} (mem : child ∈ root.children)
    (noLink : child.value.isLink = false) (reached : Reached child attr) : Reached root attr := by
  induction reached with
  | root => exact .nested .root mem noLink
  | nested _ memToo noLinkToo ih => exact .nested ih memToo noLinkToo

mutual

theorem together_of_endsTogether : (tree : TraversedTree) →
    (∀ attr, Reached tree attr → EndsTogether attr) →
    ∀ question ∈ questions tree, question.1 = question.2
  | .node info nested, ends => by
      rw [questions]
      apply together_of_endsTogether_nested nested true
      · intro index child found noLink
        rw [Bool.true_and, Bool.eq_iff_iff, beq_iff_eq, beq_iff_eq]
        exact ends _ .root index child found noLink
      · intro child mem noLink attr reached
        exact ends attr (.of_child mem noLink reached)

theorem together_of_endsTogether_nested : (nested : List TraversedTree) → (isFirst : Bool) →
    (∀ index child, nested[index]? = some child → child.value.isLink = false →
      (isFirst && index == 0) = (index + 1 == nested.length)) →
    (∀ child ∈ nested, child.value.isLink = false →
      ∀ attr, Reached child attr → EndsTogether attr) →
    ∀ question ∈ questionsNested nested isFirst, question.1 = question.2
  | [], _, _, _ => nofun
  | child :: others, isFirst, ends, below => by
      rw [questionsNested, forall_mem_append]
      constructor
      · cases isLink : child.value.isLink with
        | true => exact nofun
        | false =>
            rw [if_neg Bool.false_ne_true, forall_mem_cons]
            constructor
            · have here := ends 0 child rfl isLink
              rw [isLast_zero, beq_self_eq_true, Bool.and_true] at here
              exact here
            · exact together_of_endsTogether child (below child mem_cons_self isLink)
      · apply together_of_endsTogether_nested others false
        · intro index other found noLink
          have here := ends (index + 1) other found noLink
          rw [isLast_succ] at here
          exact (Bool.and_false isFirst).symm.trans here
        · intro other mem noLink
          exact below other (mem_cons_of_mem _ mem) noLink

end

theorem wellNested_of_endsTogether
    (ends : ∀ attr, Reached root attr → EndsTogether attr) (shouldContinue : ShouldContinue) :
    WellNested shouldContinue root := by
  have stack := stack_traverseFrom shouldContinue root (together_of_endsTogether root ends)
    { events := [.begin] }
  rw [WellNested, WellBracketed, traverse, map_append]
  exact (openAfter_concat _ _).trans ((Option.bind_fun_some _).trans stack)

/-- The events are well nested for every visitor, or for every one that goes on so many times and
then stops, exactly if no nested attribute only begins or only ends the others. -/
theorem wellNested_iff (root : TraversedTree) :
    ((∀ shouldContinue, WellNested shouldContinue root) ↔
        ∀ attr, Reached root attr → EndsTogether attr) ∧
      ((∀ stop, WellNested (stopAfter stop) root) ↔
        ∀ attr, Reached root attr → EndsTogether attr) := by
  have ends (nested : ∀ stop, WellNested (stopAfter stop) root) (attr : TraversedTree)
      (reached : Reached root attr) : EndsTogether attr :=
    endsTogether_of_together (together_of_wellNested nested) reached
  constructor
  · exact ⟨fun nested => ends fun stop => nested (stopAfter stop), wellNested_of_endsTogether⟩
  · exact ⟨ends, fun together stop => wellNested_of_endsTogether together (stopAfter stop)⟩

/-- A structure of two attributes without anything in them. -/
def twoMembers : TraversedTree :=
  .node ⟨⟨[], false⟩, none⟩
    [.node ⟨⟨[97], false⟩, none⟩ [], .node ⟨⟨[98], false⟩, none⟩ []]

/-- A visitor that stops behind the first one has begun a structure that is not finished. -/
theorem not_forall_wellNested :
    ¬∀ (shouldContinue : ShouldContinue) (root : TraversedTree), WellNested shouldContinue root := by
  intro nested
  have leftOpen : openAfter ((traverse (stopAfter 1) twoMembers).map VisitorEvent.mark) =
      some [.struct] := by
    decide
  exact absurd (leftOpen.symm.trans (nested (stopAfter 1) twoMembers)) (by decide)

end Eagine.ValueTree
