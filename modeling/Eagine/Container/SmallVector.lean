import Eagine.Container.StaticVector
import Eagine.Theory.Refinement

/-!
# Small vectors

A vector that keeps its elements in a static vector as long as they fit, and in a
plain vector from then on. It is compared with a plain vector that takes the same
operations.
-/

namespace Eagine.Container

open Theory Option

universe u

/-- The storage of a `small_vector`. -/
inductive SmallVector (α : Type u) (N : Nat)
  | inline (v0 : StaticVector α N)
  | heap (v1 : List α)

/-- The value of an argument when the static vector was destroyed. There is none in a
reference to one of its elements: such an operation is refused. -/
def Argument.apart {α : Type u} : Argument α → Option α
  | .value held => some held
  | .element _ => none

namespace SmallVector

variable {α : Type u} {N : Nat}

def elements : SmallVector α N → List α
  | inline v0 => v0.elements
  | heap v1 => v1

def pushBack (argument : Argument α) : SmallVector α N → Option (SmallVector α N)
  | inline v0 =>
      if v0.full then
        argument.apart.map fun value => heap (StdVector.pushBack v0.elements value)
      else (argument.of v0.elements).bind fun value => (v0.pushBack value).map inline
  | heap v1 => (argument.of v1).map fun value => heap (StdVector.pushBack v1 value)

def insertRange (pos : Nat) (values : List α) : SmallVector α N → Option (SmallVector α N)
  | inline v0 =>
      if N < v0.size + values.length then
        (StdVector.insertRange v0.elements pos values).map heap
      else (v0.insertRange pos values).map inline
  | heap v1 => (StdVector.insertRange v1 pos values).map heap

def insert (pos : Nat) (argument : Argument α) : SmallVector α N → Option (SmallVector α N)
  | inline v0 =>
      if v0.full then
        argument.apart.bind fun value => (StdVector.insert v0.elements pos value).map heap
      else (v0.insertArgument pos argument).map inline
  | heap v1 => (argument.of v1).bind fun value => (StdVector.insert v1 pos value).map heap

variable [Inhabited α]

def init : SmallVector α N :=
  inline StaticVector.init

def popBack : SmallVector α N → Option (SmallVector α N)
  | inline v0 => v0.popBack.map inline
  | heap v1 => (StdVector.popBack v1).map heap

def eraseRange (first last : Nat) : SmallVector α N → Option (SmallVector α N)
  | inline v0 => (v0.eraseRange first last).map inline
  | heap v1 => (StdVector.eraseRange v1 first last).map heap

def erase (pos : Nat) : SmallVector α N → Option (SmallVector α N)
  | inline v0 => (v0.erase pos).map inline
  | heap v1 => (StdVector.erase v1 pos).map heap

def eraseIf (predicate : α → Bool) : SmallVector α N → Option (SmallVector α N)
  | inline v0 => (v0.eraseIf predicate).map inline
  | heap v1 => some (heap (StdVector.eraseIf v1 predicate))

def resize (n : Nat) : SmallVector α N → Option (SmallVector α N)
  | inline v0 =>
      if n ≤ N then (v0.resize n).map inline
      else some (heap (StdVector.resize v0.elements n))
  | heap v1 => some (heap (StdVector.resize v1 n))

def clear : SmallVector α N → SmallVector α N
  | inline v0 => inline v0.clear
  | heap _ => heap []

/-- An operation with its arguments; positions are offsets from the beginning. -/
inductive Operation (α : Type u)
  | pushBack (argument : Argument α)
  | popBack
  | insert (pos : Nat) (argument : Argument α)
  | insertRange (pos : Nat) (values : List α)
  | erase (pos : Nat)
  | eraseRange (first last : Nat)
  | eraseIf (predicate : α → Bool)
  | resize (n : Nat)
  | clear

def step (v : SmallVector α N) : Operation α → Option (SmallVector α N)
  | .pushBack argument => v.pushBack argument
  | .popBack => v.popBack
  | .insert pos argument => v.insert pos argument
  | .insertRange pos values => v.insertRange pos values
  | .erase pos => v.erase pos
  | .eraseRange first last => v.eraseRange first last
  | .eraseIf predicate => v.eraseIf predicate
  | .resize n => v.resize n
  | .clear => some v.clear

/-- The same operations on a plain vector. -/
def vectorStep (v : List α) : Operation α → Option (List α)
  | .pushBack argument => (argument.of v).map (StdVector.pushBack v)
  | .popBack => StdVector.popBack v
  | .insert pos argument => (argument.of v).bind (StdVector.insert v pos)
  | .insertRange pos values => StdVector.insertRange v pos values
  | .erase pos => StdVector.erase v pos
  | .eraseRange first last => StdVector.eraseRange v first last
  | .eraseIf predicate => some (StdVector.eraseIf v predicate)
  | .resize n => some (StdVector.resize v n)
  | .clear => some []

/-- An operation on the static vector finds what it reads as a plain vector has it: the
slots that a `resize` adds hold the default value, an element that an argument refers to
is not destroyed, and it is equal to the one before it where these are moved. -/
def FindsIntact : SmallVector α N → Operation α → Prop
  | inline v0, .resize n =>
      v0.size < n → n ≤ N → ∀ value ∈ v0.unused.take (n - v0.size), value = default
  | inline v0, .pushBack argument =>
      ∀ index, argument = .element index → index < v0.size → v0.size < N
  | inline v0, .insert pos argument =>
      ∀ index, argument = .element index → pos ≤ v0.size → index < v0.size →
        v0.size < N ∧ (pos < index → v0.elements[index - 1]? = v0.elements[index]?)
  | _, _ => True

omit [Inhabited α] in
/-- A static vector answers with the elements that it is left with. -/
theorem map_elements_inline {result : Option (StaticVector α N)} {elements unused : List α}
    (leaves : StaticVector.Leaves result elements unused) :
    (result.map (inline : StaticVector α N → SmallVector α N)).map SmallVector.elements =
      some elements := by
  obtain ⟨w, rfl, rfl, -⟩ := leaves
  rfl

omit [Inhabited α] in
theorem map_elements_heap (result : Option (List α)) :
    (result.map (heap : List α → SmallVector α N)).map SmallVector.elements = result := by
  rw [map_map]
  exact congrFun map_id result

omit [Inhabited α] in
theorem map_elements_none :
    ((none : Option (StaticVector α N)).map (inline : _ → SmallVector α N)).map
      SmallVector.elements = none :=
  rfl

theorem step_heap (v1 : List α) (op : Operation α) :
    step (heap v1 : SmallVector α N) op = (vectorStep v1 op).map heap := by
  cases op with
  | pushBack argument =>
      rw [vectorStep, map_map]
      rfl
  | insert pos argument =>
      rw [vectorStep, map_bind]
      rfl
  | _ => rfl

omit [Inhabited α] in
theorem not_full_iff (v0 : StaticVector α N) : ¬v0.full = true ↔ v0.size < N := by
  rw [StaticVector.full, beq_iff_eq]
  exact (Nat.lt_iff_le_and_ne.trans (and_iff_right v0.size_le)).symm

omit [Inhabited α] in
theorem insertRange_inline (v0 : StaticVector α N) (pos : Nat) {values : List α}
    (room : v0.size + values.length ≤ N) :
    ((v0.insertRange pos values).map (inline : _ → SmallVector α N)).map SmallVector.elements =
      StdVector.insertRange v0.elements pos values := by
  rw [StdVector.insertRange, v0.length_elements]
  by_cases inside : pos ≤ v0.size
  · rw [if_pos inside, map_elements_inline (v0.insertRange_leaves room inside)]
  · rw [if_neg inside, StaticVector.insertRange_eq_none fun valid => inside valid.2,
      map_elements_none]

theorem eraseRange_inline (v0 : StaticVector α N) (first last : Nat) :
    ((v0.eraseRange first last).map (inline : _ → SmallVector α N)).map SmallVector.elements =
      StdVector.eraseRange v0.elements first last := by
  rw [StdVector.eraseRange, v0.length_elements]
  by_cases valid : first ≤ last ∧ last ≤ v0.size
  · rw [if_pos valid, map_elements_inline (v0.eraseRange_leaves valid.1 valid.2)]
  · rw [if_neg valid, StaticVector.eraseRange_eq_none valid, map_elements_none]

/-- A `resize` is answered as by a plain vector exactly if the slots that it adds are
reset. -/
theorem resize_commutes_iff (v0 : StaticVector α N) (n : Nat) :
    Commutes step vectorStep elements (inline v0) (.resize n) ↔
      FindsIntact (inline v0) (.resize n) := by
  have spec : vectorStep (elements (inline v0 : SmallVector α N)) (.resize n) =
      some (v0.elements.take n ++ List.replicate (n - v0.size) default) := by
    rw [vectorStep, StdVector.resize, elements, v0.length_elements]
  rw [Commutes, spec, step, SmallVector.resize, FindsIntact]
  by_cases fits : n ≤ N
  · rw [if_pos fits, map_elements_inline (v0.resize_leaves fits), some_inj,
      List.append_cancel_left_eq]
    have added : (v0.unused.take (n - v0.size)).length = n - v0.size := by
      rw [List.length_take, StaticVector.unused, List.length_drop, v0.length_array]
      exact Nat.min_eq_left (Nat.sub_le_sub_right fits v0.size)
    rw [List.eq_replicate_iff, and_iff_right added]
    constructor
    · intro reset _ _
      exact reset
    · intro reset
      by_cases grows : v0.size < n
      · exact reset grows fits
      · rw [Nat.sub_eq_zero_of_le (Nat.le_of_not_lt grows), List.take_zero]
        exact fun value within => absurd within List.not_mem_nil
  · rw [if_neg fits, StdVector.resize, v0.length_elements]
    exact iff_of_true rfl fun _ within => absurd within fits

omit [Inhabited α] in
theorem pushBack_inline_iff (v0 : StaticVector α N) (argument : Argument α) :
    ((inline v0).pushBack argument).map SmallVector.elements =
        (argument.of v0.elements).map (StdVector.pushBack v0.elements) ↔
      ∀ index, argument = .element index → index < v0.size → v0.size < N := by
  rw [SmallVector.pushBack]
  by_cases full : v0.full = true
  · have noRoom : ¬v0.size < N := fun room => (not_full_iff v0).mpr room full
    rw [if_pos full, map_map]
    cases argument with
    | value held => exact iff_of_true rfl nofun
    | element index =>
        simp [Argument.apart, Argument.of, noRoom, @eq_comm _ none, v0.length_elements]
  · have room := (not_full_iff v0).mp full
    rw [if_neg full]
    refine iff_of_true ?_ fun _ _ _ => room
    cases argument.of v0.elements with
    | none => rfl
    | some value =>
        rw [bind_some, map_elements_inline (v0.pushBack_leaves room)]
        rfl

omit [Inhabited α] in
theorem insert_value_inline (v0 : StaticVector α N) (pos : Nat) (value : α) :
    ((inline v0).insert pos (.value value)).map SmallVector.elements =
      StdVector.insert v0.elements pos value := by
  rw [SmallVector.insert]
  by_cases full : v0.full = true
  · rw [if_pos full, Argument.apart, bind_some, map_elements_heap]
  · rw [if_neg full]
    exact insertRange_inline v0 pos ((not_full_iff v0).mp full)

omit [Inhabited α] in
/-- A position or a reference beyond the elements is refused. -/
theorem insert_element_refused (v0 : StaticVector α N) {pos index : Nat}
    (refused : ¬(pos ≤ v0.size ∧ index < v0.size)) :
    ((inline v0).insert pos (.element index)).map SmallVector.elements =
      v0.elements[index]?.bind (StdVector.insert v0.elements pos) := by
  have specified : v0.elements[index]?.bind (StdVector.insert v0.elements pos) = none := by
    refine bind_eq_none_iff.mpr fun value present => if_neg fun inside => refused ⟨?_, ?_⟩
    · exact inside.trans_eq v0.length_elements
    · exact (List.getElem?_eq_some_iff.mp present).1.trans_eq v0.length_elements
  rw [specified, SmallVector.insert]
  by_cases full : v0.full = true
  · rw [if_pos full]
    rfl
  · rw [if_neg full, StaticVector.insertArgument]
    by_cases isElement : index < v0.size
    · rw [if_pos isElement, map_bind, map_bind]
      refine bind_eq_none_iff.mpr fun value _ => ?_
      exact congrArg (fun result => (result.map inline).map SmallVector.elements)
        (StaticVector.insertRange_eq_none fun valid => refused ⟨valid.2, isElement⟩)
    · rw [if_neg isElement]
      rfl

omit [Inhabited α] in
/-- The insertion of an element is answered as by a plain vector exactly if the element is
still in place when it is read. -/
theorem insert_element_iff (v0 : StaticVector α N) {pos index : Nat} :
    ((inline v0).insert pos (.element index)).map SmallVector.elements =
        v0.elements[index]?.bind (StdVector.insert v0.elements pos) ↔
      (pos ≤ v0.size → index < v0.size →
        v0.size < N ∧ (pos < index → v0.elements[index - 1]? = v0.elements[index]?)) := by
  by_cases valid : pos ≤ v0.size ∧ index < v0.size
  · obtain ⟨inside, isElement⟩ := valid
    have inserts (value : α) : StdVector.insert v0.elements pos value =
        some (v0.elements.take pos ++ [value] ++ v0.elements.drop pos) :=
      if_pos (inside.trans_eq v0.length_elements.symm)
    have present {i : Nat} (within : i < v0.size) : ∃ value, v0.elements[i]? = some value :=
      ⟨_, List.getElem?_eq_getElem (within.trans_eq v0.length_elements.symm)⟩
    obtain ⟨value, isValue⟩ := present isElement
    obtain ⟨earlier, isEarlier⟩ := present (Nat.lt_of_le_of_lt (Nat.sub_le index 1) isElement)
    rw [imp_iff_right inside, imp_iff_right isElement, isValue, bind_some, inserts,
      SmallVector.insert]
    by_cases full : v0.full = true
    · rw [if_pos full]
      exact iff_of_false nofun fun found => (not_full_iff v0).mpr found.1 full
    · have room := (not_full_iff v0).mp full
      have stored (value : α) := @insertRange_inline _ _ v0 pos [value] room
      rw [if_neg full, and_iff_right room, StaticVector.insertArgument, if_pos isElement]
      by_cases front : index ≤ pos
      · rw [v0.movedBackward_front front isElement, isValue, bind_some]
        exact iff_of_true ((stored value).trans (inserts value))
          fun behind => absurd front (Nat.not_le_of_lt behind)
      · have behind := Nat.lt_of_not_le front
        rw [v0.movedBackward_behind room behind isElement, isEarlier, bind_some,
          imp_iff_right behind]
        refine (Eq.congr_left ((stored earlier).trans (inserts earlier))).trans ?_
        simp
  · refine iff_of_true (insert_element_refused v0 valid) fun inside isElement => ?_
    exact absurd ⟨inside, isElement⟩ valid

/-- An operation is answered as by a plain vector exactly if it finds what it reads
intact. -/
theorem commutes_iff (v : SmallVector α N) (op : Operation α) :
    Commutes step vectorStep elements v op ↔ FindsIntact v op := by
  cases v with
  | heap v1 =>
      unfold Commutes
      rw [step_heap, map_elements_heap]
      exact iff_of_true rfl trivial
  | inline v0 =>
      cases op with
      | pushBack argument => exact pushBack_inline_iff v0 argument
      | popBack =>
          refine iff_of_true ?_ trivial
          rw [Commutes, step, SmallVector.popBack, vectorStep, StdVector.popBack, elements,
            v0.length_elements]
          by_cases nonempty : 0 < v0.size
          · rw [if_pos nonempty, map_elements_inline (v0.popBack_leaves nonempty)]
          · rw [if_neg nonempty, StaticVector.popBack, dif_neg nonempty, map_elements_none]
      | insert pos argument =>
          cases argument with
          | value held =>
              refine iff_of_true (insert_value_inline v0 pos held) ?_
              rintro _ ⟨⟩
          | element index =>
              refine (insert_element_iff v0).trans ⟨?_, fun intact => intact index rfl⟩
              rintro intact _ ⟨⟩
              exact intact
      | insertRange pos values =>
          refine iff_of_true ?_ trivial
          rw [Commutes, step, SmallVector.insertRange]
          by_cases beyond : N < v0.size + values.length
          · rw [if_pos beyond, map_elements_heap]
            rfl
          · rw [if_neg beyond]
            exact insertRange_inline v0 pos (Nat.le_of_not_lt beyond)
      | erase pos => exact iff_of_true (eraseRange_inline v0 pos (pos + 1)) trivial
      | eraseRange first last => exact iff_of_true (eraseRange_inline v0 first last) trivial
      | eraseIf predicate =>
          exact iff_of_true (map_elements_inline (v0.eraseIf_leaves predicate)) trivial
      | resize n => exact resize_commutes_iff v0 n
      | clear => exact iff_of_true (congrArg some v0.clear_elements) trivial

/-- A small vector has the elements of a plain vector throughout a run exactly if every
operation of the run finds what it reads intact. -/
theorem smallVector_agrees_iff (ops : List (Operation α)) :
    (∀ done rest, ops = done ++ rest →
        (run step (init : SmallVector α N) done).map elements = run vectorStep [] done) ↔
      ∀ done op rest v, ops = done ++ op :: rest →
        run step (init : SmallVector α N) done = some v → FindsIntact v op := by
  have agrees := run_agrees_iff step vectorStep elements (init : SmallVector α N) ops
  have empty : elements (init : SmallVector α N) = [] :=
    @List.take_zero _ (List.replicate N default)
  rw [empty] at agrees
  simp only [agrees, commutes_iff]

/-- The second element is left in its slot when the first one is erased, and a
`resize` brings it back. -/
theorem not_agrees_erase_resize :
    ¬∀ (N : Nat) (ops : List (Operation Nat)),
      (run step (init : SmallVector Nat N) ops).map elements = run vectorStep [] ops := by
  intro agrees
  have resized := agrees 4 [.pushBack (.value 1), .pushBack (.value 2), .erase 0, .resize 2]
  exact absurd resized (by decide)

/-- The first element was moved to the slot of the second one before this is read. -/
example : (run step (init : SmallVector Nat 4)
    [.pushBack (.value 1), .pushBack (.value 2), .insert 0 (.element 1)]).map elements =
      some [1, 1, 2] := by
  decide

end SmallVector

end Eagine.Container
