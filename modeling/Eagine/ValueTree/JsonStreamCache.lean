import Eagine.ValueTree.JsonStream
import Mathlib.Data.List.Infix

/-!
# The caches of a stream of a JSON document

What the visitor got so far followed by the cached values is the same before and
after a flush, since only the cache of the last type holds values.
-/

namespace Eagine.ValueTree

namespace StreamParser

@[simp]
theorem trace_call (visitorCall : VisitorCall) (parser : StreamParser) :
    (parser.call visitorCall).trace = parser.trace ++ visitorCall.split := by
  simp [trace, call]

@[simp]
theorem trace_consume (values : List Scalar) (parser : StreamParser) :
    (parser.consume values).trace = parser.trace ++ values.map Scalar.call := by
  simp [trace, consume, call, VisitorCall.split]

/-- The cached values. -/
def pending (parser : StreamParser) : List VisitorCall :=
  (parser.floatValues.map Scalar.double ++ (parser.uintValues.map Scalar.uint64 ++
    parser.intValues.map Scalar.int64)).map Scalar.call

/-- What the visitor got and what is still cached. -/
def full (parser : StreamParser) : List VisitorCall :=
  parser.trace ++ parser.pending

/-- Only the cache of the last type holds values. -/
structure Steady (parser : StreamParser) : Prop where
  floats : parser.oldValTyp ≠ .float → parser.floatValues = []
  uints : parser.oldValTyp ≠ .uint → parser.uintValues = []
  ints : parser.oldValTyp ≠ .int → parser.intValues = []

/-- The condition for a cache to be flushed. -/
def Due (parser : StreamParser) (newValTyp curValTyp : CachedType) (values : List (BitVec 64)) :
    Prop :=
  (parser.oldValTyp ≠ newValTyp ∧ values ≠ []) ∨
    (parser.oldValTyp = curValTyp ∧ 512 ≤ values.length)

instance (parser : StreamParser) (newValTyp curValTyp : CachedType) (values : List (BitVec 64)) :
    Decidable (parser.Due newValTyp curValTyp values) :=
  inferInstanceAs (Decidable (_ ∨ _))

variable {newValTyp : CachedType} {parser : StreamParser}

theorem due_of_changed (changed : parser.oldValTyp ≠ newValTyp) (curValTyp : CachedType)
    (values : List (BitVec 64)) : parser.Due newValTyp curValTyp values ↔ values ≠ [] := by
  constructor
  · rintro (⟨_, nonempty⟩ | ⟨_, long⟩)
    · exact nonempty
    · rintro rfl
      exact absurd long (by decide)
  · intro nonempty
    exact Or.inl ⟨changed, nonempty⟩

/-- The values that are handed over when the cache is flushed. -/
def handed (due : Prop) [Decidable due] (values : List (BitVec 64)) (scalar : BitVec 64 → Scalar) :
    List VisitorCall :=
  if due then values.map (Scalar.call ∘ scalar) else []

/-- The values that stay in a cache. -/
def kept (due : Prop) [Decidable due] (values : List (BitVec 64)) : List (BitVec 64) :=
  if due then [] else values

theorem split_consume_map (values : List (BitVec 64)) (scalar : BitVec 64 → Scalar) :
    (VisitorCall.consume (values.map scalar)).split = values.map (Scalar.call ∘ scalar) :=
  List.map_map

/-- What is due in a cache is handed over, and what is not due stays there. -/
theorem flushPrevious_eq (newValTyp : CachedType) (parser : StreamParser) :
    (parser.flushPrevious newValTyp).trace = parser.trace ++
        (handed (parser.Due newValTyp .float parser.floatValues) parser.floatValues .double ++
          (handed (parser.Due newValTyp .uint parser.uintValues) parser.uintValues .uint64 ++
            handed (parser.Due newValTyp .int parser.intValues) parser.intValues .int64)) ∧
      (parser.flushPrevious newValTyp).floatValues =
        kept (parser.Due newValTyp .float parser.floatValues) parser.floatValues ∧
      (parser.flushPrevious newValTyp).uintValues =
        kept (parser.Due newValTyp .uint parser.uintValues) parser.uintValues ∧
      (parser.flushPrevious newValTyp).intValues =
        kept (parser.Due newValTyp .int parser.intValues) parser.intValues := by
  unfold handed kept
  by_cases floats : parser.Due newValTyp .float parser.floatValues <;>
    by_cases uints : parser.Due newValTyp .uint parser.uintValues <;>
    by_cases ints : parser.Due newValTyp .int parser.intValues <;>
    simp only [floats, uints, ints, if_true, if_false] <;>
    unfold Due at floats uints ints <;>
    simp [flushPrevious, doFlushPrevious, floatCache, uintCache, intCache, floats, uints, ints,
      consume, call, trace, split_consume_map]

@[simp]
theorem flushPrevious_attrStack (newValTyp : CachedType) (parser : StreamParser) :
    (parser.flushPrevious newValTyp).attrStack = parser.attrStack := by
  simp only [flushPrevious, doFlushPrevious]
  split_ifs <;> rfl

@[simp]
theorem flushPrevious_listStack (newValTyp : CachedType) (parser : StreamParser) :
    (parser.flushPrevious newValTyp).listStack = parser.listStack := by
  simp only [flushPrevious, doFlushPrevious]
  split_ifs <;> rfl

@[simp]
theorem flushPrevious_oldValTyp (newValTyp : CachedType) (parser : StreamParser) :
    (parser.flushPrevious newValTyp).oldValTyp = newValTyp :=
  rfl

@[simp]
theorem handed_nil (due : Prop) [Decidable due] (scalar : BitVec 64 → Scalar) :
    handed due [] scalar = [] :=
  ite_self _

@[simp]
theorem kept_nil (due : Prop) [Decidable due] : kept due [] = [] :=
  ite_self _

theorem handed_append_kept (due : Prop) [Decidable due] (values : List (BitVec 64))
    (scalar : BitVec 64 → Scalar) :
    handed due values scalar ++ (kept due values).map (Scalar.call ∘ scalar) =
      values.map (Scalar.call ∘ scalar) := by
  unfold handed kept
  split
  · exact List.append_nil _
  · rfl

theorem kept_of_changed (changed : parser.oldValTyp ≠ newValTyp) (curValTyp : CachedType)
    (values : List (BitVec 64)) : kept (parser.Due newValTyp curValTyp values) values = [] := by
  unfold kept
  split
  · rfl
  · rename_i notDue
    by_contra nonempty
    exact notDue ((due_of_changed changed curValTyp values).mpr nonempty)

/-- A cache is empty after the values of another type are announced. -/
theorem kept_of_other {curValTyp : CachedType} {values : List (BitVec 64)}
    (steady : parser.oldValTyp ≠ curValTyp → values = []) (other : newValTyp ≠ curValTyp) :
    kept (parser.Due newValTyp curValTyp values) values = [] := by
  by_cases changed : parser.oldValTyp = newValTyp
  · unfold kept
    rw [steady (changed ▸ other), ite_self]
  · exact kept_of_changed changed curValTyp values

theorem flushPrevious_steady (steady : parser.Steady) (newValTyp : CachedType) :
    (parser.flushPrevious newValTyp).Steady := by
  rcases flushPrevious_eq newValTyp parser with ⟨-, floatsEq, uintsEq, intsEq⟩
  constructor
  · intro other
    rw [floatsEq]
    exact kept_of_other steady.floats other
  · intro other
    rw [uintsEq]
    exact kept_of_other steady.uints other
  · intro other
    rw [intsEq]
    exact kept_of_other steady.ints other

theorem pending_of_steady (steady : parser.Steady) (notFloat : parser.oldValTyp ≠ .float)
    (notUint : parser.oldValTyp ≠ .uint) (notInt : parser.oldValTyp ≠ .int) :
    parser.pending = [] := by
  rw [pending, steady.floats notFloat, steady.uints notUint, steady.ints notInt]
  rfl

theorem flushPrevious_full (steady : parser.Steady) (newValTyp : CachedType) :
    (parser.flushPrevious newValTyp).full = parser.full := by
  rcases flushPrevious_eq newValTyp parser with ⟨traceEq, floatsEq, uintsEq, intsEq⟩
  rw [full, full, pending, pending, traceEq, floatsEq, uintsEq, intsEq]
  simp only [List.map_append, List.map_map, List.append_assoc, List.append_cancel_left_eq]
  by_cases changed : parser.oldValTyp = newValTyp
  · -- only one cache holds values, so that none is overtaken
    have floatsNil := steady.floats
    have uintsNil := steady.uints
    have intsNil := steady.ints
    rw [changed] at floatsNil uintsNil intsNil
    cases newValTyp with
    | none => simp [floatsNil, uintsNil, intsNil]
    | other => simp [floatsNil, uintsNil, intsNil]
    | float =>
        have floats := handed_append_kept (parser.Due .float .float parser.floatValues)
          parser.floatValues .double
        simpa [uintsNil, intsNil] using floats
    | uint =>
        have uints := handed_append_kept (parser.Due .uint .uint parser.uintValues)
          parser.uintValues .uint64
        simpa [floatsNil, intsNil] using uints
    | int =>
        have ints := handed_append_kept (parser.Due .int .int parser.intValues)
          parser.intValues .int64
        simpa [floatsNil, uintsNil] using ints
  · have floats := handed_append_kept (parser.Due newValTyp .float parser.floatValues)
      parser.floatValues .double
    have uints := handed_append_kept (parser.Due newValTyp .uint parser.uintValues)
      parser.uintValues .uint64
    have ints := handed_append_kept (parser.Due newValTyp .int parser.intValues)
      parser.intValues .int64
    rw [kept_of_changed changed, List.map_nil, List.append_nil] at floats uints ints
    rw [kept_of_changed changed, kept_of_changed changed, kept_of_changed changed, floats, uints,
      ints]
    simp

theorem flushPrevious_grows (newValTyp : CachedType) (parser : StreamParser) :
    parser.trace <+: (parser.flushPrevious newValTyp).trace := by
  rw [(flushPrevious_eq newValTyp parser).1]
  exact List.prefix_append _ _

theorem consume_pending (values : List Scalar) (parser : StreamParser) :
    (parser.consume values).pending = parser.pending :=
  rfl

theorem consume_attrStack (values : List Scalar) (parser : StreamParser) :
    (parser.consume values).attrStack = parser.attrStack :=
  rfl

theorem consume_listStack (values : List Scalar) (parser : StreamParser) :
    (parser.consume values).listStack = parser.listStack :=
  rfl

theorem consumeOther_attrStack (value : Scalar) (parser : StreamParser) :
    (parser.consumeOther value).attrStack = parser.attrStack :=
  (consume_attrStack _ _).trans (flushPrevious_attrStack .other parser)

theorem consumeOther_listStack (value : Scalar) (parser : StreamParser) :
    (parser.consumeOther value).listStack = parser.listStack :=
  (consume_listStack _ _).trans (flushPrevious_listStack .other parser)

theorem consume_steady (values : List Scalar) (steady : parser.Steady) :
    (parser.consume values).Steady :=
  ⟨steady.floats, steady.uints, steady.ints⟩

/-- Other values flush all caches. -/
theorem consumeOther_trace (steady : parser.Steady) (value : Scalar) :
    (parser.consumeOther value).trace = parser.full ++ [value.call] ∧
      (parser.consumeOther value).pending = [] := by
  have flushed : (parser.flushPrevious .other).pending = [] :=
    pending_of_steady (flushPrevious_steady steady .other) (by simp) (by simp) (by simp)
  have fullEq := flushPrevious_full steady .other
  rw [full, flushed, List.append_nil] at fullEq
  constructor
  · rw [consumeOther, trace_consume, fullEq]
    rfl
  · rw [consumeOther, consume_pending, flushed]

/-- The innermost container is a list. -/
def InList (parser : StreamParser) : Prop :=
  parser.listStack.head? = some true

theorem doPush_inList (inList : parser.InList) (value : BitVec 64) (cache : Cache)
    (newValTyp : CachedType) :
    parser.doPush value cache newValTyp =
      cache.assign (cache.values (parser.flushPrevious newValTyp) ++ [value])
        (parser.flushPrevious newValTyp) := by
  unfold InList at inList
  unfold doPush
  split
  · rfl
  · rename_i other
    rcases List.head?_eq_some_iff.mp inList with ⟨lists, stackEq⟩
    exact absurd stackEq (other lists)

theorem doPush_outside (outside : ¬parser.InList) (value : BitVec 64) (cache : Cache)
    (newValTyp : CachedType) :
    parser.doPush value cache newValTyp = parser.consume [cache.scalar value] := by
  unfold InList at outside
  unfold doPush
  split
  · rename_i lists stackEq
    rw [stackEq] at outside
    exact absurd rfl outside
  · rfl

end StreamParser

open StreamParser

namespace Number

/-- The cache of numbers of this type. -/
def cache : Number → Cache
  | .int _ => intCache
  | .uint _ => uintCache
  | .int64 _ => intCache
  | .uint64 _ => uintCache
  | .double _ => floatCache

def cachedType : Number → CachedType
  | .int _ => .int
  | .uint _ => .uint
  | .int64 _ => .int
  | .uint64 _ => .uint
  | .double _ => .float

/-- The number as it is cached. -/
def cached : Number → BitVec 64
  | .int value => value.signExtend 64
  | .uint value => value.setWidth 64
  | .int64 value => value
  | .uint64 value => value
  | .double bits => bits

theorem handle_callback (number : Number) (parser : StreamParser) :
    parser.handle number.callback =
      some (parser.doPush number.cached number.cache number.cachedType) := by
  cases number <;> rfl

theorem scalar_cached (number : Number) : number.cache.scalar number.cached = number.scalar := by
  cases number <;> rfl

theorem assign_pending (number : Number) {parser : StreamParser} (steady : parser.Steady)
    (last : parser.oldValTyp = number.cachedType) :
    (number.cache.assign (number.cache.values parser ++ [number.cached]) parser).pending =
      parser.pending ++ [number.scalar.call] := by
  have floatsNil := steady.floats
  have uintsNil := steady.uints
  have intsNil := steady.ints
  rw [last] at floatsNil uintsNil intsNil
  cases number <;>
    simp_all [cache, cached, cachedType, scalar, pending, intCache, uintCache, floatCache]

theorem assign_trace (number : Number) (values : List (BitVec 64)) (parser : StreamParser) :
    (number.cache.assign values parser).trace = parser.trace := by
  cases number <;> rfl

theorem assign_steady (number : Number) (values : List (BitVec 64)) {parser : StreamParser}
    (steady : parser.Steady) (last : parser.oldValTyp = number.cachedType) :
    (number.cache.assign values parser).Steady := by
  rcases steady with ⟨floats, uints, ints⟩
  cases number <;> constructor <;> simp_all [cache, cachedType, intCache, uintCache, floatCache]

theorem assign_calls (number : Number) (values : List (BitVec 64)) (parser : StreamParser) :
    (number.cache.assign values parser).calls = parser.calls := by
  cases number <;> rfl

theorem assign_stacks (number : Number) (values : List (BitVec 64)) (parser : StreamParser) :
    (number.cache.assign values parser).attrStack = parser.attrStack ∧
      (number.cache.assign values parser).listStack = parser.listStack := by
  cases number <;> exact ⟨rfl, rfl⟩

end Number

end Eagine.ValueTree
