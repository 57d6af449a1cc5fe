import Mathlib.Data.List.Basic

/-!
# Payloads with a loose end

A payload is a sequence a producer emits into bounded storage, together with
the number of its last elements that the producer drops silently when they do
not fit.  A producer that reports every loss has payloads without a loose end.
Sequencing payloads keeps the loose end of the last nonempty one, because
whatever follows a cut meets storage that is already full.
-/

namespace Theory

universe u

/-- A sequence whose last `loose` elements may be lost unnoticed.  Something of
a nonempty sequence is always noticed. -/
@[ext]
structure Payload (α : Type u) where
  elems : List α
  loose : Nat
  firm : loose ≤ elems.length - 1

namespace Payload

variable {α : Type u}

/-- A payload of which every element is accounted for. -/
def exact (elems : List α) : Payload α :=
  ⟨elems, 0, Nat.zero_le _⟩

def nil : Payload α :=
  exact []

def length (payload : Payload α) : Nat :=
  payload.elems.length

/-- The room below which the loss of a part of the payload is noticed. -/
def need (payload : Payload α) : Nat :=
  payload.length - payload.loose

def append (first second : Payload α) : Payload α where
  elems := first.elems ++ second.elems
  loose := if second.elems = [] then first.loose else second.loose
  firm := by
    have firstFirm := first.firm
    have secondFirm := second.firm
    split
    · rename_i empty
      simpa [empty] using firstFirm
    · rw [List.length_append]
      omega

instance : Append (Payload α) :=
  ⟨append⟩

/-- The payloads of a list, one after another. -/
def concat (payloads : List (Payload α)) : Payload α :=
  payloads.foldr append nil

@[simp]
theorem exact_elems (elems : List α) : (exact elems).elems = elems :=
  rfl

@[simp]
theorem exact_loose (elems : List α) : (exact elems).loose = 0 :=
  rfl

@[simp]
theorem nil_elems : (nil : Payload α).elems = [] :=
  rfl

@[simp]
theorem append_elems (first second : Payload α) :
    (first ++ second).elems = first.elems ++ second.elems :=
  rfl

@[simp]
theorem length_exact (elems : List α) : (exact elems).length = elems.length :=
  rfl

@[simp]
theorem length_append (first second : Payload α) :
    (first ++ second).length = first.length + second.length :=
  List.length_append

@[simp]
theorem concat_nil : concat ([] : List (Payload α)) = nil :=
  rfl

@[simp]
theorem concat_cons (payload : Payload α) (payloads : List (Payload α)) :
    concat (payload :: payloads) = payload ++ concat payloads :=
  rfl

theorem need_le_length (payload : Payload α) : payload.need ≤ payload.length :=
  Nat.sub_le _ _

@[simp]
theorem need_exact (elems : List α) : (exact elems).need = elems.length :=
  rfl

/-- Only the empty payload needs no room at all. -/
theorem need_eq_zero_iff (payload : Payload α) : payload.need = 0 ↔ payload.elems = [] := by
  have firm := payload.firm
  rw [← List.length_eq_zero_iff]
  unfold need length
  omega

theorem need_of_elems_eq_nil {payload : Payload α} (empty : payload.elems = []) :
    payload.need = 0 :=
  (need_eq_zero_iff payload).mpr empty

variable {first second : Payload α}

theorem loose_append_of_nil (empty : second.elems = []) :
    (first ++ second).loose = first.loose := by
  change (if second.elems = [] then first.loose else second.loose) = first.loose
  rw [if_pos empty]

theorem loose_append_of_ne_nil (nonempty : second.elems ≠ []) :
    (first ++ second).loose = second.loose := by
  change (if second.elems = [] then first.loose else second.loose) = second.loose
  rw [if_neg nonempty]

theorem append_of_nil (empty : second.elems = []) : first ++ second = first := by
  ext1
  · simp [empty]
  · exact loose_append_of_nil empty

theorem need_append_of_ne_nil (nonempty : second.elems ≠ []) :
    (first ++ second).need = first.length + second.need := by
  have firm := second.firm
  have positive := List.length_pos_of_ne_nil nonempty
  rw [need, length_append, loose_append_of_ne_nil nonempty]
  unfold need length
  omega

theorem loose_append (firstFirm : first.loose = 0) (secondFirm : second.loose = 0) :
    (first ++ second).loose = 0 := by
  by_cases empty : second.elems = []
  · rw [loose_append_of_nil empty, firstFirm]
  · rw [loose_append_of_ne_nil empty, secondFirm]

variable {payloads : List (Payload α)}

theorem loose_concat
    (firm : ∀ payload ∈ payloads, payload.loose = 0) : (concat payloads).loose = 0 := by
  induction payloads with
  | nil => rfl
  | cons payload payloads ih =>
      rw [concat_cons]
      exact loose_append (firm payload List.mem_cons_self)
        (ih fun other mem => firm other (List.mem_cons_of_mem payload mem))

/-- The loose end of several payloads is the one of the last payload. -/
theorem loose_concat_of_ne_nil (nonempty : payloads ≠ [])
    (solid : ∀ payload ∈ payloads, payload.elems ≠ []) :
    (concat payloads).loose = (payloads.getLast nonempty).loose := by
  induction payloads with
  | nil => exact absurd rfl nonempty
  | cons payload payloads ih =>
      rw [concat_cons]
      by_cases last : payloads = []
      · subst last
        exact loose_append_of_nil rfl
      · have restSolid : ∀ other ∈ payloads, other.elems ≠ [] := fun other mem =>
          solid other (List.mem_cons_of_mem payload mem)
        have restElems : (concat payloads).elems ≠ [] := by
          rcases List.exists_cons_of_ne_nil last with ⟨first, others, rfl⟩
          rw [concat_cons, append_elems]
          exact List.append_ne_nil_of_left_ne_nil (restSolid first List.mem_cons_self) _
        rw [loose_append_of_ne_nil restElems, ih last restSolid, List.getLast_cons last]

/-- Room for two payloads in a row is room for the first one, and then room for
the second one. -/
theorem need_le_of_append {room : Nat} (enough : (first ++ second).need ≤ room) :
    first.need ≤ room ∧ second.need ≤ room - first.length := by
  have firstNeed := first.need_le_length
  by_cases empty : second.elems = []
  · rw [append_of_nil empty] at enough
    exact ⟨enough, need_of_elems_eq_nil empty ▸ Nat.zero_le _⟩
  · rw [need_append_of_ne_nil empty] at enough
    omega

/-- Where two payloads in a row miss room, either the first one misses it or
the second one does. -/
theorem lt_need_of_append {room : Nat} (tooSmall : room < (first ++ second).need) :
    room < first.need ∨ first.need ≤ room ∧ room - first.length < second.need := by
  rcases Nat.lt_or_ge room first.need with firstSmall | firstRoom
  · exact Or.inl firstSmall
  · right
    by_cases empty : second.elems = []
    · rw [append_of_nil empty] at tooSmall
      exact absurd firstRoom (Nat.not_le.mpr tooSmall)
    · have nonzero : second.need ≠ 0 := by
        rw [Ne, need_eq_zero_iff]
        exact empty
      rw [need_append_of_ne_nil empty] at tooSmall
      omega

@[simp]
theorem append_nil (payload : Payload α) : payload ++ nil = payload :=
  append_of_nil rfl

@[simp]
theorem nil_append (payload : Payload α) : nil ++ payload = payload := by
  ext1
  · rfl
  · by_cases empty : payload.elems = []
    · have firm := payload.firm
      rw [loose_append_of_nil empty]
      rw [empty] at firm
      exact (Nat.le_zero.mp firm).symm
    · exact loose_append_of_ne_nil empty

theorem append_assoc (first second third : Payload α) :
    first ++ second ++ third = first ++ (second ++ third) := by
  ext1
  · simp
  · by_cases thirdEmpty : third.elems = []
    · rw [append_of_nil thirdEmpty, append_of_nil thirdEmpty]
    · have nonempty : (second ++ third).elems ≠ [] := by simp [thirdEmpty]
      rw [loose_append_of_ne_nil thirdEmpty, loose_append_of_ne_nil nonempty,
        loose_append_of_ne_nil thirdEmpty]

@[simp]
theorem exact_append_exact (first second : List α) :
    exact first ++ exact second = exact (first ++ second) := by
  ext1
  · rfl
  · by_cases empty : second = []
    · exact loose_append_of_nil empty
    · exact loose_append_of_ne_nil empty

@[simp]
theorem exact_nil : exact ([] : List α) = nil :=
  rfl

theorem concat_map_exact {β : Type u} (emit : β → List α) (values : List β) :
    concat (values.map fun value => exact (emit value)) = exact (values.flatMap emit) := by
  induction values with
  | nil => rfl
  | cons value values ih =>
      rw [List.map_cons, concat_cons, ih, exact_append_exact, List.flatMap_cons]

end Payload

end Theory
