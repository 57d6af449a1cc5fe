import Mathlib.Algebra.Group.Action.Defs
import Mathlib.Algebra.Order.BigOperators.Group.List
import Mathlib.Algebra.Order.Ring.Nat

/-!
# Depth-first search

The nodes that are to be searched are on a stack, with the last one that was pushed
being the first one in the list. A step replaces it by its children, and nothing is
pushed after a node that is looked for.
-/

open List

namespace Theory

structure DepthFirst (α : Type*) where
  stack : List α
  done : Bool

namespace DepthFirst

variable {α : Type*} (children : α → List α) (found : α → Bool)

def push (s : DepthFirst α) (node : α) : DepthFirst α :=
  if s.done then s else ⟨node :: s.stack, found node⟩

def next (s : DepthFirst α) : DepthFirst α :=
  match s.stack with
  | [] => s
  | node :: rest => (children node).foldl (push found) ⟨rest, s.done⟩

def isDone (s : DepthFirst α) : Bool :=
  s.done || s.stack.isEmpty

/-- There are not too many children of a node, and they are smaller. -/
structure Bounded (children : α → List α) (branch : Nat) (size : α → Nat) : Prop where
  length_le : ∀ node, (children node).length ≤ branch
  size_lt : ∀ node, ∀ child ∈ children node, size child < size node

/-- More than all the nodes that can be searched below the ones on the stack. -/
def weight (branch : Nat) (size : α → Nat) (stack : List α) : Nat :=
  (stack.map fun node => (branch + 1) ^ size node).sum

variable {children} {found} {branch : Nat} {size : α → Nat}

theorem weight_le (branch : Nat) (nodes : List α) {bound : Nat}
    (small : ∀ node ∈ nodes, size node ≤ bound) :
    weight branch size nodes ≤ nodes.length * (branch + 1) ^ bound := by
  have each : ∀ power ∈ nodes.map fun node => (branch + 1) ^ size node,
      power ≤ (branch + 1) ^ bound := by
    intro power member
    obtain ⟨node, inside, rfl⟩ := mem_map.mp member
    exact Nat.pow_le_pow_right (Nat.succ_pos branch) (small node inside)
  have total := sum_le_card_nsmul _ _ each
  rwa [length_map, smul_eq_mul] at total

theorem weight_children_lt (bounded : Bounded children branch size) (node : α) :
    weight branch size (children node) < (branch + 1) ^ size node := by
  rcases Nat.eq_zero_or_pos (size node) with zero | positive
  · have none : children node = [] := by
      apply eq_nil_iff_forall_not_mem.mpr
      intro child member
      have smaller := bounded.size_lt node child member
      omega
    rw [none]
    exact Nat.pow_pos (Nat.succ_pos branch)
  · have atMost := weight_le branch (children node) fun child member =>
      Nat.le_pred_of_lt (bounded.size_lt node child member)
    calc
      weight branch size (children node)
          ≤ (children node).length * (branch + 1) ^ (size node - 1) := atMost
      _ ≤ branch * (branch + 1) ^ (size node - 1) :=
        Nat.mul_le_mul_right _ (bounded.length_le node)
      _ < (branch + 1) * (branch + 1) ^ (size node - 1) :=
        Nat.mul_lt_mul_of_pos_right (Nat.lt_succ_self branch) (Nat.pow_pos (Nat.succ_pos branch))
      _ = (branch + 1) ^ size node := by
        rw [← Nat.pow_succ', Nat.succ_eq_add_one, Nat.sub_add_cancel positive]

theorem weight_foldl_push_le (found : α → Bool) (branch : Nat) (size : α → Nat) (nodes : List α)
    (s : DepthFirst α) :
    weight branch size (nodes.foldl (push found) s).stack ≤
      weight branch size nodes + weight branch size s.stack := by
  induction nodes generalizing s with
  | nil => exact Nat.le_add_left _ _
  | cons node nodes ih =>
      rw [foldl_cons]
      refine (ih (s.push found node)).trans ?_
      rw [push]
      split_ifs
      · simp only [weight, map_cons, sum_cons]
        omega
      · simp only [weight, map_cons, sum_cons]
        omega

variable {nodes : List α}

/-- All nodes are pushed if none of them is looked for. -/
theorem foldl_push_of_not_found (others : ∀ node ∈ nodes, found node = false)
    (stack : List α) : nodes.foldl (push found) ⟨stack, false⟩ = ⟨nodes.reverse ++ stack, false⟩ := by
  induction nodes generalizing stack with
  | nil => rfl
  | cons node nodes ih =>
      rw [forall_mem_cons] at others
      have pushed : push found ⟨stack, false⟩ node = ⟨node :: stack, false⟩ := by
        rw [push, if_neg Bool.false_ne_true, others.1]
      rw [foldl_cons, pushed, ih others.2, reverse_cons,
        append_assoc, singleton_append]

theorem weight_next_lt (bounded : Bounded children branch size) {s : DepthFirst α}
    (more : ¬s.isDone = true) :
    weight branch size (s.next children found).stack < weight branch size s.stack := by
  obtain ⟨stack, done⟩ := s
  cases stack with
  | nil => exact absurd (Bool.or_true done) more
  | cons node rest =>
      have pushed := weight_foldl_push_le found branch size (children node) ⟨rest, done⟩
      have fewer := weight_children_lt bounded node
      rw [next]
      simp only [weight, map_cons, sum_cons] at pushed fewer ⊢
      omega

/-- Steps are taken until a node is found or there are none left. -/
def run (found : α → Bool) (bounded : Bounded children branch size) (s : DepthFirst α) :
    DepthFirst α :=
  if s.isDone then s else run found bounded (s.next children found)
termination_by weight branch size s.stack
decreasing_by exact weight_next_lt bounded ‹_›

variable (bounded : Bounded children branch size)

/-- What every step preserves holds after a run, that ends with a final state. -/
theorem run_invariant (found : α → Bool) (invariant : DepthFirst α → Prop)
    (step : ∀ s, ¬s.isDone = true → invariant s → invariant (s.next children found))
    {s : DepthFirst α} (initial : invariant s) :
    invariant (run found bounded s) ∧ (run found bounded s).isDone = true := by
  induction s using run.induct found bounded with
  | case1 s final =>
      rw [run, if_pos final]
      exact ⟨initial, final⟩
  | case2 s more ih =>
      rw [run, if_neg more]
      exact ih (step s more initial)

/-- What children inherit from all their parents holds of all the nodes on the stack. -/
theorem forall_mem_foldl_push {property : α → Prop} {s : DepthFirst α}
    (stacked : ∀ node ∈ s.stack, property node) (pushed : ∀ node ∈ nodes, property node) :
    ∀ node ∈ (nodes.foldl (push found) s).stack, property node := by
  induction nodes generalizing s with
  | nil => exact stacked
  | cons first nodes ih =>
      refine ih ?_ fun node member => pushed node (mem_cons_of_mem _ member)
      rw [push]
      split_ifs
      · exact stacked
      · exact forall_mem_cons.mpr ⟨pushed first mem_cons_self, stacked⟩

theorem forall_mem_run {property : α → Prop}
    (inherited : ∀ node, property node → ∀ child ∈ children node, property child)
    {s : DepthFirst α} (initial : ∀ node ∈ s.stack, property node) :
    ∀ node ∈ (run found bounded s).stack, property node := by
  refine (run_invariant bounded found (fun s => ∀ node ∈ s.stack, property node)
    (fun s _ stacked => ?_) initial).1
  obtain ⟨stack, done⟩ := s
  cases stack with
  | nil => exact stacked
  | cons first rest =>
      obtain ⟨here, others⟩ := forall_mem_cons.mp stacked
      exact forall_mem_foldl_push others (inherited first here)

/-- The last node is one that is looked for, if the search is done. -/
def Ends (found : α → Bool) (s : DepthFirst α) : Prop :=
  s.done = true → ∃ node rest, s.stack = node :: rest ∧ found node = true

/-- As long as the search is not done, there is a promising node on the stack. -/
def Leads (found : α → Bool) (promising : α → Prop) (s : DepthFirst α) : Prop :=
  s.done = false → ∃ node ∈ s.stack, promising node ∧ found node = false

variable {promising : α → Prop} {s : DepthFirst α}

theorem Ends.push (ends : Ends found s) (node : α) : Ends found (s.push found node) := by
  rw [DepthFirst.push]
  split_ifs
  · exact ends
  · intro done
    exact ⟨node, s.stack, rfl, done⟩

theorem Leads.push (leads : Leads found promising s) (node : α) :
    Leads found promising (s.push found node) := by
  rw [DepthFirst.push]
  split_ifs with done
  · exact leads
  · intro _
    obtain ⟨other, member, promises⟩ := leads (Bool.eq_false_iff.mpr done)
    exact ⟨other, mem_cons_of_mem _ member, promises⟩

theorem leads_push {node : α} (promises : promising node) :
    Leads found promising (s.push found node) := by
  rw [DepthFirst.push]
  split_ifs with done
  · intro more
    exact absurd (more.symm.trans done) Bool.false_ne_true
  · intro more
    exact ⟨node, mem_cons_self, promises, more⟩

theorem Ends.foldl_push (ends : Ends found s) (nodes : List α) :
    Ends found (nodes.foldl (DepthFirst.push found) s) := by
  induction nodes generalizing s with
  | nil => exact ends
  | cons node nodes ih => exact ih (ends.push node)

theorem Leads.foldl_push (leads : Leads found promising s) (nodes : List α) :
    Leads found promising (nodes.foldl (DepthFirst.push found) s) := by
  induction nodes generalizing s with
  | nil => exact leads
  | cons node nodes ih => exact ih (leads.push node)

theorem leads_foldl_push {node : α} (member : node ∈ nodes) (promises : promising node) :
    Leads found promising (nodes.foldl (DepthFirst.push found) s) := by
  induction nodes generalizing s with
  | nil => exact absurd member not_mem_nil
  | cons first nodes ih =>
      rcases mem_cons.mp member with rfl | later
      · exact (leads_push promises).foldl_push nodes
      · exact ih later

/-- A node is found if there is a promising one on the stack, and every promising node
that is not looked for has a promising child. -/
theorem run_found
    (child : ∀ node, promising node → found node = false →
      ∃ child ∈ children node, promising child)
    (ends : Ends found s) (leads : Leads found promising s) :
    ∃ node rest, (run found bounded s).stack = node :: rest ∧ found node = true := by
  have both := run_invariant bounded found
    (fun s => Ends found s ∧ Leads found promising s) ?_ ⟨ends, leads⟩
  · obtain ⟨⟨ends, leads⟩, final⟩ := both
    by_cases done : (run found bounded s).done = true
    · exact ends done
    · obtain ⟨node, member, -⟩ := leads (Bool.eq_false_iff.mpr done)
      have empty : (run found bounded s).stack.isEmpty = true :=
        ((Bool.or_eq_true _ _).mp final).resolve_left done
      rw [isEmpty_iff.mp empty] at member
      exact absurd member not_mem_nil
  · rintro ⟨stack, done⟩ more ⟨ends, leads⟩
    have open' : done = false := by
      cases done
      · rfl
      · exact absurd rfl more
    subst open'
    obtain ⟨node, member, promises, other⟩ := leads rfl
    cases stack with
    | nil => exact absurd member not_mem_nil
    | cons first rest =>
        have unfinished : Ends found ⟨rest, false⟩ := fun done => absurd done Bool.false_ne_true
        refine ⟨unfinished.foldl_push _, ?_⟩
        rcases mem_cons.mp member with rfl | later
        · obtain ⟨next, inside, promises'⟩ := child node promises other
          exact leads_foldl_push inside promises'
        · have still : Leads found promising ⟨rest, false⟩ := fun _ => ⟨node, later, promises, other⟩
          exact still.foldl_push _

end DepthFirst

end Theory
