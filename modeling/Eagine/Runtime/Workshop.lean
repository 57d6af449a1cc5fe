import Eagine.Theory.Accounts
import Mathlib.Algebra.Order.Group.Multiset

/-!
# The workshop

Work units are queued and done by worker threads, in any interleaving. What a thread does between the
locking and the unlocking of the mutex is a single step, and a thread that waits for the condition
variable is asleep until it is notified, or wakes up for no reason. Workers are added without the
mutex, so that a thread may only do that before work is enqueued; `enqueue` adds them on its own.
-/

namespace Eagine.Runtime

open Theory Multiset

universe u

/-- Where a worker thread is in `_employ`. Behind `_fetch` it has the shutdown flag as it was then. -/
inductive Worker (W : Type u) where
  | fetching
  | asleep
  | woken
  | doing (work : W) (shutdown : Bool)
  | delivering (work : W) (shutdown : Bool)
  | enqueuing (work : W) (shutdown : Bool)
  | left

/-- A thread that may be asleep: a worker, or one that waits until the workshop is idle -/
inductive Sleeper where
  | worker (index : Nat)
  | idler

/-- `workshop` with the threads that use it, and what was done so far -/
structure Workshop (W : Type u) where
  workers : List (Worker W) := []
  workQueue : List W := []
  isShutdown : Bool := false
  idlersAsleep : Nat := 0
  idlersWoken : Nat := 0
  enqueued : List W := []
  pushed : List W := []
  popped : List W := []
  results : List (W × Bool) := []
  delivered : List W := []

namespace Worker

variable {W : Type u}

/-- The end of an iteration of `_employ` -/
def next (shutdown : Bool) : Worker W :=
  if shutdown then left else fetching

/-- Behind `_fetch` with its results -/
def fetched (shutdown : Bool) : Option W → Worker W
  | some work => doing work shutdown
  | none => next shutdown

def isAsleep : Worker W → Bool
  | asleep => true
  | _ => false

def notified : Worker W → Worker W
  | asleep => woken
  | worker => worker

end Worker

/-- The steps of the threads. The thread that `notify_one` wakes is given, if one is asleep. -/
inductive WorkshopEvent (W : Type u) where
  | enqueue (work : W) (notified : Option Sleeper)
  | addWorkers (n : Nat)
  | ensureWorkers (n : Nat)
  | shutdown
  | waitUntilIdle
  | idlerResumes
  | wakesUp (sleeper : Sleeper)
  | fetch (index : Nat)
  | doIt (index : Nat) (result : Bool)
  | deliver (index : Nat)
  | enqueueAgain (index : Nat) (notified : Option Sleeper)

namespace Workshop

variable {W : Type u}

def setWorker (s : Workshop W) (index : Nat) (worker : Worker W) : Workshop W :=
  { s with workers := s.workers.set index worker }

def wake (s : Workshop W) : Sleeper → Option (Workshop W)
  | .worker index =>
      match s.workers[index]? with
      | some .asleep => some (s.setWorker index .woken)
      | _ => none
  | .idler =>
      if 0 < s.idlersAsleep then
        some { s with idlersAsleep := s.idlersAsleep - 1, idlersWoken := s.idlersWoken + 1 }
      else none

def isAnyAsleep (s : Workshop W) : Bool :=
  s.workers.any Worker.isAsleep || decide (0 < s.idlersAsleep)

def notifyOne (s : Workshop W) : Option Sleeper → Option (Workshop W)
  | some sleeper => s.wake sleeper
  | none => if s.isAnyAsleep then none else some s

def notifyAll (s : Workshop W) : Workshop W :=
  { s with
    workers := s.workers.map Worker.notified
    idlersAsleep := 0
    idlersWoken := s.idlersWoken + s.idlersAsleep }

def addWorkers (n : Nat) (s : Workshop W) : Workshop W :=
  { s with workers := s.workers ++ List.replicate n .fetching }

def ensureWorkers (n : Nat) (s : Workshop W) : Workshop W :=
  if n > s.workers.length then s.addWorkers (n - s.workers.length) else s

/-- `enqueue`, where the hardware has this number of concurrent threads -/
def enqueue (concurrency : Nat) (work : W) (notified : Option Sleeper) (s : Workshop W) :
    Option (Workshop W) :=
  let staffed := if s.workers.isEmpty then s.ensureWorkers (max (concurrency / 2) 2) else s
  notifyOne
    { staffed with workQueue := staffed.workQueue ++ [work], pushed := staffed.pushed ++ [work] }
    notified

/-- The condition of the `wait` in `_fetch` is tested, and what is done if it is met. -/
def resume (index : Nat) (s : Workshop W) : Workshop W :=
  match s.workQueue with
  | work :: rest =>
      { s with
        workers := s.workers.set index (.fetched s.isShutdown (some work))
        workQueue := rest
        popped := s.popped ++ [work] }
  | [] =>
      if s.isShutdown then s.setWorker index (.fetched true none) else s.setWorker index .asleep

/-- `_fetch` when the mutex is locked, for the first time or again -/
def fetch (index : Nat) (s : Workshop W) : Option (Workshop W) :=
  match s.workers[index]? with
  | some .fetching =>
      some (if s.isShutdown then s.setWorker index (.fetched true none) else s.resume index)
  | some .woken => some (s.resume index)
  | _ => none

def doIt (index : Nat) (result : Bool) (s : Workshop W) : Option (Workshop W) :=
  match s.workers[index]? with
  | some (.doing work shutdown) =>
      some { s with
        workers := s.workers.set index
          (if result then .delivering work shutdown else .enqueuing work shutdown)
        results := s.results ++ [(work, result)] }
  | _ => none

def deliver (index : Nat) (s : Workshop W) : Option (Workshop W) :=
  match s.workers[index]? with
  | some (.delivering work shutdown) =>
      some (notifyAll { s with
        workers := s.workers.set index (.next shutdown)
        delivered := s.delivered ++ [work] })
  | _ => none

def enqueueAgain (concurrency index : Nat) (notified : Option Sleeper) (s : Workshop W) :
    Option (Workshop W) :=
  match s.workers[index]? with
  | some (.enqueuing work shutdown) =>
      (s.setWorker index (.next shutdown)).enqueue concurrency work notified
  | _ => none

def shutdown (s : Workshop W) : Workshop W :=
  notifyAll { s with isShutdown := true }

/-- `wait_until_idle`, up to where the thread sleeps or returns -/
def waitUntilIdle (s : Workshop W) : Workshop W :=
  if s.workQueue.isEmpty then s else { s with idlersAsleep := s.idlersAsleep + 1 }

def idlerResumes (s : Workshop W) : Option (Workshop W) :=
  if 0 < s.idlersWoken then
    some (waitUntilIdle { s with idlersWoken := s.idlersWoken - 1 })
  else none

def step (concurrency : Nat) (s : Workshop W) : WorkshopEvent W → Option (Workshop W)
  | .enqueue work notified =>
      enqueue concurrency work notified { s with enqueued := s.enqueued ++ [work] }
  | .addWorkers n => if s.pushed.isEmpty then some (s.addWorkers n) else none
  | .ensureWorkers n => if s.pushed.isEmpty then some (s.ensureWorkers n) else none
  | .shutdown => some s.shutdown
  | .waitUntilIdle => some s.waitUntilIdle
  | .idlerResumes => s.idlerResumes
  | .wakesUp sleeper => s.wake sleeper
  | .fetch index => s.fetch index
  | .doIt index result => s.doIt index result
  | .deliver index => s.deliver index
  | .enqueueAgain index notified => s.enqueueAgain concurrency index notified

end Workshop

/-- What a worker that has a unit does with it next -/
inductive Task where
  | doIt
  | deliver
  | enqueue
  deriving DecidableEq

/-- The task behind an attempt -/
def Task.next (result : Bool) : Task :=
  if result then deliver else enqueue

namespace Worker

variable {W : Type u}

/-- The unit that a worker has for a task -/
def has : Worker W → Task → Multiset W
  | doing work _ => Pi.single .doIt {work}
  | delivering work _ => Pi.single .deliver {work}
  | enqueuing work _ => Pi.single .enqueue {work}
  | _ => 0

theorem has_next (shutdown : Bool) : (next shutdown : Worker W).has = 0 := by
  cases shutdown <;> rfl

theorem has_notified (worker : Worker W) : worker.notified.has = worker.has := by
  cases worker <;> rfl

end Worker

/-- Where the units of a workshop are, no matter which threads are asleep -/
@[ext]
structure Ledger (W : Type u) where
  enqueued : List W
  pushed : List W
  popped : List W
  workQueue : List W
  has : Task → Multiset W
  results : List (W × Bool)
  delivered : List W

/-- A unit moves on. -/
inductive Ledger.Moves {W : Type u} : Ledger W → Ledger W → Prop
  | stays (l : Ledger W) : Moves l l
  | enqueued (l : Ledger W) (work : W) :
      Moves l { l with
        enqueued := l.enqueued ++ [work]
        pushed := l.pushed ++ [work]
        workQueue := l.workQueue ++ [work] }
  | fetched {l : Ledger W} {work : W} {rest : List W} (isNext : l.workQueue = work :: rest) :
      Moves l { l with
        workQueue := rest
        popped := l.popped ++ [work]
        has := l.has + Pi.single .doIt {work} }
  | attempted {l : Ledger W} {work : W} {has : Task → Multiset W} (result : Bool)
      (isTaken : has + Pi.single .doIt {work} = l.has + Pi.single (.next result) {work}) :
      Moves l { l with
        has := has
        results := l.results ++ [(work, result)] }
  | delivered {l : Ledger W} {work : W} {has : Task → Multiset W}
      (isTaken : has + Pi.single .deliver {work} = l.has) :
      Moves l { l with
        has := has
        delivered := l.delivered ++ [work] }
  | enqueuedAgain {l : Ledger W} {work : W} {has : Task → Multiset W}
      (isTaken : has + Pi.single .enqueue {work} = l.has) :
      Moves l { l with
        has := has
        pushed := l.pushed ++ [work]
        workQueue := l.workQueue ++ [work] }

namespace Workshop

variable {W : Type u}

def ledger (s : Workshop W) : Ledger W where
  enqueued := s.enqueued
  pushed := s.pushed
  popped := s.popped
  workQueue := s.workQueue
  has := total Worker.has s.workers
  results := s.results
  delivered := s.delivered

variable {s s' : Workshop W} {concurrency index : Nat} {before after : Worker W}
  {notified : Option Sleeper}

/-- A worker that has nothing behind the step gives away what it had. -/
theorem total_set_of_has {workers : List (Worker W)} (found : workers[index]? = some before)
    (nothing : after.has = 0) :
    total Worker.has (workers.set index after) + before.has = total Worker.has workers := by
  have changed := @total_set _ _ _ Worker.has _ _ _ found after
  rwa [nothing, add_zero] at changed

/-- A worker that has nothing, neither before nor after, does not matter. -/
theorem ledger_setWorker (found : s.workers[index]? = some before)
    (nothingBefore : before.has = 0) (nothingAfter : after.has = 0) :
    (s.setWorker index after).ledger = s.ledger := by
  have same := total_set_of_has found nothingAfter
  rw [nothingBefore, add_zero] at same
  rw [ledger, setWorker, same, ledger]

theorem ledger_wake {sleeper : Sleeper} (woken : s.wake sleeper = some s') :
    s'.ledger = s.ledger := by
  cases sleeper with
  | worker index =>
      rw [wake] at woken
      split at woken
      · next found =>
          obtain rfl := Option.some.inj woken
          exact ledger_setWorker found rfl rfl
      · cases woken
  | idler =>
      rw [wake] at woken
      split at woken
      · obtain rfl := Option.some.inj woken
        rfl
      · cases woken

theorem ledger_notifyOne (woken : s.notifyOne notified = some s') : s'.ledger = s.ledger := by
  cases notified with
  | some sleeper => exact ledger_wake woken
  | none =>
      rw [notifyOne] at woken
      split at woken
      · cases woken
      · obtain rfl := Option.some.inj woken
        rfl

theorem ledger_notifyAll (s : Workshop W) : s.notifyAll.ledger = s.ledger := by
  simp only [ledger, notifyAll, total_map, Worker.has_notified]

theorem ledger_addWorkers (n : Nat) (s : Workshop W) : (s.addWorkers n).ledger = s.ledger := by
  have fresh : total (Worker.has (W := W)) (List.replicate n .fetching) = 0 :=
    total_eq_zero _ fun worker member => (List.mem_replicate.mp member).2 ▸ rfl
  rw [ledger, addWorkers, total_append, fresh, add_zero, ledger]

theorem ledger_ensureWorkers (n : Nat) (s : Workshop W) :
    (s.ensureWorkers n).ledger = s.ledger := by
  rw [ensureWorkers]
  split
  · exact ledger_addWorkers _ s
  · rfl

theorem ledger_enqueue {work : W} (enqueued : s.enqueue concurrency work notified = some s') :
    s'.ledger = { s.ledger with
      pushed := s.pushed ++ [work]
      workQueue := s.workQueue ++ [work] } := by
  rw [ledger_notifyOne enqueued]
  have staffed : (if s.workers.isEmpty then s.ensureWorkers (max (concurrency / 2) 2)
      else s).ledger = s.ledger := by
    split
    · exact ledger_ensureWorkers _ s
    · rfl
  generalize (if s.workers.isEmpty then s.ensureWorkers (max (concurrency / 2) 2) else s) = t
    at staffed ⊢
  have queue : t.workQueue = s.workQueue := congrArg Ledger.workQueue staffed
  have pushed : t.pushed = s.pushed := congrArg Ledger.pushed staffed
  rw [← staffed, ← queue, ← pushed]
  rfl

/-- A worker that has nothing takes the next unit, if there is one. -/
theorem moves_resume (found : s.workers[index]? = some before) (nothing : before.has = 0) :
    s.ledger.Moves (s.resume index).ledger := by
  rw [resume]
  split
  · next work rest isNext =>
      have changed := @total_set _ _ _ Worker.has _ _ _ found (.doing work s.isShutdown)
      rw [nothing, add_zero] at changed
      convert Ledger.Moves.fetched (l := s.ledger) isNext using 1
      rw [ledger, Worker.fetched, changed]
      rfl
  · split
    · rw [Worker.fetched, ledger_setWorker found nothing (Worker.has_next true)]
      exact .stays _
    · rw [ledger_setWorker found nothing rfl]
      exact .stays _

theorem moves_fetch (fetched : s.fetch index = some s') : s.ledger.Moves s'.ledger := by
  rw [fetch] at fetched
  split at fetched
  · next found =>
      obtain rfl := Option.some.inj fetched
      split
      · rw [Worker.fetched, ledger_setWorker found rfl (Worker.has_next true)]
        exact .stays _
      · exact moves_resume found rfl
  · next found =>
      obtain rfl := Option.some.inj fetched
      exact moves_resume found rfl
  · cases fetched

theorem moves_doIt {result : Bool} (done : s.doIt index result = some s') :
    s.ledger.Moves s'.ledger := by
  rw [doIt] at done
  split at done
  · next work shutdown found =>
      obtain rfl := Option.some.inj done
      refine Ledger.Moves.attempted (l := s.ledger) result ?_
      cases result with
      | true => exact total_set found (.delivering work shutdown)
      | false => exact total_set found (.enqueuing work shutdown)
  · cases done

theorem moves_deliver (delivered : s.deliver index = some s') :
    s.ledger.Moves s'.ledger := by
  rw [deliver] at delivered
  split at delivered
  · next work shutdown found =>
      obtain rfl := Option.some.inj delivered
      rw [ledger_notifyAll]
      exact Ledger.Moves.delivered (l := s.ledger)
        (total_set_of_has found (Worker.has_next shutdown))
  · cases delivered

theorem moves_enqueueAgain (enqueued : s.enqueueAgain concurrency index notified = some s') :
    s.ledger.Moves s'.ledger := by
  rw [enqueueAgain] at enqueued
  split at enqueued
  · next work shutdown found =>
      rw [ledger_enqueue enqueued]
      exact Ledger.Moves.enqueuedAgain (l := s.ledger)
        (total_set_of_has found (Worker.has_next shutdown))
  · cases enqueued

theorem ledger_waitUntilIdle (s : Workshop W) : s.waitUntilIdle.ledger = s.ledger := by
  rw [waitUntilIdle]
  split <;> rfl

/-- In every step of a thread at most one unit moves on. -/
theorem moves_step {event : WorkshopEvent W} (taken : s.step concurrency event = some s') :
    s.ledger.Moves s'.ledger := by
  cases event with
  | enqueue work notified =>
      rw [ledger_enqueue taken]
      exact .enqueued s.ledger work
  | addWorkers n =>
      obtain rfl := Option.some.inj (Option.ite_none_right_eq_some.mp taken).2
      rw [ledger_addWorkers]
      exact .stays _
  | ensureWorkers n =>
      obtain rfl := Option.some.inj (Option.ite_none_right_eq_some.mp taken).2
      rw [ledger_ensureWorkers]
      exact .stays _
  | shutdown =>
      obtain rfl := Option.some.inj taken
      rw [shutdown, ledger_notifyAll]
      exact .stays _
  | waitUntilIdle =>
      obtain rfl := Option.some.inj taken
      rw [ledger_waitUntilIdle]
      exact .stays _
  | idlerResumes =>
      rw [step, idlerResumes] at taken
      split at taken
      · obtain rfl := Option.some.inj taken
        rw [ledger_waitUntilIdle]
        exact .stays _
      · cases taken
  | wakesUp sleeper =>
      rw [ledger_wake taken]
      exact .stays _
  | fetch index => exact moves_fetch taken
  | doIt index result => exact moves_doIt taken
  | deliver index => exact moves_deliver taken
  | enqueueAgain index notified => exact moves_enqueueAgain taken

end Workshop

section Accounts

variable {W : Type u}

/-- The units whose attempts had this result -/
def attempts (result : Bool) (results : List (W × Bool)) : Multiset W :=
  total (fun attempt => if attempt.2 = result then {attempt.1} else 0) results

@[simp]
theorem attempts_append (result : Bool) (results : List (W × Bool)) (work : W) (last : Bool) :
    attempts result (results ++ [(work, last)]) =
      attempts result results + if last = result then {work} else 0 := by
  rw [attempts, total_append, total_cons, total_nil, add_zero, attempts]

namespace Ledger

/-- What was pushed is popped in the same order. A unit is attempted as often as it is popped. It is
delivered after an attempt that succeeds, and pushed again after one that fails. -/
structure IsBalanced (l : Ledger W) : Prop where
  order : l.pushed = l.popped ++ l.workQueue
  attempted :
    (l.popped : Multiset W) = l.has .doIt + (attempts true l.results + attempts false l.results)
  succeeded : attempts true l.results = l.has .deliver + l.delivered
  failed : (l.pushed : Multiset W) + l.has .enqueue = l.enqueued + attempts false l.results

theorem IsBalanced.moves {l l' : Ledger W} (balanced : l.IsBalanced) (moves : l.Moves l') :
    l'.IsBalanced := by
  rcases balanced with ⟨order, attempted, succeeded, failed⟩
  cases moves with
  | stays => exact ⟨order, attempted, succeeded, failed⟩
  | enqueued work =>
      refine ⟨?_, attempted, succeeded, ?_⟩
      · simp only [order, List.append_assoc]
      · simp only [← coe_add]
        rw [add_right_comm, failed, add_right_comm]
  | fetched isNext =>
      refine ⟨?_, ?_, ?_, ?_⟩
      · simp only [order, isNext, List.append_assoc, List.singleton_append]
      · simp only [← coe_add, attempted, coe_singleton, Pi.add_apply,
          Pi.single_eq_same]
        exact add_right_comm _ _ _
      · simpa using succeeded
      · simpa using failed
  | attempted result isTaken =>
      have doing := congrFun isTaken .doIt
      have delivering := congrFun isTaken .deliver
      have enqueuing := congrFun isTaken .enqueue
      cases result <;>
        simp only [Task.next, if_true, if_false, Bool.false_eq_true, Pi.add_apply, Pi.single_eq_same,
          ne_eq, reduceCtorEq, not_false_eq_true, Pi.single_eq_of_ne, add_zero]
          at doing delivering enqueuing
      case true =>
        refine ⟨order, ?_, ?_, ?_⟩
        · simp only [attempted, ← doing, attempts_append, if_true, reduceCtorEq, if_false]
          abel
        · simp only [delivering, attempts_append, if_true, succeeded]
          exact add_right_comm _ _ _
        · simpa [enqueuing] using failed
      case false =>
        refine ⟨order, ?_, ?_, ?_⟩
        · simp only [attempted, ← doing, attempts_append, if_true, reduceCtorEq, if_false]
          abel
        · simpa [delivering] using succeeded
        · simp only [enqueuing, attempts_append, if_true, ← add_assoc, failed]
  | delivered isTaken =>
      refine ⟨order, ?_, ?_, ?_⟩
      · simpa [← isTaken] using attempted
      · simp only [succeeded, ← isTaken, ← coe_add, coe_singleton, Pi.add_apply,
          Pi.single_eq_same]
        abel
      · simpa [← isTaken] using failed
  | enqueuedAgain isTaken =>
      refine ⟨?_, ?_, ?_, ?_⟩
      · simp only [order, List.append_assoc]
      · simpa [← isTaken] using attempted
      · simpa [← isTaken] using succeeded
      · simp only [← failed, ← isTaken, ← coe_add, coe_singleton, Pi.add_apply,
          Pi.single_eq_same]
        abel

/-- Every unit is queued, with a worker or delivered, as often as it was enqueued. -/
theorem IsBalanced.units {l : Ledger W} (balanced : l.IsBalanced) :
    (l.enqueued : Multiset W) =
      l.workQueue + (l.has .doIt + l.has .deliver + l.has .enqueue) + l.delivered := by
  have pushed : (l.pushed : Multiset W) = l.popped + l.workQueue := by
    rw [balanced.order, coe_add]
  refine add_right_cancel (b := attempts false l.results) ?_
  rw [← balanced.failed, pushed, balanced.attempted, balanced.succeeded]
  abel

end Ledger

end Accounts

namespace Workshop

variable {W : Type u}

/-- The units that the workers have -/
def held (s : Workshop W) : Multiset W :=
  s.ledger.has .doIt + s.ledger.has .deliver + s.ledger.has .enqueue

/-- The count of the latch of a batch, which each of its units counts down when it is delivered -/
def latch (s : Workshop W) (size : Nat) (inBatch : W → Bool) : Int :=
  size - s.delivered.countP inBatch

theorem isBalanced_init : ({} : Workshop W).ledger.IsBalanced where
  order := rfl
  attempted := rfl
  succeeded := rfl
  failed := rfl

/-- The workshop after some steps of its threads -/
abbrev after (concurrency : Nat) (events : List (WorkshopEvent W)) : Option (Workshop W) :=
  run (step concurrency) {} events

variable {concurrency : Nat} {events : List (WorkshopEvent W)} {s : Workshop W}

theorem isBalanced_after (ran : after concurrency events = some s) : s.ledger.IsBalanced :=
  @run_invariant _ _ (step concurrency) (fun s => s.ledger.IsBalanced) events
    (fun _ _ _ _ balanced taken => balanced.moves (moves_step taken)) {} s isBalanced_init ran

/-- Nothing is lost or done twice: what was pushed is popped in the same order, every unit is at one
place as often as it was enqueued, and it is delivered only after it has succeeded. When the latch of
a batch has counted down, neither the queue nor a worker refers to a unit of the batch. -/
structure IsAccounted (s : Workshop W) : Prop where
  order : s.pushed = s.popped ++ s.workQueue
  units : (s.enqueued : Multiset W) = s.workQueue + s.held + s.delivered
  delivered_le : (s.delivered : Multiset W) ≤ attempts true s.results
  succeeded_le : attempts true s.results ≤ s.enqueued
  latch_nonneg : ∀ size inBatch, s.enqueued.countP inBatch ≤ size → 0 ≤ s.latch size inBatch
  released : ∀ size inBatch, s.enqueued.countP inBatch ≤ size → s.latch size inBatch = 0 →
    ∀ work, inBatch work = true → work ∉ s.workQueue ∧ work ∉ s.held

theorem countP_units (units : (s.enqueued : Multiset W) = s.workQueue + s.held + s.delivered)
    (inBatch : W → Bool) :
    s.enqueued.countP inBatch =
      s.workQueue.countP inBatch + s.held.countP (inBatch ·) + s.delivered.countP inBatch := by
  have counted := congrArg (Multiset.countP (inBatch · = true)) units
  simpa only [countP_add, coe_countP, Bool.decide_eq_true] using counted

theorem unitsAccounted (ran : after concurrency events = some s) : s.IsAccounted := by
  have balanced : s.ledger.IsBalanced := isBalanced_after ran
  have units : (s.enqueued : Multiset W) = s.workQueue + s.held + s.delivered := balanced.units
  have succeeded : attempts true s.results = s.ledger.has .deliver + s.delivered := balanced.succeeded
  refine ⟨balanced.order, units, ?_, ?_, ?_, ?_⟩
  · rw [succeeded]
    exact le_add_left _ _
  · rw [succeeded, units]
    refine add_le_add ?_ le_rfl
    calc
      s.ledger.has .deliver ≤ s.ledger.has .doIt + s.ledger.has .deliver := le_add_left _ _
      _ ≤ s.held := le_add_right _ _
      _ ≤ s.workQueue + s.held := le_add_left _ _
  · intro size inBatch enough
    have counted := countP_units units inBatch
    rw [latch]
    omega
  · intro size inBatch enough isOpen work member
    have counted := countP_units units inBatch
    rw [latch] at isOpen
    have noneQueued : s.workQueue.countP inBatch = 0 := by omega
    have noneHeld : s.held.countP (inBatch ·) = 0 := by omega
    exact ⟨fun queued => List.countP_eq_zero.mp noneQueued work queued member,
      fun held => countP_eq_zero.mp noneHeld work held member⟩

/-- A unit is done again after a failure. -/
theorem unitsAccounted_again :
    ∃ s : Workshop Nat, after 4 [.enqueue 7 none, .fetch 1, .doIt 1 false, .enqueueAgain 1 none,
      .fetch 0, .doIt 0 true, .deliver 0] = some s ∧ s.delivered = [7] ∧ s.IsAccounted := by
  have done : (after 4 [.enqueue 7 none, .fetch 1, .doIt 1 false, .enqueueAgain 1 none, .fetch 0,
      .doIt 0 true, .deliver 0]).map delivered = some [7] := rfl
  rcases Option.map_eq_some_iff.mp done with ⟨s, ran, delivered⟩
  exact ⟨s, ran, delivered, unitsAccounted ran⟩

end Workshop

end Eagine.Runtime
