import Eagine.Runtime.Workshop

/-!
# Runs of the workshop

The workers and the threads that wait until the workshop is idle share a condition variable, but no
notification is lost: an idler is asleep only while something is to be done. So the workers go on
until everything is delivered.
-/

open List

namespace Eagine.Runtime

open Theory

universe u

namespace Worker

variable {W : Type u}

def isAwake : Worker W → Bool
  | asleep => false
  | left => false
  | _ => true

/-- The worker has a unit. -/
def isBusy : Worker W → Bool
  | doing _ _ => true
  | delivering _ _ => true
  | enqueuing _ _ => true
  | _ => false

/-- The worker does not leave behind its unit. -/
def stays : Worker W → Bool
  | doing _ shutdown => !shutdown
  | delivering _ shutdown => !shutdown
  | enqueuing _ shutdown => !shutdown
  | left => false
  | _ => true

theorem isAwake_of_not_isAsleep {worker : Worker W} (stays : worker.stays = true)
    (notAsleep : worker.isAsleep = false) : worker.isAwake = true := by
  cases worker with
  | asleep => exact Bool.noConfusion notAsleep
  | left => exact Bool.noConfusion stays
  | _ => rfl

theorem stays_notified (worker : Worker W) : worker.notified.stays = worker.stays := by
  cases worker <;> rfl

theorem isAwake_notified {worker : Worker W} (awake : worker.isAwake = true) :
    worker.notified.isAwake = true := by
  cases worker with
  | asleep => rfl
  | _ => exact awake

theorem isAwake_of_isBusy {worker : Worker W} (busy : worker.isBusy = true) :
    worker.isAwake = true := by
  cases worker with
  | asleep => exact Bool.noConfusion busy
  | left => exact Bool.noConfusion busy
  | _ => rfl

end Worker

section WakeUps

variable {W : Type u}

def AllStay (workers : List (Worker W)) : Prop :=
  ∀ worker ∈ workers, worker.stays = true

def AnyIs (state : Worker W → Bool) (workers : List (Worker W)) : Prop :=
  ∃ worker ∈ workers, state worker = true

variable {workers : List (Worker W)} {index : Nat} {before after : Worker W}
  {state : Worker W → Bool}

theorem AllStay.set (allStay : AllStay workers) (stays : after.stays = true) :
    AllStay (workers.set index after) := by
  intro worker member
  rcases mem_or_eq_of_mem_set member with other | rfl
  · exact allStay worker other
  · exact stays

theorem AllStay.stays_of_getElem? (allStay : AllStay workers)
    (found : workers[index]? = some before) : before.stays = true :=
  allStay before (mem_of_getElem? found)

theorem AllStay.notified (allStay : AllStay workers) : AllStay (workers.map Worker.notified) := by
  intro worker member
  rcases mem_map.mp member with ⟨before, present, rfl⟩
  rw [Worker.stays_notified]
  exact allStay before present

theorem AllStay.append (allStay : AllStay workers) (n : Nat) :
    AllStay (workers ++ List.replicate n .fetching) := by
  intro worker member
  rcases mem_append.mp member with old | fresh
  · exact allStay worker old
  · rw [(mem_replicate.mp fresh).2]
    rfl

theorem anyIs_set (found : workers[index]? = some before) (holds : state after = true) :
    AnyIs state (workers.set index after) :=
  ⟨after, List.mem_set (List.getElem?_eq_some_iff.mp found).1 after, holds⟩

/-- The others are in the same states as before. -/
theorem AnyIs.set (anyIs : AnyIs state workers) (found : workers[index]? = some before)
    (fails : state before = false) : AnyIs state (workers.set index after) := by
  rcases anyIs with ⟨worker, member, holds⟩
  rcases getElem?_of_mem member with ⟨other, foundOther⟩
  have different : index ≠ other := by
    rintro rfl
    obtain rfl := Option.some.inj (found.symm.trans foundOther)
    exact Bool.noConfusion (fails.symm.trans holds)
  exact ⟨worker, mem_of_getElem? ((getElem?_set_ne different).trans foundOther), holds⟩

theorem AnyIs.append (anyIs : AnyIs state workers) (others : List (Worker W)) :
    AnyIs state (workers ++ others) := by
  rcases anyIs with ⟨worker, member, holds⟩
  exact ⟨worker, mem_append_left others member, holds⟩

theorem AnyIs.notified (anyAwake : AnyIs Worker.isAwake workers) :
    AnyIs Worker.isAwake (workers.map Worker.notified) := by
  rcases anyAwake with ⟨worker, member, awake⟩
  exact ⟨worker.notified, mem_map_of_mem member, Worker.isAwake_notified awake⟩

theorem AnyIs.anyAwake (anyBusy : AnyIs Worker.isBusy workers) : AnyIs Worker.isAwake workers := by
  rcases anyBusy with ⟨worker, member, busy⟩
  exact ⟨worker, member, Worker.isAwake_of_isBusy busy⟩

end WakeUps

namespace Workshop

variable {W : Type u} {concurrency index : Nat} {s s' : Workshop W} {before : Worker W}
  {notified : Option Sleeper}

/-- Unless the workshop is shut down, all its workers stay, and where a unit is queued a worker is
awake. An idler is asleep only while something is to be done. -/
structure IsAttended (s : Workshop W) : Prop where
  stay : s.isShutdown = false → AllStay s.workers
  awake : s.isShutdown = false → s.workQueue ≠ [] → AnyIs Worker.isAwake s.workers
  idle : 0 < s.idlersAsleep → s.workQueue ≠ [] ∨ AnyIs Worker.isBusy s.workers

theorem IsAttended.anyAwake_of_idler (attended : s.IsAttended) (running : s.isShutdown = false)
    (idler : 0 < s.idlersAsleep) : AnyIs Worker.isAwake s.workers := by
  rcases attended.idle idler with queued | anyBusy
  · exact attended.awake running queued
  · exact anyBusy.anyAwake

/-! ### Notifications -/

/-- No worker leaves, falls asleep or loses its unit, and no idler falls asleep. -/
structure KeepsThreads (s s' : Workshop W) : Prop where
  isShutdown_eq : s'.isShutdown = s.isShutdown
  stay : AllStay s.workers → AllStay s'.workers
  awake : AnyIs Worker.isAwake s.workers → AnyIs Worker.isAwake s'.workers
  busy : AnyIs Worker.isBusy s.workers → AnyIs Worker.isBusy s'.workers
  idlers_le : s'.idlersAsleep ≤ s.idlersAsleep

/-- What a thread that wakes up leaves as it is -/
structure SameWork (s s' : Workshop W) : Prop extends KeepsThreads s s' where
  workQueue_eq : s'.workQueue = s.workQueue

theorem SameWork.refl (s : Workshop W) : s.SameWork s :=
  ⟨⟨rfl, id, id, id, le_rfl⟩, rfl⟩

theorem SameWork.isAttended (same : s.SameWork s') (attended : s.IsAttended) : s'.IsAttended where
  stay running := same.stay (attended.stay (same.isShutdown_eq ▸ running))
  awake running queued :=
    same.awake (attended.awake (same.isShutdown_eq ▸ running) (same.workQueue_eq ▸ queued))
  idle idler := by
    rw [same.workQueue_eq]
    exact (attended.idle (Nat.lt_of_lt_of_le idler same.idlers_le)).imp id same.busy

theorem sameWork_wake {sleeper : Sleeper} (woken : s.wake sleeper = some s') : s.SameWork s' := by
  cases sleeper with
  | worker index =>
      rw [wake] at woken
      split at woken
      · next found =>
          obtain rfl := Option.some.inj woken
          exact ⟨⟨rfl, fun allStay => allStay.set rfl, fun _ => anyIs_set found rfl,
            fun anyBusy => anyBusy.set found rfl, le_rfl⟩, rfl⟩
      · cases woken
  | idler =>
      rw [wake] at woken
      split at woken
      · obtain rfl := Option.some.inj woken
        exact ⟨⟨rfl, id, id, id, Nat.sub_le _ _⟩, rfl⟩
      · cases woken

theorem sameWork_notifyOne (woken : s.notifyOne notified = some s') : s.SameWork s' := by
  cases notified with
  | some sleeper => exact sameWork_wake woken
  | none =>
      rw [notifyOne] at woken
      split at woken
      · cases woken
      · obtain rfl := Option.some.inj woken
        exact .refl s

theorem sameWork_addWorkers (n : Nat) (s : Workshop W) : s.SameWork (s.addWorkers n) :=
  ⟨⟨rfl, fun allStay => allStay.append n, fun anyAwake => anyAwake.append _,
    fun anyBusy => anyBusy.append _, le_rfl⟩, rfl⟩

theorem sameWork_ensureWorkers (n : Nat) (s : Workshop W) : s.SameWork (s.ensureWorkers n) := by
  rw [ensureWorkers]
  split
  · exact sameWork_addWorkers _ s
  · exact .refl s

/-- Behind a notification a worker is awake, or an idler was notified. -/
theorem anyAwake_notifyOne (staffed : s.workers ≠ []) (allStay : AllStay s.workers)
    (woken : s.notifyOne notified = some s') :
    AnyIs Worker.isAwake s'.workers ∨ 0 < s.idlersAsleep := by
  cases notified with
  | none =>
      rw [notifyOne] at woken
      split at woken
      · cases woken
      · next noneAsleep =>
          obtain rfl := Option.some.inj woken
          rcases exists_mem_of_ne_nil _ staffed with ⟨worker, member⟩
          rw [isAnyAsleep, Bool.or_eq_true, not_or, any_eq_true] at noneAsleep
          have notAsleep : worker.isAsleep = false :=
            Bool.eq_false_iff.mpr fun isAsleep => noneAsleep.1 ⟨worker, member, isAsleep⟩
          exact Or.inl
            ⟨worker, member, Worker.isAwake_of_not_isAsleep (allStay worker member) notAsleep⟩
  | some sleeper =>
      cases sleeper with
      | idler =>
          rw [notifyOne, wake] at woken
          split at woken
          · next idler => exact Or.inr idler
          · cases woken
      | worker index =>
          rw [notifyOne, wake] at woken
          split at woken
          · next found =>
              obtain rfl := Option.some.inj woken
              exact Or.inl (anyIs_set found rfl)
          · cases woken

theorem workers_ensureWorkers_ne_nil {n : Nat} (positive : 0 < n) (s : Workshop W) :
    (s.ensureWorkers n).workers ≠ [] := by
  rw [ensureWorkers]
  split
  · next fewer =>
      intro none
      have length := congrArg List.length none
      rw [addWorkers, length_append, length_replicate, length_nil] at length
      omega
  · next enough => exact ne_nil_of_length_pos (by omega)

/-- When a thread is notified by `enqueue` there are workers and the unit is queued. -/
theorem enqueue_spec {work : W} (enqueued : s.enqueue concurrency work notified = some s') :
    ∃ queued : Workshop W, s.KeepsThreads queued ∧ queued.workers ≠ [] ∧ queued.workQueue ≠ [] ∧
      queued.notifyOne notified = some s' := by
  refine ⟨_, ?_, ?_, append_ne_nil_of_right_ne_nil _ (cons_ne_nil work []), enqueued⟩
  · split
    · rcases (sameWork_ensureWorkers (max (concurrency / 2) 2) s).toKeepsThreads with
        ⟨running, stay, awake, busy, idlers⟩
      exact ⟨running, stay, awake, busy, idlers⟩
    · exact ⟨rfl, id, id, id, le_rfl⟩
  · dsimp only
    split
    · exact workers_ensureWorkers_ne_nil (by omega) s
    · next present => exact fun none => present (isEmpty_iff.mpr none)

/-- It does not matter if `enqueue` notifies an idler, as long as a worker is awake then. -/
theorem isAttended_enqueue {work : W} (stay : s.isShutdown = false → AllStay s.workers)
    (attends : s.isShutdown = false → 0 < s.idlersAsleep → AnyIs Worker.isAwake s.workers)
    (enqueued : s.enqueue concurrency work notified = some s') : s'.IsAttended := by
  rcases enqueue_spec enqueued with ⟨queued, same, present, isQueued, woken⟩
  have later := sameWork_notifyOne woken
  have runs (running : s'.isShutdown = false) : s.isShutdown = false := by
    rw [← same.isShutdown_eq]
    exact later.isShutdown_eq.symm.trans running
  refine ⟨?_, ?_, ?_⟩
  · intro running
    exact later.stay (same.stay (stay (runs running)))
  · intro running _
    rcases anyAwake_notifyOne present (same.stay (stay (runs running))) woken with anyAwake | idler
    · exact anyAwake
    · have asleep : 0 < s.idlersAsleep := Nat.lt_of_lt_of_le idler same.idlers_le
      exact later.awake (same.awake (attends (runs running) asleep))
  · intro _
    exact Or.inl (later.workQueue_eq ▸ isQueued)

theorem isAttended_waitUntilIdle (attended : s.IsAttended) : s.waitUntilIdle.IsAttended := by
  rw [waitUntilIdle]
  split
  · exact attended
  · next queued =>
      exact ⟨attended.stay, attended.awake, fun _ =>
        Or.inl fun none => queued (isEmpty_iff.mpr none)⟩

/-! ### The steps of the workers -/

theorem isAttended_of_isShutdown (isShutdown : s.isShutdown = true)
    (idle : 0 < s.idlersAsleep → s.workQueue ≠ [] ∨ AnyIs Worker.isBusy s.workers) :
    s.IsAttended where
  stay running := Bool.noConfusion (isShutdown.symm.trans running)
  awake running := Bool.noConfusion (isShutdown.symm.trans running)
  idle := idle

/-- A worker that resumes has a unit or sleeps, and it does not sleep while a unit is queued. -/
theorem isAttended_resume (attended : s.IsAttended) (found : s.workers[index]? = some before)
    (free : before.isBusy = false) :
    (s.resume index).IsAttended := by
  rw [resume]
  split
  · next work rest isNext =>
      refine ⟨?_, ?_, ?_⟩
      · intro running
        exact (attended.stay running).set (congrArg (!·) running)
      · intro running _
        exact anyIs_set found rfl
      · intro _
        exact Or.inr (anyIs_set found rfl)
  · next noneQueued =>
      have idle (after : Worker W) (idler : 0 < s.idlersAsleep) :
          s.workQueue ≠ [] ∨ AnyIs Worker.isBusy (s.workers.set index after) :=
        (attended.idle idler).imp id fun anyBusy => anyBusy.set found free
      split
      · next isShutdown => exact isAttended_of_isShutdown isShutdown (idle _)
      · exact ⟨fun running => (attended.stay running).set rfl,
          fun _ queued => absurd noneQueued queued, idle _⟩

theorem isAttended_fetch (attended : s.IsAttended) (fetched : s.fetch index = some s') :
    s'.IsAttended := by
  rw [fetch] at fetched
  split at fetched
  · next found =>
      obtain rfl := Option.some.inj fetched
      split
      · next isShutdown =>
          exact isAttended_of_isShutdown isShutdown fun idler =>
            (attended.idle idler).imp id fun anyBusy => anyBusy.set found rfl
      · exact isAttended_resume attended found rfl
  · next found =>
      obtain rfl := Option.some.inj fetched
      exact isAttended_resume attended found rfl
  · cases fetched

theorem isAttended_doIt {result : Bool} (attended : s.IsAttended)
    (done : s.doIt index result = some s') : s'.IsAttended := by
  rw [doIt] at done
  split at done
  · next work shutdown found =>
      obtain rfl := Option.some.inj done
      refine ⟨?_, ?_, ?_⟩
      · intro running
        have stays := (attended.stay running).stays_of_getElem? found
        refine (attended.stay running).set ?_
        cases result <;> exact stays
      · intro _ _
        refine anyIs_set found ?_
        cases result <;> rfl
      · intro _
        refine Or.inr (anyIs_set found ?_)
        cases result <;> rfl
  · cases done

/-- A worker that stays goes on with the next iteration. -/
theorem next_spec {shutdown : Bool} (allStay : AllStay s.workers)
    (found : s.workers[index]? = some before) (stays : before.stays = !shutdown) :
    AllStay (s.workers.set index (.next shutdown)) ∧
      AnyIs Worker.isAwake (s.workers.set index (.next shutdown)) := by
  have staying : (!shutdown) = true := stays.symm.trans (allStay.stays_of_getElem? found)
  cases shutdown with
  | true => exact Bool.noConfusion staying
  | false => exact ⟨allStay.set rfl, anyIs_set found rfl⟩

theorem isAttended_deliver (attended : s.IsAttended) (delivered : s.deliver index = some s') :
    s'.IsAttended := by
  rw [deliver] at delivered
  split at delivered
  · next work shutdown found =>
      obtain rfl := Option.some.inj delivered
      refine ⟨fun running => ?_, fun running _ => ?_, fun idler => absurd idler (lt_irrefl 0)⟩
      · exact (next_spec (attended.stay running) found rfl).1.notified
      · exact (next_spec (attended.stay running) found rfl).2.notified
  · cases delivered

theorem isAttended_enqueueAgain (attended : s.IsAttended)
    (enqueued : s.enqueueAgain concurrency index notified = some s') : s'.IsAttended := by
  rw [enqueueAgain] at enqueued
  split at enqueued
  · next work shutdown found =>
      refine isAttended_enqueue (fun running => ?_) (fun running _ => ?_) enqueued
      · exact (next_spec (attended.stay running) found rfl).1
      · exact (next_spec (attended.stay running) found rfl).2
  · cases enqueued

theorem isAttended_step {event : WorkshopEvent W} (attended : s.IsAttended)
    (taken : s.step concurrency event = some s') : s'.IsAttended := by
  cases event with
  | enqueue work notified =>
      refine isAttended_enqueue ?_ ?_ taken
      · exact attended.stay
      · exact attended.anyAwake_of_idler
  | addWorkers n =>
      obtain rfl := Option.some.inj (Option.ite_none_right_eq_some.mp taken).2
      exact (sameWork_addWorkers n s).isAttended attended
  | ensureWorkers n =>
      obtain rfl := Option.some.inj (Option.ite_none_right_eq_some.mp taken).2
      exact (sameWork_ensureWorkers n s).isAttended attended
  | shutdown =>
      obtain rfl := Option.some.inj taken
      exact isAttended_of_isShutdown rfl fun idler => absurd idler (lt_irrefl 0)
  | waitUntilIdle =>
      obtain rfl := Option.some.inj taken
      exact isAttended_waitUntilIdle attended
  | idlerResumes =>
      rw [step, idlerResumes] at taken
      split at taken
      · obtain rfl := Option.some.inj taken
        exact isAttended_waitUntilIdle ⟨attended.stay, attended.awake, attended.idle⟩
      · cases taken
  | wakesUp sleeper => exact (sameWork_wake taken).isAttended attended
  | fetch index => exact isAttended_fetch attended taken
  | doIt index result => exact isAttended_doIt attended taken
  | deliver index => exact isAttended_deliver attended taken
  | enqueueAgain index notified => exact isAttended_enqueueAgain attended taken

theorem isAttended_after {events : List (WorkshopEvent W)}
    (ran : after concurrency events = some s) : s.IsAttended :=
  @run_invariant _ _ (step concurrency) IsAttended events
    (fun _ _ _ _ attended taken => isAttended_step attended taken) {} s
    ⟨fun _ _ member => absurd member not_mem_nil, fun _ queued => absurd rfl queued,
      fun idler => absurd idler (lt_irrefl 0)⟩ ran

/-! ### Progress -/

end Workshop

def WorkshopEvent.isOfWorker {W : Type u} : WorkshopEvent W → Bool
  | .fetch _ => true
  | .doIt _ _ => true
  | .deliver _ => true
  | .enqueueAgain _ _ => true
  | _ => false

namespace Workshop

variable {W : Type u} {concurrency : Nat} {events : List (WorkshopEvent W)} {s : Workshop W}

/-- One of the threads can be notified, or none is asleep. -/
theorem exists_notifyOne (s : Workshop W) : ∃ notified s', s.notifyOne notified = some s' := by
  cases someAsleep : s.isAnyAsleep with
  | false => exact ⟨none, s, by rw [notifyOne, someAsleep]; rfl⟩
  | true =>
      rw [isAnyAsleep, Bool.or_eq_true, any_eq_true, decide_eq_true_iff] at someAsleep
      rcases someAsleep with ⟨worker, member, isAsleep⟩ | idler
      · rcases getElem?_of_mem member with ⟨index, found⟩
        cases worker with
        | asleep => exact ⟨some (.worker index), _, by rw [notifyOne, wake, found]⟩
        | _ => exact Bool.noConfusion isAsleep
      · exact ⟨some .idler, _, by rw [notifyOne, wake, if_pos idler]⟩

theorem exists_step_of_isAwake {worker : Worker W} (member : worker ∈ s.workers)
    (awake : worker.isAwake = true) :
    ∃ event s', event.isOfWorker = true ∧ s.step concurrency event = some s' := by
  rcases getElem?_of_mem member with ⟨index, found⟩
  cases worker with
  | fetching => exact ⟨.fetch index, _, rfl, by rw [step, fetch, found]⟩
  | asleep => exact Bool.noConfusion awake
  | woken => exact ⟨.fetch index, _, rfl, by rw [step, fetch, found]⟩
  | doing work shutdown => exact ⟨.doIt index true, _, rfl, by rw [step, doIt, found]⟩
  | delivering work shutdown => exact ⟨.deliver index, _, rfl, by rw [step, deliver, found]⟩
  | enqueuing work shutdown =>
      rcases exists_notifyOne _ with ⟨notified, s', woken⟩
      exact ⟨.enqueueAgain index notified, s', rfl, by rw [step, enqueueAgain, found]; exact woken⟩
  | left => exact Bool.noConfusion awake

/-- A worker that has a unit is awake. -/
theorem has_of_not_isAwake {worker : Worker W} (notAwake : worker.isAwake ≠ true) :
    worker.has = 0 := by
  cases worker with
  | asleep => rfl
  | left => rfl
  | _ => exact absurd rfl notAwake

theorem held_eq_zero (noneAwake : ¬AnyIs Worker.isAwake s.workers) : s.held = 0 := by
  have nothing : s.ledger.has = 0 := total_eq_zero _ fun worker member =>
    has_of_not_isAwake fun awake => noneAwake ⟨worker, member, awake⟩
  rw [held, nothing]
  rfl

/-- The threads of a workshop that is not shut down never block each other: a worker can go on, or
everything is delivered and no thread waits for the workshop to be idle. -/
theorem goesOn_or_delivered (ran : after concurrency events = some s)
    (running : s.isShutdown = false) :
    (∃ event s', event.isOfWorker = true ∧ s.step concurrency event = some s') ∨
      (s.delivered : Multiset W) = s.enqueued ∧ s.idlersAsleep = 0 := by
  have attended : s.IsAttended := isAttended_after ran
  by_cases anyAwake : AnyIs Worker.isAwake s.workers
  · rcases anyAwake with ⟨worker, member, awake⟩
    exact Or.inl (exists_step_of_isAwake member awake)
  · have noneQueued : s.workQueue = [] :=
      by_contra fun queued => anyAwake (attended.awake running queued)
    have noIdler : s.idlersAsleep = 0 :=
      Nat.eq_zero_of_not_pos fun idler => anyAwake (attended.anyAwake_of_idler running idler)
    have units : (s.enqueued : Multiset W) = s.workQueue + s.held + s.delivered :=
      (isBalanced_after ran).units
    rw [noneQueued, held_eq_zero anyAwake, Multiset.coe_nil, zero_add, zero_add] at units
    exact Or.inr ⟨units.symm, noIdler⟩

/-- A thread waits while the unit is done, and all the workers fall asleep behind it. -/
theorem goesOn_or_delivered_asleep :
    ∃ s : Workshop Nat, after 4 [.enqueue 7 none, .fetch 0, .fetch 1, .doIt 0 false,
      .enqueueAgain 0 (some (.worker 1)), .waitUntilIdle, .fetch 1, .doIt 1 true, .fetch 0,
      .deliver 1, .idlerResumes, .fetch 0, .fetch 1] = some s ∧
      ((∃ event s', event.isOfWorker = true ∧ s.step 4 event = some s') ∨
        (s.delivered : Multiset Nat) = s.enqueued ∧ s.idlersAsleep = 0) := by
  have shutdown : (after 4 [.enqueue 7 none, .fetch 0, .fetch 1, .doIt 0 false,
      .enqueueAgain 0 (some (.worker 1)), .waitUntilIdle, .fetch 1, .doIt 1 true, .fetch 0,
      .deliver 1, .idlerResumes, .fetch 0, .fetch 1]).map isShutdown = some false := rfl
  rcases Option.map_eq_some_iff.mp shutdown with ⟨s, ran, running⟩
  exact ⟨s, ran, goesOn_or_delivered ran running⟩

end Workshop

end Eagine.Runtime
