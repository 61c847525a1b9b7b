import Cherokee.Lib.Simulation
import Cherokee.ThreadPool
import Mathlib.Algebra.Order.BigOperators.Group.Finset
import Mathlib.Data.Fintype.Basic

/-!
# The work queue and its mutex

`ThreadPool` takes `lock`, what is done under it, and `unlock` as one step. Here each call of
`pthread_mutex_lock`, `pthread_mutex_unlock`, `sem_post` and `sem_wait` is a step of its own, and
may fail: `ThreadPool::appendEvent` returns `-1`, `-2` or `-3`, and `ThreadPool::run` returns for
good.

* `LockedPool.Accounted`: whatever fails, no event is taken twice or out of order, and every event
  that is never processed is the price of one failure.
* `LockedPool.frozen`: behind an `unlock` that fails nothing is put into the queue or taken from it.
* `LockedPool.simulates`: where nothing fails the queue is the one of `ThreadPool`.
-/

open Finset

namespace Cherokee

/-- Where a thread is in `ThreadPool::appendEvent`. It holds the mutex from `locked` to `pushed`,
and its event is in the queue from `pushed` on, also if the call fails behind it. -/
inductive Appender (E : Type) where
  | outside
  /-- It has locked `queueLocker`. -/
  | locked (event : Option E)
  /-- It has pushed the event, and is about to unlock. -/
  | pushed
  /-- It has unlocked, and is about to post. -/
  | unlocked
deriving DecidableEq

/-- Where a worker is in `ThreadPool::run`. The three failures are places of their own: behind each
of them `run` has returned, and the worker never takes an event again. -/
inductive PoolWorker (E : Type) where
  /-- It is about to wait for the semaphore. -/
  | waiting
  /-- It has passed `sem_wait`. -/
  | woken
  /-- It has locked `queueLocker`. -/
  | locked
  /-- It has found the queue empty. -/
  | foundEmpty
  /-- It has taken `curEvent`, and is about to unlock. -/
  | taken (curEvent : Option E)
  | processing (curEvent : E)
  /-- `sem_wait` has failed, and `run` has returned. -/
  | failedWait
  /-- `pthread_mutex_lock` has failed, and `run` has returned. -/
  | failedLock
  /-- `pthread_mutex_unlock` has failed, and `run` has returned. -/
  | failedUnlock (curEvent : Option E)
deriving DecidableEq

/-- The thread pool with its mutex and its semaphore. The lists at the end are a record of what has
been done: no step reads them. -/
structure LockedPool (A W E : Type) where
  /-- `m_workQueue` -/
  workQueue : List (Option E)
  /-- The value of the semaphore `queueEventNum`. -/
  queueEventNum : ℕ
  /-- The thread that has locked `queueLocker`. -/
  queueLocker : Option (A ⊕ W)
  appender : A → Appender E
  worker : W → PoolWorker E
  /-- The events pushed, in order. -/
  pushed : List (Option E)
  /-- The events popped, in order, each with the worker that popped it. -/
  popped : List (W × Option E)
  /-- The events processed, in order, each with the worker that processed it. -/
  processed : List (W × E)
  /-- What calls of `appendEvent` have returned. -/
  returned : List ℤ

namespace LockedPool

variable {A W E : Type}

/-- A step of a thread; a call of a primitive that fails has `ok = false`. -/
inductive Label (A W E : Type) where
  /-- `pthread_mutex_lock` in `appendEvent(event, …)` -/
  | lock (a : A) (event : Option E) (ok : Bool)
  /-- `m_workQueue.push(event)` -/
  | push (a : A)
  /-- `pthread_mutex_unlock` in `appendEvent` -/
  | unlock (a : A) (ok : Bool)
  /-- `sem_post` -/
  | post (a : A) (ok : Bool)
  /-- `sem_wait` -/
  | wait (w : W) (ok : Bool)
  /-- `pthread_mutex_lock` in `run` -/
  | lockRun (w : W) (ok : Bool)
  /-- `m_workQueue.empty()`, and `front` and `pop` -/
  | pop (w : W)
  /-- `pthread_mutex_unlock` in `run` -/
  | unlockRun (w : W) (ok : Bool)
  /-- `curEvent->process(); delete curEvent;` -/
  | process (w : W)

/-- The primitive that is called does not fail. The steps without a call of one always do what they
are for. -/
def Label.Succeeds : Label A W E → Prop
  | .lock _ _ ok => ok = true
  | .unlock _ ok => ok = true
  | .post _ ok => ok = true
  | .wait _ ok => ok = true
  | .lockRun _ ok => ok = true
  | .unlockRun _ ok => ok = true
  | _ => True

/-- The call is one of `pthread_mutex_unlock`, in `appendEvent` or in `run`, and it fails: the mutex
stays locked, and its thread goes on as if it were not. -/
def Label.FailsToUnlock : Label A W E → Prop
  | .unlock _ ok => ok = false
  | .unlockRun _ ok => ok = false
  | _ => False

section Step

variable [DecidableEq A] [DecidableEq W]

/-- The thread `a` has gone on to the place `p` of `appendEvent`, and nothing else has changed. -/
def setAppender (s : LockedPool A W E) (a : A) (p : Appender E) : LockedPool A W E :=
  { s with appender := Function.update s.appender a p }

/-- The worker `w` has gone on to the place `p` of `run`, and nothing else has changed. -/
def setWorker (s : LockedPool A W E) (w : W) (p : PoolWorker E) : LockedPool A W E :=
  { s with worker := Function.update s.worker w p }

/-- `appendEvent` has returned `result`: `0`, or `-1`, `-2` or `-3` for the primitive that has
failed. -/
def leave (s : LockedPool A W E) (a : A) (result : ℤ) : LockedPool A W E :=
  { s.setAppender a .outside with returned := s.returned ++ [result] }

/-- One step of a thread. It is `none` where the thread is not at the place the label is about, or
is blocked: it waits for the mutex while another thread has it, or for the semaphore while it is
zero. -/
def step (s : LockedPool A W E) : Label A W E → Option (LockedPool A W E)
  | .lock a event ok =>
    -- a call that fails needs no free mutex; one that does not fail comes back with it
    match s.appender a, ok, s.queueLocker with
    -- `return -1`
    | .outside, false, _ => some (s.leave a (-1))
    | .outside, true, none =>
      some { s.setAppender a (.locked event) with queueLocker := some (.inl a) }
    | _, _, _ => none
  | .push a =>
    match s.appender a with
    | .locked event => some { s.setAppender a .pushed with
        workQueue := s.workQueue ++ [event]
        pushed := s.pushed ++ [event] }
    | _ => none
  | .unlock a ok =>
    match s.appender a, ok with
    -- `return -2`: the event stays in the queue, and the mutex locked
    | .pushed, false => some (s.leave a (-2))
    | .pushed, true => some { s.setAppender a .unlocked with queueLocker := none }
    | _, _ => none
  | .post a ok =>
    match s.appender a, ok with
    -- `return -3`: the event is in the queue, and nobody is told
    | .unlocked, false => some (s.leave a (-3))
    | .unlocked, true => some { s.leave a 0 with queueEventNum := s.queueEventNum + 1 }
    | _, _ => none
  | .wait w ok =>
    -- `sem_wait` comes back with a unit of the semaphore, and waits while there is none
    match s.worker w, ok, s.queueEventNum with
    | .waiting, false, _ => some (s.setWorker w .failedWait)
    | .waiting, true, n + 1 => some { s.setWorker w .woken with queueEventNum := n }
    | _, _, _ => none
  | .lockRun w ok =>
    match s.worker w, ok, s.queueLocker with
    | .woken, false, _ => some (s.setWorker w .failedLock)
    | .woken, true, none => some { s.setWorker w .locked with queueLocker := some (.inr w) }
    | _, _, _ => none
  | .pop w =>
    match s.worker w, s.workQueue with
    -- `if (m_workQueue.empty())`: it unlocks and waits anew
    | .locked, [] => some (s.setWorker w .foundEmpty)
    | .locked, event :: rest => some { s.setWorker w (.taken event) with
        workQueue := rest
        popped := s.popped ++ [(w, event)] }
    | _, _ => none
  | .unlockRun w ok =>
    match s.worker w, ok with
    -- the result is not looked at
    | .foundEmpty, ok =>
      some { s.setWorker w .waiting with queueLocker := if ok then none else s.queueLocker }
    | .taken event, false => some (s.setWorker w (.failedUnlock event))
    | .taken event, true =>
      -- `if (curEvent == nullptr) continue;`
      some { s.setWorker w (event.elim .waiting .processing) with queueLocker := none }
    | _, _ => none
  | .process w =>
    match s.worker w with
    | .processing event =>
      some { s.setWorker w .waiting with processed := s.processed ++ [(w, event)] }
    | _ => none

/-- What a step does, one constructor for each outcome. It says of the state before all that has let
the step happen, so that no proof about steps has to open `step` again. -/
inductive Does (s : LockedPool A W E) : Label A W E → LockedPool A W E → Prop where
  | lockFails {a : A} (event : Option E) (here : s.appender a = .outside) :
      Does s (.lock a event false) (s.leave a (-1))
  | locks {a : A} (event : Option E) (here : s.appender a = .outside)
      (free : s.queueLocker = none) :
      Does s (.lock a event true)
        { s.setAppender a (.locked event) with queueLocker := some (.inl a) }
  | pushes {a : A} (event : Option E) (here : s.appender a = .locked event) :
      Does s (.push a) { s.setAppender a .pushed with
        workQueue := s.workQueue ++ [event], pushed := s.pushed ++ [event] }
  | unlockFails {a : A} (here : s.appender a = .pushed) : Does s (.unlock a false) (s.leave a (-2))
  | unlocks {a : A} (here : s.appender a = .pushed) :
      Does s (.unlock a true) { s.setAppender a .unlocked with queueLocker := none }
  | postFails {a : A} (here : s.appender a = .unlocked) : Does s (.post a false) (s.leave a (-3))
  | posts {a : A} (here : s.appender a = .unlocked) :
      Does s (.post a true) { s.leave a 0 with queueEventNum := s.queueEventNum + 1 }
  | waitFails {w : W} (here : s.worker w = .waiting) :
      Does s (.wait w false) (s.setWorker w .failedWait)
  | waits {w : W} (n : ℕ) (here : s.worker w = .waiting) (num : s.queueEventNum = n + 1) :
      Does s (.wait w true) { s.setWorker w .woken with queueEventNum := n }
  | lockRunFails {w : W} (here : s.worker w = .woken) :
      Does s (.lockRun w false) (s.setWorker w .failedLock)
  | locksRun {w : W} (here : s.worker w = .woken) (free : s.queueLocker = none) :
      Does s (.lockRun w true) { s.setWorker w .locked with queueLocker := some (.inr w) }
  | findsEmpty {w : W} (here : s.worker w = .locked) (queue : s.workQueue = []) :
      Does s (.pop w) (s.setWorker w .foundEmpty)
  | pops {w : W} (event : Option E) (rest : List (Option E)) (here : s.worker w = .locked)
      (queue : s.workQueue = event :: rest) : Does s (.pop w) { s.setWorker w (.taken event) with
        workQueue := rest, popped := s.popped ++ [(w, event)] }
  | leavesEmpty {w : W} (ok : Bool) (here : s.worker w = .foundEmpty) : Does s (.unlockRun w ok)
      { s.setWorker w .waiting with queueLocker := if ok then none else s.queueLocker }
  | unlockRunFails {w : W} (event : Option E) (here : s.worker w = .taken event) :
      Does s (.unlockRun w false) (s.setWorker w (.failedUnlock event))
  | unlocksRun {w : W} (event : Option E) (here : s.worker w = .taken event) :
      Does s (.unlockRun w true)
        { s.setWorker w (event.elim .waiting .processing) with queueLocker := none }
  | processes {w : W} (event : E) (here : s.worker w = .processing event) : Does s (.process w)
      { s.setWorker w .waiting with processed := s.processed ++ [(w, event)] }

/-- **The cases of a step.** Everything that is said of steps is said by cases on `Does`. -/
theorem does_of_step {s t : LockedPool A W E} {l : Label A W E} (h : s.step l = some t) :
    s.Does l t := by
  cases l with
  -- The places and the results are split as `step` splits them; where it is `none` there is nothing
  -- to show.
  | lock a event ok =>
    simp only [step] at h
    split at h
    · next here => cases h; exact .lockFails event here
    · next here free => cases h; exact .locks event here free
    · cases h
  | push a =>
    simp only [step] at h
    split at h
    · next event here => cases h; exact .pushes event here
    · cases h
  | unlock a ok =>
    simp only [step] at h
    split at h
    · next here => cases h; exact .unlockFails here
    · next here => cases h; exact .unlocks here
    · cases h
  | post a ok =>
    simp only [step] at h
    split at h
    · next here => cases h; exact .postFails here
    · next here => cases h; exact .posts here
    · cases h
  | wait w ok =>
    simp only [step] at h
    split at h
    · next here => cases h; exact .waitFails here
    · next n here num => cases h; exact .waits n here num
    · cases h
  | lockRun w ok =>
    simp only [step] at h
    split at h
    · next here => cases h; exact .lockRunFails here
    · next here free => cases h; exact .locksRun here free
    · cases h
  | pop w =>
    simp only [step] at h
    split at h
    · next here queue => cases h; exact .findsEmpty here queue
    · next event rest here queue => cases h; exact .pops event rest here queue
    · cases h
  | unlockRun w ok =>
    simp only [step] at h
    split at h
    · next here => cases h; exact .leavesEmpty _ here
    · next event here => cases h; exact .unlockRunFails event here
    · next event here => cases h; exact .unlocksRun event here
    · cases h
  | process w =>
    simp only [step] at h
    split at h
    · next event here => cases h; exact .processes event here
    · cases h

end Step

/-- The thread pool at its start: an empty queue, nobody inside, and the semaphore at zero. -/
def init : LockedPool A W E where
  workQueue := []
  queueEventNum := 0
  queueLocker := none
  appender _ := .outside
  worker _ := .waiting
  pushed := []
  popped := []
  processed := []
  returned := []

end LockedPool

/-- The thread pool with the steps of its mutex and its semaphore. -/
def lockedPool (A W E : Type) [DecidableEq A] [DecidableEq W] :
    Machine (LockedPool A W E) (LockedPool.Label A W E) where
  start := LockedPool.init
  step := LockedPool.step

/-! ### The mutex -/

/-- The thread is between `lock` and `unlock`. A thread whose `unlock` has failed has left this
stretch, although the mutex is still its own. -/
def Appender.inside {E : Type} : Appender E → Bool
  | .locked _ => true
  | .pushed => true
  | _ => false

/-- The worker is between `lock` and `unlock`; as for an appender, one whose `unlock` has failed is
not. -/
def PoolWorker.inside {E : Type} : PoolWorker E → Bool
  | .locked => true
  | .foundEmpty => true
  | .taken _ => true
  | _ => false

namespace LockedPool

variable {A W E : Type}

/-- A thread between `lock` and `unlock`, be it an appender or a worker. At most one thread is. -/
def inside (s : LockedPool A W E) : A ⊕ W → Bool
  | .inl a => (s.appender a).inside
  | .inr w => (s.worker w).inside

/-- A thread between `lock` and `unlock` has locked `queueLocker`. As only one can have locked it,
the threads are there one at a time. -/
def Exclusive (s : LockedPool A W E) : Prop := ∀ x, s.inside x = true → s.queueLocker = some x

section Exclusive

variable [DecidableEq A] [DecidableEq W] {s t : LockedPool A W E}

theorem inside_setAppender (s : LockedPool A W E) (a : A) (p : Appender E) (x : A ⊕ W) :
    (s.setAppender a p).inside x = if x = .inl a then p.inside else s.inside x := by
  cases x with
  | inl a' =>
    by_cases h : a' = a
    · subst h
      simp [inside, setAppender]
    · simp [inside, setAppender, h]
  | inr w => rfl

theorem inside_setWorker (s : LockedPool A W E) (w : W) (p : PoolWorker E) (x : A ⊕ W) :
    (s.setWorker w p).inside x = if x = .inr w then p.inside else s.inside x := by
  cases x with
  | inl a => rfl
  | inr w' =>
    by_cases h : w' = w
    · subst h
      simp [inside, setWorker]
    · simp [inside, setWorker, h]

/-- A thread that goes on outside leaves the others alone, and so does one that stays inside with
the mutex it has. -/
theorem Exclusive.outside (h : s.Exclusive) {y : A ⊕ W} {b : Bool}
    (hinside : ∀ x, t.inside x = if x = y then b else s.inside x)
    (hlocker : t.queueLocker = s.queueLocker)
    (hb : b = true → s.queueLocker = some y) : t.Exclusive := by
  intro x hx
  rw [hinside] at hx
  rw [hlocker]
  split at hx
  · next hxy => exact hxy ▸ hb hx
  · exact h x hx

/-- A thread that locks: the mutex was free, so by the invariant nobody else was inside. -/
theorem Exclusive.locks (h : s.Exclusive) {y : A ⊕ W} (hfree : s.queueLocker = none)
    (hinside : ∀ x, t.inside x = if x = y then true else s.inside x)
    (hlocker : t.queueLocker = some y) : t.Exclusive := by
  intro x hx
  rw [hinside] at hx
  split at hx
  · next hxy => rw [hlocker, hxy]
  · have hheld := h x hx
    rw [hfree] at hheld
    cases hheld

/-- A thread that unlocks was the one that had the mutex, so nobody is left inside. -/
theorem Exclusive.unlocks (h : s.Exclusive) {y : A ⊕ W} (hy : s.inside y = true)
    (hinside : ∀ x, t.inside x = if x = y then false else s.inside x) : t.Exclusive := by
  intro x hx
  rw [hinside] at hx
  split at hx
  · cases hx
  · next hxy => exact absurd (Option.some.inj ((h x hx).symm.trans (h y hy))) hxy

/-- **Every step keeps the mutex**, whichever calls fail. An `unlock` that fails leaves the mutex
locked and its thread outside, which the invariant allows. -/
theorem Exclusive.step (h : s.Exclusive) {l : Label A W E} (hstep : s.step l = some t) :
    t.Exclusive := by
  cases does_of_step hstep with
  | @lockFails a event here =>
    exact h.outside (inside_setAppender s a .outside) rfl (by simp [Appender.inside])
  | @locks a event here free => exact h.locks free (inside_setAppender s a (.locked event)) rfl
  -- who pushes stays inside, with the mutex it has locked
  | @pushes a event here =>
    exact h.outside (inside_setAppender s a .pushed) rfl fun _ =>
      h (.inl a) (by simp [inside, here, Appender.inside])
  | @unlockFails a here =>
    exact h.outside (inside_setAppender s a .outside) rfl (by simp [Appender.inside])
  | @unlocks a here =>
    exact h.unlocks (y := .inl a) (by simp [inside, here, Appender.inside])
      (inside_setAppender s a .unlocked)
  | @postFails a here =>
    exact h.outside (inside_setAppender s a .outside) rfl (by simp [Appender.inside])
  | @posts a here =>
    exact h.outside (inside_setAppender s a .outside) rfl (by simp [Appender.inside])
  | @waitFails w here =>
    exact h.outside (inside_setWorker s w .failedWait) rfl (by simp [PoolWorker.inside])
  | @waits w n here num =>
    exact h.outside (inside_setWorker s w .woken) rfl (by simp [PoolWorker.inside])
  | @lockRunFails w here =>
    exact h.outside (inside_setWorker s w .failedLock) rfl (by simp [PoolWorker.inside])
  | @locksRun w here free => exact h.locks free (inside_setWorker s w .locked) rfl
  | @findsEmpty w here queue =>
    exact h.outside (inside_setWorker s w .foundEmpty) rfl fun _ =>
      h (.inr w) (by simp [inside, here, PoolWorker.inside])
  | @pops w event rest here queue =>
    exact h.outside (inside_setWorker s w (.taken event)) rfl fun _ =>
      h (.inr w) (by simp [inside, here, PoolWorker.inside])
  -- it is outside behind this step, whatever `unlock` has returned
  | @leavesEmpty w ok here =>
    exact h.unlocks (y := .inr w) (by simp [inside, here, PoolWorker.inside])
      (inside_setWorker s w .waiting)
  | @unlockRunFails w event here =>
    exact h.outside (inside_setWorker s w (.failedUnlock event)) rfl (by simp [PoolWorker.inside])
  | @unlocksRun w event here =>
    refine h.unlocks (y := .inr w) (by simp [inside, here, PoolWorker.inside]) fun x => ?_
    -- waiting or processing, the worker is outside
    refine (inside_setWorker s w _ x).trans ?_
    cases event <;> rfl
  | @processes w event here =>
    exact h.outside (inside_setWorker s w .waiting) rfl (by simp [PoolWorker.inside])

end Exclusive

end LockedPool

/-! ### What is lost -/

/-- A sum over threads, of which one goes on from `g t` to `p`: it changes by the terms of this
thread. -/
theorem sum_update {T P : Type} [Fintype T] [DecidableEq T] (f : P → ℕ) (g : T → P)
    (t : T) (p : P) :
    ∑ x, f (Function.update g t p x) + f (g t) = ∑ x, f (g x) + f p := by
  -- the term of `t` is taken out of both sums, and what is left is the same
  have hnew := Finset.add_sum_erase univ (fun x => f (Function.update g t p x)) (mem_univ t)
  have hold := Finset.add_sum_erase univ (fun x => f (g x)) (mem_univ t)
  have hsame : ∑ x ∈ univ.erase t, f (Function.update g t p x) = ∑ x ∈ univ.erase t, f (g x) :=
    Finset.sum_congr rfl fun x hx => by rw [Function.update_of_ne (Finset.ne_of_mem_erase hx)]
  rw [hsame] at hnew
  rw [Function.update_self] at hnew
  omega

/-- It has pushed an event it has not posted yet, so that the queue has one event that the semaphore
does not count. -/
def Appender.unposted {E : Type} : Appender E → ℕ
  | .pushed => 1
  | .unlocked => 1
  | _ => 0

/-- It has passed `sem_wait` for an event it has not popped. A worker that has failed to lock never
will. -/
def PoolWorker.unpopped {E : Type} : PoolWorker E → ℕ
  | .woken => 1
  | .locked => 1
  | .failedLock => 1
  | _ => 0

/-- The event it has popped and not processed, which it keeps for ever when its `unlock` fails. -/
def PoolWorker.curEvent {E : Type} : PoolWorker E → Option E
  | .taken event => event
  | .processing event => some event
  | .failedUnlock event => event
  | _ => none

namespace LockedPool

variable {A W E : Type}

/-- The events `w` has popped, in order, without the `nullptr`s, for which `run` has nothing to
process. -/
def poppedBy [DecidableEq W] (s : LockedPool A W E) (w : W) : List E :=
  s.popped.filterMap fun x => if x.1 = w then x.2 else none

/-- The events `w` has processed, in the order in which it has done so. -/
def processedBy [DecidableEq W] (s : LockedPool A W E) (w : W) : List E :=
  s.processed.filterMap fun x => if x.1 = w then some x.2 else none

/-- The account of the events, whatever has failed. Each field says where the events of one kind
are, and which failures have a part in it. -/
structure Accounted [Fintype A] [Fintype W] [DecidableEq W] (s : LockedPool A W E) : Prop where
  /-- Events are popped in the order they were pushed. -/
  fifo : s.popped.map Prod.snd ++ s.workQueue = s.pushed
  /-- No two threads are between `lock` and `unlock`. -/
  exclusive : ∀ x y, s.inside x = true → s.inside y = true → x = y
  /-- A worker that comes to pop finds an event. -/
  found : ∀ w, (s.worker w = .locked → s.workQueue ≠ []) ∧ s.worker w ≠ .foundEmpty
  /-- An event is not pushed exactly where `appendEvent` returns `-1`. -/
  appended : s.pushed.length = s.returned.countP (· ≠ -1) + ∑ a, (s.appender a).unposted
  /-- An event stays in the queue for each call that has returned `-2` or `-3`, and for each worker
  that has failed to lock. -/
  queued : s.workQueue.length = s.queueEventNum + ∑ a, (s.appender a).unposted +
    s.returned.countP (· ≤ -2) + ∑ w, (s.worker w).unpopped
  /-- A worker processes what it pops, but for the event it has when it fails to unlock. -/
  processed : ∀ w, s.poppedBy w = s.processedBy w ++ (s.worker w).curEvent.toList

section Accounted

variable [DecidableEq A] [DecidableEq W] [Fintype A] [Fintype W] {s t : LockedPool A W E}

/-- What is kept of the account. It differs from `Accounted` in two things that follow from the
rest: what `Exclusive` says is enough for one thread at a time, and a worker that comes to pop finds
an event because the queue is as long as `queued` says. -/
structure Books (s : LockedPool A W E) : Prop where
  exclusive : s.Exclusive
  fifo : s.popped.map Prod.snd ++ s.workQueue = s.pushed
  found : ∀ w, s.worker w ≠ .foundEmpty
  appended : s.pushed.length = s.returned.countP (· ≠ -1) + ∑ a, (s.appender a).unposted
  queued : s.workQueue.length = s.queueEventNum + ∑ a, (s.appender a).unposted +
    s.returned.countP (· ≤ -2) + ∑ w, (s.worker w).unpopped
  processed : ∀ w, s.poppedBy w = s.processedBy w ++ (s.worker w).curEvent.toList

omit [DecidableEq A] in
theorem books_init : (init : LockedPool A W E).Books where
  exclusive x hx := by cases x <;> cases hx
  fifo := rfl
  found w := by simp [init]
  appended := by simp [init, Appender.unposted]
  queued := by simp [init, Appender.unposted, PoolWorker.unpopped]
  processed w := rfl

omit [DecidableEq A] in
/-- A worker that comes to pop finds an event: it is counted by `queued` itself, so the queue is not
empty. -/
theorem Books.ne_nil (h : s.Books) {w : W} (hw : s.worker w = .locked) : s.workQueue ≠ [] := by
  intro hnil
  have hqueued := h.queued
  -- the term of `w` alone is one already
  have hle := Finset.single_le_sum (fun x _ => Nat.zero_le (s.worker x).unpopped) (mem_univ w)
  rw [hw] at hle
  change 1 ≤ ∑ x, (s.worker x).unpopped at hle
  rw [hnil, List.length_nil] at hqueued
  omega

/-- A step of `appendEvent` that touches no event. The two equations say that what it adds to one
term of the account it takes from another. -/
theorem Books.appender (h : s.Books) {a : A} {p : Appender E} (hexclusive : t.Exclusive)
    (happender : t.appender = Function.update s.appender a p) (hworker : t.worker = s.worker)
    (hqueue : t.workQueue = s.workQueue) (hpushed : t.pushed = s.pushed)
    (hpopped : t.popped = s.popped) (hprocessed : t.processed = s.processed)
    (happended : t.returned.countP (· ≠ -1) + p.unposted =
      s.returned.countP (· ≠ -1) + (s.appender a).unposted)
    (hqueued : t.queueEventNum + t.returned.countP (· ≤ -2) + p.unposted =
      s.queueEventNum + s.returned.countP (· ≤ -2) + (s.appender a).unposted) : t.Books where
  exclusive := hexclusive
  fifo := by rw [hpopped, hqueue, hpushed, h.fifo]
  found w := by rw [hworker]; exact h.found w
  appended := by
    have hsum := sum_update Appender.unposted s.appender a p
    have hold := h.appended
    rw [hpushed, happender]
    omega
  queued := by
    -- in both terms the appender is counted at its new place instead of its old one
    have hsum := sum_update Appender.unposted s.appender a p
    have hold := h.queued
    rw [hqueue, happender, hworker]
    omega
  processed w := by
    have hold := h.processed w
    unfold poppedBy processedBy at hold ⊢
    rw [hpopped, hprocessed, hworker]
    exact hold

omit [DecidableEq A] in
/-- A step of `run` that pops nothing: the worker may take a unit from the semaphore, and it may
process its event. -/
theorem Books.worker (h : s.Books) {w : W} {p : PoolWorker E} (hexclusive : t.Exclusive)
    (happender : t.appender = s.appender) (hworker : t.worker = Function.update s.worker w p)
    (hqueue : t.workQueue = s.workQueue) (hpushed : t.pushed = s.pushed)
    (hpopped : t.popped = s.popped) (hreturned : t.returned = s.returned) (hp : p ≠ .foundEmpty)
    (hqueued : t.queueEventNum + p.unpopped = s.queueEventNum + (s.worker w).unpopped)
    (hself : t.processedBy w ++ p.curEvent.toList = s.processedBy w ++ (s.worker w).curEvent.toList)
    (hothers : ∀ w', w' ≠ w → t.processedBy w' = s.processedBy w') : t.Books where
  exclusive := hexclusive
  fifo := by rw [hpopped, hqueue, hpushed, h.fifo]
  found w' := by
    rw [hworker]
    by_cases hw : w' = w
    · subst hw
      rwa [Function.update_self]
    · rw [Function.update_of_ne hw]
      exact h.found w'
  appended := by rw [hpushed, hreturned, happender, h.appended]
  queued := by
    have hsum := sum_update PoolWorker.unpopped s.worker w p
    have hold := h.queued
    rw [hqueue, happender, hreturned, hworker]
    omega
  processed w' := by
    have hold := h.processed w'
    have hsame : t.poppedBy w' = s.poppedBy w' := by rw [poppedBy, hpopped, poppedBy]
    rw [hsame, hold, hworker]
    by_cases hw : w' = w
    · subst hw
      rw [Function.update_self, hself]
    · rw [Function.update_of_ne hw, hothers w' hw]

/-! The steps, one lemma for each label. The mutex is kept by `Exclusive.step` for all of them. -/

/-- `pthread_mutex_lock` in `appendEvent`. Where it fails `-1` is returned, the one result that
`appended` leaves out. -/
theorem Books.lock (h : s.Books) {a : A} {event : Option E} {ok : Bool} (hexclusive : t.Exclusive)
    (hstep : s.Does (.lock a event ok) t) : t.Books := by
  cases hstep with
  | lockFails event here =>
    exact h.appender hexclusive rfl rfl rfl rfl rfl rfl
      (by simp [leave, setAppender, here, Appender.unposted])
      (by simp [leave, setAppender, here, Appender.unposted])
  | locks event here free =>
    exact h.appender hexclusive rfl rfl rfl rfl rfl rfl
      (by simp [setAppender, here, Appender.unposted])
      (by simp [setAppender, here, Appender.unposted])

/-- An event is pushed: the queue is longer by one, and so is what has been pushed, and the appender
is one more that has not posted. -/
theorem Books.push (h : s.Books) {a : A} (hexclusive : t.Exclusive)
    (hstep : s.Does (.push a) t) : t.Books := by
  cases hstep with | pushes event here => ?_
  -- `a` was not one that has still to post, and is one behind the push
  have hsum := sum_update Appender.unposted s.appender a .pushed
  rw [here] at hsum
  change _ + 0 = _ + 1 at hsum
  refine ⟨hexclusive, ?_, h.found, ?_, ?_, h.processed⟩
  · change s.popped.map Prod.snd ++ (s.workQueue ++ [event]) = s.pushed ++ [event]
    rw [← List.append_assoc, h.fifo]
  · have hold := h.appended
    change (s.pushed ++ [event]).length = s.returned.countP (· ≠ -1) +
      ∑ x, (Function.update s.appender a .pushed x).unposted
    rw [List.length_append, List.length_singleton]
    omega
  · have hold := h.queued
    change (s.workQueue ++ [event]).length = s.queueEventNum +
      ∑ x, (Function.update s.appender a .pushed x).unposted + s.returned.countP (· ≤ -2) +
        ∑ w, (s.worker w).unpopped
    rw [List.length_append, List.length_singleton]
    omega

/-- `pthread_mutex_unlock` in `appendEvent`. Where it fails the event stays behind without a
`sem_post`: the call is no longer counted as one that is still to post, but by its result. -/
theorem Books.unlock (h : s.Books) {a : A} {ok : Bool} (hexclusive : t.Exclusive)
    (hstep : s.Does (.unlock a ok) t) : t.Books := by
  cases hstep with
  | unlockFails here =>
    exact h.appender hexclusive rfl rfl rfl rfl rfl rfl
      (by simp [leave, setAppender, here, Appender.unposted])
      (by simp [leave, setAppender, here, Appender.unposted]; omega)
  | unlocks here =>
    exact h.appender hexclusive rfl rfl rfl rfl rfl rfl
      (by simp [setAppender, here, Appender.unposted])
      (by simp [setAppender, here, Appender.unposted])

/-- `sem_post`: the event is counted by the semaphore from now on, or by the result. -/
theorem Books.post (h : s.Books) {a : A} {ok : Bool} (hexclusive : t.Exclusive)
    (hstep : s.Does (.post a ok) t) : t.Books := by
  cases hstep with
  | postFails here =>
    exact h.appender hexclusive rfl rfl rfl rfl rfl rfl
      (by simp [leave, setAppender, here, Appender.unposted])
      (by simp [leave, setAppender, here, Appender.unposted]; omega)
  | posts here =>
    exact h.appender hexclusive rfl rfl rfl rfl rfl rfl
      (by simp [leave, setAppender, here, Appender.unposted])
      (by simp [leave, setAppender, here, Appender.unposted]; omega)

omit [DecidableEq A] in
/-- A step of a worker that keeps its event, if it has one, and that takes part in the count of the
semaphore. Whom the mutex belongs to behind it is left open. -/
theorem Books.goes (h : s.Books) {w : W} {p : PoolWorker E} {num : ℕ} {locker : Option (A ⊕ W)}
    (hp : p ≠ .foundEmpty) (hevent : p.curEvent = (s.worker w).curEvent)
    (hnum : num + p.unpopped = s.queueEventNum + (s.worker w).unpopped)
    (hexclusive : ({ s.setWorker w p with
      queueEventNum := num, queueLocker := locker } : LockedPool A W E).Exclusive) :
    ({ s.setWorker w p with
      queueEventNum := num, queueLocker := locker } : LockedPool A W E).Books :=
  h.worker hexclusive rfl rfl rfl rfl rfl rfl hp hnum
    (congrArg (fun e => s.processedBy w ++ e.toList) hevent) fun _ _ => rfl

/-- `sem_wait`: the unit the worker takes from the semaphore is counted by its place. -/
theorem Books.wait (h : s.Books) {w : W} {ok : Bool} (hexclusive : t.Exclusive)
    (hstep : s.Does (.wait w ok) t) : t.Books := by
  cases hstep with
  | waitFails here =>
    exact h.goes (by simp) (by rw [here]; rfl) (by simp [here, PoolWorker.unpopped]) hexclusive
  | waits n here num =>
    exact h.goes (by simp) (by rw [here]; rfl) (by simp [here, num, PoolWorker.unpopped]) hexclusive

/-- `pthread_mutex_lock` in `run`. A worker that fails to lock never pops the event it was woken
for, and stays in the count. -/
theorem Books.lockRun (h : s.Books) {w : W} {ok : Bool} (hexclusive : t.Exclusive)
    (hstep : s.Does (.lockRun w ok) t) : t.Books := by
  cases hstep with
  | lockRunFails here =>
    exact h.goes (by simp) (by rw [here]; rfl) (by simp [here, PoolWorker.unpopped]) hexclusive
  | locksRun here free =>
    exact h.goes (by simp) (by rw [here]; rfl) (by simp [setWorker, here, PoolWorker.unpopped])
      hexclusive

/-- A worker pops: by the count of the queue it finds an event, which moves from the front of the
queue to the end of what has been popped. -/
theorem Books.pop (h : s.Books) {w : W} (hexclusive : t.Exclusive)
    (hstep : s.Does (.pop w) t) : t.Books := by
  cases hstep with
  | findsEmpty here queue => exact absurd queue (h.ne_nil here)
  | pops event rest here queue =>
    -- the worker is no longer counted as one that has still to pop
    have hsum := sum_update PoolWorker.unpopped s.worker w (.taken event)
    rw [here] at hsum
    change _ + 1 = _ + 0 at hsum
    refine ⟨hexclusive, ?_, fun w' => ?_, h.appended, ?_, fun w' => ?_⟩
    · change (s.popped ++ [(w, event)]).map Prod.snd ++ rest = s.pushed
      rw [← h.fifo, queue, List.map_append, List.append_assoc]
      rfl
    · change Function.update s.worker w (.taken event) w' ≠ .foundEmpty
      by_cases hw : w' = w
      · subst hw
        simp
      · rw [Function.update_of_ne hw]
        exact h.found w'
    · have hold := h.queued
      rw [queue, List.length_cons] at hold
      change rest.length = s.queueEventNum + ∑ a, (s.appender a).unposted +
        s.returned.countP (· ≤ -2) + ∑ x, (Function.update s.worker w (.taken event) x).unpopped
      omega
    · have hold := h.processed w'
      change (s.popped ++ [(w, event)]).filterMap (fun x => if x.1 = w' then x.2 else none) =
        s.processedBy w' ++ (Function.update s.worker w (.taken event) w').curEvent.toList
      rw [List.filterMap_append, ← poppedBy, hold]
      -- what `w` has popped is longer by the event, and so is what it has in hand
      by_cases hw : w' = w
      · subst hw
        rw [Function.update_self, here]
        cases event <;> simp [PoolWorker.curEvent]
      · rw [Function.update_of_ne hw]
        simp [Ne.symm hw]

/-- `pthread_mutex_unlock` in `run`: the worker keeps its event, also where it fails. -/
theorem Books.unlockRun (h : s.Books) {w : W} {ok : Bool} (hexclusive : t.Exclusive)
    (hstep : s.Does (.unlockRun w ok) t) : t.Books := by
  cases hstep with
  -- there is no such worker: every one that came to pop has found an event
  | leavesEmpty ok here => exact absurd here (h.found _)
  | unlockRunFails event here =>
    exact h.goes (by simp) (by rw [here]; rfl) (by simp [here, PoolWorker.unpopped]) hexclusive
  | unlocksRun event here =>
    refine h.goes ?_ ?_ ?_ hexclusive
    -- a worker with a `nullptr` goes back to wait, and one with an event goes on to process it
    · cases event <;> simp
    · rw [here]
      cases event <;> rfl
    · cases event <;> simp [setWorker, here, PoolWorker.unpopped]

/-- The worker processes the event it has: it moves from what the worker holds to what it has
processed. -/
theorem Books.process (h : s.Books) {w : W} (hexclusive : t.Exclusive)
    (hstep : s.Does (.process w) t) : t.Books := by
  cases hstep with | processes event here => ?_
  refine h.worker hexclusive rfl rfl rfl rfl rfl rfl (by simp)
    (by simp [setWorker, here, PoolWorker.unpopped]) ?_ fun w' hw => ?_
  · rw [here]
    simp [processedBy, PoolWorker.curEvent]
  · simp [processedBy, Ne.symm hw]

/-- **Every step keeps the books.** A thread that goes on moves its event, or the unit of the
semaphore that stands for one, from one term of the account to another. -/
theorem Books.step (h : s.Books) {l : Label A W E} (hstep : s.step l = some t) : t.Books := by
  have hexclusive := h.exclusive.step hstep
  have hdoes := does_of_step hstep
  cases l with
  | lock a event ok => exact h.lock hexclusive hdoes
  | push a => exact h.push hexclusive hdoes
  | unlock a ok => exact h.unlock hexclusive hdoes
  | post a ok => exact h.post hexclusive hdoes
  | wait w ok => exact h.wait hexclusive hdoes
  | lockRun w ok => exact h.lockRun hexclusive hdoes
  | pop w => exact h.pop hexclusive hdoes
  | unlockRun w ok => exact h.unlockRun hexclusive hdoes
  | process w => exact h.process hexclusive hdoes

omit [DecidableEq A] in
theorem Books.accounted (h : s.Books) : s.Accounted where
  fifo := h.fifo
  exclusive x y hx hy := Option.some.inj ((h.exclusive x hx).symm.trans (h.exclusive y hy))
  found w := ⟨h.ne_nil, h.found w⟩
  appended := h.appended
  queued := h.queued
  processed := h.processed

/-- **Every event is accounted for**, in every interleaving of any finite number of appenders and
workers, and whatever calls fail. -/
theorem accounted_of_reachable (h : (lockedPool A W E).Reachable Machine.anyStep s) : s.Accounted :=
  Books.accounted (h.invariant books_init fun _ _ _ _ hs _ hstep => hs.step hstep)

end Accounted

/-- An event that is not pushed, one that is not posted, and one that is lost with its worker. -/
def losing : List (Label Bool (Fin 2) ℕ) :=
  [.lock true (some 7) false,
    .lock true (some 8) true, .push true, .unlock true true, .post true false,
    .lock false (some 9) true, .push false, .unlock false true, .post false true,
    .wait 0 true, .lockRun 0 true, .pop 0, .unlockRun 0 false]

theorem accounted_of_reachable_losing :
    ∃ s, (lockedPool Bool (Fin 2) ℕ).run (lockedPool Bool (Fin 2) ℕ).start losing = some s ∧
      s.returned = [-1, -3, 0] ∧ s.workQueue = [some 9] ∧ s.Accounted :=
  -- the run is computed, and the account of its last state is that of any reachable one
  ⟨_, rfl, rfl, rfl, accounted_of_reachable (Machine.reachable_of_run .start
    (show (lockedPool Bool (Fin 2) ℕ).run _ losing = some _ from rfl) (Machine.along_anyStep _ _))⟩

/-! ### A mutex that is not unlocked -/

section Frozen

variable [DecidableEq A] [DecidableEq W] {s t : LockedPool A W E}

/-- The mutex is locked, and no thread is going to unlock it: its thread has left the stretch in
which it would. -/
def Abandoned (s : LockedPool A W E) : Prop := s.queueLocker ≠ none ∧ ∀ x, s.inside x = false

/-- The thread that leaves without unlocking was the only one between `lock` and `unlock`, so that
behind it there is none. -/
theorem Exclusive.abandoned (h : s.Exclusive) {y : A ⊕ W} (hy : s.inside y = true)
    (hinside : ∀ x, t.inside x = if x = y then false else s.inside x)
    (hlocker : t.queueLocker = s.queueLocker) : t.Abandoned := by
  refine ⟨?_, fun x => ?_⟩
  -- the mutex is still locked by the thread that leaves
  · rw [hlocker, h y hy]
    exact Option.some_ne_none y
  · rw [hinside]
    split
    · rfl
    · next hxy =>
      -- another thread inside would have locked the mutex as well
      by_contra hx
      exact hxy (Option.some.inj ((h x (by simpa using hx)).symm.trans (h y hy)))

/-- An `unlock` that fails abandons the mutex, be it one of `appendEvent` or of `run`. -/
theorem Exclusive.fails (h : s.Exclusive) {l : Label A W E} (hl : l.FailsToUnlock)
    (hstep : s.step l = some t) : t.Abandoned := by
  cases does_of_step hstep with
  | @unlockFails a here =>
    exact h.abandoned (y := .inl a) (by simp [inside, here, Appender.inside])
      (inside_setAppender s a .outside) rfl
  | @leavesEmpty w ok here =>
    refine h.abandoned (y := .inr w) (by simp [inside, here, PoolWorker.inside])
      (inside_setWorker s w .waiting) ?_
    rw [show ok = false from hl]
    rfl
  | @unlockRunFails w event here =>
    exact h.abandoned (y := .inr w) (by simp [inside, here, PoolWorker.inside])
      (inside_setWorker s w (.failedUnlock event)) rfl
  | unlocks here => cases hl
  | unlocksRun event here => cases hl
  -- the label of every other step is none of a failing `unlock`
  | _ => exact hl.elim

/-- A thread that goes on outside leaves the mutex abandoned. -/
theorem Abandoned.outside (h : s.Abandoned) {y : A ⊕ W}
    (hinside : ∀ x, t.inside x = if x = y then false else s.inside x)
    (hlocker : t.queueLocker = s.queueLocker) : t.Abandoned := by
  refine ⟨hlocker ▸ h.1, fun x => ?_⟩
  rw [hinside, h.2 x]
  exact ite_self _

/-- What is in the queue, and what has been put into it and taken from it, is the same in both
states. -/
structure SameQueue (s t : LockedPool A W E) : Prop where
  workQueue : t.workQueue = s.workQueue
  pushed : t.pushed = s.pushed
  popped : t.popped = s.popped

/-- Where the mutex is abandoned a step leaves the queue as it is: to push and to pop a thread has
to be inside, and to come there it has to lock. -/
theorem Abandoned.step (h : s.Abandoned) {l : Label A W E} (hstep : s.step l = some t) :
    t.Abandoned ∧ s.SameQueue t := by
  -- the steps that would touch the queue are those of a thread inside, and there is none
  have hinl {a : A} : (s.appender a).inside = false := h.2 (.inl a)
  have hinr {w : W} : (s.worker w).inside = false := h.2 (.inr w)
  cases does_of_step hstep with
  | @lockFails a event here =>
    exact ⟨h.outside (inside_setAppender s a .outside) rfl, rfl, rfl, rfl⟩
  -- to lock, a thread needs the mutex free
  | locks event here free => exact absurd free h.1
  | @pushes a event here =>
    have hno := hinl (a := a)
    rw [here] at hno
    cases hno
  | @unlockFails a here => exact ⟨h.outside (inside_setAppender s a .outside) rfl, rfl, rfl, rfl⟩
  | @unlocks a here =>
    have hno := hinl (a := a)
    rw [here] at hno
    cases hno
  | @postFails a here => exact ⟨h.outside (inside_setAppender s a .outside) rfl, rfl, rfl, rfl⟩
  | @posts a here => exact ⟨h.outside (inside_setAppender s a .outside) rfl, rfl, rfl, rfl⟩
  | @waitFails w here => exact ⟨h.outside (inside_setWorker s w .failedWait) rfl, rfl, rfl, rfl⟩
  | @waits w n here num => exact ⟨h.outside (inside_setWorker s w .woken) rfl, rfl, rfl, rfl⟩
  | @lockRunFails w here => exact ⟨h.outside (inside_setWorker s w .failedLock) rfl, rfl, rfl, rfl⟩
  | locksRun here free => exact absurd free h.1
  | @findsEmpty w here queue =>
    have hno := hinr (w := w)
    rw [here] at hno
    cases hno
  | @pops w event rest here queue =>
    have hno := hinr (w := w)
    rw [here] at hno
    cases hno
  | @leavesEmpty w ok here =>
    have hno := hinr (w := w)
    rw [here] at hno
    cases hno
  | @unlockRunFails w event here =>
    have hno := hinr (w := w)
    rw [here] at hno
    cases hno
  | @unlocksRun w event here =>
    have hno := hinr (w := w)
    rw [here] at hno
    cases hno
  | @processes w event here => exact ⟨h.outside (inside_setWorker s w .waiting) rfl, rfl, rfl, rfl⟩

/-- A run behind which the mutex is still abandoned, and which has left the queue as it was at its
beginning. -/
theorem Abandoned.run (h : s.Abandoned) {ls : List (Label A W E)}
    (hrun : (lockedPool A W E).run s ls = some t) : t.Abandoned ∧ s.SameQueue t := by
  -- the queue is compared with the one at the beginning, not with that before the step
  refine Machine.run_invariant (G := Machine.anyStep) (I := fun u => u.Abandoned ∧ s.SameQueue u)
    ?_ ⟨h, rfl, rfl, rfl⟩ hrun (Machine.along_anyStep s ls)
  rintro u l v ⟨habandoned, hsame⟩ - hstep
  obtain ⟨hstill, hqueue⟩ := habandoned.step hstep
  exact ⟨hstill, hqueue.workQueue.trans hsame.workQueue, hqueue.pushed.trans hsame.pushed,
    hqueue.popped.trans hsame.popped⟩

theorem exclusive_of_reachable {G : LockedPool A W E → Label A W E → Prop}
    (h : (lockedPool A W E).Reachable G s) : s.Exclusive :=
  h.invariant (fun x hx => by cases x <;> cases hx) fun _ _ _ _ hs _ hstep => hs.step hstep

/-- A step leaves the queue alone when it fails to unlock: the event has been pushed or popped
before. -/
theorem sameQueue_of_fails {l : Label A W E} (hl : l.FailsToUnlock) (hstep : s.step l = some t) :
    s.SameQueue t := by
  cases does_of_step hstep with
  | unlockFails here => exact ⟨rfl, rfl, rfl⟩
  | leavesEmpty ok here => exact ⟨rfl, rfl, rfl⟩
  | unlockRunFails event here => exact ⟨rfl, rfl, rfl⟩
  | unlocks here => cases hl
  | unlocksRun event here => cases hl
  | _ => exact hl.elim

/-- **Behind an `unlock` that fails nothing is ever put into the queue or taken from it again**,
whatever the other threads do: every later `lock` waits for ever or fails. -/
theorem frozen {u : LockedPool A W E} (h : (lockedPool A W E).Reachable Machine.anyStep s)
    {l : Label A W E} (hl : l.FailsToUnlock) (hstep : (lockedPool A W E).step s l = some t)
    {ls : List (Label A W E)} (hrun : (lockedPool A W E).run t ls = some u) : s.SameQueue u := by
  -- from the failing step on the mutex is abandoned, and the step itself leaves the queue as it is
  obtain ⟨-, hlater⟩ := ((exclusive_of_reachable h).fails hl hstep).run hrun
  have hnow := sameQueue_of_fails hl hstep
  exact ⟨hlater.workQueue.trans hnow.workQueue, hlater.pushed.trans hnow.pushed,
    hlater.popped.trans hnow.popped⟩

/-- A second appender comes behind an `unlock` that fails, and a worker is woken. -/
theorem frozen_sample : ∃ t u : LockedPool Bool (Fin 2) ℕ,
    (lockedPool Bool (Fin 2) ℕ).run (lockedPool Bool (Fin 2) ℕ).start
      [.lock true (some 8) true, .push true, .unlock true true, .post true true,
        .lock false (some 9) true, .push false] = some t ∧
    (lockedPool Bool (Fin 2) ℕ).run t
      [.unlock false false, .wait 0 true, .lock true (some 10) false] = some u ∧
    t.SameQueue u := by
  have hfails : Label.FailsToUnlock (.unlock false false : Label Bool (Fin 2) ℕ) := rfl
  have hreach := Machine.reachable_of_run (G := Machine.anyStep) .start
    (show (lockedPool Bool (Fin 2) ℕ).run _ [.lock true (some 8) true, .push true,
      .unlock true true, .post true true, .lock false (some 9) true, .push false] = some _ from rfl)
    (Machine.along_anyStep _ _)
  exact ⟨_, _, rfl, rfl, frozen hreach hfails rfl (show (lockedPool Bool (Fin 2) ℕ).run _
    [.wait 0 true, .lock true (some 10) false] = some _ from rfl)⟩

end Frozen

/-! ### Where nothing fails -/

end LockedPool

/-- It has pushed, and is still to post: in `ThreadPool`, where a push and what is behind it in
`appendEvent` are two steps, it is between them. -/
def Appender.posting {E : Type} : Appender E → Bool
  | .pushed => true
  | .unlocked => true
  | _ => false

/-- It has passed `sem_wait`, and is still to pop: in `ThreadPool` it is one that has been woken. -/
def PoolWorker.popping {E : Type} : PoolWorker E → Bool
  | .woken => true
  | .locked => true
  | _ => false

/-- The threads of which something is so, when one of them goes on: it is enough to look at this
one, as nothing changes for the others. -/
theorem iff_update {T P : Type} [DecidableEq T] {b : P → Bool} {f : T → P} {M M' : T → Prop}
    (h : ∀ x, M x ↔ b (f x) = true) {t : T} {p : P} (hself : M' t ↔ b p = true)
    (hothers : ∀ x, x ≠ t → (M' x ↔ M x)) (x : T) : M' x ↔ b (Function.update f t p x) = true := by
  by_cases hx : x = t
  · subst hx
    rw [Function.update_self, hself]
  · rw [Function.update_of_ne hx, hothers x hx, h]

namespace LockedPool

variable {A W E : Type}

section Simulates

variable [DecidableEq A] [DecidableEq W] {s t : LockedPool A W E} {p : ThreadPool A W E}

/-- The state of `ThreadPool` that a state shows: the queue changes with `push` and with `pop`, in
which the thread has the mutex, and of the places of the threads only those are seen that
`ThreadPool` tells apart. -/
structure Shows (s : LockedPool A W E) (p : ThreadPool A W E) : Prop where
  workQueue : p.workQueue = s.workQueue
  queueEventNum : p.queueEventNum = s.queueEventNum
  pushing : ∀ a, a ∈ p.pushing ↔ (s.appender a).posting = true
  woken : ∀ w, w ∈ p.woken ↔ (s.worker w).popping = true
  curEvent : ∀ w, p.curEvent w = (s.worker w).curEvent
  pushed : p.pushed = s.pushed
  popped : p.popped = s.popped

omit [DecidableEq A] in
/-- A worker that goes on with the event `event`, which it has taken or which is no longer its
own. -/
theorem Shows.curEvent_setWorker (h : s.Shows p) {w : W} {q : PoolWorker E} {event : Option E}
    (hq : q.curEvent = event) (w' : W) :
    Function.update p.curEvent w event w' = ((s.setWorker w q).worker w').curEvent := by
  change _ = (Function.update s.worker w q w').curEvent
  by_cases hw : w' = w
  · subst hw
    rw [Function.update_self, Function.update_self, hq]
  · rw [Function.update_of_ne hw, Function.update_of_ne hw, h.curEvent]

omit [DecidableEq A] in
/-- A worker that goes on with the same event: `ThreadPool` has nothing to change for it. -/
theorem Shows.curEvent_kept (h : s.Shows p) {w : W} {q : PoolWorker E}
    (hq : q.curEvent = (s.worker w).curEvent) (w' : W) :
    p.curEvent w' = ((s.setWorker w q).worker w').curEvent := by
  have hset : Function.update p.curEvent w (s.worker w).curEvent w' =
      ((s.setWorker w q).worker w').curEvent := h.curEvent_setWorker hq w'
  rwa [← h.curEvent w, Function.update_eq_self] at hset

omit [DecidableEq W] in
/-- A step that `ThreadPool` does not have, of an appender that has still to post behind it if it
had before. -/
theorem Shows.setAppender (h : s.Shows p) {a : A} {q : Appender E}
    (hq : q.posting = (s.appender a).posting) (a' : A) :
    a' ∈ p.pushing ↔ ((s.setAppender a q).appender a').posting = true :=
  iff_update h.pushing (by rw [h.pushing, hq]) (fun _ _ => Iff.rfl) a'

omit [DecidableEq A] in
/-- A step that `ThreadPool` does not have, of a worker that has still to pop behind it if it had
before. -/
theorem Shows.setWorker (h : s.Shows p) {w : W} {q : PoolWorker E}
    (hq : q.popping = (s.worker w).popping) (w' : W) :
    w' ∈ p.woken ↔ ((s.setWorker w q).worker w').popping = true :=
  iff_update h.woken (by rw [h.woken, hq]) (fun _ _ => Iff.rfl) w'

/-- From `p` the pool can come to a state that `t` shows, by as many steps as it takes. -/
def Follows (p : ThreadPool A W E) (t : LockedPool A W E) : Prop :=
  ∃ ms q, (ThreadPool.pool A W E).run p ms = some q ∧ t.Shows q

/-- A step that `ThreadPool` answers with one of its own. -/
theorem follows_of_step {m : ThreadPool.Label A W E} {q : ThreadPool A W E}
    (hstep : p.step m = some q) (hq : t.Shows q) : Follows p t :=
  ⟨[m], q, (Machine.run_singleton _ _ _).trans hstep, hq⟩

/-! What `ThreadPool` answers, one lemma for each label. It has no mutex, so that locking and
unlocking are nothing to it. -/

/-- The call `pthread_mutex_lock` in `appendEvent`: the atomic pool does nothing yet, since the
queue is as it was. -/
theorem Shows.lock (h : s.Shows p) {a : A} {event : Option E}
    (hstep : s.Does (.lock a event true) t) : Follows p t := by
  cases hstep with | locks event here free => ?_
  refine ⟨[], p, rfl, h.workQueue, h.queueEventNum, h.setAppender ?_, h.woken,
    h.curEvent, h.pushed, h.popped⟩
  rw [here]
  rfl

/-- The appender pushes its event, and is one that is still to post. -/
theorem Shows.push (h : s.Shows p) {a : A} (hstep : s.Does (.push a) t) : Follows p t := by
  cases hstep with | pushes event here => ?_
  -- in `ThreadPool` it may push, as it is not between two steps of `appendEvent`
  have hout : a ∉ p.pushing := by
    rw [h.pushing, here]
    exact Bool.false_ne_true
  refine follows_of_step (m := .push a event) (if_neg hout) ⟨?_, h.queueEventNum, ?_, h.woken,
    h.curEvent, ?_, h.popped⟩
  · exact congrArg (· ++ [event]) h.workQueue
  · refine iff_update h.pushing ?_ fun x hx => ?_
    · simp [Appender.posting]
    · simp [hx]
  · exact congrArg (· ++ [event]) h.pushed

/-- The call `pthread_mutex_unlock` in `appendEvent`: the event is in the queue, and it is still to
post. -/
theorem Shows.unlock (h : s.Shows p) {a : A} (hstep : s.Does (.unlock a true) t) :
    Follows p t := by
  cases hstep with | unlocks here => ?_
  refine ⟨[], p, rfl, h.workQueue, h.queueEventNum, h.setAppender ?_, h.woken,
    h.curEvent, h.pushed, h.popped⟩
  rw [here]
  rfl

/-- The appender posts: in the atomic pool it leaves those who are pushing, and the count goes up by
one. -/
theorem Shows.post (h : s.Shows p) {a : A} (hstep : s.Does (.post a true) t) : Follows p t := by
  cases hstep with | posts here => ?_
  have hin : a ∈ p.pushing := by
    rw [h.pushing, here]
    rfl
  refine follows_of_step (m := .post a) (if_pos hin) ⟨h.workQueue,
    congrArg (· + 1) h.queueEventNum, ?_, h.woken, h.curEvent, h.pushed, h.popped⟩
  refine iff_update h.pushing ?_ fun x hx => ?_
  · simp [Appender.posting]
  · simp [hx]

/-- The worker passes `sem_wait`, and is one that is still to pop. -/
theorem Shows.wait (h : s.Shows p) {w : W} (hstep : s.Does (.wait w true) t) : Follows p t := by
  cases hstep with | waits n here num => ?_
  have hnum := h.queueEventNum.trans num
  -- the three things `ThreadPool` asks of a worker that passes `sem_wait`
  have hready : w ∉ p.woken ∧ p.curEvent w = none ∧ 0 < p.queueEventNum := by
    refine ⟨?_, ?_, by omega⟩
    · rw [h.woken, here]
      exact Bool.false_ne_true
    · rw [h.curEvent, here]
      rfl
  refine follows_of_step (m := .wait w) (if_pos hready) ⟨h.workQueue, ?_,
    h.pushing, ?_, h.curEvent_kept ?_, h.pushed, h.popped⟩
  -- both take one unit
  · change p.queueEventNum - 1 = n
    omega
  · refine iff_update h.woken ?_ fun x hx => ?_
    · simp [PoolWorker.popping]
    · simp [hx]
  · rw [here]
    rfl

/-- The call `pthread_mutex_lock` in `run`: the worker has been woken, and is still to pop. -/
theorem Shows.lockRun (h : s.Shows p) {w : W} (hstep : s.Does (.lockRun w true) t) :
    Follows p t := by
  cases hstep with | locksRun here free => ?_
  refine ⟨[], p, rfl, h.workQueue, h.queueEventNum, h.pushing, h.setWorker ?_,
    h.curEvent_kept ?_, h.pushed, h.popped⟩
  · rw [here]
    rfl
  · rw [here]
    rfl

/-- The worker pops, from the same queue and at the same end as in the atomic pool. -/
theorem Shows.pop (h : s.Shows p) {w : W} (hstep : s.Does (.pop w) t) : Follows p t := by
  have hin : (s.worker w).popping = true → w ∈ p.woken := (h.woken w).mpr
  cases hstep with
  | findsEmpty here queue =>
    rw [here] at hin
    -- `ThreadPool` finds its queue empty as well, and the worker goes back to wait
    have hpop : p.step (.pop w) = some { p with woken := p.woken.erase w } := by
      rw [ThreadPool.step, if_pos (hin rfl), h.workQueue, queue]
    refine follows_of_step hpop ⟨h.workQueue, h.queueEventNum, h.pushing, ?_, h.curEvent_kept ?_,
      h.pushed, h.popped⟩
    · refine iff_update h.woken ?_ fun x hx => ?_
      · simp [PoolWorker.popping]
      · simp [hx]
    · rw [here]
      rfl
  | pops event rest here queue =>
    rw [here] at hin
    -- both pop the event at the front
    have hpop : p.step (.pop w) = some { p with
        workQueue := rest
        woken := p.woken.erase w
        curEvent := Function.update p.curEvent w event
        popped := p.popped ++ [(w, event)] } := by
      rw [ThreadPool.step, if_pos (hin rfl), h.workQueue, queue]
    refine follows_of_step hpop ⟨rfl, h.queueEventNum, h.pushing, ?_, h.curEvent_setWorker rfl,
      h.pushed, congrArg (· ++ [(w, event)]) h.popped⟩
    refine iff_update h.woken ?_ fun x hx => ?_
    · simp [PoolWorker.popping]
    · simp [hx]

/-- The call `pthread_mutex_unlock` in `run`: the worker keeps its event, which nobody else has. -/
theorem Shows.unlockRun (h : s.Shows p) {w : W} (hstep : s.Does (.unlockRun w true) t) :
    Follows p t := by
  cases hstep with
  -- it goes back to wait, where `ThreadPool` has had it since it found nothing
  | leavesEmpty ok here =>
    refine ⟨[], p, rfl, h.workQueue, h.queueEventNum, h.pushing, h.setWorker ?_,
      h.curEvent_kept ?_, h.pushed, h.popped⟩
    · rw [here]
      rfl
    · rw [here]
      rfl
  -- it has taken its event in `ThreadPool` when it popped it
  | unlocksRun event here =>
    refine ⟨[], p, rfl, h.workQueue, h.queueEventNum, h.pushing, h.setWorker ?_,
      h.curEvent_kept ?_, h.pushed, h.popped⟩
    · rw [here]
      cases event <;> rfl
    · rw [here]
      cases event <;> rfl

/-- The worker processes its event, and has none behind it: it waits at the semaphore again. -/
theorem Shows.process (h : s.Shows p) {w : W} (hstep : s.Does (.process w) t) : Follows p t := by
  cases hstep with | processes event here => ?_
  -- `ThreadPool` has the same event in hand
  have hcur : p.curEvent w = some event := by
    rw [h.curEvent, here]
    rfl
  have hprocess : p.step (.process w) =
      some { p with curEvent := Function.update p.curEvent w none } := by
    rw [ThreadPool.step, hcur]
  refine follows_of_step hprocess ⟨h.workQueue, h.queueEventNum, h.pushing, h.setWorker ?_,
    h.curEvent_setWorker rfl, h.pushed, h.popped⟩
  rw [here]
  rfl

/-- **The mutex makes `push` and `pop` one step.** A thread that has locked `queueLocker` pushes or
pops in a step of its own, and only this step is seen in the queue; `ThreadPool` answers it with its
`push` or its `pop`, a `sem_post` and a `sem_wait` with its own, and the calls of the mutex with
nothing. -/
theorem simulates :
    (lockedPool A W E).Simulates (ThreadPool.pool A W E) (fun _ l => l.Succeeds) Shows where
  start :=
    ⟨rfl, rfl,
      fun a => by simp [lockedPool, init, ThreadPool.pool, ThreadPool.init, Appender.posting],
      fun w => by simp [lockedPool, init, ThreadPool.pool, ThreadPool.init, PoolWorker.popping],
      fun _ => rfl, rfl, rfl⟩
  step s l t p h hl hstep := by
    have hdoes := does_of_step hstep
    -- of the calls of the primitives only those that succeed are left
    cases l with
    | lock a event ok => obtain rfl : ok = true := hl; exact h.lock hdoes
    | push a => exact h.push hdoes
    | unlock a ok => obtain rfl : ok = true := hl; exact h.unlock hdoes
    | post a ok => obtain rfl : ok = true := hl; exact h.post hdoes
    | wait w ok => obtain rfl : ok = true := hl; exact h.wait hdoes
    | lockRun w ok => obtain rfl : ok = true := hl; exact h.lockRun hdoes
    | pop w => exact h.pop hdoes
    | unlockRun w ok => obtain rfl : ok = true := hl; exact h.unlockRun hdoes
    | process w => exact h.process hdoes

/-- **A run in which no call fails is a run of `ThreadPool`**, with the same events pushed, popped
and queued. So what is proved of `ThreadPool`, where a push and a pop are single steps, holds of the
threads with their mutex. -/
theorem refines {ls : List (Label A W E)}
    (hrun : (lockedPool A W E).run (lockedPool A W E).start ls = some s)
    (hls : ∀ l ∈ ls, l.Succeeds) : ∃ ms p,
      (ThreadPool.pool A W E).run (ThreadPool.pool A W E).start ms = some p ∧ s.Shows p :=
  simulates.run simulates.start hrun (Machine.along_of_labels hls _)

/-- Two appenders at once, and a worker that comes to the mutex while it is locked. -/
def contended : List (Label Bool (Fin 2) ℕ) :=
  [.lock true (some 7) true, .push true, .unlock true true, .lock false none true, .post true true,
    .wait 1 true, .push false, .unlock false true, .lockRun 1 true, .pop 1, .post false true,
    .unlockRun 1 true, .process 1]

theorem refines_contended :
    ∃ s, (lockedPool Bool (Fin 2) ℕ).run (lockedPool Bool (Fin 2) ℕ).start contended = some s ∧
      s.workQueue = [none] ∧ s.processed = [(1, 7)] ∧
      ∃ ms p, (ThreadPool.pool Bool (Fin 2) ℕ).run
        (ThreadPool.pool Bool (Fin 2) ℕ).start ms = some p ∧ s.Shows p :=
  ⟨_, rfl, rfl, rfl, refines (show (lockedPool Bool (Fin 2) ℕ).run _ contended = some _ from rfl)
    (by simp [contended, Label.Succeeds])⟩

end Simulates

end LockedPool

end Cherokee
