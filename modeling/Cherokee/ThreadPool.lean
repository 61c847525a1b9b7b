import Cherokee.Lib.Transition
import Mathlib.Data.Finset.Card

/-!
# The work queue (`threadpool/threadpool.cpp`)

Any number of threads call `ThreadPool::appendEvent` while any number of workers are in
`ThreadPool::run`. Pushing an event and posting the semaphore are two steps of an appender, waiting
for the semaphore and popping an event two steps of a worker, and the steps of all threads
interleave.

* `ThreadPool.Balanced`: what the queue's length says about the semaphore and the threads between
  their two steps, and `ThreadPool.Balanced.step`: every step keeps it.
* `ThreadPool.delivers_of_reachable`: every event is delivered once, in order.
-/

namespace Cherokee

/-- The thread pool, with appenders `A`, workers `W` and events `E`. A `nullptr` in the queue is
`none`. -/
structure ThreadPool (A W E : Type) where
  /-- `m_workQueue` -/
  workQueue : List (Option E)
  /-- The value of the semaphore `queueEventNum`. -/
  queueEventNum : ℕ
  /-- The appenders that have pushed and not posted yet. -/
  pushing : Finset A
  /-- The workers that have passed `sem_wait` and not popped yet. -/
  woken : Finset W
  /-- `curEvent`, while a worker processes it. -/
  curEvent : W → Option E
  /-- The events pushed, in order. -/
  pushed : List (Option E)
  /-- The events popped, in order, each with the worker that popped it. -/
  popped : List (W × Option E)

namespace ThreadPool

variable {A W E : Type}

/-- A step of a thread. -/
inductive Label (A W E : Type) where
  /-- `lock; m_workQueue.push(event); unlock` in `appendEvent` -/
  | push (a : A) (event : Option E)
  /-- `sem_post` in `appendEvent` -/
  | post (a : A)
  /-- `sem_wait` in `run` -/
  | wait (w : W)
  /-- `lock; front; pop; unlock` in `run` -/
  | pop (w : W)
  /-- `curEvent->process(); delete curEvent;` in `run` -/
  | process (w : W)

section Step

variable [DecidableEq A] [DecidableEq W]

/-- One step; `none` where the thread is not at it. -/
def step (s : ThreadPool A W E) : Label A W E → Option (ThreadPool A W E)
  | .push a event =>
    if a ∈ s.pushing then none
    else some { s with
      workQueue := s.workQueue ++ [event]
      pushing := insert a s.pushing
      pushed := s.pushed ++ [event] }
  | .post a =>
    if a ∈ s.pushing then
      some { s with queueEventNum := s.queueEventNum + 1, pushing := s.pushing.erase a }
    else none
  | .wait w =>
    -- `sem_wait` blocks while the semaphore is zero
    if w ∉ s.woken ∧ s.curEvent w = none ∧ 0 < s.queueEventNum then
      some { s with queueEventNum := s.queueEventNum - 1, woken := insert w s.woken }
    else none
  | .pop w =>
    if w ∈ s.woken then
      match s.workQueue with
      -- the empty queue: `unlock; continue;`
      | [] => some { s with woken := s.woken.erase w }
      | event :: rest => some { s with
          workQueue := rest
          woken := s.woken.erase w
          curEvent := Function.update s.curEvent w event
          popped := s.popped ++ [(w, event)] }
    else none
  | .process w =>
    match s.curEvent w with
    | some _ => some { s with curEvent := Function.update s.curEvent w none }
    | none => none

end Step

/-- The thread pool at its start. -/
def init : ThreadPool A W E where
  workQueue := []
  queueEventNum := 0
  pushing := ∅
  woken := ∅
  curEvent _ := none
  pushed := []
  popped := []

/-- The threads of the pool. -/
def pool (A W E : Type) [DecidableEq A] [DecidableEq W] :
    Machine (ThreadPool A W E) (Label A W E) where
  start := init
  step := step

/-! ### The invariant -/

/-- The queue has an event for every post to come, for every unit of the semaphore and for every
worker between its wait and its pop. -/
structure Balanced (s : ThreadPool A W E) : Prop where
  length : s.workQueue.length = s.queueEventNum + s.pushing.card + s.woken.card
  history : s.popped.map Prod.snd ++ s.workQueue = s.pushed

theorem Balanced.workQueue_ne_nil {s : ThreadPool A W E} (h : s.Balanced) {w : W}
    (hw : w ∈ s.woken) : s.workQueue ≠ [] := by
  intro hnil
  have hlength := h.length
  have hpos : 0 < s.woken.card := Finset.card_pos.mpr ⟨w, hw⟩
  rw [hnil, List.length_nil] at hlength
  omega

theorem balanced_init : Balanced (init : ThreadPool A W E) where
  length := rfl
  history := rfl

/-- **Every step keeps the balance.** -/
theorem Balanced.step [DecidableEq A] [DecidableEq W] {s t : ThreadPool A W E} (h : s.Balanced)
    {l : Label A W E}
    (hstep : s.step l = some t) : t.Balanced := by
  have hlength := h.length
  cases l with
  | push a event =>
    obtain ⟨hout, ht⟩ := Option.ite_none_left_eq_some.mp hstep
    obtain rfl := Option.some.inj ht
    refine ⟨?_, ?_⟩
    · change (s.workQueue ++ [event]).length =
        s.queueEventNum + (insert a s.pushing).card + s.woken.card
      -- the event waits in the queue, and its post is still to come
      rw [List.length_append, Finset.card_insert_of_notMem hout, List.length_singleton]
      omega
    · change _ ++ (s.workQueue ++ [event]) = s.pushed ++ [event]
      rw [← List.append_assoc, h.history]
  | post a =>
    obtain ⟨hin, ht⟩ := Option.ite_none_right_eq_some.mp hstep
    obtain rfl := Option.some.inj ht
    refine ⟨?_, h.history⟩
    -- one push fewer is under way, and the semaphore counts one more
    have hcard := Finset.card_erase_add_one hin
    change s.workQueue.length = s.queueEventNum + 1 + (s.pushing.erase a).card + s.woken.card
    omega
  | wait w =>
    obtain ⟨⟨hout, -, hpos⟩, ht⟩ := Option.ite_none_right_eq_some.mp hstep
    obtain rfl := Option.some.inj ht
    refine ⟨?_, h.history⟩
    change s.workQueue.length =
      s.queueEventNum - 1 + s.pushing.card + (insert w s.woken).card
    -- the count moves from the semaphore to the workers that are awake
    rw [Finset.card_insert_of_notMem hout]
    omega
  | pop w =>
    obtain ⟨hin, ht⟩ := Option.ite_none_right_eq_some.mp hstep
    have hcard := Finset.card_erase_add_one hin
    -- the queue has an event for this worker
    obtain ⟨event, rest, hqueue⟩ := List.exists_cons_of_ne_nil (h.workQueue_ne_nil hin)
    rw [hqueue] at ht hlength
    obtain rfl := Option.some.inj ht
    refine ⟨?_, ?_⟩
    · change rest.length = s.queueEventNum + s.pushing.card + (s.woken.erase w).card
      rw [List.length_cons] at hlength
      omega
    · change (s.popped ++ [(w, event)]).map Prod.snd ++ rest = s.pushed
      rw [← h.history, hqueue, List.map_append, List.append_assoc]
      rfl
  | process w =>
    simp only [ThreadPool.step] at hstep
    cases hcur : s.curEvent w with
    | none =>
      rw [hcur] at hstep
      cases hstep
    | some event =>
      rw [hcur] at hstep
      obtain rfl := Option.some.inj hstep
      exact ⟨h.length, h.history⟩

/-! ### Delivery -/

/-- Every event is delivered exactly once. -/
structure Delivers (s : ThreadPool A W E) : Prop where
  /-- The queue's length, the semaphore and the threads between their two steps. -/
  length : s.workQueue.length = s.queueEventNum + s.pushing.card + s.woken.card
  /-- A worker that comes to pop finds an event. -/
  nonempty : ∀ w ∈ s.woken, s.workQueue ≠ []
  /-- Events are popped in the order they were pushed: the `i`-th popped is the `i`-th pushed. -/
  inOrder : ∀ (i : ℕ) (w : W) (event : Option E), s.popped[i]? = some (w, event) →
    s.pushed[i]? = some event
  /-- An event that has been pushed once is popped once at most, by one worker. -/
  once : ∀ event : Option E,
    (∀ i j : ℕ, s.pushed[i]? = some event → s.pushed[j]? = some event → i = j) →
    ∀ (i j : ℕ) (w w' : W), s.popped[i]? = some (w, event) → s.popped[j]? = some (w', event) →
      i = j ∧ w = w'
  /-- When all is quiet, every event has been popped. -/
  complete : s.pushing = ∅ → s.queueEventNum = 0 → s.woken = ∅ →
    s.popped.map Prod.snd = s.pushed

theorem Balanced.inOrder {s : ThreadPool A W E} (h : s.Balanced) {i : ℕ} {w : W}
    {event : Option E} (hi : s.popped[i]? = some (w, event)) : s.pushed[i]? = some event := by
  have hmap : (s.popped.map Prod.snd)[i]? = some event := by
    rw [List.getElem?_map, hi]
    rfl
  have hlt : i < (s.popped.map Prod.snd).length := by
    rw [List.length_map]
    exact (List.getElem?_eq_some_iff.mp hi).1
  rw [← h.history, List.getElem?_append_left hlt]
  exact hmap

theorem Balanced.delivers {s : ThreadPool A W E} (h : s.Balanced) : s.Delivers where
  length := h.length
  nonempty _ hw := h.workQueue_ne_nil hw
  inOrder _ _ _ hi := h.inOrder hi
  once event honce i j w w' hi hj := by
    have hij : i = j := honce i j (h.inOrder hi) (h.inOrder hj)
    rw [hij, hj] at hi
    exact ⟨hij, (Prod.mk.inj (Option.some.inj hi)).1.symm⟩
  complete hpushing hnum hwoken := by
    have hlength := h.length
    rw [hpushing, hnum, hwoken, Finset.card_empty, Finset.card_empty] at hlength
    rw [← h.history, List.eq_nil_of_length_eq_zero hlength, List.append_nil]

/-- **The work queue delivers every event exactly once**, in every interleaving of any number of
appenders and workers. -/
theorem delivers_of_reachable [DecidableEq A] [DecidableEq W] {s : ThreadPool A W E}
    (h : (pool A W E).Reachable Machine.anyStep s) : s.Delivers := by
  refine Balanced.delivers (h.invariant balanced_init ?_)
  intro s l t _ hs _ hstep
  exact hs.step hstep

/-- Two appenders and two workers: the semaphore is posted once while two events are queued. -/
def overlapped : List (Label ℕ ℕ ℕ) :=
  [.push 0 (some 7), .push 1 (some 8), .post 1, .wait 5, .pop 5, .post 0, .wait 6]

theorem delivers_of_reachable_sample :
    ∃ s, (pool ℕ ℕ ℕ).run (pool ℕ ℕ ℕ).start overlapped = some s ∧
      s.popped = [(5, some 7)] ∧ s.workQueue = [some 8] ∧ s.Delivers :=
  ⟨_, rfl, rfl, rfl, delivers_of_reachable
    (Machine.reachable_of_run .start (show (pool ℕ ℕ ℕ).run _ overlapped = some _ from rfl)
      (Machine.along_anyStep _ _))⟩

end ThreadPool

end Cherokee
