import Cherokee.Microsteps
import Cherokee.WebServer

/-!
# Two handlers of one connection

The handlers arm their descriptor and go on using its entries. As soon as it is armed epoll may
report it, and another worker may take the handler made for that report. `crew` is the system at the
single steps of the workers: between two of them anything else may happen. What an access does
before the way out is left open; the ways out are those of the source, step by step.

* `Crew.Undisturbed`: no handler is about to access entries that another one has not finished with.
* `Crew.undisturbed_of_settled`: this holds where no descriptor is reported before the handlers made
  for it have finished with its entries, and any other report leads to a state where it does not.
* `Crew.disturbed`: a `GET` and the first bytes of the next request.
-/

namespace Cherokee

/-- What is left of a handler. Before its way out it makes any number of accesses; from then on the
steps that are left are known. -/
inductive Todo where
  /-- It has not come to its way out. -/
  | body
  /-- The steps that are left of its way out. -/
  | leaving (ops : List Op)
deriving DecidableEq, Repr

/-- A handler that a worker has taken and that has not returned, with what it has still to do. -/
structure Worker where
  event : Event
  todo : Todo
deriving DecidableEq, Repr

namespace Worker

/-- Its next step is an access to the entries of its descriptor. -/
def touching (w : Worker) : Bool :=
  match w.todo with
  | .body => true
  | .leaving ops => ops.head?.any Op.touches

/-- It still has accesses to the entries of its descriptor to make. -/
def pending (w : Worker) : Bool :=
  match w.todo with
  | .body => true
  | .leaving ops => ops.any Op.touches

/-- The handler with the steps `ops` left; without any it returns. -/
def leave (e : Event) (ops : List Op) : Option Worker :=
  if ops = [] then none else some ⟨e, .leaving ops⟩

end Worker

/-- The state between two steps of workers. -/
structure Crew where
  /-- `EventBase::requestStatus` -/
  requestStatus : ℤ → Option Request
  /-- `EventBase::responseStatus` -/
  responseStatus : ℤ → Option Response
  /-- The descriptors of clients that are open. -/
  opened : ℤ → Bool
  /-- What epoll holds of them. -/
  interest : ℤ → Option Interest
  /-- `ThreadPool::m_workQueue`; the handlers are numbered in the order in which they are made. -/
  workQueue : List (ℕ × Event)
  /-- The handlers taken by workers. -/
  workers : ℕ → Option Worker
  /-- The number of handlers made. -/
  made : ℕ
  /-- The handler that has accessed the entries of a descriptor last. -/
  last : ℤ → ℕ

namespace Crew

/-- A step of the system. The steps of the handlers are told apart by the numbers of the
handlers. -/
inductive Label where
  /-- `AcceptConn::process` accepts a connection under the descriptor `fd`. -/
  | accept (fd : ℤ)
  /-- `epoll_wait` reports `fd`, with or without `EPOLLIN` and `EPOLLOUT`. -/
  | report (fd : ℤ) (readable writable : Bool)
  /-- A worker takes the first event of the work queue. -/
  | take
  /-- The handler `n` makes an access before its way out, by which it may come to it. -/
  | access (n : ℕ) (f : Entries → Entries) (exit : Option Exit)
  /-- The handler `n` makes the next step of its way out. -/
  | next (n : ℕ) (fresh : Uninit)

/-- The state at the start: no descriptor is open, and no handler has been made. -/
def init : Crew where
  requestStatus _ := none
  responseStatus _ := none
  opened _ := false
  interest _ := none
  workQueue := []
  workers _ := none
  made := 0
  last _ := 0

/-- The entries of a descriptor in the two tables, as a handler for it finds them. -/
def entries (s : Crew) (fd : ℤ) : Entries := ⟨s.requestStatus fd, s.responseStatus fd⟩

/-- The state with other entries for `fd`. -/
def setEntries (s : Crew) (fd : ℤ) (e : Entries) : Crew :=
  { s with
    requestStatus := Function.update s.requestStatus fd e.request
    responseStatus := Function.update s.responseStatus fd e.response }

/-- What a step does to the descriptors. -/
def setDescriptors (s : Crew) (fd : ℤ) : Op → Crew
  | .close => { s with
      opened := Function.update s.opened fd false
      interest := Function.update s.interest fd none }
  | .closeFile d => { s with
      opened := Function.update s.opened d false
      interest := Function.update s.interest d none }
  | op => { s with interest := Function.update s.interest fd (op.register (s.interest fd)) }

/-- The state in which the handler `n` has become `o`, having accessed the entries of `fd` or
not. -/
def setWorker (s : Crew) (n : ℕ) (o : Option Worker) (fd : ℤ) (touched : Bool) : Crew :=
  { s with
    workers := Function.update s.workers n o
    last := if touched then Function.update s.last fd n else s.last }

/-- One step. A handler accesses the entries as they are when it comes to do so, whoever has written
them, and the next step of its way out may depend on what it finds. -/
def step (s : Crew) : Label → Option Crew
  | .accept fd =>
    if s.opened fd = false then
      some { s with
        opened := Function.update s.opened fd true
        interest := Function.update s.interest fd (some ⟨true, false⟩) }
    else none
  | .report fd readable writable =>
    match s.interest fd with
    | some ⟨true, out⟩ =>
      if writable = true → out = true then
        -- the handler that is made takes the next number
        let events := WebServer.dispatch fd readable writable
        some { s with
          interest := Function.update s.interest fd (some ⟨false, false⟩)
          workQueue := s.workQueue ++ events.map (s.made, ·)
          made := s.made + events.length }
      else none
    | _ => none
  | .take =>
    match s.workQueue with
    | (n, e) :: rest => some { s with
        workQueue := rest
        workers := Function.update s.workers n (some ⟨e, .body⟩) }
    | [] => none
  | .access n f exit =>
    match s.workers n with
    | some ⟨e, .body⟩ =>
      -- a handler leaves by a way out of its own kind only
      if exit.all (·.kind = e.kind) then
        some ((s.setEntries e.fd (f (s.entries e.fd))).setWorker n
          (match exit with
            | some x => Worker.leave e x.ops
            | none => some ⟨e, .body⟩) e.fd true)
      else none
    | _ => none
  | .next n fresh =>
    match s.workers n with
    | some ⟨e, .leaving (op :: ops)⟩ =>
      -- a step may find that there is more to do, and this comes before what is left
      let (entries, more) := op.run fresh (s.entries e.fd)
      some (((s.setEntries e.fd entries).setDescriptors e.fd op).setWorker n
        (Worker.leave e (more ++ ops)) e.fd op.touches)
    | _ => none

/-- **No handler is about to access entries** that another handler for the same descriptor has not
finished with, or that a handler made later has accessed already. -/
def Undisturbed (s : Crew) : Prop :=
  ∀ n w, s.workers n = some w → w.touching = true →
    (∀ m w', s.workers m = some w' → m ≠ n → w'.event.fd = w.event.fd → w'.pending = false) ∧
      s.last w.event.fd ≤ n

/-- A descriptor is reported only when no handler made for it is queued or still has accesses to its
entries to make. -/
def Settled (s : Crew) : Label → Prop
  | .report fd _ _ => (∀ t ∈ s.workQueue, t.2.fd ≠ fd) ∧
      ∀ n < s.made, ∀ w ∈ s.workers n, w.event.fd = fd → w.pending = false
  | _ => True

instance (s : Crew) : (l : Label) → Decidable (s.Settled l)
  | .report fd _ _ => inferInstanceAs (Decidable ((∀ t ∈ s.workQueue, t.2.fd ≠ fd) ∧
      ∀ n < s.made, ∀ w ∈ s.workers n, w.event.fd = fd → w.pending = false))
  | .accept _ => .isTrue trivial
  | .take => .isTrue trivial
  | .access _ _ _ => .isTrue trivial
  | .next _ _ => .isTrue trivial

end Crew

/-- The server at the steps of its workers. -/
def crew : Machine Crew Crew.Label where
  start := Crew.init
  step := Crew.step

namespace Crew

/-! ### What a step does -/

/-- An accept: the descriptor was free, and is registered for input. -/
theorem accept_eq_some {s t : Crew} {fd : ℤ} :
    s.step (.accept fd) = some t ↔ s.opened fd = false ∧
      t = { s with
        opened := Function.update s.opened fd true
        interest := Function.update s.interest fd (some ⟨true, false⟩) } := by
  rw [step, Option.ite_none_right_eq_some, Option.some.injEq]
  exact and_congr_right fun _ => eq_comm

/-- A report: the handler it makes stands at the end of the queue, with the next number. -/
theorem report_eq_some {s t : Crew} {fd : ℤ} {readable writable : Bool}
    (h : s.step (.report fd readable writable) = some t) :
    t = { s with
      interest := Function.update s.interest fd (some ⟨false, false⟩)
      workQueue := s.workQueue ++ (WebServer.dispatch fd readable writable).map (s.made, ·)
      made := s.made + (WebServer.dispatch fd readable writable).length } := by
  unfold step at h
  simp only at h
  split at h
  · rw [Option.ite_none_right_eq_some] at h
    exact (Option.some.inj h.2).symm
  · cases h

/-- A worker takes the handler at the front of the queue, which has all its accesses still to
make. -/
theorem take_eq_some {s t : Crew} (h : s.step .take = some t) :
    ∃ n e rest, s.workQueue = (n, e) :: rest ∧
      t = { s with
        workQueue := rest
        workers := Function.update s.workers n (some ⟨e, .body⟩) } := by
  unfold step at h
  simp only at h
  split at h
  · next n e rest hqueue => exact ⟨n, e, rest, hqueue, (Option.some.inj h).symm⟩
  · cases h

/-- What a step of the handler `n` does to what is left of it. -/
structure Works (s t : Crew) (n : ℕ) (w : Worker) (o : Option Worker) (touched : Bool) : Prop where
  worker : s.workers n = some w
  /-- It is for the same descriptor, and has nothing to access that it did not have before. -/
  fewer : ∀ w' ∈ o, w'.event = w.event ∧ (w'.pending = true → w.pending = true)
  accessed : touched = true → w.pending = true
  workers : t.workers = Function.update s.workers n o
  workQueue : t.workQueue = s.workQueue
  made : t.made = s.made
  last : t.last = if touched then Function.update s.last w.event.fd n else s.last

/-- A handler that is left with steps to make is the same handler. -/
theorem mem_leave {e : Event} {ops : List Op} {w : Worker} (h : w ∈ Worker.leave e ops) :
    w = ⟨e, .leaving ops⟩ := by
  unfold Worker.leave at h
  split_ifs at h with hops
  · cases h
  · exact (Option.some.inj h).symm

/-- An access before the way out. -/
theorem works_of_access {s t : Crew} {n : ℕ} {f : Entries → Entries} {exit : Option Exit}
    (h : s.step (.access n f exit) = some t) : ∃ w o, s.Works t n w o true := by
  unfold step at h
  simp only at h
  split at h
  · next e hworker =>
    rw [Option.ite_none_right_eq_some] at h
    obtain ⟨-, h⟩ := h
    obtain rfl := Option.some.inj h
    refine ⟨⟨e, .body⟩, _, hworker, fun w' hw' => ⟨?_, fun _ => rfl⟩, fun _ => rfl, rfl, rfl, rfl,
      rfl⟩
    -- it is still before its way out, or has the steps of it left
    cases exit with
    | none =>
      obtain rfl := Option.some.inj hw'
      rfl
    | some x =>
      rw [mem_leave hw']
  · cases h

/-- The descriptors have nothing to do with the handlers. -/
theorem setDescriptors_frame (s : Crew) (fd : ℤ) (op : Op) :
    (s.setDescriptors fd op).workers = s.workers ∧
      (s.setDescriptors fd op).workQueue = s.workQueue ∧
      (s.setDescriptors fd op).made = s.made ∧ (s.setDescriptors fd op).last = s.last := by
  cases op <;> exact ⟨rfl, rfl, rfl, rfl⟩

/-- A step of the way out, which is an access or not. -/
theorem works_of_next {s t : Crew} {n : ℕ} {fresh : Uninit}
    (h : s.step (.next n fresh) = some t) : ∃ w o touched, s.Works t n w o touched := by
  unfold step at h
  simp only at h
  split at h
  · next e op ops hworker =>
    obtain rfl := Option.some.inj h
    -- what the step does to entries and descriptors leaves the handlers alone
    obtain ⟨hworkers, hqueue, hmade, hlast⟩ :=
      (s.setEntries e.fd (op.run fresh (s.entries e.fd)).1).setDescriptors_frame e.fd op
    refine ⟨⟨e, .leaving (op :: ops)⟩, _, op.touches, hworker, fun w' hw' => ?_, fun htouches => ?_,
      congrArg (Function.update · n _) hworkers, hqueue, hmade,
      congrArg (fun last : ℤ → ℕ => if op.touches then Function.update last e.fd n else last) hlast⟩
    · rw [mem_leave hw']
      refine ⟨rfl, fun hpending => ?_⟩
      cases htouches : op.touches with
      | true => simp [Worker.pending, htouches]
      | false =>
        -- without an access nothing has been decided
        rw [Op.run_of_not_touches htouches] at hpending
        simpa [Worker.pending, htouches] using hpending
    · simp [Worker.pending, htouches]
  · cases h

/-! ### One handler for each descriptor -/

/-- The handlers are numbered as they are made. -/
structure Numbered (s : Crew) : Prop where
  workers : ∀ n w, s.workers n = some w → n < s.made
  queued : ∀ t ∈ s.workQueue, t.1 < s.made ∧ s.workers t.1 = none
  nodup : (s.workQueue.map Prod.fst).Nodup

/-- For each descriptor at most one handler is queued or has accesses to make, and it is the last
that has accessed the entries. -/
structure Exclusive (s : Crew) : Prop where
  queue : s.workQueue.Pairwise fun t t' => t.2.fd ≠ t'.2.fd
  apart : ∀ t ∈ s.workQueue, ∀ n w, s.workers n = some w → w.pending = true →
    w.event.fd ≠ t.2.fd
  single : ∀ n w m w', s.workers n = some w → s.workers m = some w' → w.event.fd = w'.event.fd →
    w.pending = true → w'.pending = true → n = m
  order : ∀ n w, s.workers n = some w → w.pending = true → s.last w.event.fd ≤ n
  waiting : ∀ t ∈ s.workQueue, s.last t.2.fd ≤ t.1
  bound : ∀ fd, s.last fd ≤ s.made

/-- A handler that is about to access has an access to make. -/
theorem Worker.pending_of_touching {w : Worker} (h : w.touching = true) : w.pending = true := by
  obtain ⟨e, todo⟩ := w
  cases todo with
  | body => rfl
  | leaving ops =>
    cases ops with
    | nil => cases h
    | cons op ops =>
      have hop : op.touches = true := h
      simp [Worker.pending, hop]

/-- Where there is one handler for each descriptor nothing is disturbed. -/
theorem Exclusive.undisturbed {s : Crew} (h : s.Exclusive) : s.Undisturbed := by
  intro n w hw htouching
  have hpending := Worker.pending_of_touching htouching
  refine ⟨fun m w' hw' hne hfd => Bool.eq_false_iff.mpr fun hp => hne ?_, h.order n w hw hpending⟩
  -- two that had accesses to make would be the same
  exact h.single m w' n w hw' hw hfd hp hpending

/-- At the start there is no handler to be numbered. -/
theorem numbered_init : Numbered init := ⟨nofun, nofun, List.nodup_nil⟩

/-- At the start there is no handler that could be in the way of another one. -/
theorem exclusive_init : Exclusive init where
  queue := List.Pairwise.nil
  apart := nofun
  single := nofun
  order := nofun
  waiting := nofun
  bound _ := Nat.zero_le _

/-! #### Steps of the handlers -/

variable {s t : Crew}

/-- The handlers behind a step of the handler `n`. -/
theorem Works.cases {n m : ℕ} {w w' : Worker} {o : Option Worker} {touched : Bool}
    (h : s.Works t n w o touched) (hm : t.workers m = some w') :
    (m = n ∧ w'.event = w.event ∧ (w'.pending = true → w.pending = true)) ∨
      m ≠ n ∧ s.workers m = some w' := by
  rw [h.workers] at hm
  by_cases hmn : m = n
  · subst hmn
    rw [Function.update_self] at hm
    exact .inl ⟨rfl, h.fewer w' hm⟩
  · rw [Function.update_of_ne hmn] at hm
    exact .inr ⟨hmn, hm⟩

/-- A step is no access to the entries of another descriptor. -/
theorem Works.last_of_ne {n : ℕ} {w : Worker} {o : Option Worker} {touched : Bool}
    (h : s.Works t n w o touched) {fd : ℤ} (hfd : fd ≠ w.event.fd) : t.last fd = s.last fd := by
  rw [h.last]
  split
  · exact Function.update_of_ne hfd _ _
  · rfl

/-- Behind an access the handler is the last that has accessed its entries; another step leaves this
as it was. -/
theorem Works.last_self {n : ℕ} {w : Worker} {o : Option Worker} {touched : Bool}
    (h : s.Works t n w o touched) :
    t.last w.event.fd = n ∧ w.pending = true ∨ t.last w.event.fd = s.last w.event.fd := by
  rw [h.last]
  cases htouched : touched with
  | true => exact .inl ⟨by simp, h.accessed htouched⟩
  | false => exact .inr rfl

/-- A step of a handler makes none and queues none. -/
theorem Numbered.works (h : s.Numbered) {n : ℕ} {w : Worker} {o : Option Worker} {touched : Bool}
    (hworks : s.Works t n w o touched) : t.Numbered := by
  have hn := h.workers n w hworks.worker
  refine ⟨fun m w' hm => ?_, ?_, ?_⟩
  · rw [hworks.made]
    rcases hworks.cases hm with ⟨rfl, -⟩ | ⟨-, hm⟩
    · exact hn
    · exact h.workers m w' hm
  · rw [hworks.workQueue, hworks.made, hworks.workers]
    intro q hq
    obtain ⟨hlt, hnone⟩ := h.queued q hq
    refine ⟨hlt, ?_⟩
    -- the handler that goes on is with a worker, and so it is none of the queued ones
    by_cases hqn : q.1 = n
    · rw [hqn, hworks.worker] at hnone
      cases hnone
    · rwa [Function.update_of_ne hqn]
  · rw [hworks.workQueue]
    exact h.nodup

/-- A step of a handler keeps it the only one. -/
theorem Exclusive.works (h : s.Exclusive) (hn : s.Numbered) {n : ℕ} {w : Worker} {o : Option Worker}
    {touched : Bool} (hworks : s.Works t n w o touched) : t.Exclusive := by
  -- a handler that is pending behind the step was pending before it, with the same event
  have hbefore {m : ℕ} {w' : Worker} (hm : t.workers m = some w') (hp : w'.pending = true) :
      ∃ v, s.workers m = some v ∧ v.event = w'.event ∧ v.pending = true := by
    rcases hworks.cases hm with ⟨rfl, hevent, hfewer⟩ | ⟨-, hm⟩
    · exact ⟨w, hworks.worker, hevent.symm, hfewer hp⟩
    · exact ⟨w', hm, rfl, hp⟩
  -- the queue is as it was, and the other four fields compare it with what is pending
  refine ⟨?_, ?_, ?_, ?_, ?_, ?_⟩
  · rw [hworks.workQueue]
    exact h.queue
  · rw [hworks.workQueue]
    intro q hq m w' hm hp
    obtain ⟨v, hv, hevent, hvp⟩ := hbefore hm hp
    rw [← hevent]
    exact h.apart q hq m v hv hvp
  · intro m w' m' w'' hm hm' hfd hp hp'
    obtain ⟨v, hv, hevent, hvp⟩ := hbefore hm hp
    obtain ⟨v', hv', hevent', hvp'⟩ := hbefore hm' hp'
    exact h.single m v m' v' hv hv' (by rw [hevent, hevent', hfd]) hvp hvp'
  · intro m w' hm hp
    obtain ⟨v, hv, hevent, hvp⟩ := hbefore hm hp
    rw [← hevent]
    by_cases hfd : v.event.fd = w.event.fd
    · rw [hfd]
      -- the step may have written `last` of this descriptor
      rcases hworks.last_self with ⟨hlast, hwp⟩ | hlast <;> rw [hlast]
      · exact (h.single m v n w hv hworks.worker hfd hvp hwp).ge
      · exact hfd ▸ h.order m v hv hvp
    · rw [hworks.last_of_ne hfd]
      exact h.order m v hv hvp
  · rw [hworks.workQueue]
    intro q hq
    by_cases hfd : q.2.fd = w.event.fd
    · rcases hworks.last_self with ⟨-, hwp⟩ | hlast
      · -- no pending handler shares a descriptor with a queued event
        exact absurd hfd.symm (h.apart q hq n w hworks.worker hwp)
      · rw [hfd, hlast, ← hfd]
        exact h.waiting q hq
    · rw [hworks.last_of_ne hfd]
      exact h.waiting q hq
  · intro fd
    rw [hworks.made]
    by_cases hfd : fd = w.event.fd
    · rw [hfd]
      rcases hworks.last_self with ⟨hlast, -⟩ | hlast <;> rw [hlast]
      · exact (hn.workers n w hworks.worker).le
      · exact h.bound _
    · rw [hworks.last_of_ne hfd]
      exact h.bound fd

/-! #### Steps of the others -/

/-- The handler that is taken leaves the queue, and no other one in it has its number. -/
theorem Numbered.take (h : s.Numbered) (hstep : s.step .take = some t) : t.Numbered := by
  obtain ⟨n, e, rest, hqueue, rfl⟩ := take_eq_some hstep
  obtain ⟨hlt, hnone⟩ := h.queued (n, e) (hqueue ▸ List.mem_cons_self)
  have hnodup := h.nodup
  rw [hqueue, List.map_cons, List.nodup_cons] at hnodup
  refine ⟨fun m w hm => ?_, fun q hq => ?_, hnodup.2⟩
  · by_cases hmn : m = n
    · rw [hmn]
      exact hlt
    · exact h.workers m w ((Function.update_of_ne hmn _ _).symm.trans hm)
  · obtain ⟨hqlt, hqnone⟩ := h.queued q (hqueue ▸ List.mem_cons_of_mem _ hq)
    have hqn : q.1 ≠ n := fun hqn => hnodup.1 (List.mem_map.mpr ⟨q, hq, hqn⟩)
    exact ⟨hqlt, (Function.update_of_ne hqn _ _).trans hqnone⟩

/-- The handler that is taken is the only one for its descriptor that has accesses to make, as it
was when it was queued. -/
theorem Exclusive.take (h : s.Exclusive) (hstep : s.step .take = some t) : t.Exclusive := by
  obtain ⟨n, e, rest, hqueue, rfl⟩ := take_eq_some hstep
  have hhead : (n, e) ∈ s.workQueue := hqueue ▸ List.mem_cons_self
  have hrest {q : ℕ × Event} (hq : q ∈ rest) : q ∈ s.workQueue :=
    hqueue ▸ List.mem_cons_of_mem _ hq
  have hpairwise := h.queue
  rw [hqueue, List.pairwise_cons] at hpairwise
  -- the handlers behind the step: the one that has been taken, and those before
  have hcases {m : ℕ} {w : Worker}
      (hm : Function.update s.workers n (some ⟨e, .body⟩) m = some w) :
      m = n ∧ w = ⟨e, .body⟩ ∨ m ≠ n ∧ s.workers m = some w := by
    by_cases hmn : m = n
    · subst hmn
      rw [Function.update_self] at hm
      exact .inl ⟨rfl, (Option.some.inj hm).symm⟩
    · rw [Function.update_of_ne hmn] at hm
      exact .inr ⟨hmn, hm⟩
  refine ⟨hpairwise.2, fun q hq m w hm hp => ?_, fun m w m' w' hm hm' hfd hp hp' => ?_,
    fun m w hm hp => ?_, fun q hq => h.waiting q (hrest hq), h.bound⟩
  · rcases hcases hm with ⟨-, rfl⟩ | ⟨-, hm⟩
    · exact hpairwise.1 q hq
    · exact h.apart q (hrest hq) m w hm hp
  -- two handlers for one descriptor, each of them the one taken or one before
  · rcases hcases hm with ⟨hmn, rfl⟩ | ⟨-, hold⟩ <;>
      rcases hcases hm' with ⟨hmn', rfl⟩ | ⟨-, hold'⟩
    · -- both are the one taken
      exact hmn.trans hmn'.symm
    · -- a handler before the step is never for the queued event's descriptor
      exact absurd hfd.symm (h.apart _ hhead m' w' hold' hp')
    · exact absurd hfd (h.apart _ hhead m w hold hp)
    · exact h.single m w m' w' hold hold' hfd hp hp'
  · rcases hcases hm with ⟨rfl, rfl⟩ | ⟨-, hm⟩
    · exact h.waiting _ hhead
    · exact h.order m w hm hp

/-- A report makes one handler at most, for its own descriptor. -/
theorem dispatch_cases (fd : ℤ) (readable writable : Bool) :
    WebServer.dispatch fd readable writable = [] ∨
      ∃ kind, WebServer.dispatch fd readable writable = [⟨fd, kind⟩] := by
  unfold WebServer.dispatch
  split_ifs
  · exact .inr ⟨.recv, rfl⟩
  · exact .inr ⟨.send, rfl⟩
  · exact .inl rfl

/-- The handler that is made takes a number that none has had. -/
theorem Numbered.report (h : s.Numbered) {fd : ℤ} {readable writable : Bool}
    (hstep : s.step (.report fd readable writable) = some t) : t.Numbered := by
  obtain rfl := report_eq_some hstep
  rcases dispatch_cases fd readable writable with hnone | ⟨kind, hkind⟩
  · rw [hnone]
    refine ⟨h.workers, ?_, ?_⟩
    · simpa using h.queued
    · simpa using h.nodup
  · rw [hkind]
    refine ⟨fun n w hw => Nat.lt_succ_of_lt (h.workers n w hw), fun q hq => ?_, ?_⟩
    · rcases List.mem_append.mp hq with hq | hq
      · obtain ⟨hlt, hnone⟩ := h.queued q hq
        exact ⟨Nat.lt_succ_of_lt hlt, hnone⟩
      · obtain rfl := List.mem_singleton.mp hq
        refine ⟨Nat.lt_succ_self _, Option.eq_none_iff_forall_ne_some.mpr fun w hw => ?_⟩
        exact absurd (h.workers _ w hw) (Nat.lt_irrefl _)
    -- the numbers in the queue are below it
    · simp only [List.map_append, List.map_cons, List.map_nil]
      refine List.nodup_append.mpr ⟨h.nodup, List.pairwise_singleton _ _, fun m hm m' hm' => ?_⟩
      obtain ⟨q, hq, rfl⟩ := List.mem_map.mp hm
      rw [List.mem_singleton.mp hm']
      exact (h.queued q hq).1.ne

/-- A report of a descriptor whose entries nobody has still to access. -/
theorem Exclusive.report (h : s.Exclusive) (hn : s.Numbered) {fd : ℤ} {readable writable : Bool}
    (hsettled : s.Settled (.report fd readable writable))
    (hstep : s.step (.report fd readable writable) = some t) : t.Exclusive := by
  obtain rfl := report_eq_some hstep
  rcases dispatch_cases fd readable writable with hnone | ⟨kind, hkind⟩
  · rw [hnone]
    refine ⟨?_, ?_, h.single, h.order, ?_, h.bound⟩
    · simpa using h.queue
    · simpa using h.apart
    · simpa using h.waiting
  · rw [hkind]
    obtain ⟨hqueue, hworkers⟩ := hsettled
    -- the new handler is for a descriptor of which nobody has an access to make
    refine ⟨?_, fun q hq n w hw hp => ?_, h.single, h.order, fun q hq => ?_,
      fun d => (h.bound d).trans (Nat.le_succ _)⟩
    · refine List.pairwise_append.mpr ⟨h.queue, List.pairwise_singleton _ _, fun q hq q' hq' => ?_⟩
      obtain rfl := List.mem_singleton.mp hq'
      exact hqueue q hq
    · rcases List.mem_append.mp hq with hq | hq
      · exact h.apart q hq n w hw hp
      · obtain rfl := List.mem_singleton.mp hq
        intro hfd
        cases hp.symm.trans (hworkers n (hn.workers n w hw) w hw hfd)
    · rcases List.mem_append.mp hq with hq | hq
      · exact h.waiting q hq
      · obtain rfl := List.mem_singleton.mp hq
        -- the last handler that has accessed the entries was made before it
        exact h.bound fd

/-! #### The runs -/

/-- The handlers are numbered in every run, whatever epoll reports. -/
theorem numbered_of_reachable {G : Crew → Label → Prop} (h : crew.Reachable G s) : s.Numbered := by
  refine h.invariant numbered_init fun s l t _ hs _ hstep => ?_
  cases l with
  | accept fd =>
    obtain ⟨-, rfl⟩ := accept_eq_some.mp hstep
    exact ⟨hs.workers, hs.queued, hs.nodup⟩
  | report fd readable writable => exact hs.report hstep
  | take => exact hs.take hstep
  | access n f exit =>
    obtain ⟨w, o, hworks⟩ := works_of_access hstep
    exact hs.works hworks
  | next n fresh =>
    obtain ⟨w, o, touched, hworks⟩ := works_of_next hstep
    exact hs.works hworks

/-- Where no descriptor is reported before its handlers have finished there is one handler for
each. -/
theorem exclusive_of_settled (h : crew.Reachable Settled s) : s.Exclusive := by
  refine h.invariant exclusive_init fun s l t hreach hs hl hstep => ?_
  have hn := numbered_of_reachable hreach
  cases l with
  | accept fd =>
    obtain ⟨-, rfl⟩ := accept_eq_some.mp hstep
    exact ⟨hs.queue, hs.apart, hs.single, hs.order, hs.waiting, hs.bound⟩
  | report fd readable writable => exact hs.report hn hl hstep
  | take => exact hs.take hstep
  | access n f exit =>
    obtain ⟨w, o, hworks⟩ := works_of_access hstep
    exact hs.works hn hworks
  | next n fresh =>
    obtain ⟨w, o, touched, hworks⟩ := works_of_next hstep
    exact hs.works hn hworks

/-! #### Any other report -/

/-- The workers take all that is queued: there are as many of them as are needed, and what they have
had before they still have. -/
theorem takes (queue : List (ℕ × Event)) (hn : s.Numbered) (hqueue : s.workQueue = queue) :
    ∃ ls u, crew.run s ls = some u ∧ (∀ q ∈ queue, u.workers q.1 = some ⟨q.2, .body⟩) ∧
      ∀ m w, s.workers m = some w → u.workers m = some w := by
  induction queue generalizing s with
  | nil => exact ⟨[], s, rfl, nofun, fun _ _ h => h⟩
  | cons q rest ih =>
    obtain ⟨n, e⟩ := q
    have hstep : s.step .take = some { s with
        workQueue := rest
        workers := Function.update s.workers n (some ⟨e, .body⟩) } := by
      unfold step
      simp only [hqueue]
    obtain ⟨ls, u, hrun, htaken, hkept⟩ := ih (hn.take hstep) rfl
    refine ⟨.take :: ls, u, ?_, fun q hq => ?_, fun m w hm => hkept m w ?_⟩
    · change (crew.step s .take).bind _ = _
      rw [show crew.step s .take = _ from hstep]
      exact hrun
    · rcases List.mem_cons.mp hq with rfl | hq
      · exact hkept n _ (Function.update_self _ _ _)
      · exact htaken q hq
    · have hnone := (hn.queued (n, e) (hqueue ▸ List.mem_cons_self)).2
      -- the handler that is taken was with no worker
      have hmn : m ≠ n := by
        rintro rfl
        cases hm.symm.trans hnone
      exact (Function.update_of_ne hmn _ _).trans hm

/-- A report of a descriptor whose entries some handler has still to access leads to a state in
which two handlers have. -/
theorem disturbed_of_unsettled (hn : s.Numbered) {fd : ℤ} {readable writable : Bool}
    (hready : readable = true ∨ writable = true)
    (hstep : s.step (.report fd readable writable) = some t)
    (hnot : ¬ s.Settled (.report fd readable writable)) :
    ∃ ls u, crew.run t ls = some u ∧ ¬ u.Undisturbed := by
  obtain ⟨ls, u, hrun, htaken, hkept⟩ := takes t.workQueue (hn.report hstep) rfl
  refine ⟨ls, u, hrun, fun hundisturbed => hnot ?_⟩
  obtain ⟨kind, hkind⟩ := WebServer.dispatch_handles fd hready
  obtain rfl := report_eq_some hstep
  -- the handler made for the report is taken, and is about to make its first access
  have hnew := htaken (s.made, ⟨fd, kind⟩)
    (List.mem_append_right _ (List.mem_map.mpr ⟨_, hkind, rfl⟩))
  obtain ⟨hothers, -⟩ := hundisturbed s.made _ hnew rfl
  -- so every other handler for the descriptor would have finished, queued ones and those with
  -- workers
  constructor
  · intro q hq hfd
    cases hothers q.1 _ (htaken q (List.mem_append_left _ hq)) (hn.queued q hq).1.ne hfd
  · intro n hlt w hw hfd
    exact hothers n w (hkept n w hw) hlt.ne hfd

/-- **No handler accesses entries that another one has not finished with**, in every run in which a
descriptor is reported only when the handlers made for it have finished with its entries. In any
run, another report leads to a state in which a handler is about to do so. -/
theorem undisturbed_of_settled (h : crew.Reachable Machine.anyStep s) :
    (crew.Reachable Settled s → s.Undisturbed) ∧
      ∀ fd readable writable t, (readable = true ∨ writable = true) →
        s.step (.report fd readable writable) = some t →
        ¬ s.Settled (.report fd readable writable) →
        ∃ ls u, crew.run t ls = some u ∧ ¬ u.Undisturbed :=
  ⟨fun hsettled => (exclusive_of_settled hsettled).undisturbed,
    fun _ _ _ _ hready hstep hnot =>
      disturbed_of_unsettled (numbered_of_reachable h) hready hstep hnot⟩

/-! ### A `GET`, and the first bytes of the next request -/

/-- `requestStatus[fd];` -/
def touch (e : Entries) : Entries := { e with request := some (e.request.getD Request.init) }

/-- `requestStatus[fd].recvMsg.append(buf, recvLen)` -/
def receive (buf : Bytes) (e : Entries) : Entries :=
  { e with request := e.request.map (·.push buf) }

/-- The accesses of the `HANDLE_INIT` stage. -/
def readRequestLine (e : Entries) : Entries :=
  { e with request := e.request.map fun r => (HandleRecv.requestLineStage r).1 }

/-- The accesses of the `HANDLE_HEAD` stage. -/
def readHead (e : Entries) : Entries :=
  { e with request := e.request.map fun r =>
      match HandleRecv.headStage r with
      | .ok r => r
      | .error _ => r }

/-- What a `Response` made by `operator[]` holds. -/
def fresh : Uninit := HandleSend.sampleWorld.fresh

/-- The first handler up to the `modifyWaitFd` of a complete `GET`: `setStatus(HANDLE_COMPLETE)`,
the look at the status and `erase` are left. -/
def armed : List Label :=
  [.accept 5, .report 5 true false, .take, .access 0 touch none,
    .access 0 (receive (lit "GET / HTTP/1.1\r\n\r\n")) none, .access 0 readRequestLine none,
    .access 0 readHead none, .access 0 id (some (.completes (lit "/"))), .next 0 fresh,
    .next 0 fresh]

/-- What is left of the first handler. -/
def remaining : List Label := [.next 0 fresh, .next 0 fresh, .next 0 fresh]

/-- The second handler is made when the first one has returned. -/
def inTurn : List Label := armed ++ remaining ++ [.report 5 true true, .take, .access 1 touch none]

theorem undisturbed_of_settled_sample :
    ∃ s, crew.run crew.start inTurn = some s ∧ s.Undisturbed ∧
      s.workers 1 = some ⟨⟨5, .recv⟩, .body⟩ := by
  obtain ⟨s, hs⟩ := Option.isSome_iff_exists.mp
    (show (crew.run crew.start inTurn).isSome by decide +kernel)
  have hworker : (crew.run crew.start inTurn).map (fun s => s.workers 1) =
      some (some ⟨⟨5, .recv⟩, .body⟩) := by
    decide +kernel
  rw [hs] at hworker
  have hsettled : crew.Reachable Settled s := Machine.reachable_of_run .start hs (by decide +kernel)
  exact ⟨s, hs, (undisturbed_of_settled (hsettled.mono fun _ _ _ => trivial)).1 hsettled,
    Option.some.inj hworker⟩

/-- The next bytes come as soon as the descriptor is armed, and another worker stores them. -/
def overlapping : List Label :=
  armed ++ [.report 5 true true, .take, .access 1 touch none, .access 1 (receive (lit "GE")) none]

/-- **Two handlers for one connection**: the second one works on the entries while the first one has
accesses to make, and the `erase` of the first takes away the bytes that the second has stored. -/
theorem disturbed :
    (¬ ∀ s, crew.Reachable Machine.anyStep s → s.Undisturbed) ∧
    (crew.run crew.start (overlapping ++ [.next 0 fresh, .next 0 fresh])).map
        (fun s => ((s.requestStatus 5).map (·.recvMsg), s.workers 0)) =
      some (some (lit "GE"), some ⟨⟨5, .recv⟩, .leaving [.eraseRequest]⟩) ∧
    (crew.run crew.start (overlapping ++ remaining)).map
        (fun s => ((s.requestStatus 5).isSome, s.workers 1)) =
      some (false, some ⟨⟨5, .recv⟩, .body⟩) := by
  refine ⟨fun h => ?_, by decide +kernel, by decide +kernel⟩
  obtain ⟨s, hs⟩ := Option.isSome_iff_exists.mp
    (show (crew.run crew.start overlapping).isSome by decide +kernel)
  have hworkers : (crew.run crew.start overlapping).map (fun s => (s.workers 0, s.workers 1)) =
      some (some ⟨⟨5, .recv⟩, .leaving [.setStatus .handleComplete, .requestComplete]⟩,
        some ⟨⟨5, .recv⟩, .body⟩) := by
    decide +kernel
  rw [hs] at hworkers
  obtain ⟨hfirst, hsecond⟩ := Prod.mk.inj (Option.some.inj hworkers)
  obtain ⟨hothers, -⟩ := h s (Machine.reachable_of_run .start hs (Machine.along_anyStep _ _)) 1 _
    hsecond rfl
  cases hothers 0 _ hfirst (by decide) rfl

end Crew

end Cherokee
