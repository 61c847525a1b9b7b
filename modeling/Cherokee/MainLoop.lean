import Cherokee.Lib.Holders
import Cherokee.LockedPool
import Cherokee.OneShot

/-!
# The main thread and the workers (`WebServer::waitEpoll`)

The main thread waits for epoll, which fills `resEvents`, makes a handler for each entry in turn and
appends it to the work queue, one call of the mutex and the semaphore after the other; meanwhile the
workers take handlers from the queue and call them. A descriptor is silent from the moment its entry
is fetched, while the handler for it is not made yet.

What a call does to the tables, the connections and epoll is one step here, from its first access to
its last, and its return to `ThreadPool::run` is another one. Between the two the worker still has
its handler, while epoll may report the descriptor again, and another worker may have taken and
called the handler made for that. The accesses of a call one by one are the subject of `crew`.

* `MainLoop.simulates`: seen as handlers queued, and handlers taken and not called yet, this is
  `webServer`, whatever calls of the mutex and the semaphore fail, but for the first one in
  `appendEvent`.
* `MainLoop.projects`: and with it `server`.
* `MainLoop.OneEach`: of the handlers that are still to be called no two are for one descriptor.
-/

namespace Cherokee

/-- An entry of `resEvents`, as far as `waitEpoll` looks at it: the descriptor, and the two of the
events it tests for. -/
structure ResEvent where
  fd : ℤ
  /-- `EPOLLIN` -/
  readable : Bool
  /-- `EPOLLOUT` -/
  writable : Bool
deriving DecidableEq, Repr

/-- What `epoll_wait` returns. Only `EINTR` is told apart from the other errors, behind which
`waitEpoll` throws. -/
inductive EpollResult where
  | events (resEvents : List ResEvent)
  /-- `-1` with `EINTR` -/
  | interrupted
  /-- `-1` with any other `errno` -/
  | failed
deriving DecidableEq, Repr

/-- An `EventBase` that `waitEpoll` makes and a worker processes. A listening socket has only one
kind of handler, a client's descriptor two. -/
inductive Task where
  | acceptConn
  /-- A `HandleRecv` or a `HandleSend`. -/
  | client (e : Event)
deriving DecidableEq, Repr

/-- The handler of a client's descriptor. `webServer` knows only these: an `AcceptConn` is a step of
its own there and not queued. -/
def Task.event : Task → Option Event
  | .acceptConn => none
  | .client e => some e

/-- Where the main thread is in `WebServer::waitEpoll`. -/
inductive MainThread where
  /-- It is about to call `epoll_wait`. -/
  | waiting
  /-- It is in the loop over `resEvents`, of which these are still to come. -/
  | looping (rest : List ResEvent)
  /-- `waitEpoll` has returned, or thrown. -/
  | left
deriving DecidableEq, Repr

/-- How far a worker has come with the handler it has taken. The pool sees only that it processes
something; this says whether the call has done its part. -/
inductive Calling where
  /-- It has not called it, or has none. -/
  | before
  /-- It has called it: what the call does has been done, and it has not returned. -/
  | within
  /-- It has called it, and the call never returns. -/
  | never
deriving DecidableEq, Repr

/-- The descriptors of the server itself, which epoll reports like those of the clients. -/
structure OwnFds where
  m_listenfd : ℤ
  /-- `eventHandlerPipe[0]` -/
  eventHandlerPipe : ℤ

/-- The server with its threads: what the handlers work on, what epoll and the main thread know, and
the pool, of which the main thread is the one appender. -/
structure MainLoop (W : Type) where
  /-- The tables and the connections. -/
  base : Server
  /-- What epoll holds of the clients' descriptors. -/
  interest : ℤ → Option Interest
  isStop : Bool
  thread : MainThread
  pool : LockedPool Unit W Task
  calling : W → Calling

/-- `MAX_RESEVENT_SIZE`, the length of the array that `epoll_wait` fills. -/
def maxResEventSize : ℕ := 1024

/-- `WebServer::setSigHandler`: what becomes of `isStop`. The number of the signal is tested bit by
bit, so that others than `SIGINT` and `SIGTERM` stop the server too. -/
def setSigHandler (isStop : Bool) (signo : ℕ) : Bool :=
  isStop || decide (signo &&& 2 ≠ 0) || decide (signo &&& 15 ≠ 0)

/-- The handler `waitEpoll` makes for an entry, if it makes one. What is readable goes to
`HandleRecv` even if it can be written too. -/
def ResEvent.handler (fds : OwnFds) (e : ResEvent) : Option Task :=
  if e.fd = fds.m_listenfd then some .acceptConn
  else if e.fd = fds.eventHandlerPipe ∧ e.readable = true then none
  else if e.readable then some (.client ⟨e.fd, .recv⟩)
  else if e.writable then some (.client ⟨e.fd, .send⟩)
  else none

/-- epoll can report the entry of a descriptor of which it holds this. A client's descriptor has to
be armed, and waited for with `EPOLLOUT` to be reported as writable; without a registration it is
one of the server's own. -/
def ResEvent.Reported (fds : OwnFds) (e : ResEvent) : Option Interest → Prop
  | some i => i.armed = true ∧ (e.writable = true → i.out = true)
  | none => e.fd = fds.m_listenfd ∨ e.fd = fds.eventHandlerPipe ∧ e.writable = false

instance (fds : OwnFds) (e : ResEvent) : (o : Option Interest) → Decidable (e.Reported fds o)
  | some i => inferInstanceAs (Decidable (i.armed = true ∧ (e.writable = true → i.out = true)))
  | none => inferInstanceAs
      (Decidable (e.fd = fds.m_listenfd ∨ e.fd = fds.eventHandlerPipe ∧ e.writable = false))

/-- What epoll holds behind `epoll_wait`: a client's descriptor is registered one-shot, and not
reported again before it is armed. -/
def fetched (interest : ℤ → Option Interest) (resEvents : List ResEvent) : ℤ → Option Interest :=
  resEvents.foldl (fun i e => Function.update i e.fd ((i e.fd).map fun _ => ⟨false, false⟩))
    interest

namespace MainLoop

/-- A step of a thread. -/
inductive Label (W : Type) where
  /-- A signal is handled. -/
  | signal (signo : ℕ)
  /-- The main thread returns from `epoll_wait`. -/
  | epollWait (result : EpollResult)
  /-- It goes on behind an entry without a handler, or behind the last entry. -/
  | next
  /-- `pthread_mutex_lock` in `appendEvent`, for the handler of the next entry -/
  | append (ok : Bool)
  /-- The other steps in `appendEvent`, and those in `run` up to `process`. -/
  | pool (l : LockedPool.Label Unit W Task)
  /-- The worker calls `AcceptConn::process`, and `accept` returns the descriptor or fails. -/
  | acceptConn (w : W) (fd : Option ℤ)
  /-- The worker calls its handler, which is for `fd`, and the handler does what it does. -/
  | process (w : W) (fd : ℤ) (h : Handler)
  /-- The handler returns, and the worker goes back to the semaphore. -/
  | returns (w : W)

/-- It is neither the first step in `appendEvent` nor the return of a handler, and so nothing that
the main thread or a call has a part in. -/
def inner {W : Type} : LockedPool.Label Unit W Task → Bool
  | .lock _ _ _ => false
  | .process _ => false
  | _ => true

section Step

variable {W : Type} [DecidableEq W] (fds : OwnFds)

/-- The state behind what a call for `fd` does. The worker is still in its handler. -/
def after (s : MainLoop W) (w : W) (fd : ℤ) (x : HandleSend.Call) : MainLoop W :=
  { s with
    base := s.base.behind fd x
    interest := fun d =>
      if d ∈ strays x.acts then none
      else if d = fd then register (s.interest fd) x.acts else s.interest d
    calling := Function.update s.calling w
      (if x.crash = some .diverges then .never else .within) }

/-- One step. The process ends with the main thread, and with a handler that ends it: behind either
nothing moves any more. -/
def step (s : MainLoop W) (l : Label W) : Option (MainLoop W) :=
  if s.base.down = true ∨ s.thread = .left then none else
  match l with
  | .signal signo => some { s with isStop := setSigHandler s.isStop signo }
  | .epollWait result =>
    match s.thread, result with
    | .waiting, .failed => some { s with thread := .left }
    | .waiting, .interrupted => some { s with thread := .looping [] }
    | .waiting, .events resEvents =>
      -- an entry for each of at most so many descriptors, all of which have something to report
      if resEvents.length ≤ maxResEventSize ∧ (resEvents.map ResEvent.fd).Nodup ∧
          ∀ e ∈ resEvents, e.Reported fds (s.interest e.fd) then
        some { s with interest := fetched s.interest resEvents, thread := .looping resEvents }
      else none
    | _, _ => none
  | .next =>
    match s.thread, s.pool.appender () with
    | .looping [], .outside => some { s with thread := if s.isStop then .left else .waiting }
    | .looping (e :: rest), .outside =>
      -- `continue` behind an entry for which nothing is made
      if e.handler fds = none then some { s with thread := .looping rest } else none
    | _, _ => none
  | .append ok =>
    match s.thread with
    | .looping (e :: rest) => (e.handler fds).bind fun event =>
      (s.pool.step (.lock () (some event) ok)).map fun pool =>
        { s with pool, thread := .looping rest }
    | _ => none
  -- what the main thread and the calls take part in has labels of its own
  | .pool l => if inner l then (s.pool.step l).map fun pool => { s with pool } else none
  | .acceptConn w fd =>
    if s.pool.worker w = .processing .acceptConn ∧ s.calling w = .before then
      -- `accept` has failed, and nothing is registered
      match fd with
      | none => some { s with calling := Function.update s.calling w .within }
      | some fd => (s.base.step (.accept fd)).map fun base =>
        { s with
          base
          interest := Function.update s.interest fd (some ⟨true, false⟩)
          calling := Function.update s.calling w .within }
    else none
  | .process w fd h =>
    if s.pool.worker w = .processing (.client ⟨fd, h.kind⟩) ∧ s.calling w = .before then
      some (s.after w fd (s.base.call fd h))
    else none
  | .returns w =>
    -- a call that never returns is in `never`, and has no such step
    if s.calling w = .within then
      (s.pool.step (.process w)).map fun pool =>
        { s with pool, calling := Function.update s.calling w .before }
    else none

/-- What a step does, one constructor for each outcome, with all that has let it happen. -/
inductive Does (s : MainLoop W) : Label W → MainLoop W → Prop where
  | signals (signo : ℕ) : Does s (.signal signo) { s with isStop := setSigHandler s.isStop signo }
  | throws (here : s.thread = .waiting) : Does s (.epollWait .failed) { s with thread := .left }
  | interrupts (here : s.thread = .waiting) :
      Does s (.epollWait .interrupted) { s with thread := .looping [] }
  | fetches (resEvents : List ResEvent) (here : s.thread = .waiting)
      (single : (resEvents.map ResEvent.fd).Nodup)
      (reported : ∀ e ∈ resEvents, e.Reported fds (s.interest e.fd)) :
      Does s (.epollWait (.events resEvents))
        { s with interest := fetched s.interest resEvents, thread := .looping resEvents }
  | loops (here : s.thread = .looping []) (outside : s.pool.appender () = .outside) :
      Does s .next { s with thread := if s.isStop then .left else .waiting }
  | skips (e : ResEvent) (rest : List ResEvent) (here : s.thread = .looping (e :: rest))
      (outside : s.pool.appender () = .outside) (none : e.handler fds = none) :
      Does s .next { s with thread := .looping rest }
  | appends (e : ResEvent) (rest : List ResEvent) (event : Task) (ok : Bool)
      (pool : LockedPool Unit W Task) (here : s.thread = .looping (e :: rest))
      (made : e.handler fds = some event) (step : s.pool.Does (.lock () (some event) ok) pool) :
      Does s (.append ok) { s with pool, thread := .looping rest }
  | goes (l : LockedPool.Label Unit W Task) (pool : LockedPool Unit W Task) (inner : inner l = true)
      (step : s.pool.Does l pool) : Does s (.pool l) { s with pool }
  | refuses (w : W) (here : s.pool.worker w = .processing .acceptConn)
      (before : s.calling w = .before) :
      Does s (.acceptConn w none) { s with calling := Function.update s.calling w .within }
  | accepts (w : W) (fd : ℤ) (base : Server) (here : s.pool.worker w = .processing .acceptConn)
      (before : s.calling w = .before) (next : s.base.step (.accept fd) = some base) :
      Does s (.acceptConn w (some fd))
        { s with
          base
          interest := Function.update s.interest fd (some ⟨true, false⟩)
          calling := Function.update s.calling w .within }
  | calls (w : W) (fd : ℤ) (h : Handler)
      (here : s.pool.worker w = .processing (.client ⟨fd, h.kind⟩))
      (before : s.calling w = .before) :
      Does s (.process w fd h) (s.after w fd (s.base.call fd h))
  | returns (w : W) (pool : LockedPool Unit W Task) (within : s.calling w = .within)
      (step : s.pool.Does (.process w) pool) :
      Does s (.returns w) { s with pool, calling := Function.update s.calling w .before }

/-- **The cases of a step**, and that the process was still there before it. -/
theorem does_of_step {s t : MainLoop W} {l : Label W} (h : s.step fds l = some t) :
    s.base.down = false ∧ s.Does fds l t := by
  unfold step at h
  split at h
  · cases h
  · next hgone =>
    obtain ⟨hdown, -⟩ := not_or.mp hgone
    refine ⟨Bool.eq_false_iff.mpr hdown, ?_⟩
    -- the cases of `step`, with the conditions it has checked on the way
    cases l with
    | signal signo => cases h; exact .signals signo
    | epollWait result =>
      simp only at h
      split at h
      · next here => cases h; exact .throws here
      · next here => cases h; exact .interrupts here
      · next resEvents here =>
        split at h
        · next hfetch => cases h; exact .fetches resEvents here hfetch.2.1 hfetch.2.2
        · cases h
      · cases h
    | next =>
      simp only at h
      split at h
      · next here outside => cases h; exact .loops here outside
      · next e rest here outside =>
        split at h
        · next hnone => cases h; exact .skips e rest here outside hnone
        · cases h
      · cases h
    -- the entry has a handler, and the pool takes the step
    | append ok =>
      simp only at h
      split at h
      · next e rest here =>
        obtain ⟨event, hmade, h⟩ := Option.bind_eq_some_iff.mp h
        obtain ⟨pool, hpool, rfl⟩ := Option.map_eq_some_iff.mp h
        exact .appends e rest event ok pool here hmade (LockedPool.does_of_step hpool)
      · cases h
    | pool l =>
      simp only at h
      split at h
      · next hinner =>
        obtain ⟨pool, hpool, rfl⟩ := Option.map_eq_some_iff.mp h
        exact .goes l pool hinner (LockedPool.does_of_step hpool)
      · cases h
    -- a worker accepts a connection, or finds none
    | acceptConn w fd =>
      simp only at h
      split at h
      · next hhere =>
        cases fd with
        | none => cases h; exact .refuses w hhere.1 hhere.2
        | some fd =>
          obtain ⟨base, hbase, rfl⟩ := Option.map_eq_some_iff.mp h
          exact .accepts w fd base hhere.1 hhere.2 hbase
      · cases h
    | process w fd x =>
      simp only at h
      split at h
      · next hhere => cases h; exact .calls w fd x hhere.1 hhere.2
      · cases h
    -- the call of a worker returns, and only then does its event leave the pool
    | returns w =>
      simp only at h
      split at h
      · next hwithin =>
        obtain ⟨pool, hpool, rfl⟩ := Option.map_eq_some_iff.mp h
        exact .returns w pool hwithin (LockedPool.does_of_step hpool)
      · cases h

end Step

/-- The server when `waitEpoll` is called: no client, an empty queue, and every worker at
`sem_wait`. -/
def init {W : Type} : MainLoop W :=
  ⟨Server.init, fun _ => none, false, .waiting, LockedPool.init, fun _ => .before⟩

end MainLoop

/-- The main thread and the workers. -/
def mainLoop (W : Type) [DecidableEq W] (fds : OwnFds) :
    Machine (MainLoop W) (MainLoop.Label W) where
  start := MainLoop.init
  step := MainLoop.step fds

namespace MainLoop

variable {W : Type} {fds : OwnFds}

/-! ### Handlers that are on their way -/

/-- The event the thread has locked the queue for. It is about to be pushed, and counts as queued
already. -/
def pending : Appender Task → Option Task
  | .locked event => event
  | _ => none

/-- The entries of `resEvents` that are still to come, of which the handlers have not been made
yet. -/
def coming : MainThread → List ResEvent
  | .looping rest => rest
  | _ => []

/-- The handlers of clients that are in the queue, or will be, in order: first those that have been
pushed, then the one that is about to be, then those of the entries that are still to come. -/
def queued (fds : OwnFds) (s : MainLoop W) : List Event :=
  (s.pool.workQueue.filterMap id ++ (pending (s.pool.appender ())).toList ++
    (coming s.thread).filterMap (ResEvent.handler fds)).filterMap Task.event

/-- The handler of a client that a worker has taken, from the moment it has it until it goes back to
the semaphore. -/
def current (s : MainLoop W) (w : W) : Option Event := (s.pool.worker w).curEvent.bind Task.event

/-- The handler a worker has taken and not called yet: this is one that `webServer` has among its
running ones. -/
def holds (s : MainLoop W) (w : W) : Option Event :=
  if s.calling w = .before then s.current w else none

/-- The handler a worker never returns from. It keeps its descriptor from being armed, and so it is
not forgotten. -/
def hangs (s : MainLoop W) (w : W) : Option Event :=
  if s.calling w = .never then s.current w else none

/-- The handler a worker has, unless it has been called and has done what it does. Such a one has
armed its descriptor or closed it, and has no more to do with it. -/
def engaged (s : MainLoop W) (w : W) : Option Event :=
  if s.calling w = .within then none else s.current w

/-- The state of `webServer` that a state shows. A handler that has been called is none of its
running ones any more, although the worker has not returned from it. -/
structure Shows (fds : OwnFds) (s : MainLoop W) (a : WebServer) : Prop where
  base : a.base = s.base
  interest : a.interest = s.interest
  workQueue : a.workQueue = s.queued fds
  running : Held a.running s.holds
  stuck : Held a.stuck s.hangs
  /-- Only a worker that has a handler is in a call. -/
  called : ∀ w, s.calling w ≠ .before → ∃ event, s.pool.worker w = .processing event

theorem shows_init : Shows fds (init : MainLoop W) WebServer.init where
  base := rfl
  interest := rfl
  workQueue := rfl
  running := .nil fun _ => rfl
  stuck := .nil fun _ => rfl
  called _ hw := absurd rfl hw

/-- `webServer` comes from `a` to a state that `t` shows, by as many steps as it takes, and in the
case `ok` it closes no connection as a file in any of them. -/
def Answered (fds : OwnFds) (ok : Prop) (t : MainLoop W) (a : WebServer) : Prop :=
  ∃ ls b, webServer.run a ls = some b ∧ t.Shows fds b ∧
    (ok → webServer.Along WebServer.NoStray a ls)

section Steps

variable [DecidableEq W] {s t : MainLoop W} {a : WebServer} {ok : Prop}

omit [DecidableEq W] in
/-- `webServer` does not move, and shows the same before and behind the step. -/
theorem Shows.answered (h : t.Shows fds a) : Answered fds ok t a :=
  ⟨[], a, rfl, h, fun _ => trivial⟩

omit [DecidableEq W] in
/-- `webServer` takes a step, which is in order where the step of the threads is. -/
theorem answered_step {b : WebServer} {l : WebServer.Label} (hstep : a.step l = some b)
    (h : t.Shows fds b) (hok : ok → a.NoStray l) : Answered fds ok t a :=
  ⟨[l], b, (Machine.run_singleton webServer a l).trans hstep, h,
    fun hyes => Machine.along_singleton (hok hyes)⟩

omit [DecidableEq W] in
/-- A step that `webServer` does not have: all that it sees of the threads is as it was before. -/
theorem Shows.same (h : s.Shows fds a) (hbase : t.base = s.base)
    (hinterest : t.interest = s.interest) (hqueued : t.queued fds = s.queued fds)
    (hholds : t.holds = s.holds) (hhangs : t.hangs = s.hangs)
    (hcalled : ∀ w, t.calling w ≠ .before → ∃ event, t.pool.worker w = .processing event) :
    t.Shows fds a :=
  -- each part of the state is the same, and so is what it is compared with
  ⟨h.base.trans hbase.symm, h.interest.trans hinterest.symm, h.workQueue.trans hqueued.symm,
    hholds ▸ h.running, hhangs ▸ h.stuck, hcalled⟩

omit [DecidableEq W] in
/-- A step in which no worker comes to another handler, calls one or returns, so that it is enough
to look at what workers have, and not at what they have called. -/
theorem Shows.keeps (h : s.Shows fds a) (hbase : t.base = s.base)
    (hinterest : t.interest = s.interest) (hqueued : t.queued fds = s.queued fds)
    (hcalling : t.calling = s.calling) (hcurrent : t.current = s.current)
    (hworker : ∀ w, s.calling w ≠ .before → t.pool.worker w = s.pool.worker w) :
    t.Shows fds a := by
  refine h.same hbase hinterest hqueued ?_ ?_ fun w hw => ?_
  · funext w
    rw [holds, holds, hcalling, hcurrent]
  · funext w
    rw [hangs, hangs, hcalling, hcurrent]
  · rw [hcalling] at hw
    rw [hworker w hw]
    exact h.called w hw

/-! ### `epoll_wait` -/

/-- No handler of a client is made for a descriptor of the server. -/
theorem handler_own {e : ResEvent} (h : e.Reported fds none) :
    (e.handler fds).bind Task.event = none := by
  unfold ResEvent.handler
  by_cases hlisten : e.fd = fds.m_listenfd
  · rw [if_pos hlisten]
    rfl
  · obtain ⟨hpipe, hwritable⟩ : e.fd = fds.eventHandlerPipe ∧ e.writable = false :=
      h.resolve_left hlisten
    rw [if_neg hlisten]
    by_cases hreadable : e.readable = true
    · rw [if_pos ⟨hpipe, hreadable⟩]
      rfl
    · rw [if_neg (fun hp => hreadable hp.2), if_neg hreadable, hwritable]
      rfl

/-- The report that makes the handler: for the entry of a descriptor of the server it is one that
makes none. -/
theorem dispatch_handler (fds : OwnFds) (e : ResEvent) : ∃ readable writable,
    (writable = true → e.writable = true) ∧
      WebServer.dispatch e.fd readable writable = ((e.handler fds).bind Task.event).toList := by
  unfold ResEvent.handler
  by_cases hlisten : e.fd = fds.m_listenfd
  · rw [if_pos hlisten]
    exact ⟨false, false, fun h => absurd h Bool.false_ne_true, rfl⟩
  · rw [if_neg hlisten]
    by_cases hpipe : e.fd = fds.eventHandlerPipe ∧ e.readable = true
    · rw [if_pos hpipe]
      exact ⟨false, false, fun h => absurd h Bool.false_ne_true, rfl⟩
    · rw [if_neg hpipe]
      refine ⟨e.readable, e.writable, id, ?_⟩
      cases e.readable with
      | true => rfl
      | false => cases e.writable <;> rfl

/-- What is fetched is reported, one entry after the other. The induction is on the entries, and it
needs that no descriptor is in two of them: the first report disarms its descriptor and leaves the
others armed. -/
theorem reports (a : WebServer) (hdown : a.base.down = false) {resEvents : List ResEvent}
    (hsingle : (resEvents.map ResEvent.fd).Nodup)
    (hreported : ∀ e ∈ resEvents, e.Reported fds (a.interest e.fd)) :
    ∃ ls, webServer.run a ls = some { a with
        interest := fetched a.interest resEvents
        workQueue :=
          a.workQueue ++ (resEvents.filterMap (ResEvent.handler fds)).filterMap Task.event } ∧
      webServer.Along WebServer.NoStray a ls := by
  induction resEvents generalizing a with
  | nil => exact ⟨[], by simp [Machine.run, fetched], trivial⟩
  | cons e rest ih =>
    obtain ⟨hnot, hnodup⟩ := List.nodup_cons.mp hsingle
    -- what the first entry makes stands in front of what the others make
    have hthis := hreported e List.mem_cons_self
    have hmade : ((e :: rest).filterMap (ResEvent.handler fds)).filterMap Task.event =
        ((e.handler fds).bind Task.event).toList ++
          (rest.filterMap (ResEvent.handler fds)).filterMap Task.event := by
      rw [List.filterMap_filterMap, List.filterMap_filterMap, List.filterMap_cons]
      cases (e.handler fds).bind Task.event <;> rfl
    cases hinterest : a.interest e.fd with
    | none =>
      -- a descriptor of the server: epoll goes on as before
      rw [hinterest] at hthis
      have hsame : fetched a.interest (e :: rest) = fetched a.interest rest := by
        refine congrArg (fetched · rest) ?_
        change Function.update a.interest e.fd ((a.interest e.fd).map _) = a.interest
        rw [hinterest]
        change Function.update a.interest e.fd none = a.interest
        rw [← hinterest]
        exact Function.update_eq_self e.fd a.interest
      rw [hmade, handler_own hthis, hsame]
      exact ih a hdown hnodup fun e' he' => hreported e' (List.mem_cons_of_mem _ he')
    -- a client's descriptor: it is armed, and the report disarms it
    | some i =>
      obtain ⟨armed, out⟩ := i
      rw [hinterest] at hthis
      obtain ⟨harmed, hout⟩ := hthis
      change armed = true at harmed
      subst harmed
      obtain ⟨readable, writable, hwritable, hdispatch⟩ := dispatch_handler fds e
      have hstep : webServer.step a (.report e.fd readable writable) = some { a with
          interest := Function.update a.interest e.fd (some ⟨false, false⟩)
          workQueue := a.workQueue ++ WebServer.dispatch e.fd readable writable } :=
        WebServer.report_eq_some.mpr ⟨out, hinterest, hdown, fun hw => hout (hwritable hw), rfl⟩
      obtain ⟨ls, hrun, halong⟩ := ih { a with
          interest := Function.update a.interest e.fd (some ⟨false, false⟩)
          workQueue := a.workQueue ++ WebServer.dispatch e.fd readable writable } hdown hnodup
        fun e' he' => by
          -- the entries behind it are for other descriptors, which are as armed as before
          have hne : e'.fd ≠ e.fd := fun hfd => hnot (hfd ▸ List.mem_map_of_mem he')
          simp only
          rw [Function.update_of_ne hne]
          exact hreported e' (List.mem_cons_of_mem _ he')
      refine ⟨.report e.fd readable writable :: ls, ?_, trivial, ?_⟩
      -- one report, and then those of the rest
      · have hfetched : fetched a.interest (e :: rest) =
            fetched (Function.update a.interest e.fd (some ⟨false, false⟩)) rest := by
          refine congrArg (fetched · rest) ?_
          change Function.update a.interest e.fd ((a.interest e.fd).map _) = _
          rw [hinterest]
          rfl
        rw [Machine.run, hstep, hmade, hfetched, ← hdispatch, ← List.append_assoc]
        exact hrun
      · rw [hstep]
        exact halong

/-! ### The workers -/

omit [DecidableEq W] in
/-- A worker that is not in `process` has called nothing, as only one that has a handler is in a
call. -/
theorem Shows.uncalled (h : s.Shows fds a) {w : W}
    (hnot : ∀ event, s.pool.worker w ≠ .processing event) : s.calling w = .before := by
  -- a worker in a call has a handler it is processing
  by_contra hcalled
  obtain ⟨event, hevent⟩ := h.called w hcalled
  exact hnot event hevent

/-- What the workers have taken, when one goes on: it changes for this one alone. -/
theorem current_update {pool : LockedPool Unit W Task} {w : W} {p : PoolWorker Task}
    (hworker : pool.worker = Function.update s.pool.worker w p) :
    current { s with pool } = Function.update s.current w (p.curEvent.bind Task.event) := by
  funext w'
  change (pool.worker w').curEvent.bind Task.event = _
  rw [hworker]
  by_cases hw : w' = w
  · subst hw
    rw [Function.update_self, Function.update_self]
  · rw [Function.update_of_ne hw, Function.update_of_ne hw]
    rfl

/-- The worker that goes on is not one that is in a call, so those that are stay where they are. -/
theorem worker_of_called {pool : LockedPool Unit W Task} {w : W} {p : PoolWorker Task}
    (hworker : pool.worker = Function.update s.pool.worker w p) (hbefore : s.calling w = .before)
    (w' : W) (hw' : s.calling w' ≠ .before) : pool.worker w' = s.pool.worker w' := by
  rw [hworker]
  refine Function.update_of_ne ?_ _ _
  rintro rfl
  exact hw' hbefore

/-- A worker goes on with the handler it has, or without one, and does not touch the queue. -/
theorem Shows.worker (h : s.Shows fds a) {pool : LockedPool Unit W Task} {w : W}
    {p : PoolWorker Task} (hworker : pool.worker = Function.update s.pool.worker w p)
    (hqueue : pool.workQueue = s.pool.workQueue) (happender : pool.appender = s.pool.appender)
    (hbefore : s.calling w = .before) (hcurrent : p.curEvent.bind Task.event = s.current w) :
    Shows fds { s with pool } a := by
  refine h.keeps rfl rfl ?_ rfl ?_ fun w' => worker_of_called hworker hbefore w'
  · unfold queued
    rw [hqueue, happender]
  · rw [current_update hworker, hcurrent, Function.update_eq_self]

/-- What the workers have still to call, when one that has called nothing goes on: it has still to
call what it has behind the step. -/
theorem holds_update {pool : LockedPool Unit W Task} {w : W} {p : PoolWorker Task}
    (hworker : pool.worker = Function.update s.pool.worker w p) (hbefore : s.calling w = .before) :
    holds { s with pool } = Function.update s.holds w (p.curEvent.bind Task.event) := by
  funext w'
  have hcurrent := congrFun (current_update hworker) w'
  unfold holds
  rw [hcurrent]
  by_cases hw : w' = w
  · subst hw
    rw [Function.update_self, Function.update_self]
    exact if_pos hbefore
  · rw [Function.update_of_ne hw, Function.update_of_ne hw]

/-- What never comes back stays, when a worker goes on that is in no call. -/
theorem hangs_update {pool : LockedPool Unit W Task} {w : W} {p : PoolWorker Task}
    (hworker : pool.worker = Function.update s.pool.worker w p) (hbefore : s.calling w = .before) :
    hangs { s with pool } = s.hangs := by
  funext w'
  have hcurrent := congrFun (current_update hworker) w'
  unfold hangs
  rw [hcurrent]
  by_cases hw : w' = w
  · subst hw
    change (if s.calling w' = .never then _ else none) = if s.calling w' = .never then _ else none
    rw [hbefore]
    rfl
  · rw [Function.update_of_ne hw]

/-- What the workers have still to call, when one calls its handler or returns: it has nothing left
to call when it has called it. -/
theorem holds_calling (s : MainLoop W) (w : W) (k : Calling) :
    holds { s with calling := Function.update s.calling w k } =
      Function.update s.holds w (if k = .before then s.current w else none) := by
  funext w'
  change (if Function.update s.calling w k w' = .before then s.current w' else none) = _
  by_cases hw : w' = w
  · subst hw
    rw [Function.update_self, Function.update_self]
  · rw [Function.update_of_ne hw, Function.update_of_ne hw]
    rfl

/-- What never comes back, when a worker calls its handler or returns. -/
theorem hangs_calling (s : MainLoop W) (w : W) (k : Calling) :
    hangs { s with calling := Function.update s.calling w k } =
      Function.update s.hangs w (if k = .never then s.current w else none) := by
  funext w'
  change (if Function.update s.calling w k w' = .never then s.current w' else none) = _
  by_cases hw : w' = w
  · subst hw
    rw [Function.update_self, Function.update_self]
  · rw [Function.update_of_ne hw, Function.update_of_ne hw]
    rfl

omit [DecidableEq W] in
/-- A worker with no handler of a client has none to call. -/
theorem holds_eq_none {w : W} (hcurrent : s.current w = none) : s.holds w = none := by
  rw [holds, hcurrent, ite_self]

omit [DecidableEq W] in
theorem hangs_eq_none {w : W} (hcalling : s.calling w ≠ .never) : s.hangs w = none :=
  if_neg hcalling

omit [DecidableEq W] in
/-- A step of `appendEvent` that moves no handler. -/
theorem Shows.appender [DecidableEq W] (h : s.Shows fds a) {pool : LockedPool Unit W Task}
    (hworker : pool.worker = s.pool.worker)
    (hqueue : pool.workQueue.filterMap id ++ (pending (pool.appender ())).toList =
      s.pool.workQueue.filterMap id ++ (pending (s.pool.appender ())).toList) :
    Shows fds { s with pool } a := by
  refine h.keeps rfl rfl ?_ rfl ?_ fun w _ => by rw [hworker]
  · unfold queued
    rw [hqueue]
  · funext w
    unfold current
    rw [hworker]

/-- **A worker takes the first handler from the queue.** If it is one of a client `webServer` takes
it too; a `nullptr` or an `AcceptConn` is not in its queue, and it does not move. -/
theorem Shows.pops (h : s.Shows fds a) (hdown : s.base.down = false) {w : W} (event : Option Task)
    {rest : List (Option Task)} {pool : LockedPool Unit W Task} (here : s.pool.worker w = .locked)
    (hqueue : s.pool.workQueue = event :: rest)
    (hworker : pool.worker = Function.update s.pool.worker w (.taken event))
    (hrest : pool.workQueue = rest) (happender : pool.appender = s.pool.appender) :
    Answered fds ok { s with pool } a := by
  have hbefore : s.calling w = .before := h.uncalled fun e he => by rw [here] at he; cases he
  have hnone : s.current w = none := by
    rw [current, here]
    rfl
  cases htask : event.bind Task.event with
  | none =>
    -- there is nothing in the queue of `webServer` for it
    refine Shows.answered (t := { s with pool })
      (h.keeps rfl rfl ?_ rfl ?_ fun w' => worker_of_called hworker hbefore w')
    · unfold queued
      rw [hrest, hqueue, happender, List.append_assoc, List.append_assoc, List.filterMap_append,
        List.filterMap_append (l := (event :: rest).filterMap id)]
      refine congrArg (· ++ _) ?_
      rw [List.filterMap_filterMap, List.filterMap_filterMap, List.filterMap_cons_none]
      exact htask
    · rw [current_update hworker]
      change Function.update s.current w (event.bind Task.event) = _
      rw [htask, ← hnone, Function.update_eq_self]
  -- it is the first handler in the queue of `webServer` as well
  | some e =>
    have hfirst : a.workQueue = e :: queued fds { s with pool } := by
      rw [h.workQueue]
      unfold queued
      rw [hrest, hqueue, happender, List.append_assoc, List.append_assoc, List.filterMap_append,
        List.filterMap_append (l := rest.filterMap id), ← List.cons_append]
      refine congrArg (· ++ _) ?_
      rw [List.filterMap_filterMap, List.filterMap_filterMap, List.filterMap_cons_some]
      exact htask
    have hstep := WebServer.take_eq_some.mpr ⟨e, _, hfirst, h.base ▸ hdown, rfl⟩
    refine answered_step hstep ⟨h.base, h.interest, rfl, ?_, ?_, ?_⟩ fun _ => trivial
    -- it is one more of those that are running
    · have hholds : s.holds w = none := holds_eq_none hnone
      rw [holds_update hworker hbefore]
      change Held _ (Function.update s.holds w (event.bind Task.event))
      rw [htask]
      exact (h.running.give hholds e).perm (List.perm_append_singleton e a.running)
    · rw [hangs_update hworker hbefore]
      exact h.stuck
    · intro w' hw'
      obtain ⟨e', he'⟩ := h.called w' hw'
      exact ⟨e', (worker_of_called hworker hbefore w' hw').trans he'⟩

/-- A worker that comes from `q` to `p` in `run` and has no handler, or keeps the one it has: it has
not called it, and `webServer` sees nothing of the step. -/
theorem Shows.workerGoes (h : s.Shows fds a) {pool : LockedPool Unit W Task} {w : W}
    {p q : PoolWorker Task} (here : s.pool.worker w = q) (hnot : ∀ event, q ≠ .processing event)
    (hset : pool.worker = Function.update s.pool.worker w p) (hp : p.curEvent = q.curEvent)
    (hqueue : pool.workQueue = s.pool.workQueue) (happender : pool.appender = s.pool.appender) :
    Answered fds ok { s with pool } a := by
  have hbefore : s.calling w = .before := h.uncalled fun event he => hnot event (here ▸ he)
  have hcurrent : p.curEvent.bind Task.event = s.current w := by rw [hp, current, here]
  exact (h.worker hset hqueue happender hbefore hcurrent).answered

/-- The main thread comes from `q` to `p` in `appendEvent`, behind `pthread_mutex_lock`. The event
it has locked the queue for was counted among the queued ones already, so pushing it changes
nothing. -/
theorem Shows.appenderGoes (h : s.Shows fds a) {pool : LockedPool Unit W Task}
    {p q : Appender Task} (here : s.pool.appender () = q) (hworker : pool.worker = s.pool.worker)
    (hset : pool.appender = Function.update s.pool.appender () p)
    (hqueue : pool.workQueue.filterMap id ++ (pending p).toList =
      s.pool.workQueue.filterMap id ++ (pending q).toList) :
    Answered fds ok { s with pool } a := by
  refine (h.appender hworker ?_).answered
  rw [hset, Function.update_self, hqueue, here]

/-- A step of `appendEvent` or of `run`. Only where a worker pops does a handler move. -/
theorem Shows.goes (h : s.Shows fds a) (hdown : s.base.down = false)
    {l : LockedPool.Label Unit W Task} {pool : LockedPool Unit W Task} (hinner : inner l = true)
    (hstep : s.pool.Does l pool) : Answered fds ok { s with pool } a := by
  cases hstep with
  | lockFails event here => cases hinner
  | locks event here free => cases hinner
  | processes event here => cases hinner
  -- the event moves from the one that is about to be pushed to the end of the queue
  | pushes event here =>
    refine h.appenderGoes here rfl rfl ?_
    rw [List.filterMap_append]
    cases event <;> simp [pending]
  | unlockFails here => exact h.appenderGoes here rfl rfl rfl
  | unlocks here => exact h.appenderGoes here rfl rfl rfl
  | postFails here => exact h.appenderGoes here rfl rfl rfl
  | posts here => exact h.appenderGoes here rfl rfl rfl
  | waitFails here => exact h.workerGoes here (by simp) rfl rfl rfl rfl
  | waits n here num => exact h.workerGoes here (by simp) rfl rfl rfl rfl
  | lockRunFails here => exact h.workerGoes here (by simp) rfl rfl rfl rfl
  | locksRun here free => exact h.workerGoes here (by simp) rfl rfl rfl rfl
  | findsEmpty here queue => exact h.workerGoes here (by simp) rfl rfl rfl rfl
  | pops event rest here queue => exact h.pops hdown event here queue rfl rfl rfl
  | leavesEmpty succeeds here => exact h.workerGoes here (by simp) rfl rfl rfl rfl
  | unlockRunFails event here => exact h.workerGoes here (by simp) rfl rfl rfl rfl
  -- it processes its event, or drops a `nullptr`; it has called nothing either way
  | unlocksRun event here =>
    refine h.workerGoes here (by simp) rfl ?_ rfl rfl
    cases event <;> rfl

omit [DecidableEq W] in
/-- The main thread goes on in `waitEpoll`, with the same handlers still to come: an entry that it
leaves behind has none. -/
theorem Shows.turns (h : s.Shows fds a) {thread : MainThread}
    (hcoming : (coming thread).filterMap (ResEvent.handler fds) =
      (coming s.thread).filterMap (ResEvent.handler fds)) : Shows fds { s with thread } a := by
  refine h.keeps rfl rfl ?_ rfl rfl fun _ _ => rfl
  unfold queued
  rw [hcoming]

omit [DecidableEq W] in
/-- The main thread fetches what epoll has to report. To `webServer` these are as many reports, all
of them before the next handler is made. -/
theorem Shows.fetches (h : s.Shows fds a) (hdown : s.base.down = false) {resEvents : List ResEvent}
    (here : s.thread = .waiting) (hsingle : (resEvents.map ResEvent.fd).Nodup)
    (hreported : ∀ e ∈ resEvents, e.Reported fds (s.interest e.fd)) :
    Answered fds ok
      { s with interest := fetched s.interest resEvents, thread := .looping resEvents } a := by
  have hreported : ∀ e ∈ resEvents, e.Reported fds (a.interest e.fd) := h.interest ▸ hreported
  -- the reports of all entries, one after the other
  obtain ⟨ls, hrun, halong⟩ := reports a (h.base ▸ hdown) hsingle hreported
  refine ⟨ls, _, hrun, ⟨h.base, congrArg (fetched · resEvents) h.interest, ?_, h.running, h.stuck,
    h.called⟩, fun _ => halong⟩
  change a.workQueue ++ _ = _
  rw [h.workQueue]
  unfold queued
  rw [here, List.filterMap_append,
    @List.filterMap_append _ _ _ ((coming (.looping resEvents)).filterMap _) _]
  change _ ++ [] ++ _ = _
  rw [List.append_nil]
  rfl

/-- The main thread locks the queue for the handler of the next entry, which moves from those to
come to the one that is about to be pushed. -/
theorem Shows.appends (h : s.Shows fds a) {e : ResEvent} {rest : List ResEvent} {event : Task}
    {pool : LockedPool Unit W Task} (here : s.thread = .looping (e :: rest))
    (hmade : e.handler fds = some event) (hstep : s.pool.Does (.lock () (some event) true) pool) :
    Shows fds { s with pool, thread := .looping rest } a := by
  cases hstep with
  | locks event' houtside free =>
    refine h.keeps rfl rfl ?_ rfl rfl fun _ _ => rfl
    unfold queued
    rw [here, houtside]
    -- the handler of the entry in front is now the one the queue is locked for
    change (_ ++ (pending (Function.update s.pool.appender () (.locked (some event)) ())).toList ++
      rest.filterMap _).filterMap _ = (_ ++ [] ++ (e :: rest).filterMap _).filterMap _
    rw [Function.update_self, List.filterMap_cons_some hmade, List.append_nil, List.append_assoc]
    rfl

/-! ### Calls of the handlers -/

/-- `AcceptConn::process` has been called, and what it has to do with the handlers of clients is
nothing. -/
theorem Shows.enters (h : s.Shows fds a) {w : W}
    (here : s.pool.worker w = .processing .acceptConn) :
    Shows fds { s with calling := Function.update s.calling w .within } a := by
  have hcurrent : s.current w = none := by
    rw [current, here]
    rfl
  refine h.same rfl rfl rfl ?_ ?_ fun w' hw' => ?_
  · rw [holds_calling, if_neg (by decide), ← holds_eq_none hcurrent, Function.update_eq_self]
  · have hhangs : s.hangs w = none := by rw [hangs, hcurrent, ite_self]
    rw [hangs_calling, if_neg (by decide), ← hhangs, Function.update_eq_self]
  -- the worker is in a call now, and has what it has called
  · by_cases hw : w' = w
    · exact ⟨_, hw ▸ here⟩
    · exact h.called w' ((Function.update_of_ne hw _ s.calling).symm ▸ hw')

/-- A client is accepted. `webServer` accepts it in the same moment, with the same descriptor. -/
theorem Shows.accepts (h : s.Shows fds a) {w : W} {fd : ℤ} {base : Server}
    (here : s.pool.worker w = .processing .acceptConn)
    (hnext : s.base.step (.accept fd) = some base) :
    Answered fds ok
      { s with
        base
        interest := Function.update s.interest fd (some ⟨true, false⟩)
        calling := Function.update s.calling w .within } a := by
  have hshows := h.enters here
  have haccept : a.step (.accept fd) = some { a with
      base, interest := Function.update a.interest fd (some ⟨true, false⟩) } :=
    WebServer.accept_eq_some.mpr ⟨base, h.base ▸ hnext, rfl⟩
  refine answered_step haccept
    ⟨rfl, ?_, hshows.workQueue, hshows.running, hshows.stuck, hshows.called⟩ fun _ => trivial
  rw [h.interest]

/-- **The handler of a client is called**, with the tables as they are: it is no longer one that is
still to be called, and it is one that never returns if this is what the call comes to. -/
theorem Shows.calls (h : s.Shows fds a) (hdown : s.base.down = false) {w : W} {fd : ℤ}
    {x : Handler} (here : s.pool.worker w = .processing (.client ⟨fd, x.kind⟩))
    (hbefore : s.calling w = .before) :
    Answered fds (s.base.NoStray (.call fd x)) (s.after w fd (s.base.call fd x)) a := by
  have hcurrent : s.current w = some ⟨fd, x.kind⟩ := by
    rw [current, here]
    rfl
  have hholds : s.holds w = some ⟨fd, x.kind⟩ := (if_pos hbefore).trans hcurrent
  have hhangs : s.hangs w = none := hangs_eq_none (by rw [hbefore]; decide)
  -- `webServer` has the handler among its running ones, and calls it in the same state
  have hstep : a.step (.process fd x) = some (a.after fd x.kind (s.base.call fd x)) :=
    WebServer.process_eq_some.mpr ⟨⟨h.base ▸ hdown, h.running.mem hholds⟩, by rw [h.base]⟩
  refine answered_step hstep ⟨?_, ?_, h.workQueue, ?_, ?_, fun w' hw' => ?_⟩ ?_
  · change a.base.behind fd _ = s.base.behind fd _
    rw [h.base]
  · unfold WebServer.after after
    rw [h.interest]
  -- the worker has nothing left to call
  · have hnext : (s.after w fd (s.base.call fd x)).holds = Function.update s.holds w none := by
      refine (holds_calling s w _).trans (congrArg _ (if_neg ?_))
      split <;> decide
    rw [hnext]
    exact h.running.drop hholds
  -- it hangs in its handler just if the call never returns, and then it is stuck there too
  · have hnext : (s.after w fd (s.base.call fd x)).hangs = Function.update s.hangs w
        (if (s.base.call fd x).crash = some .diverges then s.current w else none) := by
      refine (hangs_calling s w _).trans (congrArg _ ?_)
      split <;> rfl
    rw [hnext]
    unfold WebServer.after
    by_cases hcrash : (s.base.call fd x).crash = some .diverges
    · simp only [if_pos hcrash, hcurrent]
      exact h.stuck.give hhangs _
    · simp only [if_neg hcrash]
      rw [← hhangs, Function.update_eq_self]
      exact h.stuck
  · by_cases hw : w' = w
    · exact ⟨_, hw ▸ here⟩
    · exact h.called w' ((Function.update_of_ne hw _ s.calling).symm ▸ hw')
  · change s.base.NoStray (.call fd x) → a.base.NoStray (.call fd x)
    rw [h.base]
    exact id

/-- **A handler returns**, and `webServer` has seen the last of it before: a call that has done what
it does is none of its running handlers. -/
theorem Shows.returns (h : s.Shows fds a) {w : W} {pool : LockedPool Unit W Task}
    (hwithin : s.calling w = .within) (hstep : s.pool.Does (.process w) pool) :
    Shows fds { s with pool, calling := Function.update s.calling w .before } a := by
  cases hstep with
  | processes event here =>
    -- the other workers are as they were
    have hothers {w' : W} (hw : w' ≠ w) :
        Function.update s.pool.worker w .waiting w' = s.pool.worker w' :=
        Function.update_of_ne hw _ _
    -- a worker in a call that returns has nothing to call before, and has nothing behind
    refine h.same rfl rfl rfl (funext fun w' => ?_) (funext fun w' => ?_) fun w' hw' => ?_
    · change (if Function.update s.calling w .before w' = .before then
        (Function.update s.pool.worker w .waiting w').curEvent.bind Task.event else none) =
          s.holds w'
      by_cases hw : w' = w
      · subst hw
        rw [Function.update_self, Function.update_self, holds, hwithin]
        rfl
      · rw [Function.update_of_ne hw, hothers hw]
        rfl
    · change (if Function.update s.calling w .before w' = .never then
        (Function.update s.pool.worker w .waiting w').curEvent.bind Task.event else none) =
          s.hangs w'
      by_cases hw : w' = w
      · subst hw
        rw [Function.update_self, Function.update_self, hangs, hwithin]
        rfl
      · rw [Function.update_of_ne hw, hothers hw]
        rfl
    · have hw : w' ≠ w := by
        rintro rfl
        exact hw' (Function.update_self _ _ _)
      obtain ⟨event', hevent⟩ := h.called w' ((Function.update_of_ne hw _ s.calling).symm ▸ hw')
      exact ⟨event', (hothers hw).trans hevent⟩

/-! ### The runs -/

/-- The first call in `appendEvent` does not fail. If it does, the handler is lost, while its
descriptor stays silent. -/
def Label.Locks : Label W → Prop
  | .append ok => ok = true
  | _ => True

/-- A call closes no descriptor of a connection as that of a file, which a stray `close` behind an
erased entry might. -/
def NoStray (s : MainLoop W) : Label W → Prop
  | .process _ fd x => s.base.NoStray (.call fd x)
  | _ => True

instance : (l : Label W) → Decidable l.Locks
  | .append ok => inferInstanceAs (Decidable (ok = true))
  | .signal _ => .isTrue trivial
  | .epollWait _ => .isTrue trivial
  | .next => .isTrue trivial
  | .pool _ => .isTrue trivial
  | .acceptConn _ _ => .isTrue trivial
  | .process _ _ _ => .isTrue trivial
  | .returns _ => .isTrue trivial

instance (s : MainLoop W) : (l : Label W) → Decidable (s.NoStray l)
  | .process _ fd x => inferInstanceAs (Decidable (s.base.NoStray (.call fd x)))
  | .signal _ => .isTrue trivial
  | .epollWait _ => .isTrue trivial
  | .next => .isTrue trivial
  | .append _ => .isTrue trivial
  | .pool _ => .isTrue trivial
  | .acceptConn _ _ => .isTrue trivial
  | .returns _ => .isTrue trivial

/-- **Every step is answered by `webServer`**, and in order where the step of the threads is. -/
theorem Shows.step (h : s.Shows fds a) {l : Label W} (hl : l.Locks)
    (hstep : s.step fds l = some t) :
    Answered fds (s.NoStray l) t a := by
  obtain ⟨hdown, hdoes⟩ := does_of_step fds hstep
  cases hdoes with
  | signals signo => exact Shows.answered (h.keeps rfl rfl rfl rfl rfl fun _ _ => rfl)
  | throws here => exact (h.turns (by rw [here]; rfl)).answered
  | interrupts here => exact (h.turns (by rw [here]; rfl)).answered
  | fetches resEvents here single reported => exact h.fetches hdown here single reported
  -- no entry is left, and whether the loop ends makes no difference to the handlers
  | loops here =>
    refine (h.turns ?_).answered
    rw [here]
    split <;> rfl
  -- an entry without a handler adds nothing to what is queued
  | skips e rest here outside hnone =>
    refine (h.turns ?_).answered
    rw [here]
    exact (List.filterMap_cons_none hnone).symm
  | appends e rest event ok pool here made step =>
    change ok = true at hl
    subst hl
    exact (h.appends here made step).answered
  | goes l pool inner step => exact h.goes hdown inner step
  | refuses w here before => exact (h.enters here).answered
  | accepts w fd base here before next => exact h.accepts here next
  | calls w fd x here before => exact h.calls hdown here before
  | returns w pool within step => exact (h.returns within step).answered

/-- **The threads are `webServer`**: the handlers they fetch, queue, take and call are handlers that
it has made, in the order in which it has made them. -/
theorem simulates : (mainLoop W fds).Simulates webServer (fun _ l => l.Locks) (Shows fds) where
  start := shows_init
  step _ _ _ _ h hl hstep :=
    have ⟨ms, b, hrun, hshows, _⟩ := h.step hl hstep
    ⟨ms, b, hrun, hshows⟩

/-- **A run of the threads is a run of `webServer`**, whatever calls of the mutex and the semaphore
fail behind the first one in `appendEvent`: the handlers that have been fetched and not taken are
its queue, and those that the workers have taken and not called are its running ones. -/
theorem shown_of_run {ls : List (Label W)}
    (hrun : (mainLoop W fds).run (mainLoop W fds).start ls = some s) (hls : ∀ l ∈ ls, l.Locks) :
    ∃ ms a, webServer.run webServer.start ms = some a ∧ s.Shows fds a :=
  simulates.run simulates.start hrun (Machine.along_of_labels hls _)

/-- The main thread appends the handler of the next entry, and none of its calls fails. -/
def appending : List (Label W) :=
  [.append true, .pool (.push ()), .pool (.unlock () true), .pool (.post () true)]

/-- The worker takes a handler, from `sem_wait` to where it is about to call it. -/
def taking (w : W) : List (Label W) :=
  [.pool (.wait w true), .pool (.lockRun w true), .pool (.pop w), .pool (.unlockRun w true)]

/-- Two clients are accepted and heard of at once, and a third worker is lost. The worker that has
received from the first client is still in its handler when the next one for the same descriptor is
fetched and taken by the other. -/
def twoClients : List (Label (Fin 3)) :=
  [.epollWait (.events [⟨3, true, false⟩])] ++ appending ++
  [.next, .pool (.wait 2 false)] ++ taking 0 ++
  [.acceptConn 0 (some 5), .epollWait (.events [⟨3, true, false⟩])] ++ appending ++
  taking 1 ++ [.next] ++
  [.acceptConn 1 (some 6), .returns 1, .returns 0,
    .epollWait (.events [⟨5, true, false⟩, ⟨6, true, false⟩])] ++ appending ++
  taking 1 ++ appending ++ [.process 1 5 WebServer.asksList, .next,
    .epollWait (.events [⟨5, false, true⟩])] ++ taking 0 ++
      [.process 0 6 WebServer.asksList, .returns 0] ++
  appending ++ taking 0

theorem shown_of_run_twoClients :
    ∃ s, (mainLoop (Fin 3) ⟨3, -1⟩).run (mainLoop (Fin 3) ⟨3, -1⟩).start twoClients = some s ∧
      s.current 0 = some ⟨5, .send⟩ ∧ s.current 1 = some ⟨5, .recv⟩ ∧ s.holds 1 = none ∧
      ∃ ms a, webServer.run webServer.start ms = some a ∧ s.Shows ⟨3, -1⟩ a := by
  -- the run is computed once, with what is asked of its last state
  have hrun : ((mainLoop (Fin 3) ⟨3, -1⟩).run (mainLoop (Fin 3) ⟨3, -1⟩).start twoClients).map
      (fun s => (s.current 0, s.current 1, s.holds 1)) =
        some (some ⟨5, .send⟩, some ⟨5, .recv⟩, none) := by
    decide +kernel
  obtain ⟨s, hs, hstate⟩ := Option.map_eq_some_iff.mp hrun
  obtain ⟨hfirst, hstate⟩ := Prod.mk.inj hstate
  obtain ⟨hsecond, hholds⟩ := Prod.mk.inj hstate
  exact ⟨s, hs, hfirst, hsecond, hholds,
    shown_of_run hs (by simp [twoClients, appending, taking, Label.Locks])⟩

/-- What `server` sees of a step: the accepts, and the calls of the handlers of clients. Where a
call returns it has nothing to see. -/
def Label.shown : Label W → Option Cherokee.Label
  | .acceptConn _ (some fd) => some (.accept fd)
  | .process _ fd x => some (.call fd x)
  | _ => none

omit [DecidableEq W] in
/-- The handlers that workers have and that have not done what they do are those of `webServer`,
running or stuck. -/
theorem Shows.held (h : s.Shows fds a) : Held (a.running ++ a.stuck) s.engaged := by
  have hengaged : s.engaged = fun w => (s.holds w).or (s.hangs w) := by
    funext w
    unfold engaged holds hangs
    -- a handler that is still to be called, one that has been, and one that never returns
    cases s.calling w with
    | before => exact (Option.or_none).symm
    | within => rfl
    | never => exact (Option.none_or).symm
  rw [hengaged]
  refine h.running.append h.stuck fun w => ?_
  unfold holds hangs
  cases s.calling w with
  -- no worker has both at once
  | before => exact .inr rfl
  | within => exact .inl rfl
  | never => exact .inl rfl

omit [DecidableEq W] in
/-- A step that `server` does not see closes nothing, and so no connection. -/
theorem noStray_of_hidden {l : Label W} (hl : l.shown = none) : s.NoStray l := by
  cases l with
  | process w fd x => cases hl
  | _ => trivial

/-- A worker calls its handler for a connection: it is open and not stuck, since the handler has had
its descriptor to itself from the report on. -/
theorem Shows.ready (h : s.Shows fds a) (ha : a.Kept) {w : W} {fd : ℤ} {x : Handler}
    (hstep : s.step fds (.process w fd x) = some t) : ∃ c, s.base.ready fd = some c := by
  obtain ⟨hdown, hdoes⟩ := does_of_step fds hstep
  cases hdoes with
  | calls _ _ _ here before =>
    have hholds : s.holds w = some ⟨fd, x.kind⟩ := by
      rw [holds, before, current, here]
      rfl
    rw [← h.base]
    exact ha.oneShot.ready ha.watched (h.base ▸ hdown) (h.running.mem hholds)

/-- A step of the threads that `server` sees is one of its own. It is enabled there because the
handler finds its connection open. -/
theorem Shows.serves (h : s.Shows fds a) (ha : a.Kept) {l : Label W} {m : Cherokee.Label}
    (hstray : s.NoStray l) (hstep : s.step fds l = some t) (hl : l.shown = some m) :
    s.base.NoStray m ∧ server.step s.base m = some t.base := by
  obtain ⟨-, hdoes⟩ := does_of_step fds hstep
  -- the call of a handler that a worker has taken
  have hcall {w : W} {fd : ℤ} {x : Handler} {u : MainLoop W}
      (hcalled : s.step fds (.process w fd x) = some u) :
      server.step s.base (.call fd x) = some (s.base.behind fd (s.base.call fd x)) := by
    obtain ⟨c, hready⟩ := h.ready ha hcalled
    obtain ⟨-, hfd, -⟩ := Server.ready_eq_some.mp hready
    exact Server.call_eq_some.mpr ⟨c, hready, WebServer.behind_eq_after hfd _⟩
  cases hdoes with
  | accepts w fd base here before next =>
    cases hl
    exact ⟨trivial, next⟩
  | calls w fd x here before =>
    cases hl
    exact ⟨hstray, hcall hstep⟩
  | _ => cases hl

/-- **The threads are `server`**: what they do to the tables and the connections is what its calls
do, one after the other. -/
theorem projects :
    (mainLoop W fds).Projects server (fun s l => l.Locks ∧ s.NoStray l) Server.NoStray
    (fun s => ∃ a, s.Shows fds a ∧ a.Kept) MainLoop.base Label.shown where
  start := ⟨WebServer.init, shows_init, WebServer.kept_init⟩
  start_view := rfl
  -- the state of `webServer` beside that of the threads is carried along, and with it what it keeps
  kept s l t h hG hstep := by
    obtain ⟨a, hshows, hkept⟩ := h
    obtain ⟨ms, b, hrun, hb, halong⟩ := hshows.step hG.1 hstep
    exact ⟨b, hb, (WebServer.projects.run hkept hrun (halong hG.2)).1⟩
  -- only an accept and a call touch the tables and the connections
  hidden s l t h hG hstep hl := by
    obtain ⟨-, hdoes⟩ := does_of_step fds hstep
    cases hdoes with
    | accepts => cases hl
    | calls => cases hl
    | _ => rfl
  step s l t m h hG hstep hl := by
    obtain ⟨a, hshows, hkept⟩ := h
    exact hshows.serves hkept hG.2 hstep hl

/-- What holds of the handlers that are still to be called, from the moment epoll has reported their
descriptors. A handler that never returns counts as one of them: it does not come to arm its
descriptor again. Behind a call that has done what it does the worker may find itself with a handler
for the same descriptor as another one. -/
structure OneEach (fds : OwnFds) (s : MainLoop W) : Prop where
  /-- No two of those that wait are for one descriptor. -/
  queued : ((s.queued fds).map Event.fd).Nodup
  /-- No two workers have handlers for one descriptor. -/
  workers : ∀ w w' e e', s.engaged w = some e → s.engaged w' = some e' → e.fd = e'.fd → w = w'
  /-- None that waits is for a descriptor that a worker has a handler for. -/
  apart : ∀ w e, s.engaged w = some e → e.fd ∉ (s.queued fds).map Event.fd
  /-- They are for connections that are open, and that epoll does not report. -/
  disarmed : ∀ w e, s.engaged w = some e →
    s.base.conn e.fd ≠ none ∧ s.interest e.fd = some ⟨false, false⟩

/-- The handlers that are still to be called are among those of `webServer`, of which no two are for
one descriptor. -/
theorem Shows.oneEach (h : s.Shows fds a) (ha : a.Kept) : s.OneEach fds := by
  have hsingle := ha.oneShot.single
  rw [WebServer.handlers, List.append_assoc, List.map_append, List.nodup_append] at hsingle
  -- no descriptor twice in the queue, none twice with the workers, and none in both
  obtain ⟨hqueue, hworkers, hdisjoint⟩ := hsingle
  have hmem {w : W} {e : Event} (hw : s.engaged w = some e) : e ∈ a.running ++ a.stuck :=
    h.held.mem hw
  refine ⟨h.workQueue ▸ hqueue, fun w w' e e' hw hw' hfd => ?_, fun w e hw hin => ?_,
    fun w e hw => ?_⟩
  · exact h.held.eq_of_nodup hworkers hw hw' hfd
  · rw [← h.workQueue] at hin
    exact hdisjoint _ hin _ (List.mem_map_of_mem (hmem hw)) rfl
  -- its descriptor has been reported and not been armed since, and what epoll holds is open
  · have hhandler : e ∈ a.handlers := by
      rw [WebServer.handlers, List.append_assoc]
      exact List.mem_append_right _ (hmem hw)
    have hdisarmed := ha.oneShot.disarmed e hhandler
    have hopen := ha.watched.registered e.fd
    rw [hdisarmed, h.base] at hopen
    exact ⟨Option.isSome_iff_ne_none.mp hopen.symm, h.interest ▸ hdisarmed⟩

/-- **The calls of the workers are a run of `server`**, with the same accepts and calls in the same
order, in a run in which the queue can be locked and no call closes a connection as a file; and no
two handlers in it that are still to be called are for one descriptor, whether still to be made,
queued or taken. -/
theorem server_of_run {ls : List (Label W)}
    (hrun : (mainLoop W fds).run (mainLoop W fds).start ls = some s)
    (hls : (mainLoop W fds).Along (fun s l => l.Locks ∧ s.NoStray l) (mainLoop W fds).start ls) :
    server.run server.start (ls.filterMap Label.shown) = some s.base ∧
      server.Along Server.NoStray server.start (ls.filterMap Label.shown) ∧ s.OneEach fds := by
  obtain ⟨⟨a, hshows, hkept⟩, hserver, halong⟩ := projects.run projects.start hrun hls
  exact ⟨hserver, halong, hshows.oneEach hkept⟩

theorem server_of_run_twoClients :
    ∃ s, (mainLoop (Fin 3) ⟨3, -1⟩).run (mainLoop (Fin 3) ⟨3, -1⟩).start twoClients = some s ∧
      server.run server.start (twoClients.filterMap Label.shown) = some s.base ∧
      s.OneEach ⟨3, -1⟩ := by
  obtain ⟨s, hs⟩ := Option.isSome_iff_exists.mp (show ((mainLoop (Fin 3) ⟨3, -1⟩).run
    (mainLoop (Fin 3) ⟨3, -1⟩).start twoClients).isSome by decide +kernel)
  obtain ⟨hserver, -, hone⟩ := server_of_run hs (by decide +kernel)
  exact ⟨s, hs, hserver, hone⟩

end Steps

end MainLoop

end Cherokee
