import Cherokee.Linear
import Cherokee.MainLoop

/-!
# The threads and the files

`mainLoop` has the threads, and leaves what a handler finds to the environment; `fileServer` has the
files, and calls a handler whenever it likes. `fileLoop` has both: the main thread waits for epoll
and fills the queue, the workers take handlers from it, and each handler works on the files as the
handlers before have left them.

As in `mainLoop`, what a call does is one step, and its return another. In an orderly run
(`FileLoop.Orderly`) no handler is called while another worker is still in one for the same
descriptor: the code does not see to it, and a handler that goes on behind its own `modifyWaitFd`
may spoil the entries for the next one.

* `FileLoop.projects`: what the workers do to the tables and the files is a run of `fileServer`.
* `FileLoop.threads_linearizable`: so the server with its threads refines the store as well.
-/

namespace Cherokee

/-- The threads, and the files their handlers work on. The files are no part of `MainLoop`, whose
handlers may find anything on the disk. -/
structure FileLoop (W : Type) where
  threads : MainLoop W
  disk : FileSystem

/-- A step of a thread, or the call of a handler with what the system decides in it. -/
inductive FileLoop.Label (W : Type) where
  /-- A step of a thread that comes to no table and no file. -/
  | thread (l : MainLoop.Label W)
  /-- The worker calls its handler, and the handler does what it does; what the system decides in
  the call is in the label. -/
  | serve (w : W) (l : FileServer.Label)

namespace FileLoop

variable {W : Type}

/-- What the workers share: the tables, the connections and the files. -/
def shared (s : FileLoop W) : FileServer := ⟨s.threads.base, s.disk⟩

/-- What `fileServer` sees of a step: the calls and the accepts, and nothing of the queue, epoll or
the returns. -/
def Label.shown : Label W → Option FileServer.Label
  | .thread _ => none
  | .serve _ l => some l

/-- One step. A descriptor that is open for a file is not given out for a connection. -/
def step [DecidableEq W] (fds : OwnFds) (page : Bytes) (s : FileLoop W) :
    Label W → Option (FileLoop W)
  | .thread l =>
    if l.shown.isNone then (s.threads.step fds l).map fun threads => { s with threads } else none
  | .serve w (.accept fd) =>
    if s.disk.opened fd = none then
      (s.threads.step fds (.acceptConn w (some fd))).map fun threads => { s with threads }
    else none
  | .serve w l => (s.shared.handler page l).bind fun p =>
    (s.threads.step fds (.process w p.1 p.2)).map fun threads =>
      ⟨threads, s.disk.afterAll (s.threads.base.call p.1 p.2).acts⟩

/-- No worker that has called a handler for `fd` is still in it. The accesses of a call are one step
here, so without this a call could not be told from one that has come half way. -/
def Clear (s : FileLoop W) (fd : ℤ) : Prop :=
  ∀ w, s.threads.calling w = .within → ∀ e ∈ s.threads.current w, e.fd ≠ fd

/-- A step of an orderly run: the queue can be locked, a handler is called only when no other one
for its descriptor is in a call, and the calls are those of an orderly run of `fileServer`. -/
def Orderly (page : Bytes) (script : ℕ → ℕ → HandleRecv.Message) (s : FileLoop W) : Label W → Prop
  | .thread l => l.Locks
  | .serve _ l => (∀ p ∈ s.shared.handler page l, s.Clear p.1) ∧ s.shared.Orderly page script l

instance [Fintype W] (s : FileLoop W) (fd : ℤ) : Decidable (s.Clear fd) :=
  inferInstanceAs (Decidable (∀ w, s.threads.calling w = .within →
    ∀ e ∈ s.threads.current w, e.fd ≠ fd))

instance [Fintype W] (page : Bytes) (script : ℕ → ℕ → HandleRecv.Message) (s : FileLoop W) :
    (l : Label W) → Decidable (s.Orderly page script l)
  | .thread l => inferInstanceAs (Decidable l.Locks)
  | .serve _ l => inferInstanceAs (Decidable ((∀ p ∈ s.shared.handler page l, s.Clear p.1) ∧
      s.shared.Orderly page script l))

end FileLoop

/-- The server with its threads and the template `page`, on the files it finds when it starts. -/
def fileLoop (W : Type) [DecidableEq W] (fds : OwnFds) (page : Bytes) (fs : FileSystem) :
    Machine (FileLoop W) (FileLoop.Label W) where
  start := ⟨MainLoop.init, fs⟩
  step := FileLoop.step fds page

namespace FileLoop

section Steps

variable {W : Type} [DecidableEq W] {fds : OwnFds} {page : Bytes} {fs : FileSystem}
  {script : ℕ → ℕ → HandleRecv.Message} {s t : FileLoop W}

/-- A worker calls its handler: an accept leaves the files alone, and a call does to them what its
actions say. -/
theorem serve_cases {w : W} {l : FileServer.Label} (hstep : s.step fds page (.serve w l) = some t) :
    (∃ fd, l = .accept fd ∧ s.disk.opened fd = none ∧ t.disk = s.disk ∧
        s.threads.step fds (.acceptConn w (some fd)) = some t.threads) ∨
      ∃ fd h, s.shared.handler page l = some (fd, h) ∧
        t.disk = s.disk.afterAll (s.threads.base.call fd h).acts ∧
        s.threads.step fds (.process w fd h) = some t.threads := by
  -- a call, of whichever handler: the handler is made of the tables and the files, and the threads
  -- take the step
  have hcalled (hl : s.step fds page (.serve w l) = (s.shared.handler page l).bind fun p =>
      (s.threads.step fds (.process w p.1 p.2)).map fun threads =>
        ⟨threads, s.disk.afterAll (s.threads.base.call p.1 p.2).acts⟩) :
      ∃ fd h, s.shared.handler page l = some (fd, h) ∧
        t.disk = s.disk.afterAll (s.threads.base.call fd h).acts ∧
        s.threads.step fds (.process w fd h) = some t.threads := by
    obtain ⟨⟨fd, h⟩, hhandler, hcall⟩ := Option.bind_eq_some_iff.mp (hl.symm.trans hstep)
    obtain ⟨threads, hthreads, rfl⟩ := Option.map_eq_some_iff.mp hcall
    exact ⟨fd, h, hhandler, rfl, hthreads⟩
  cases l with
  | accept fd =>
    change (if s.disk.opened fd = none then _ else none) = some t at hstep
    split at hstep
    · next hopened =>
      obtain ⟨threads, hthreads, rfl⟩ := Option.map_eq_some_iff.mp hstep
      exact .inl ⟨fd, rfl, hopened, rfl, hthreads⟩
    · cases hstep
  | recv fd results fresh => exact .inr (hcalled rfl)
  | send fd v results => exact .inr (hcalled rfl)

/-- A step of the threads alone comes to no table and no file. -/
theorem thread_cases {l : MainLoop.Label W} (hstep : s.step fds page (.thread l) = some t) :
    l.shown = none ∧ t.disk = s.disk ∧ s.threads.step fds l = some t.threads := by
  change (if l.shown.isNone then _ else none) = some t at hstep
  -- a step that shows something is none of these
  split at hstep
  · next hnone =>
    obtain ⟨threads, hthreads, rfl⟩ := Option.map_eq_some_iff.mp hstep
    exact ⟨Option.isNone_iff_eq_none.mp hnone, rfl, hthreads⟩
  · cases hstep

/-- A call of an orderly run closes no descriptor of a connection as that of a file, be it the
connection's own or another one's. -/
theorem noStray_of_process {a : WebServer} (h : s.threads.Shows fds a) (ha : a.Kept) {w : W}
    {fd : ℤ} {x : Handler} {l : FileServer.Label} {threads : MainLoop W}
    (hG : s.shared.Orderly page script l) (hhandler : s.shared.handler page l = some (fd, x))
    (hthreads : s.threads.step fds (.process w fd x) = some threads) :
    s.threads.base.NoStray (.call fd x) := by
  -- the call is one of a connection, since epoll has reported its descriptor
  obtain ⟨c, hready⟩ := h.ready ha hthreads
  obtain ⟨hapart, -, -⟩ := hG _ (FileServer.mem_callOf hhandler hready)
  exact fun d hd => (hapart.strays d hd).1

/-- **A call of a worker** is a step of `fileServer`: the worker has its handler to itself, so the
connection is open and the call finds the tables and files as the calls before have left them. -/
theorem shared_of_serve {a : WebServer} (h : s.threads.Shows fds a) (ha : a.Kept) {w : W}
    {l : FileServer.Label} (hG : s.shared.Orderly page script l)
    (hstep : s.step fds page (.serve w l) = some t) : s.shared.step page l = some t.shared := by
  -- an accept and a call come to the same in both, with the same tables and the same files
  rcases serve_cases hstep with
    ⟨fd, rfl, hopened, hdisk, hthreads⟩ | ⟨fd, x, hhandler, hdisk, hthreads⟩
  · obtain ⟨-, hbase⟩ := h.serves ha (l := .acceptConn w (some fd)) trivial hthreads rfl
    change (if s.disk.opened fd = none then _ else none) = _
    rw [if_pos hopened]
    exact Option.map_eq_some_iff.mpr
      ⟨t.threads.base, hbase, congrArg (FileServer.mk t.threads.base) hdisk.symm⟩
  · obtain ⟨-, hbase⟩ := h.serves ha (l := .process w fd x)
      (noStray_of_process h ha hG hhandler hthreads) hthreads rfl
    have hcall : (s.shared.handler page l).bind (fun p => s.shared.call p.1 p.2) =
        some t.shared := by
      rw [hhandler]
      exact Option.map_eq_some_iff.mpr
        ⟨t.threads.base, hbase, congrArg (FileServer.mk t.threads.base) hdisk.symm⟩
    -- `step` of `fileServer` has a case of its own for each kind of handler
    cases l with
    | accept d => cases hhandler
    | recv d results fresh => exact hcall
    | send d v results => exact hcall

/-- **What the workers do to the tables and the files is a run of `fileServer`**, in the order in
which they do it, and an orderly one if theirs is. -/
theorem projects : (fileLoop W fds page fs).Projects (fileServer page fs) (Orderly page script)
    (FileServer.Orderly page script) (fun s => ∃ a, s.threads.Shows fds a ∧ a.Kept) shared
    Label.shown where
  start := ⟨WebServer.init, MainLoop.shows_init, WebServer.kept_init⟩
  start_view := rfl
  kept s l t h hG hstep := by
    -- what the threads keep is kept whatever the files are
    replace hstep : s.step fds page l = some t := hstep
    have hkept := (@MainLoop.projects W fds _).kept s.threads
    cases l with
    | thread m =>
      obtain ⟨hshown, -, hthreads⟩ := thread_cases hstep
      exact hkept m t.threads h ⟨hG, MainLoop.noStray_of_hidden hshown⟩ hthreads
    | serve w l =>
      rcases serve_cases hstep with ⟨fd, -, -, -, hthreads⟩ | ⟨fd, x, hhandler, -, hthreads⟩
      · exact hkept (.acceptConn w (some fd)) t.threads h ⟨trivial, trivial⟩ hthreads
      · obtain ⟨a, hshows, ha⟩ := h
        exact hkept (.process w fd x) t.threads ⟨a, hshows, ha⟩
          ⟨trivial, noStray_of_process hshows ha hG.2 hhandler hthreads⟩ hthreads
  -- a step that shows nothing is one of the threads alone
  hidden s l t h hG hstep hl := by
    replace hstep : s.step fds page l = some t := hstep
    cases l with
    | serve w l => cases hl
    | thread m =>
      obtain ⟨hshown, hdisk, hthreads⟩ := thread_cases hstep
      have hbase := MainLoop.projects.hidden s.threads m t.threads h
        ⟨hG, MainLoop.noStray_of_hidden hshown⟩ hthreads hshown
      rw [shared, hdisk]
      exact congrArg (FileServer.mk · s.disk) hbase
  step s l t m h hG hstep hl := by
    cases l with
    | thread l => cases hl
    | serve w l =>
      cases hl
      obtain ⟨a, hshows, hkept⟩ := h
      exact ⟨hG.2, shared_of_serve hshows hkept hG.2 hstep⟩

/-- **The threads refine the store**, in orderly runs: they are `fileServer`, and this refines
it. -/
theorem simulates (hfits : ∀ c n, (script c n).Fits) :
    (fileLoop W fds page fs).Simulates (fileStore fs.file page script) (Orderly page script)
      fun s a => (∃ b, s.threads.Shows fds b ∧ b.Kept) ∧ Simulated script fs.file s.shared a :=
  projects.simulates (FileServer.simulates hfits)

/-- A report of epoll is fetched, and its handler is made, queued, taken by the worker `w` and
called. The worker is still in it. -/
def served (e : ResEvent) (w : Bool) (l : FileServer.Label) : List (Label Bool) :=
  let before : List (MainLoop.Label Bool) :=
    [.epollWait (.events [e])] ++ MainLoop.appending ++ [.next] ++ MainLoop.taking w
  before.map .thread ++ [.serve w l]

/-- Both clients are heard of at once, and two workers have their handlers. The list of files is
asked for before the upload has arrived, so that the page may show the directory without it. -/
def heard : List (Label Bool) :=
  let both : List (MainLoop.Label Bool) :=
    [.returns false, .returns true, .epollWait (.events [⟨5, true, false⟩, ⟨6, true, false⟩])] ++
    MainLoop.appending ++ MainLoop.taking false ++ MainLoop.appending ++
      MainLoop.taking true ++ [.next]
  served ⟨3, true, false⟩ false (.accept 5) ++ served ⟨3, true, false⟩ true (.accept 6) ++
  both.map .thread ++
  [.serve true (FileServer.chunkOn 6 (FileServer.noteScript 1 0).bytes),
    .serve false (FileServer.chunkOn 5 HandleRecv.sampleUpload.bytes), .thread (.returns false)]

/-- The list is sent before the first client hears of its upload. The worker that sends it has
waited for the one that has received the request. -/
def told : List (Label Bool) :=
  let before : List (MainLoop.Label Bool) :=
    [.epollWait (.events [⟨6, false, true⟩])] ++ MainLoop.appending ++ [.next] ++
    MainLoop.taking false ++ [.returns true]
  before.map .thread ++ [.serve false
    (FileServer.sendOn 6 7 [lit "mynotes.txt"] [.accepted 2048 [], .accepted 2048 []])] ++
  served ⟨5, false, true⟩ true (FileServer.sendOn 5 7 [lit "mynotes.txt"] [.accepted 2048 []])

end Steps

end FileLoop

end Cherokee
