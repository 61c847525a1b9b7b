import Cherokee.Exits

/-!
# The server with its epoll (`WebServer::waitEpoll`, `ThreadPool::run`)

A client's descriptor is registered one-shot: epoll reports it once and then not again until
`modifyWaitFd` arms it. `waitEpoll` makes a handler for each report and appends it to the work queue
of the thread pool, and a worker takes it from there. `webServer` is the system of accepts, reports,
workers that take an event, and calls of the handlers that have been taken. A call is one step here,
from its first access to its return; `crew` has the steps in between.

* `WebServer.Watched`: what holds of the descriptors, open or not, in every run.
* `WebServer.Leaves`: what a call does to the registration of its own descriptor.
-/

namespace Cherokee

/-- A handler that has been made for a client's descriptor and of which the worker that takes it
knows no more than this. -/
structure Event where
  fd : ℤ
  kind : Kind
deriving DecidableEq, Repr

/-- The tables behind a call for `fd`, whether or not a connection is open under it. The source does
not look: a handler whose connection has been closed meanwhile finds no entries and makes new
ones. -/
def Server.behind (s : Server) (fd : ℤ) (x : HandleSend.Call) : Server :=
  match s.conn fd with
  | some c => s.after fd c x
  | none => { s with
      requestStatus := Function.update s.requestStatus fd x.request
      responseStatus := Function.update s.responseStatus fd x.response
      conn := fun d => if d ∈ strays x.acts then none else s.conn d
      down := x.crash.any (· ≠ .diverges) }

/-- The state between two steps of the main thread or of a worker. -/
structure WebServer where
  /-- The tables and the connections. -/
  base : Server
  /-- What epoll holds of the clients' descriptors. -/
  interest : ℤ → Option Interest
  /-- `ThreadPool::m_workQueue` -/
  workQueue : List Event
  /-- The handlers workers have taken and not called. -/
  running : List Event
  /-- The handlers that will never return. -/
  stuck : List Event

namespace WebServer

/-- A step of the system. -/
inductive Label where
  /-- `AcceptConn::process` accepts a connection under the descriptor `fd`. -/
  | accept (fd : ℤ)
  /-- `epoll_wait` reports `fd`, with or without `EPOLLIN` and `EPOLLOUT`. -/
  | report (fd : ℤ) (readable writable : Bool)
  /-- A worker takes the first event of the work queue. -/
  | take
  /-- The handler that has been taken for `fd` is called, and returns unless it never does. -/
  | process (fd : ℤ) (h : Handler)

/-- The state at the start: no client, and no handler made. -/
def init : WebServer := ⟨Server.init, fun _ => none, [], [], []⟩

/-- The handler `waitEpoll` makes for a report: `EPOLLIN` is looked at first, and a report of
neither makes none. -/
def dispatch (fd : ℤ) (readable writable : Bool) : List Event :=
  if readable then [⟨fd, .recv⟩] else if writable then [⟨fd, .send⟩] else []

/-- Behind a call for `fd`, which is no longer one of the running ones. The registration of its
descriptor is what its actions make of it, and a descriptor that is closed as that of a file is not
registered any more. -/
def after (s : WebServer) (fd : ℤ) (kind : Kind) (x : HandleSend.Call) : WebServer where
  base := s.base.behind fd x
  interest := fun d =>
    if d ∈ strays x.acts then none
    else if d = fd then register (s.interest fd) x.acts else s.interest d
  workQueue := s.workQueue
  running := s.running.erase ⟨fd, kind⟩
  stuck := if x.crash = some .diverges then ⟨fd, kind⟩ :: s.stuck else s.stuck

/-- One step. A report is there only for a descriptor that is armed, and is writable only where
output is waited for; a worker calls a handler that has been taken, with the tables as they are
then. -/
def step (s : WebServer) : Label → Option WebServer
  | .accept fd => (s.base.step (.accept fd)).map fun base =>
      { s with base, interest := Function.update s.interest fd (some ⟨true, false⟩) }
  | .report fd readable writable =>
    match s.interest fd with
    | some ⟨true, out⟩ =>
      if s.base.down = false ∧ (writable = true → out = true) then
        some { s with
          interest := Function.update s.interest fd (some ⟨false, false⟩)
          workQueue := s.workQueue ++ dispatch fd readable writable }
      else none
    | _ => none
  | .take =>
    match s.workQueue with
    | e :: rest =>
      if s.base.down = false then some { s with workQueue := rest, running := s.running ++ [e] }
      else none
    | [] => none
  | .process fd h =>
    if s.base.down = false ∧ ⟨fd, h.kind⟩ ∈ s.running then
      some (s.after fd h.kind (s.base.call fd h))
    else none

/-- A handler for `fd` is queued, taken by a worker, or never returns: somebody is still to come to
the descriptor, or is stuck with it. -/
def Handled (s : WebServer) (fd : ℤ) : Prop :=
  ∃ kind, (⟨fd, kind⟩ : Event) ∈ s.workQueue ++ s.running ++ s.stuck

end WebServer

/-- The server with its epoll. -/
def webServer : Machine WebServer WebServer.Label where
  start := WebServer.init
  step := WebServer.step

namespace Server

section Behind

variable (s : Server) (fd : ℤ) (x : HandleSend.Call)

theorem behind_requestStatus :
    (s.behind fd x).requestStatus = Function.update s.requestStatus fd x.request := by
  unfold behind
  split <;> rfl

theorem behind_responseStatus :
    (s.behind fd x).responseStatus = Function.update s.responseStatus fd x.response := by
  unfold behind
  split <;> rfl

theorem behind_down : (s.behind fd x).down = x.crash.any (· ≠ .diverges) := by
  unfold behind
  split <;> rfl

/-- The descriptors open behind a call: those open before, but for what the call has closed. -/
theorem behind_conn (d : ℤ) : (s.behind fd x).conn d =
    if d ∈ strays x.acts ∨ d = fd ∧ closes x.acts then none else s.conn d := by
  unfold behind
  cases hconn : s.conn fd with
  | some c => rfl
  | none =>
    by_cases hstray : d ∈ strays x.acts
    · simp [hstray]
    · by_cases hd : d = fd
      · subst hd
        simp [hstray, hconn]
      · simp [hstray, hd]

variable {s fd x}

/-- A connection that is open behind a call was open before it, and the call has not closed it. -/
theorem conn_of_behind {d : ℤ} {c : ℕ} (h : (s.behind fd x).conn d = some c) :
    s.conn d = some c ∧ d ∉ strays x.acts ∧ (d = fd → closes x.acts = false) := by
  rw [behind_conn] at h
  split_ifs at h with hgone
  exact ⟨h, fun hs => hgone (.inl hs),
    fun hd => Bool.eq_false_iff.mpr fun hc => hgone (.inr ⟨hd, hc⟩)⟩

end Behind

end Server

namespace WebServer

/-! ### What a step does -/

/-- An accept: `server` accepts as well, and the descriptor is registered for input. -/
theorem accept_eq_some {s t : WebServer} {fd : ℤ} :
    s.step (.accept fd) = some t ↔ ∃ base, s.base.step (.accept fd) = some base ∧
      t = { s with base, interest := Function.update s.interest fd (some ⟨true, false⟩) } := by
  rw [step, Option.map_eq_some_iff]
  exact exists_congr fun base => and_congr_right fun _ => eq_comm

/-- A report: the descriptor was armed, is disarmed, and the handler for it stands at the end of the
queue. -/
theorem report_eq_some {s t : WebServer} {fd : ℤ} {readable writable : Bool} :
    s.step (.report fd readable writable) = some t ↔ ∃ out, s.interest fd = some ⟨true, out⟩ ∧
      s.base.down = false ∧ (writable = true → out = true) ∧
      t = { s with
        interest := Function.update s.interest fd (some ⟨false, false⟩)
        workQueue := s.workQueue ++ dispatch fd readable writable } := by
  unfold step
  constructor
  · intro h
    simp only at h
    -- the match of `step` on what epoll holds of the descriptor
    split at h
    · next out hout =>
      rw [Option.ite_none_right_eq_some] at h
      exact ⟨out, hout, h.1.1, h.1.2, (Option.some.inj h.2).symm⟩
    · cases h
  · rintro ⟨out, hout, hdown, hwritable, rfl⟩
    simp only [hout]
    rw [if_pos ⟨hdown, hwritable⟩]

/-- A worker takes the event at the front of the queue. -/
theorem take_eq_some {s t : WebServer} :
    s.step .take = some t ↔ ∃ e rest, s.workQueue = e :: rest ∧ s.base.down = false ∧
      t = { s with workQueue := rest, running := s.running ++ [e] } := by
  unfold step
  constructor
  · intro h
    simp only at h
    split at h
    · next e rest hqueue =>
      rw [Option.ite_none_right_eq_some] at h
      exact ⟨e, rest, hqueue, h.1, (Option.some.inj h.2).symm⟩
    · cases h
  · rintro ⟨e, rest, hqueue, hdown, rfl⟩
    simp only [hqueue]
    rw [if_pos hdown]

/-- A call: the handler was one of the running ones. -/
theorem process_eq_some {s t : WebServer} {fd : ℤ} {h : Handler} :
    s.step (.process fd h) = some t ↔ (s.base.down = false ∧ ⟨fd, h.kind⟩ ∈ s.running) ∧
      t = s.after fd h.kind (s.base.call fd h) := by
  rw [step, Option.ite_none_right_eq_some, Option.some.injEq]
  exact and_congr_right fun _ => eq_comm

/-- What is made for a report is for its descriptor, and a `HandleSend` only if it is writable. -/
theorem mem_dispatch {e : Event} {fd : ℤ} {readable writable : Bool}
    (h : e ∈ dispatch fd readable writable) :
    e.fd = fd ∧ (e.kind = .send → writable = true) := by
  unfold dispatch at h
  split_ifs at h with hr hw
  · rw [List.mem_singleton.mp h]
    exact ⟨rfl, nofun⟩
  · rw [List.mem_singleton.mp h]
    exact ⟨rfl, fun _ => hw⟩
  · cases h

/-- A report of something goes to a handler. -/
theorem dispatch_handles (fd : ℤ) {readable writable : Bool}
    (h : readable = true ∨ writable = true) :
    ∃ kind, ⟨fd, kind⟩ ∈ dispatch fd readable writable := by
  unfold dispatch
  by_cases hr : readable = true
  · rw [if_pos hr]
    exact ⟨.recv, List.mem_singleton_self _⟩
  · rw [if_neg hr, if_pos (h.resolve_left hr)]
    exact ⟨.send, List.mem_singleton_self _⟩

/-! ### Handlers -/

/-- A report makes a handler and does away with none. -/
theorem Handled.report {s t : WebServer} {d fd : ℤ} {readable writable : Bool} (h : s.Handled d)
    (hstep : s.step (.report fd readable writable) = some t) : t.Handled d := by
  obtain ⟨out, -, -, -, rfl⟩ := report_eq_some.mp hstep
  obtain ⟨kind, hkind⟩ := h
  refine ⟨kind, ?_⟩
  simp only [List.mem_append] at hkind ⊢
  tauto

/-- Behind a report of something a handler has been made for its descriptor. -/
theorem handled_of_report {s t : WebServer} {fd : ℤ} {readable writable : Bool}
    (hready : readable = true ∨ writable = true)
    (hstep : s.step (.report fd readable writable) = some t) : t.Handled fd := by
  obtain ⟨out, -, -, -, rfl⟩ := report_eq_some.mp hstep
  obtain ⟨kind, hkind⟩ := dispatch_handles fd hready
  exact ⟨kind, by simp [hkind]⟩

/-- A handler that is taken moves from the queue to the workers. -/
theorem Handled.take {s t : WebServer} {d : ℤ} (hstep : s.step .take = some t) (h : s.Handled d) :
    t.Handled d := by
  obtain ⟨e, rest, hqueue, hdown, rfl⟩ := take_eq_some.mp hstep
  obtain ⟨kind, hkind⟩ := h
  refine ⟨kind, ?_⟩
  rw [hqueue] at hkind
  simp only [List.mem_append, List.mem_cons, List.not_mem_nil, or_false] at hkind ⊢
  tauto

/-- A call does away with no handler of another descriptor: it is its own that is no longer
running. -/
theorem Handled.after {s : WebServer} {d fd : ℤ} (h : s.Handled d) (hd : d ≠ fd) (kind : Kind)
    (x : HandleSend.Call) : (s.after fd kind x).Handled d := by
  obtain ⟨kind', hkind⟩ := h
  refine ⟨kind', ?_⟩
  simp only [List.mem_append] at hkind ⊢
  -- it is queued, running, or stuck as it was
  rcases hkind with (hkind | hkind) | hkind
  · exact .inl (.inl hkind)
  · refine .inl (.inr ((List.mem_erase_of_ne ?_).mpr hkind))
    -- the handler that is struck from the running ones is for `fd`
    rintro ⟨rfl, rfl⟩
    exact hd rfl
  · refine .inr ?_
    unfold WebServer.after
    simp only
    split
    · exact List.mem_cons_of_mem _ hkind
    · exact hkind

/-- A handler that never returns stays, as one of those that are stuck. -/
theorem handled_of_diverges {s : WebServer} {fd : ℤ} {kind : Kind} {x : HandleSend.Call}
    (h : x.crash = some .diverges) : (s.after fd kind x).Handled fd := by
  refine ⟨kind, List.mem_append_right _ ?_⟩
  unfold after
  simp only
  rw [h, if_pos rfl]
  exact List.mem_cons_self

/-! ### What holds in every run -/

/-- What holds of every descriptor, whatever connections have used it before and whatever calls have
left behind under it. -/
structure Watched (s : WebServer) : Prop where
  /-- The entries are as the handlers find them. -/
  fit : ∀ d, Fit (s.base.requestStatus d) (s.base.responseStatus d)
  /-- The open descriptors are registered. -/
  registered : ∀ d, (s.interest d).isSome = (s.base.conn d).isSome
  /-- Where output is waited for there is a response. -/
  waited : ∀ d armed, s.interest d = some ⟨armed, true⟩ → s.base.responseStatus d ≠ none
  /-- A `HandleSend` has been made for a response. -/
  made : ∀ d, ⟨d, .send⟩ ∈ s.workQueue ++ s.running → s.base.responseStatus d ≠ none

/-- At the start there is no entry, no descriptor and no handler. -/
theorem watched_init : Watched init where
  fit _ := ⟨nofun, nofun⟩
  registered _ := rfl
  waited := nofun
  made := nofun

/-- An accepted descriptor is registered for input, and its entries are what the last connection has
left. -/
theorem Watched.accept {s t : WebServer} (h : s.Watched) {fd : ℤ}
    (hstep : s.step (.accept fd) = some t) : t.Watched := by
  obtain ⟨base, hbase, rfl⟩ := accept_eq_some.mp hstep
  obtain ⟨-, rfl⟩ := Server.accept_eq_some.mp hbase
  refine ⟨h.fit, fun d => ?_, fun d armed hd => ?_, h.made⟩
  · by_cases hdf : d = fd
    · subst hdf
      simp
    · simpa [hdf] using h.registered d
  -- the new descriptor waits for input only
  · by_cases hdf : d = fd
    · subst hdf
      simp at hd
    · exact h.waited d armed ((Function.update_of_ne hdf _ _).symm.trans hd)

/-- A report disarms its descriptor and makes a `HandleSend` only where output was waited for, so
that there is a response. -/
theorem Watched.report {s t : WebServer} (h : s.Watched) {fd : ℤ} {readable writable : Bool}
    (hstep : s.step (.report fd readable writable) = some t) : t.Watched := by
  obtain ⟨out, hout, -, hwritable, rfl⟩ := report_eq_some.mp hstep
  refine ⟨h.fit, fun d => ?_, fun d armed hd => ?_, fun d hd => ?_⟩
  · by_cases hdf : d = fd
    · subst hdf
      simpa [hout] using h.registered d
    · simpa [hdf] using h.registered d
  · by_cases hdf : d = fd
    · subst hdf
      -- it is disarmed, and waits for nothing
      simp at hd
    · exact h.waited d armed ((Function.update_of_ne hdf _ _).symm.trans hd)
  · simp only [List.mem_append] at hd
    rcases hd with (hd | hd) | hd
    · exact h.made d (List.mem_append_left _ hd)
    · -- it is made for a descriptor that epoll has reported as writable
      obtain ⟨rfl, hkind⟩ := mem_dispatch hd
      rw [hwritable (hkind rfl)] at hout
      exact h.waited d true hout
    · exact h.made d (List.mem_append_right _ hd)

/-- A worker that takes a handler changes nothing of the tables and of what epoll holds. -/
theorem Watched.take {s t : WebServer} (h : s.Watched) (hstep : s.step .take = some t) :
    t.Watched := by
  obtain ⟨e, rest, hqueue, -, rfl⟩ := take_eq_some.mp hstep
  refine ⟨h.fit, h.registered, h.waited, fun d hd => h.made d ?_⟩
  -- the handlers queued and running are the same ones together
  rw [hqueue]
  simp only [List.mem_append, List.mem_cons, List.not_mem_nil, or_false] at hd ⊢
  tauto

/-- What a call does to the registration of its own descriptor, and to its entries, as the way out
it takes says. -/
theorem Watched.leaves {s : WebServer} (h : s.Watched) (fd : ℤ) (x : Handler) :
    x.Leaves (s.base.requestStatus fd) (s.base.responseStatus fd) (s.base.call fd x) :=
  Handler.call_leaves (h.fit fd) x

/-- The registration of a descriptor and the descriptor go together in a call: what is closed has
been taken out of epoll before. -/
theorem register_isSome {h : Handler} {request : Option Request} {response : Option Response}
    {x : HandleSend.Call} (hleaves : h.Leaves request response x) (o : Option Interest) :
    (register o x.acts).isSome = (o.isSome && !closes x.acts) := by
  cases hleaves with
  | waits crash opened kept registered => rw [registered, kept]; cases o <;> rfl
  | arms crash opened kept registered => rw [registered, kept]; cases o <;> rfl
  | settles crash opened kept registered => rw [registered, kept]; cases o <;> rfl
  -- the one way out on which the descriptor is taken out of epoll, and closed
  | closes crash opened removed closed registered =>
    rw [registered, show closes x.acts = true from List.contains_iff_mem.mpr closed]
    cases o <;> rfl
  | givesUp crash fails plain => rw [register_plain plain, closes_plain plain]; cases o <;> rfl
  | idles kind vacant call => rw [call]; cases o <;> rfl
  | crashes f crash plain => rw [register_plain plain, closes_plain plain]; cases o <;> rfl

/-- The registration of the descriptor a call is about is what the call makes of it. -/
theorem after_interest_self {s : WebServer} {fd : ℤ} (kind : Kind) {x : HandleSend.Call}
    (hstray : fd ∉ strays x.acts) :
    (s.after fd kind x).interest fd = register (s.interest fd) x.acts :=
  (if_neg hstray).trans (if_pos rfl)

/-- The registration of any other descriptor stays, unless the call closes it as that of a file. -/
theorem after_interest_of_ne {s : WebServer} {fd d : ℤ} (kind : Kind) {x : HandleSend.Call}
    (hstray : d ∉ strays x.acts) (hd : d ≠ fd) :
    (s.after fd kind x).interest d = s.interest d :=
  (if_neg hstray).trans (if_neg hd)

/-- A descriptor that is closed as that of a file is registered no longer: closing it takes it out
of epoll. -/
theorem after_interest_stray {s : WebServer} {fd d : ℤ} (kind : Kind) {x : HandleSend.Call}
    (hstray : d ∈ strays x.acts) : (s.after fd kind x).interest d = none := if_pos hstray

/-- Output is waited for behind a call only where there is a response: a handler that arms for
output has just placed one, or has one that is not complete. -/
theorem Watched.waits {s : WebServer} (h : s.Watched) {fd : ℤ} (x : Handler) {armed : Bool}
    (hd : register (s.interest fd) (s.base.call fd x).acts = some ⟨armed, true⟩) :
    (s.base.call fd x).response ≠ none := by
  -- where the call does not arm, output was waited for before, and the response is still there
  have hkeeps (hd : s.interest fd = some ⟨armed, true⟩) : (s.base.call fd x).response ≠ none :=
    Handler.call_held (h.fit fd) x (h.waited fd armed hd)
  have hleaves := h.leaves fd x
  generalize hcall : s.base.call fd x = c at hd hleaves hkeeps ⊢
  cases hleaves with
  -- it arms for input
  | waits crash opened kept registered =>
    rw [registered] at hd
    obtain ⟨-, -, hfalse⟩ := Option.map_eq_some_iff.mp hd
    cases hfalse
  | arms crash opened kept registered held => exact held
  | settles crash opened kept registered =>
    rw [registered] at hd
    obtain ⟨-, -, hfalse⟩ := Option.map_eq_some_iff.mp hd
    cases hfalse
  | closes crash opened removed closed registered =>
    rw [registered] at hd
    cases hd
  | givesUp crash fails plain =>
    rw [register_plain plain] at hd
    exact hkeeps hd
  | idles kind vacant call =>
    rw [call] at hd
    exact hkeeps hd
  | crashes f crash plain =>
    rw [register_plain plain] at hd
    exact hkeeps hd

/-- A call leaves the descriptors in order: its own as its way out says, one that it closes without
a registration, and the others as they were. -/
theorem Watched.process {s t : WebServer} (h : s.Watched) {fd : ℤ} {x : Handler}
    (hstep : s.step (.process fd x) = some t) : t.Watched := by
  obtain ⟨-, rfl⟩ := process_eq_some.mp hstep
  -- an entry of `responseStatus` is never taken away
  have hresponse (d : ℤ) (hd : s.base.responseStatus d ≠ none) :
      ((s.base.behind fd (s.base.call fd x)).responseStatus d) ≠ none := by
    rw [Server.behind_responseStatus]
    by_cases hdf : d = fd
    · subst hdf
      rw [Function.update_self]
      exact Handler.call_held (h.fit d) x hd
    · rwa [Function.update_of_ne hdf]
  -- the entries, the registration, what is waited for and what has been made; in each its own
  -- descriptor and the others
  refine ⟨fun d => ?_, fun d => ?_, fun d armed hd => ?_, fun d hd => hresponse d (h.made d ?_)⟩
  · change Fit ((s.base.behind _ _).requestStatus d) ((s.base.behind _ _).responseStatus d)
    rw [Server.behind_requestStatus, Server.behind_responseStatus]
    by_cases hdf : d = fd
    · subst hdf
      rw [Function.update_self, Function.update_self]
      exact (h.fit d).call x
    · rw [Function.update_of_ne hdf, Function.update_of_ne hdf]
      exact h.fit d
  · change _ = ((s.base.behind _ _).conn d).isSome
    rw [Server.behind_conn]
    -- a stray descriptor is closed, and so no longer registered
    by_cases hstray : d ∈ strays (s.base.call fd x).acts
    · rw [after_interest_stray _ hstray, if_pos (.inl hstray)]
      rfl
    · by_cases hdf : d = fd
      · subst hdf
        rw [after_interest_self _ hstray, register_isSome (h.leaves d x), h.registered d]
        cases closes (s.base.call d x).acts <;> simp [hstray]
      · rw [after_interest_of_ne _ hstray hdf, h.registered d, if_neg]
        rintro (hd | ⟨hd, -⟩)
        · exact hstray hd
        · exact hdf hd
  · by_cases hstray : d ∈ strays (s.base.call fd x).acts
    · cases (after_interest_stray _ hstray).symm.trans hd
    · by_cases hdf : d = fd
      · subst hdf
        change (s.base.behind _ _).responseStatus d ≠ none
        rw [Server.behind_responseStatus, Function.update_self]
        exact h.waits x ((after_interest_self _ hstray).symm.trans hd)
      · exact hresponse d (h.waited d armed ((after_interest_of_ne _ hstray hdf).symm.trans hd))
  · rcases List.mem_append.mp hd with hd | hd
    · exact List.mem_append_left _ hd
    · exact List.mem_append_right _ (List.mem_of_mem_erase hd)

/-- **What holds of the descriptors in every run**, with no condition on the calls. -/
theorem watched_of_reachable {G : WebServer → Label → Prop} {s : WebServer}
    (h : webServer.Reachable G s) : s.Watched := by
  refine h.invariant watched_init fun s l t _ hs _ hstep => ?_
  cases l with
  | accept fd => exact hs.accept hstep
  | report fd readable writable => exact hs.report hstep
  | take => exact hs.take hstep
  | process fd x => exact hs.process hstep

end WebServer

end Cherokee
