import Cherokee.Lib.Simulation
import Cherokee.WebServer
import Mathlib.Data.List.Nodup

/-!
# One handler at a time

`server` calls a handler for a connection whenever it likes. In `webServer` a call comes about by a
report of epoll, through the work queue and a worker, and any number of handlers may be queued or
with workers. A call is one step of `webServer`, up to its return. Since a descriptor is registered
one-shot, and armed again only in such a step, no two of the handlers that are still to be called
are for one descriptor, and none is for a descriptor that has been closed meanwhile.

What a handler does behind its own `modifyWaitFd`, when epoll may report the descriptor again, is
not seen at this grain: see `ArmedCrew.Sole` for the handlers step by step, and `MainLoop.OneEach`
for calls that have done what they do and have not returned.

* `WebServer.OneShot`: the descriptors of the handlers, in every run in which no call closes a
  connection as a file.
* `WebServer.projects`: such a run of `webServer` is, without its reports and its queue, a run of
  `server`.
-/

namespace Cherokee

namespace WebServer

/-- What `server` sees of a step. -/
def Label.shown : Label → Option Cherokee.Label
  | .accept fd => some (.accept fd)
  | .process fd h => some (.call fd h)
  | .report _ _ _ => none
  | .take => none

/-- A call closes no descriptor of a connection as that of a file. The `close` behind an erased
response might, as its entry names a descriptor by chance. -/
def NoStray (s : WebServer) : Label → Prop
  | .process fd h => s.base.NoStray (.call fd h)
  | _ => True

instance (s : WebServer) : (l : Label) → Decidable (s.NoStray l)
  | .process fd h => inferInstanceAs (Decidable (s.base.NoStray (.call fd h)))
  | .accept _ => .isTrue trivial
  | .report _ _ _ => .isTrue trivial
  | .take => .isTrue trivial

/-- The handlers that have been made and have not been called, and those that never return. Each of
them keeps its descriptor from being reported. -/
def handlers (s : WebServer) : List Event := s.workQueue ++ s.running ++ s.stuck

/-- The descriptors of the handlers. Together the first two fields carry each other: a report makes
a handler only for an armed descriptor, and a handler's descriptor is armed by the call that ends
it. -/
structure OneShot (s : WebServer) : Prop where
  /-- No two handlers are for one descriptor. -/
  single : (s.handlers.map Event.fd).Nodup
  /-- The descriptor of a handler is registered, and epoll does not report it. -/
  disarmed : ∀ e ∈ s.handlers, s.interest e.fd = some ⟨false, false⟩
  /-- A handler that does not return from a connection is still there. -/
  lost : ∀ fd c, s.base.conn fd = some c → s.base.stuck c = true → ∃ kind, ⟨fd, kind⟩ ∈ s.stuck
  /-- Only a connection that has been accepted has such a handler. -/
  given : ∀ c, s.base.stuck c = true → c < s.base.accepted

/-- At the start there is no handler. -/
theorem oneShot_init : OneShot init where
  single := List.nodup_nil
  disarmed e he := by cases he
  lost fd c hc := by cases hc
  given c hc := by cases hc

/-! ### Accepts, reports and workers -/

/-- An accepted descriptor was not open, so it was registered for no handler. -/
theorem OneShot.accept {s t : WebServer} (h : s.OneShot) (hw : s.Watched) {fd : ℤ}
    (hstep : s.step (.accept fd) = some t) : t.OneShot := by
  obtain ⟨base, hbase, rfl⟩ := accept_eq_some.mp hstep
  obtain ⟨⟨-, hnone⟩, rfl⟩ := Server.accept_eq_some.mp hbase
  refine ⟨h.single, fun e he => ?_, fun d c hd hc => ?_, fun c hc =>
    (h.given c hc).trans (Nat.lt_succ_self _)⟩
  · -- the descriptor was free, so that no handler is for it
    have hfd : e.fd ≠ fd := by
      rintro rfl
      have hopen := hw.registered e.fd
      rw [hnone, h.disarmed e he] at hopen
      cases hopen
    exact (Function.update_of_ne hfd _ _).trans (h.disarmed e he)
  · rcases Server.conn_of_accept hd with ⟨-, rfl⟩ | ⟨-, hd⟩
    · exact absurd (h.given _ hc) (Nat.lt_irrefl _)
    · exact h.lost d c hd hc

/-- A report makes at most one handler, of its own descriptor: what is readable is not written to
before it has been read. -/
theorem dispatch_eq (fd : ℤ) (readable writable : Bool) :
    dispatch fd readable writable = [] ∨ ∃ kind, dispatch fd readable writable = [⟨fd, kind⟩] := by
  unfold dispatch
  split_ifs
  · exact .inr ⟨.recv, rfl⟩
  · exact .inr ⟨.send, rfl⟩
  · exact .inl rfl

/-- A descriptor that is reported is armed, so no handler is for it, and the report disarms it for
the one that is made. -/
theorem OneShot.report {s t : WebServer} (h : s.OneShot) {fd : ℤ} {readable writable : Bool}
    (hstep : s.step (.report fd readable writable) = some t) : t.OneShot := by
  obtain ⟨out, harmed, -, -, rfl⟩ := report_eq_some.mp hstep
  -- the descriptor was armed, so that no handler is for it
  have hfree (e : Event) (he : e ∈ s.handlers) : e.fd ≠ fd := by
    rintro rfl
    cases harmed.symm.trans (h.disarmed e he)
  have hkept (e : Event) (he : e ∈ s.handlers) :
      Function.update s.interest fd (some ⟨false, false⟩) e.fd = some ⟨false, false⟩ :=
    (Function.update_of_ne (hfree e he) _ _).trans (h.disarmed e he)
  -- a report of nothing makes no handler, and the descriptor is silent from then on
  rcases dispatch_eq fd readable writable with hnil | ⟨kind, hone⟩
  · rw [hnil, List.append_nil]
    exact ⟨h.single, hkept, h.lost, h.given⟩
  · rw [hone]
    -- the new handler stands in the middle of the list, which makes no difference to it
    have hperm : (s.workQueue ++ [(⟨fd, kind⟩ : Event)] ++ s.running ++ s.stuck).Perm
      (⟨fd, kind⟩ :: s.handlers) := by
      rw [List.append_assoc, List.append_assoc]
      refine List.perm_middle.trans (List.Perm.cons _ ?_)
      rw [handlers, List.append_assoc]
      exact .refl _
    refine ⟨?_, fun e he => ?_, h.lost, h.given⟩
    · refine (hperm.map Event.fd).nodup_iff.mpr (List.nodup_cons.mpr ⟨fun hmem => ?_, h.single⟩)
      obtain ⟨e, he, hfd⟩ := List.mem_map.mp hmem
      exact hfree e he hfd
    · rcases List.mem_cons.mp (hperm.mem_iff.mp he) with rfl | he
      · exact Function.update_self _ _ _
      · exact hkept e he

/-- A handler that is taken moves from the queue to the workers, and its descriptor stays as it
is. -/
theorem OneShot.take {s t : WebServer} (h : s.OneShot) (hstep : s.step .take = some t) :
    t.OneShot := by
  obtain ⟨e, rest, hqueue, -, rfl⟩ := take_eq_some.mp hstep
  -- the same handlers in another order
  have hperm : (rest ++ (s.running ++ [e]) ++ s.stuck).Perm s.handlers := by
    rw [handlers, hqueue]
    refine List.Perm.append_right _ ?_
    rw [← List.append_assoc]
    exact List.perm_append_singleton e _
  exact ⟨(hperm.map Event.fd).nodup_iff.mpr h.single, fun e' he' =>
    h.disarmed e' (hperm.mem_iff.mp he'), h.lost, h.given⟩

/-! ### Calls -/

section Process

variable {s : WebServer} {fd : ℤ} {x : Handler}

/-- **A handler that has been taken finds its connection**, open as it was when epoll reported it,
and no other one is at work for it. -/
theorem OneShot.ready (h : s.OneShot) (hw : s.Watched) (hdown : s.base.down = false)
    (hrunning : ⟨fd, x.kind⟩ ∈ s.running) : ∃ c, s.base.ready fd = some c := by
  have hmem : ⟨fd, x.kind⟩ ∈ s.handlers := List.mem_append_left _ (List.mem_append_right _ hrunning)
  have hopen := hw.registered fd
  rw [h.disarmed _ hmem] at hopen
  obtain ⟨c, hc⟩ := Option.isSome_iff_exists.mp hopen.symm
  refine ⟨c, Server.ready_eq_some.mpr ⟨hdown, hc, Bool.eq_false_iff.mpr fun hstuck => ?_⟩⟩
  obtain ⟨kind, hkind⟩ := h.lost fd c hc hstuck
  -- it would be for the descriptor of the handler that does not return
  have hnodup := h.single
  rw [handlers, List.map_append, List.nodup_append] at hnodup
  exact hnodup.2.2 fd (List.mem_map_of_mem (List.mem_append_right _ hrunning)) fd
    (List.mem_map_of_mem hkind) rfl

/-- Where the connection is open, the state behind a call is the one `server` has behind it. -/
theorem behind_eq_after {b : Server} {c : ℕ} (hc : b.conn fd = some c) (y : HandleSend.Call) :
    b.behind fd y = b.after fd c y := by
  rw [Server.behind, hc]

/-- A call keeps no other connection from returning: if it diverges itself, it is its own connection
that is stuck. -/
theorem stuck_after_of_ne {b : Server} {c c' : ℕ} (hc : c' ≠ c) (y : HandleSend.Call) :
    (b.after fd c y).stuck c' = b.stuck c' := by
  unfold Server.after
  simp only
  split
  · exact Function.update_of_ne hc _ _
  · rfl

/-- A handler with a worker, and the others: they are all the handlers, in some order. -/
theorem handlers_perm {e : Event} (hrunning : e ∈ s.running) :
    (e :: (s.workQueue ++ s.running.erase e ++ s.stuck)).Perm s.handlers := by
  have hmiddle :
    (e :: (s.workQueue ++ s.running.erase e)).Perm (s.workQueue ++ e :: s.running.erase e) :=
    List.perm_middle.symm
  exact (hmiddle.append_right _).trans
    (((List.perm_cons_erase hrunning).symm.append_left _).append_right _)

/-- The handlers behind a call that never returns are those before it, as it is still one of
them. -/
theorem handlers_diverges {e : Event} {y : HandleSend.Call} (hrunning : e ∈ s.running)
    (hcrash : y.crash = some .diverges) : (s.after e.fd e.kind y).handlers.Perm s.handlers := by
  refine List.Perm.trans ?_ (handlers_perm hrunning)
  unfold handlers after
  simp only
  rw [if_pos hcrash]
  exact List.perm_middle

/-- The handlers behind a call that returns are the others. -/
theorem handlers_returns {e : Event} {y : HandleSend.Call} (hrunning : e ∈ s.running)
    (hcrash : y.crash ≠ some .diverges) :
    (e :: (s.after e.fd e.kind y).handlers).Perm s.handlers := by
  refine List.Perm.trans (.cons e ?_) (handlers_perm hrunning)
  unfold handlers after
  simp only
  rw [if_neg hcrash]

/-- A handler that does not return leaves the registration alone: it has not come to its
`modifyWaitFd`. -/
theorem register_diverges {request : Option Request} {response : Option Response}
    {y : HandleSend.Call} (hleaves : x.Leaves request response y)
    (hcrash : y.crash = some .diverges)
    (o : Option Interest) : register o y.acts = o := by
  cases hleaves with
  | waits crash => cases crash.symm.trans hcrash
  | arms crash => cases crash.symm.trans hcrash
  | settles crash => cases crash.symm.trans hcrash
  | closes crash => cases crash.symm.trans hcrash
  | givesUp crash => cases crash.symm.trans hcrash
  | idles kind vacant call =>
    rw [call] at hcrash
    cases hcrash
  | crashes f crash plain => exact register_plain plain o

/-- A call either is still one of the handlers, with its descriptor as it was, or has returned and
is none of them, and then it is of no matter whether it has armed its descriptor. It closes no
connection of another handler. -/
theorem OneShot.process {t : WebServer} (h : s.OneShot) (hw : s.Watched) (hn : s.base.Numbered)
    (hstray : s.NoStray (.process fd x)) (hstep : s.step (.process fd x) = some t) : t.OneShot := by
  obtain ⟨⟨hdown, hrunning⟩, rfl⟩ := process_eq_some.mp hstep
  obtain ⟨c, hready⟩ := h.ready hw hdown hrunning
  obtain ⟨-, hfd, hawake⟩ := Server.ready_eq_some.mp hready
  have hmem : ⟨fd, x.kind⟩ ∈ s.handlers := List.mem_append_left _ (List.mem_append_right _ hrunning)
  have hleaves := hw.leaves fd x
  change ∀ d ∈ strays (s.base.call fd x).acts, s.base.conn d = none at hstray
  generalize s.base.call fd x = y at hstray hleaves
  -- the descriptors of the other handlers are left as they were
  have hothers (e : Event) (he : e ∈ s.handlers) (hne : e.fd ≠ fd) :
      (s.after fd x.kind y).interest e.fd = some ⟨false, false⟩ := by
    have hopen := hw.registered e.fd
    rw [h.disarmed e he] at hopen
    refine (after_interest_of_ne _ (fun hs => ?_) hne).trans (h.disarmed e he)
    rw [hstray _ hs] at hopen
    cases hopen
  have hbase : (s.after fd x.kind y).base = s.base.after fd c y := behind_eq_after hfd y
  -- a call that never returns is still one of the handlers, and its connection is stuck
  by_cases hcrash : y.crash = some .diverges
  · have hperm := handlers_diverges (y := y) hrunning hcrash
    refine ⟨(hperm.map Event.fd).nodup_iff.mpr h.single, fun e he => ?_, fun d c' hd hc' => ?_,
      fun c' hc' => ?_⟩
    -- its own descriptor has not been armed, and those of the others are untouched
    · by_cases hne : e.fd = fd
      · have hnot : fd ∉ strays y.acts := fun hs => by cases (hstray fd hs).symm.trans hfd
        rw [hne, after_interest_self _ hnot, register_diverges hleaves hcrash]
        exact h.disarmed _ hmem
      · exact hothers e (hperm.mem_iff.mp he) hne
    · rw [hbase] at hd hc'
      have hbefore := (Server.conn_of_after hd).1
      have hstuck : (s.after fd x.kind y).stuck = ⟨fd, x.kind⟩ :: s.stuck := if_pos hcrash
      rw [hstuck]
      -- the connection that is stuck now has the handler of this call, the ones before had theirs
      by_cases hc : c' = c
      · subst hc
        obtain rfl := hn.apart d fd c' hbefore hfd
        exact ⟨x.kind, List.mem_cons_self⟩
      · obtain ⟨kind, hkind⟩ := h.lost d c' hbefore ((stuck_after_of_ne hc y).symm.trans hc')
        exact ⟨kind, List.mem_cons_of_mem _ hkind⟩
    · rw [hbase] at hc' ⊢
      by_cases hc : c' = c
      · exact hc ▸ hn.below fd c hfd
      · exact h.given c' ((stuck_after_of_ne hc y).symm.trans hc')
  -- a call that returns is none of the handlers any more, and no other is for its descriptor
  · have hperm := handlers_returns (y := y) hrunning hcrash
    obtain ⟨hnot, hnodup⟩ := List.nodup_cons.mp ((hperm.map Event.fd).nodup_iff.mpr h.single)
    have hstuck : (s.base.after fd c y).stuck = s.base.stuck := if_neg hcrash
    refine ⟨hnodup, fun e he => ?_, fun d c' hd hc' => ?_, fun c' hc' => ?_⟩
    · refine hothers e (hperm.mem_iff.mp (List.mem_cons_of_mem _ he)) fun hne => hnot ?_
      exact List.mem_map.mpr ⟨e, he, hne⟩
    · rw [hbase] at hd hc'
      rw [hstuck] at hc'
      have hsame : (s.after fd x.kind y).stuck = s.stuck := if_neg hcrash
      rw [hsame]
      exact h.lost d c' (Server.conn_of_after hd).1 hc'
    · rw [hbase] at hc' ⊢
      rw [hstuck] at hc'
      exact h.given c' hc'

end Process

/-! ### The runs -/

/-- What is kept in the runs of `webServer` in which no call closes a connection as a file: the
three invariants need each other. -/
structure Kept (s : WebServer) : Prop where
  watched : s.Watched
  numbered : s.base.Numbered
  oneShot : s.OneShot

theorem kept_init : Kept init := ⟨watched_init, Server.numbered_init, oneShot_init⟩

/-- A step keeps the three of them. -/
theorem Kept.step {s t : WebServer} {l : Label} (h : s.Kept) (hstray : s.NoStray l)
    (hstep : s.step l = some t) : t.Kept := by
  cases l with
  | accept fd =>
    obtain ⟨base, hbase, rfl⟩ := accept_eq_some.mp hstep
    exact ⟨h.watched.accept hstep, h.numbered.accept hbase, h.oneShot.accept h.watched hstep⟩
  | report fd readable writable =>
    have hsame := hstep
    obtain ⟨out, -, -, -, rfl⟩ := report_eq_some.mp hsame
    exact ⟨h.watched.report hstep, h.numbered, h.oneShot.report hstep⟩
  | take =>
    have hsame := hstep
    obtain ⟨e, rest, -, -, rfl⟩ := take_eq_some.mp hsame
    exact ⟨h.watched.take hstep, h.numbered, h.oneShot.take hstep⟩
  -- the handler finds its connection, so that what is behind the call is what `server` has behind
  -- it
  | process fd x =>
    refine ⟨h.watched.process hstep, ?_, h.oneShot.process h.watched h.numbered hstray hstep⟩
    obtain ⟨⟨hdown, hrunning⟩, rfl⟩ := process_eq_some.mp hstep
    obtain ⟨c, hready⟩ := h.oneShot.ready h.watched hdown hrunning
    obtain ⟨-, hfd, -⟩ := Server.ready_eq_some.mp hready
    change (s.base.behind fd (s.base.call fd x)).Numbered
    rw [behind_eq_after hfd]
    exact h.numbered.after hfd _

/-- **A run of `webServer` is a run of `server`**: the handlers that are called are called for
connections that are open. -/
theorem projects :
    webServer.Projects server NoStray Server.NoStray Kept WebServer.base Label.shown where
  start := kept_init
  start_view := rfl
  kept s l t h hstray hstep := h.step hstray hstep
  -- a report and a worker that takes an event touch no table and no connection
  hidden s l t h hstray hstep hl := by
    cases l with
    | accept fd => cases hl
    | report fd readable writable =>
      obtain ⟨out, -, -, -, rfl⟩ := report_eq_some.mp hstep
      rfl
    | take =>
      obtain ⟨e, rest, -, -, rfl⟩ := take_eq_some.mp hstep
      rfl
    | process fd x => cases hl
  step s l t m h hstray hstep hl := by
    cases l with
    | accept fd =>
      cases hl
      obtain ⟨base, hbase, rfl⟩ := accept_eq_some.mp hstep
      exact ⟨trivial, hbase⟩
    | report fd readable writable => cases hl
    | take => cases hl
    -- the connection is open and not stuck, which is what `server` asks of a call
    | process fd x =>
      cases hl
      obtain ⟨⟨hdown, hrunning⟩, rfl⟩ := process_eq_some.mp hstep
      obtain ⟨c, hready⟩ := h.oneShot.ready h.watched hdown hrunning
      obtain ⟨-, hfd, -⟩ := Server.ready_eq_some.mp hready
      exact ⟨hstray, Server.call_eq_some.mpr ⟨c, hready, behind_eq_after hfd _⟩⟩

/-- A client asks for the list, in one result of `recv`. -/
def asksList : Handler :=
  .recv [.data (lit "GET / HTTP/1.1\r\n\r\n") true] HandleSend.sampleWorld.fresh

end WebServer

end Cherokee
