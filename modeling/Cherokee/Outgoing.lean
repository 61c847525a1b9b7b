import Cherokee.WebServer

/-!
# A response that is owed stays armed for output

`HandleRecv` arms the descriptor for output when it hands a resource over. A `HandleRecv` that is
called for the same connection before the response has been sent, and that receives until `EAGAIN`,
arms it without.

* `WebServer.Outgoing`: where a response is owed and no handler is at work, epoll waits for output.
* `WebServer.outgoing_of_reachable`: this holds in every run without such calls.
* `WebServer.unarmed`: two bytes behind a `GET` whose response has not been sent.
-/

namespace Cherokee

namespace Server

/-- Something is owed under a descriptor just if it is open and something is owed on its
connection. -/
theorem owed_eq_true {s : Server} {fd : ℤ} :
    s.owed fd = true ↔ ∃ c, s.conn fd = some c ∧ (ledger (s.log c)).owed = true := by
  unfold owed
  cases s.conn fd <;> simp

/-- What is owed behind an accept was owed before. -/
theorem owed_of_accept {s t : Server} (h : s.Numbered) {fd d : ℤ}
    (hstep : s.step (.accept fd) = some t) (hd : t.owed d = true) :
    d ≠ fd ∧ s.owed d = true := by
  obtain ⟨-, rfl⟩ := accept_eq_some.mp hstep
  obtain ⟨c, hc, howed⟩ := owed_eq_true.mp hd
  rcases conn_of_accept hc with ⟨-, rfl⟩ | ⟨hne, hconn⟩
  · -- the new connection has done nothing yet
    change (ledger (s.log s.accepted)).owed = true at howed
    rw [h.unused _ le_rfl] at howed
    cases howed
  · exact ⟨hne, owed_eq_true.mpr ⟨c, hconn, howed⟩⟩

/-- What is owed on another connection behind a call was owed before. -/
theorem owed_of_behind {s : Server} (h : s.Numbered) {fd d : ℤ} {x : HandleSend.Call} (hne : d ≠ fd)
    (hd : (s.behind fd x).owed d = true) : s.owed d = true := by
  obtain ⟨c, hc, howed⟩ := owed_eq_true.mp hd
  obtain ⟨hconn, -, -⟩ := conn_of_behind hc
  refine owed_eq_true.mpr ⟨c, hconn, ?_⟩
  unfold behind at howed
  cases hfd : s.conn fd with
  | none => simpa [hfd] using howed
  | some c' =>
    have hcc : c ≠ c' := by
      rintro rfl
      exact hne (h.apart d fd c hconn hfd)
    rw [hfd] at howed
    rwa [after_log_of_ne hcc] at howed

/-- What is owed on the connection of a call, by the account of its actions. -/
theorem owed_of_behind_self {s : Server} {fd : ℤ} {x : HandleSend.Call}
    (hd : (s.behind fd x).owed fd = true) :
    ∃ c, s.conn fd = some c ∧ (x.acts.foldl Ledger.enter (ledger (s.log c))).owed = true := by
  obtain ⟨c, hc, howed⟩ := owed_eq_true.mp hd
  obtain ⟨hconn, -, -⟩ := conn_of_behind hc
  refine ⟨c, hconn, ?_⟩
  unfold behind at howed
  rw [hconn] at howed
  rwa [after_log_self, ledger_append] at howed

/-- The connections keep their numbers behind a call, also one for a descriptor that is not open. -/
theorem Numbered.behind {s : Server} (h : s.Numbered) (fd : ℤ) (x : HandleSend.Call) :
    (s.behind fd x).Numbered := by
  unfold Server.behind
  cases hfd : s.conn fd with
  | some c => exact h.after hfd x
  | none =>
    have hconn {d : ℤ} {c : ℕ} (hd : (if d ∈ strays x.acts then none else s.conn d) = some c) :
        s.conn d = some c := by
      split_ifs at hd
      exact hd
    exact ⟨fun d c hd => h.below d c (hconn hd), h.unused,
      fun d d' c hd hd' => h.apart d d' c (hconn hd) (hconn hd')⟩

end Server

namespace WebServer

/-- A response is held for a resource that has been handed over on the connection under `fd`, and it
has not been sent completely. -/
def Pending (s : WebServer) (fd : ℤ) : Prop :=
  s.base.owed fd = true ∧ s.base.responseStatus fd ≠ none

/-- Where a response is pending and no handler is queued or running epoll waits for output. -/
def Outgoing (s : WebServer) : Prop :=
  s.base.down = false → ∀ fd, s.Pending fd → ¬ s.Handled fd →
    ∃ armed, s.interest fd = some ⟨armed, true⟩

/-- A `HandleRecv` that is called while a response is owed does not receive until `EAGAIN` and wait,
and every upload file it comes to opens; and epoll reports descriptors that are readable or
writable. -/
def Unhurried (s : WebServer) : Label → Prop
  | .report _ readable writable => readable = true ∨ writable = true
  | .process fd x => s.base.owed fd = true →
      x.opens (s.base.requestStatus fd) = true ∧ x.drains (s.base.requestStatus fd) = false
  | _ => True

instance (s : WebServer) : (l : Label) → Decidable (s.Unhurried l)
  | .accept _ => .isTrue trivial
  | .take => .isTrue trivial
  | .report _ readable writable => inferInstanceAs (Decidable (readable = true ∨ writable = true))
  | .process fd x => inferInstanceAs (Decidable (s.base.owed fd = true →
      x.opens (s.base.requestStatus fd) = true ∧ x.drains (s.base.requestStatus fd) = false))

/-- In every run the connections are numbered in the order in which they are accepted. -/
theorem numbered_of_reachable {G : WebServer → Label → Prop} {s : WebServer}
    (h : webServer.Reachable G s) : s.base.Numbered := by
  refine h.invariant (I := fun s => s.base.Numbered) Server.numbered_init
    fun s l t _ hs _ hstep => ?_
  cases l with
  | accept fd =>
    obtain ⟨base, hbase, rfl⟩ := accept_eq_some.mp hstep
    exact hs.accept hbase
  | report fd readable writable =>
    obtain ⟨out, -, -, -, rfl⟩ := report_eq_some.mp hstep
    exact hs
  | take =>
    obtain ⟨e, rest, -, -, rfl⟩ := take_eq_some.mp hstep
    exact hs
  | process fd x =>
    obtain ⟨-, rfl⟩ := process_eq_some.mp hstep
    exact hs.behind fd _

/-- At the start nothing is owed to anybody. -/
theorem outgoing_init : Outgoing init := by
  intro _ fd hpending
  obtain ⟨c, hc, -⟩ := Server.owed_eq_true.mp hpending.1
  cases hc

/-- An accept leaves alone what is owed to others, and to the new connection nothing is. -/
theorem Outgoing.accept {s t : WebServer} (h : s.Outgoing) (hn : s.base.Numbered) {fd : ℤ}
    (hstep : s.step (.accept fd) = some t) : t.Outgoing := by
  obtain ⟨base, hbase, rfl⟩ := accept_eq_some.mp hstep
  intro _ d hpending hfree
  obtain ⟨hdf, howed⟩ := Server.owed_of_accept hn hbase hpending.1
  obtain ⟨⟨hdown, -⟩, rfl⟩ := Server.accept_eq_some.mp hbase
  obtain ⟨armed, hout⟩ := h hdown d ⟨howed, hpending.2⟩ hfree
  exact ⟨armed, (Function.update_of_ne hdf _ _).trans hout⟩

/-- A report makes a handler for its descriptor, and so leaves nothing to be waited for. -/
theorem Outgoing.report {s t : WebServer} (h : s.Outgoing) {fd : ℤ} {readable writable : Bool}
    (hready : readable = true ∨ writable = true)
    (hstep : s.step (.report fd readable writable) = some t) : t.Outgoing := by
  intro _ d hpending hfree
  have hdf : d ≠ fd := by
    rintro rfl
    exact hfree (handled_of_report hready hstep)
  have hbefore : ¬ s.Handled d := fun hd => hfree (hd.report hstep)
  obtain ⟨out, -, hdown, -, rfl⟩ := report_eq_some.mp hstep
  obtain ⟨armed, hout⟩ := h hdown d hpending hbefore
  exact ⟨armed, (Function.update_of_ne hdf _ _).trans hout⟩

/-- A worker that takes a handler takes nothing away from what is waited for. -/
theorem Outgoing.take {s t : WebServer} (h : s.Outgoing) (hstep : s.step .take = some t) :
    t.Outgoing := by
  intro _ d hpending hfree
  have hbefore : ¬ s.Handled d := fun hd => hfree (hd.take hstep)
  obtain ⟨e, rest, -, hdown, rfl⟩ := take_eq_some.mp hstep
  exact h hdown d hpending hbefore

/-- A call that leaves a response pending has armed its descriptor for output, where it does not
hurry. -/
theorem Outgoing.process {s t : WebServer} (h : s.Outgoing) (hw : s.Watched) (hn : s.base.Numbered)
    {fd : ℤ} {x : Handler} (hl : s.Unhurried (.process fd x))
    (hstep : s.step (.process fd x) = some t) : t.Outgoing := by
  obtain ⟨⟨hdown, hrunning⟩, rfl⟩ := process_eq_some.mp hstep
  intro hdown' d hpending hfree
  have hcrash : (s.base.call fd x).crash.any (· ≠ .diverges) = false :=
    (Server.behind_down s.base fd _).symm.trans hdown'
  obtain ⟨c, hc, -⟩ := Server.owed_eq_true.mp hpending.1
  obtain ⟨-, hstray, hkept⟩ := Server.conn_of_behind hc
  by_cases hdf : d = fd
  · subst hdf
    obtain ⟨c', hconn, howed⟩ := Server.owed_of_behind_self hpending.1
    -- what is owed behind a call that leaves the account alone was owed before
    have hbefore (hsame : ∀ l, (s.base.call d x).acts.foldl Ledger.enter l = l) :
        s.base.owed d = true := by
      rw [hsame] at howed
      exact Server.owed_eq_true.mpr ⟨c', hconn, howed⟩
    -- on each way out either nothing is pending, or the descriptor is armed for output
    have hleaves := hw.leaves d x
    cases hleaves with
    -- it has received until `EAGAIN` with a response owed, which the condition excludes
    | waits crash opened kept registered account drained =>
      cases (hl (hbefore account)).2.symm.trans drained
    | arms crash opened kept registered =>
      -- the call registers the descriptor for writing
      obtain ⟨i, hi⟩ := Option.isSome_iff_exists.mp
        ((hw.registered d).trans (Option.isSome_iff_exists.mpr ⟨c', hconn⟩))
      refine ⟨true, ?_⟩
      rw [after_interest_self _ hstray, registered, hi]
      rfl
    -- the response has been sent
    | settles crash opened kept registered account => cases howed.symm.trans (account _)
    | closes crash opened removed closed =>
      exact absurd (List.contains_iff_mem.mpr closed) (Bool.eq_false_iff.mp (hkept rfl))
    | givesUp crash fails plain account => cases (hl (hbefore account)).1.symm.trans fails
    | idles kind vacant call =>
      rw [kind] at hrunning
      exact absurd vacant (hw.made d (List.mem_append_right _ hrunning))
    -- it never returns, and so is a handler that is still at work
    | crashes f crash =>
      rw [crash] at hcrash
      have hf : f = .diverges := by simpa using hcrash
      exact absurd (handled_of_diverges (crash.trans (congrArg some hf))) hfree
  · -- a call for another descriptor leaves this one as it was
    have howed := Server.owed_of_behind hn hdf hpending.1
    have hheld : s.base.responseStatus d ≠ none := by
      have hresponse := hpending.2
      change (s.base.behind fd (s.base.call fd x)).responseStatus d ≠ none at hresponse
      rwa [Server.behind_responseStatus, Function.update_of_ne hdf] at hresponse
    obtain ⟨armed, hout⟩ := h hdown d ⟨howed, hheld⟩ fun hd => hfree (hd.after hdf x.kind _)
    exact ⟨armed, (after_interest_of_ne _ hstray hdf).trans hout⟩

/-- **A pending response stays armed for output**, in every run in which no `HandleRecv` waits for
more, or gives up on an upload file, while a response is owed. -/
theorem outgoing_of_reachable {s : WebServer} (h : webServer.Reachable Unhurried s) :
    s.Outgoing := by
  refine h.invariant outgoing_init fun s l t hs hout hl hstep => ?_
  cases l with
  | accept fd => exact hout.accept (numbered_of_reachable hs) hstep
  | report fd readable writable => exact hout.report hl hstep
  | take => exact hout.take hstep
  | process fd x =>
    exact hout.process (watched_of_reachable hs) (numbered_of_reachable hs) hl hstep

/-- A `GET` in one result of `recv`. -/
def getRequest : Handler :=
  .recv [.data (lit "GET / HTTP/1.1\r\n\r\n") true] HandleSend.sampleWorld.fresh

/-- The request is received, and its response waits for the socket to be writable. -/
def asked : List Label := [.accept 5, .report 5 true false, .take, .process 5 getRequest]

theorem outgoing_of_reachable_sample :
    ∃ s, webServer.run webServer.start asked = some s ∧ s.Outgoing ∧ s.base.owed 5 = true ∧
      s.interest 5 = some ⟨true, true⟩ := by
  obtain ⟨s, hs⟩ := Option.isSome_iff_exists.mp
    (show (webServer.run webServer.start asked).isSome by decide +kernel)
  have hstate : (webServer.run webServer.start asked).map (fun s => (s.base.owed 5, s.interest 5)) =
      some (true, some ⟨true, true⟩) := by
    decide +kernel
  rw [hs] at hstate
  simp only [Option.map_some, Option.some.injEq, Prod.mk.injEq] at hstate
  have hunhurried : webServer.Reachable Unhurried s := Machine.reachable_of_run .start hs (by
    decide +kernel)
  exact ⟨s, hs, outgoing_of_reachable hunhurried, hstate⟩

/-- The first bytes of the next request arrive before the response has been sent: epoll reports
both, and `waitEpoll` looks at `EPOLLIN` first. -/
def hurried : List Label :=
  asked ++ [.report 5 true true, .take, .process 5 (.recv [.data (lit "GE") true, .again]
    HandleSend.sampleWorld.fresh)]

/-- **The response is held and nothing waits for output.** -/
theorem unarmed : ¬ ∀ s, webServer.Reachable Machine.anyStep s → s.Outgoing := by
  intro h
  obtain ⟨s, hs⟩ := Option.isSome_iff_exists.mp
    (show (webServer.run webServer.start hurried).isSome by decide +kernel)
  -- the response is held, input alone is waited for, and no handler is left
  have hstate : (webServer.run webServer.start hurried).map
      (fun s => (s.base.down, s.base.owed 5, (s.base.responseStatus 5).isSome, s.interest 5,
        s.workQueue ++ s.running ++ s.stuck)) =
          some (false, true, true, some ⟨true, false⟩, []) := by
    decide +kernel
  rw [hs] at hstate
  simp only [Option.map_some, Option.some.injEq, Prod.mk.injEq] at hstate
  obtain ⟨hdown, howed, hheld, hinterest, hevents⟩ := hstate
  have hfree : ¬ s.Handled 5 := by
    rintro ⟨kind, hkind⟩
    rw [hevents] at hkind
    cases hkind
  have hreachable := Machine.reachable_of_run .start hs (Machine.along_anyStep _ _)
  obtain ⟨armed, hout⟩ := h s hreachable hdown 5
    ⟨howed, Option.isSome_iff_ne_none.mp hheld⟩ hfree
  cases hinterest.symm.trans hout

end WebServer

end Cherokee
