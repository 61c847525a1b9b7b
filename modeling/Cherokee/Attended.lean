import Cherokee.WebServer

/-!
# No connection is left behind

epoll reports a client's descriptor once. Whatever handler it is reported to has to arm it again or
close it, or nothing will ever be heard of the connection.

* `WebServer.Attended`: every open descriptor is armed, or a handler has been made for it.
* `WebServer.attended_of_reachable`: this holds where every upload file opens, and a call that
  returns attends to its descriptor exactly then.
* `WebServer.orphan`: the connection of an upload whose file does not open.
-/

namespace Cherokee

/-- The call arms its descriptor again, or takes it out of epoll and closes it. Of every other call
nothing is ever heard again, unless another handler comes to the descriptor. -/
def Attends (acts : List Action) : Prop :=
  (∃ edgeTrigger resetOneshot addEpollout,
    .modifyWaitFd edgeTrigger resetOneshot addEpollout ∈ acts) ∨
  .deleteWaitFd ∈ acts ∧ .closeClient ∈ acts

namespace WebServer

/-- Every open descriptor is armed, or a handler for it is queued or has been taken by a worker. -/
def Attended (s : WebServer) : Prop :=
  s.base.down = false → ∀ fd, s.base.conn fd ≠ none →
    (∃ out, s.interest fd = some ⟨true, out⟩) ∨ s.Handled fd

/-- Every upload file a call tries to open opens, and epoll reports descriptors that are readable or
writable: for a report of something else `waitEpoll` makes no handler. -/
def Opening (s : WebServer) : Label → Prop
  | .report _ readable writable => readable = true ∨ writable = true
  | .process fd x => x.opens (s.base.requestStatus fd) = true
  | _ => True

instance (s : WebServer) : (l : Label) → Decidable (s.Opening l)
  | .accept _ => .isTrue trivial
  | .take => .isTrue trivial
  | .report _ readable writable => inferInstanceAs (Decidable (readable = true ∨ writable = true))
  | .process fd x => inferInstanceAs (Decidable (x.opens (s.base.requestStatus fd) = true))

/-! ### What a call does for its descriptor -/

/-- epoll knows nothing of a descriptor that is not registered, and no step of a handler registers
it. -/
theorem register_none (acts : List Action) : register none acts = none := by
  induction acts with
  | nil => rfl
  | cons a acts ih =>
    have hstep : Action.register none a = none := by cases a <;> rfl
    change register (Action.register none a) acts = none
    rw [hstep, ih]

/-- Where nothing arms the descriptor it stays as it was, or epoll forgets it. -/
theorem register_of_not_armed {acts : List Action}
    (h : ∀ edgeTrigger resetOneshot addEpollout,
      .modifyWaitFd edgeTrigger resetOneshot addEpollout ∉ acts) (o : Option Interest) :
    register o acts = o ∨ register o acts = none := by
  induction acts generalizing o with
  | nil => exact .inl rfl
  | cons a acts ih =>
    -- only a `modifyWaitFd` arms, and that is not among them
    have hstep : Action.register o a = o ∨ Action.register o a = none := by
      cases a with
      | modifyWaitFd e r out => exact absurd List.mem_cons_self (h e r out)
      | deleteWaitFd => exact .inr rfl
      | closeClient => exact .inr rfl
      | _ => exact .inl rfl
    change register (Action.register o a) acts = o ∨ register (Action.register o a) acts = none
    rcases hstep with hstep | hstep <;> rw [hstep]
    · exact ih (fun e r out hm => h e r out (List.mem_cons_of_mem a hm)) o
    · exact .inr (register_none acts)

/-- A call behind which the descriptor is armed attends to it. -/
theorem attends_of_armed {acts : List Action} {out : Bool}
    (h : ∀ o, register o acts = o.map fun _ => ⟨true, out⟩) : Attends acts := by
  by_contra hattends
  -- were there no `modifyWaitFd`, a silent descriptor would be silent still
  have hnot : ∀ e r out, .modifyWaitFd e r out ∉ acts :=
    fun e r out hm => hattends (.inl ⟨e, r, out, hm⟩)
  rcases register_of_not_armed hnot (some ⟨false, out⟩) with hsame | hnone
  · cases (h _).symm.trans hsame
  · cases (h _).symm.trans hnone

/-- A call that only accesses the tables and the files does nothing for its descriptor. -/
theorem not_attends_plain {acts : List Action} (h : ∀ a ∈ acts, a.Plain) : ¬ Attends acts := by
  rintro (⟨e, r, out, hm⟩ | ⟨hm, -⟩)
  · exact h _ hm
  · exact h _ hm

/-- **A call that returns attends to its descriptor exactly when the upload file it comes to
opens.** -/
theorem Watched.attends_iff {s : WebServer} (h : s.Watched) {fd : ℤ} {x : Handler}
    (hrunning : ⟨fd, x.kind⟩ ∈ s.running) (hreturns : (s.base.call fd x).crash = none) :
    Attends (s.base.call fd x).acts ↔ x.opens (s.base.requestStatus fd) = true := by
  have hleaves := h.leaves fd x
  generalize s.base.call fd x = c at hreturns hleaves ⊢
  -- the ways out of the two handlers: only the one on which a file does not open does nothing
  cases hleaves with
  | waits crash opened kept registered => exact iff_of_true (attends_of_armed registered) opened
  | arms crash opened kept registered => exact iff_of_true (attends_of_armed registered) opened
  | settles crash opened kept registered => exact iff_of_true (attends_of_armed registered) opened
  | closes crash opened removed closed => exact iff_of_true (.inr ⟨removed, closed⟩) opened
  | givesUp crash fails plain =>
    exact iff_of_false (not_attends_plain plain) (by rw [fails]; exact nofun)
  -- a `HandleSend` without a response: none is made where there is none
  | idles kind vacant call =>
    rw [kind] at hrunning
    exact absurd vacant (h.made fd (List.mem_append_right _ hrunning))
  | crashes f crash => cases hreturns.symm.trans crash

/-! ### The runs -/

/-- At the start no descriptor is open. -/
theorem attended_init : Attended init := nofun

/-- An accepted descriptor is armed for input. -/
theorem Attended.accept {s t : WebServer} (h : s.Attended) {fd : ℤ}
    (hstep : s.step (.accept fd) = some t) : t.Attended := by
  obtain ⟨base, hbase, rfl⟩ := accept_eq_some.mp hstep
  obtain ⟨⟨hdown, -⟩, rfl⟩ := Server.accept_eq_some.mp hbase
  intro _ d hd
  by_cases hdf : d = fd
  · subst hdf
    exact .inl ⟨false, Function.update_self _ _ _⟩
  · have hopen : s.base.conn d ≠ none := by
      intro hn
      exact hd ((Function.update_of_ne hdf _ _).trans hn)
    rcases h hdown d hopen with ⟨out, hout⟩ | hhandled
    · exact .inl ⟨out, (Function.update_of_ne hdf _ _).trans hout⟩
    · exact .inr hhandled

/-- A report disarms its descriptor, and makes a handler for it in the same step. -/
theorem Attended.report {s t : WebServer} (h : s.Attended) {fd : ℤ} {readable writable : Bool}
    (hready : readable = true ∨ writable = true)
    (hstep : s.step (.report fd readable writable) = some t) : t.Attended := by
  obtain ⟨out, -, hdown, -, rfl⟩ := report_eq_some.mp hstep
  intro _ d hd
  by_cases hdf : d = fd
  · subst hdf
    exact .inr (handled_of_report hready hstep)
  · rcases h hdown d hd with ⟨out, hout⟩ | hhandled
    · exact .inl ⟨out, (Function.update_of_ne hdf _ _).trans hout⟩
    · exact .inr (hhandled.report hstep)

/-- A worker that takes a handler has it from then on, and the descriptor is still attended to. -/
theorem Attended.take {s t : WebServer} (h : s.Attended) (hstep : s.step .take = some t) :
    t.Attended := by
  obtain ⟨e, rest, hqueue, hdown, rfl⟩ := take_eq_some.mp hstep
  exact fun _ d hd => (h hdown d hd).imp_right (Handled.take hstep)

/-- A call for a descriptor arms it, closes it, or never returns. It has no part in the others. -/
theorem Attended.process {s t : WebServer} (h : s.Attended) (hw : s.Watched) {fd : ℤ} {x : Handler}
    (hopens : x.opens (s.base.requestStatus fd) = true)
    (hstep : s.step (.process fd x) = some t) : t.Attended := by
  obtain ⟨⟨hdown, hrunning⟩, rfl⟩ := process_eq_some.mp hstep
  intro hdown' d hd
  have hcrash : (s.base.call fd x).crash.any (· ≠ .diverges) = false :=
    (Server.behind_down s.base fd _).symm.trans hdown'
  obtain ⟨c, hc⟩ := Option.ne_none_iff_exists'.mp hd
  obtain ⟨hconn, hstray, hkept⟩ := Server.conn_of_behind hc
  by_cases hdf : d = fd
  · subst hdf
    -- an open descriptor is registered
    obtain ⟨i, hi⟩ := Option.isSome_iff_exists.mp
      ((hw.registered d).trans (Option.isSome_iff_exists.mpr ⟨c, hconn⟩))
    have harmed {out : Bool}
        (hreg : ∀ o, register o (s.base.call d x).acts = o.map fun _ => ⟨true, out⟩) :
        ∃ out, (s.after d x.kind (s.base.call d x)).interest d = some ⟨true, out⟩ := by
      refine ⟨out, ?_⟩
      rw [after_interest_self _ hstray, hreg, hi]
      rfl
    -- the descriptor is still open, so the call has armed it, or has not returned
    have hleaves := hw.leaves d x
    have hclosed := hkept rfl
    cases hleaves with
    | waits crash opened kept registered => exact .inl (harmed registered)
    | arms crash opened kept registered => exact .inl (harmed registered)
    | settles crash opened kept registered => exact .inl (harmed registered)
    | closes crash opened removed closed =>
      exact absurd (List.contains_iff_mem.mpr closed) (Bool.eq_false_iff.mp hclosed)
    -- no file fails to open in these runs
    | givesUp crash fails => cases hopens.symm.trans fails
    | idles kind vacant call =>
      rw [kind] at hrunning
      exact absurd vacant (hw.made d (List.mem_append_right _ hrunning))
    | crashes f crash =>
      -- a handler that never returns
      rw [crash] at hcrash
      have hf : f = .diverges := by simpa using hcrash
      exact .inr (handled_of_diverges (crash.trans (congrArg some hf)))
  -- the descriptor of another connection is as it was
  · rcases h hdown d (by rw [hconn]; exact nofun) with ⟨out, hout⟩ | hhandled
    · exact .inl ⟨out, (after_interest_of_ne _ hstray hdf).trans hout⟩
    · exact .inr (hhandled.after hdf x.kind _)

/-- In a run in which every upload file opens no connection is left behind. -/
theorem attended_of_opening {s : WebServer} (h : webServer.Reachable Opening s) : s.Attended := by
  refine h.invariant attended_init fun s l t hs hatt hl hstep => ?_
  cases l with
  | accept fd => exact hatt.accept hstep
  | report fd readable writable => exact hatt.report hl hstep
  | take => exact hatt.take hstep
  | process fd x => exact hatt.process (watched_of_reachable hs) hl hstep

/-- **Every open descriptor is armed or has a handler**, in every run in which every upload file
opens; and in every run a call that returns attends to its descriptor exactly when its file does. -/
theorem attended_of_reachable {s : WebServer} (h : webServer.Reachable Machine.anyStep s) :
    (webServer.Reachable Opening s → s.Attended) ∧
      ∀ fd x, ⟨fd, x.kind⟩ ∈ s.running → (s.base.call fd x).crash = none →
        (Attends (s.base.call fd x).acts ↔ x.opens (s.base.requestStatus fd) = true) :=
  ⟨attended_of_opening, fun _ _ hrunning hreturns =>
    (watched_of_reachable h).attends_iff hrunning hreturns⟩

/-- An upload of `name` whose content begins in the chunk; `ofs` tells whether the file opens. -/
def beginUpload (name : Bytes) (ofs : Bool) : Handler :=
  .recv [.data (lit "POST /f HTTP/1.1\r\nContent-Type: multipart/form-data; boundary=B\r\n\r\n" ++
    lit "--B\r\nContent-Disposition: form-data; filename=\"" ++ name ++ lit "\"\r\n\r\nX") ofs]
    HandleSend.sampleWorld.fresh

/-- A connection that has a report delivered, and the handler `x` called for it, the first one that
is made. -/
def served (x : Handler) : List Label :=
  [.accept 5, .report 5 true false, .take, .process 5 x]

theorem attended_of_reachable_sample :
    ∃ s, webServer.run webServer.start (served (beginUpload (lit "a.txt") true)) = some s ∧
      s.Attended ∧ s.interest 5 = some ⟨true, false⟩ := by
  obtain ⟨s, hs⟩ := Option.isSome_iff_exists.mp
    (show (webServer.run webServer.start (served (beginUpload (lit "a.txt") true))).isSome by
      decide +kernel)
  have hinterest : (webServer.run webServer.start (served (beginUpload (lit "a.txt") true))).map
      (fun s => s.interest 5) = some (some ⟨true, false⟩) := by
    decide +kernel
  rw [hs] at hinterest
  have hopening : webServer.Reachable Opening s := Machine.reachable_of_run .start hs (by
    decide +kernel)
  exact ⟨s, hs, (attended_of_reachable (hopening.mono fun _ _ _ => trivial)).1 hopening,
    Option.some.inj hinterest⟩

/-- **An upload whose file does not open** leaves its connection open, without a handler and not
armed: `filedir` has no directory `d`. -/
theorem orphan : ¬ ∀ s, webServer.Reachable Machine.anyStep s → s.Attended := by
  intro h
  obtain ⟨s, hs⟩ := Option.isSome_iff_exists.mp
    (show (webServer.run webServer.start (served (beginUpload (lit "d/a.txt") false))).isSome by
      decide +kernel)
  -- the end of the run: the descriptor is open, silent, and nobody is to come to it
  have hstate : (webServer.run webServer.start (served (beginUpload (lit "d/a.txt") false))).map
      (fun s => (s.base.down, s.base.conn 5, s.interest 5, s.workQueue ++ s.running ++ s.stuck)) =
        some (false, some 0, some ⟨false, false⟩, []) := by
    decide +kernel
  rw [hs] at hstate
  simp only [Option.map_some, Option.some.injEq, Prod.mk.injEq] at hstate
  obtain ⟨hdown, hconn, hinterest, hevents⟩ := hstate
  have hreachable := Machine.reachable_of_run .start hs (Machine.along_anyStep _ _)
  rcases h s hreachable hdown 5 (by rw [hconn]; exact nofun) with ⟨out, hout⟩ | ⟨kind, hkind⟩
  · cases hinterest.symm.trans hout
  · rw [hevents] at hkind
    cases hkind

end WebServer

end Cherokee
