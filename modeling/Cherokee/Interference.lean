import Cherokee.Server
import Cherokee.Wire

/-!
# Connections do not interfere

All connections share the two tables, and a handler works on the entries of its own descriptor. A
run of `HandleRecv` calls on any number of descriptors is, for each descriptor, the run of its own
calls.

* `Server.Same`: a descriptor stands in the whole run as it does in its own.
* `Server.run_filter`: the run of the labels about one descriptor.
* `Server.noninterference`: nothing that `HandleRecv` does for a descriptor depends on the others.
-/

namespace Cherokee

namespace Label

/-- The descriptor a step is about. -/
def fd : Label → ℤ
  | .accept fd => fd
  | .call fd _ => fd

/-- The step is an accept or a call of `HandleRecv::process`. -/
def Receives : Label → Prop
  | .accept _ => True
  | .call _ (.recv _ _) => True
  | .call _ (.send _ _) => False

end Label

namespace Server

/-- What a step does for the descriptor `fd`: the actions of the call, when it is a call for that
descriptor. -/
def actsFor (fd : ℤ) (s : Server) : Label → List Action
  | .accept _ => []
  | .call d h => if d = fd then (s.call d h).acts else []

/-- What the handlers do for the descriptor `fd` in a run, in the order of its calls. A run that
cannot go on ends there. -/
def doneFor (fd : ℤ) : Server → List Label → List Action
  | _, [] => []
  | s, l :: ls =>
    match s.step l with
    | some t => s.actsFor fd l ++ doneFor fd t ls
    | none => []

/-! ### Calls of `HandleRecv` -/

/-- A call of `HandleRecv` closes no descriptor of a file, and a call that closes the connection
returns. -/
theorem recv_strays (results : List HandleRecv.RecvResult) (fresh : Uninit)
    {request : Option Request} (response : Option Response)
    (hlive : ∀ r ∈ request, r.status ≠ .handleComplete) :
    let c := Handler.call (.recv results fresh) request response
    strays c.acts = [] ∧ (closes c.acts = true → c.request = none) ∧
      (c.crash = none → ∀ q ∈ c.request, q.status ≠ .handleComplete) := by
  intro c
  obtain ⟨before, last, hacts, hbefore, hend⟩ :=
    Conn.recv_receives results fresh response hlive
  -- receiving in front of the end closes no descriptor
  have hnone : strays before = [] := by
    refine List.filterMap_eq_nil_iff.mpr fun a ha => ?_
    have hr := hbefore a ha
    cases a <;> first | rfl | cases hr
  have hstrays : strays c.acts = strays last := by
    rw [show c.acts = _ from hacts, strays, List.filterMap_append]
    exact congrArg (· ++ strays last) hnone
  have hcloses : closes c.acts = closes last := by
    rw [show c.acts = _ from hacts, Conn.closes_append, Conn.closes_receiving hbefore]
    rfl
  -- where the request stays in the table it is not complete
  have hsome {r : Request} (h : c.request = some r) (hr : r.status ≠ .handleComplete) :
      ∀ q ∈ c.request, q.status ≠ .handleComplete := by
    rw [h]
    rintro q ⟨⟩
    exact hr
  rw [hstrays, hcloses]
  cases hend with
  | waits r crash request live => exact ⟨rfl, nofun, fun _ => hsome request live⟩
  | openFails path r crash request live => exact ⟨rfl, nofun, fun _ => hsome request live⟩
  | crashes f crash => exact ⟨rfl, nofun, fun h => nomatch crash.symm.trans h⟩
  | closes rearmed crash request arm =>
    refine ⟨?_, fun _ => request, fun _ => ?_⟩
    · rcases arm with rfl | rfl <;> rfl
    · rw [show c.request = _ from request]
      exact nofun
  | asks name logged crash live handed completes =>
    refine ⟨?_, fun h => ?_, fun _ => live⟩
    · rcases completes with rfl | ⟨method, resource, -, -, rfl⟩ <;> rfl
    · rcases completes with rfl | ⟨method, resource, -, -, rfl⟩ <;> cases h

/-- What holds in a run of `HandleRecv` calls: each client has one descriptor, the clients to come
are not stuck, and no request that is complete waits under an open descriptor. -/
structure Receiving (s : Server) : Prop where
  below : ∀ d c, s.conn d = some c → c < s.accepted
  apart : ∀ d d' c, s.conn d = some c → s.conn d' = some c → d = d'
  unstuck : ∀ c, s.accepted ≤ c → s.stuck c = false
  live : s.down = false → ∀ d, (∀ c, s.conn d = some c → s.stuck c = false) →
    ∀ q ∈ s.requestStatus d, q.status ≠ .handleComplete

/-- Under a descriptor that can be worked for no complete request waits, so a call of `HandleRecv`
erases none before it has received. -/
theorem Receiving.ready {s : Server} (h : s.Receiving) {fd : ℤ} {c : ℕ} (hr : s.ready fd = some c) :
    ∀ q ∈ s.requestStatus fd, q.status ≠ .handleComplete := by
  obtain ⟨hdown, hconn, hstuck⟩ := ready_eq_some.mp hr
  refine h.live hdown fd fun c' hc' => ?_
  obtain rfl := Option.some.inj (hconn.symm.trans hc')
  exact hstuck

/-- Nobody has been accepted yet. -/
theorem receiving_init : Receiving init where
  below := nofun
  apart := nofun
  unstuck _ _ := rfl
  live _ _ _ := nofun

/-- An accept or a call of `HandleRecv` keeps this, since the call touches the entries of one
descriptor. -/
theorem Receiving.step {s t : Server} (h : s.Receiving) {l : Label} (hl : l.Receives)
    (hstep : s.step l = some t) : t.Receiving := by
  -- an accept gives out a new number; a call of `HandleRecv` works on its own entries
  cases l with
  | accept fd =>
    obtain ⟨⟨hdown, hnone⟩, rfl⟩ := accept_eq_some.mp hstep
    refine ⟨fun _ _ => below_accept h.below, fun _ _ _ => apart_accept h.below h.apart,
      fun c hc => h.unstuck c (Nat.le_of_succ_le hc), fun hdown d hd => ?_⟩
    refine h.live hdown d fun c hc => hd c ?_
    have hdf : d ≠ fd := by
      rintro rfl
      cases hc.symm.trans hnone
    exact (Function.update_of_ne hdf _ _).trans hc
  | call fd x =>
    obtain ⟨c, hr, rfl⟩ := call_eq_some.mp hstep
    obtain ⟨hdown, hfd, hstuck⟩ := ready_eq_some.mp hr
    cases x with
    | send w results => exact hl.elim
    | recv results fresh =>
      obtain ⟨hstrays, hclosing, hreturns⟩ :=
        recv_strays results fresh (s.responseStatus fd) (h.ready hr)
      refine ⟨fun d c' hd => h.below d c' (conn_of_after hd).1,
        fun d d' c' hd hd' => h.apart d d' c' (conn_of_after hd).1 (conn_of_after hd').1,
        fun c' hc' => ?_, fun hdown' d hd => ?_⟩
      · -- the connection that works has a number already
        have hne : c' ≠ c := by
          rintro rfl
          exact absurd (h.below fd c' hfd) (Nat.not_lt.mpr hc')
        unfold after
        simp only
        split
        · rw [Function.update_of_ne hne]
          exact h.unstuck c' hc'
        · exact h.unstuck c' hc'
      -- the entry of this descriptor is what the call leaves, and any other is as before
      · by_cases hdf : d = fd
        · subst hdf
          rw [after_requestStatus_self]
          cases hconn : (s.after d c (s.call d (.recv results fresh))).conn d with
          | none =>
            -- the call has closed its connection
            rcases conn_after_eq_none hconn with hmem | ⟨-, hc⟩ | hn
            · rw [show strays (s.call d (.recv results fresh)).acts = [] from hstrays] at hmem
              cases hmem
            · rw [show (s.call d (.recv results fresh)).request = none from hclosing hc]
              exact nofun
            · cases hfd.symm.trans hn
          | some c' =>
            obtain rfl := Option.some.inj (hfd.symm.trans (conn_of_after hconn).1)
            exact hreturns (crash_of_after hdown' (fun _ => hd c hconn) rfl)
        · rw [after_requestStatus_of_ne hdf]
          refine h.live hdown d fun c' hc' => ?_
          refine stuck_of_after (hd c' ?_)
          unfold after
          simp only
          rw [if_neg]
          · exact hc'
          · rintro (hmem | ⟨heq, -⟩)
            · rw [show strays (s.call fd (.recv results fresh)).acts = [] from hstrays] at hmem
              cases hmem
            · exact hdf heq

/-! ### A descriptor in the whole run and in its own -/

/-- The descriptor `fd` stands in `s'` as it does in `s`. The clients may have other numbers, since
in its own run fewer have been accepted. -/
structure Same (fd : ℤ) (s s' : Server) : Prop where
  request : s'.requestStatus fd = s.requestStatus fd
  response : s'.responseStatus fd = s.responseStatus fd
  opened : (s'.conn fd).isSome = (s.conn fd).isSome
  stuck : ∀ c c', s.conn fd = some c → s'.conn fd = some c' → s'.stuck c' = s.stuck c
  down : s.down = false → s'.down = false

/-- A state stands as it does. -/
theorem same_refl (fd : ℤ) (s : Server) : Same fd s s where
  request := rfl
  response := rfl
  opened := rfl
  stuck c c' h h' := by
    rw [Option.some.inj (h.symm.trans h')]
  down h := h

/-- A step about another descriptor is not seen: it changes neither entry and closes no stray
descriptor. -/
theorem Same.other {fd : ℤ} {s s' t : Server} (h : Same fd s s') (hs : s.Receiving) {l : Label}
    (hl : l.Receives) (hfd : l.fd ≠ fd) (hstep : s.step l = some t) : Same fd t s' := by
  -- a step for another descriptor
  cases l with
  | accept d =>
    obtain ⟨-, rfl⟩ := accept_eq_some.mp hstep
    have hconn : Function.update s.conn d (some s.accepted) fd = s.conn fd :=
      Function.update_of_ne (Ne.symm hfd) _ _
    refine ⟨h.request, h.response, ?_, fun c c' hc hc' => h.stuck c c' (hconn.symm.trans hc) hc',
      h.down⟩
    change (s'.conn fd).isSome = (Function.update s.conn d (some s.accepted) fd).isSome
    rw [hconn, h.opened]
  | call d x =>
    obtain ⟨c, hr, rfl⟩ := call_eq_some.mp hstep
    obtain ⟨hdown, hd, -⟩ := ready_eq_some.mp hr
    cases x with
    | send w results => exact hl.elim
    | recv results fresh =>
      have hstrays : strays (s.call d (.recv results fresh)).acts = [] :=
        (recv_strays results fresh (s.responseStatus d) (hs.ready hr)).1
      have hne : fd ≠ d := Ne.symm hfd
      -- the call closes its own connection at most
      have hconn : (s.after d c (s.call d (.recv results fresh))).conn fd = s.conn fd := by
        unfold after
        simp only
        rw [hstrays, if_neg]
        rintro (hmem | ⟨heq, -⟩)
        · cases hmem
        · exact hne heq
      refine ⟨?_, ?_, ?_, fun c₁ c₂ hc₁ hc₂ => ?_, fun _ => h.down hdown⟩
      · rw [after_requestStatus_of_ne hne]
        exact h.request
      · rw [after_responseStatus_of_ne hne]
        exact h.response
      · rw [hconn]
        exact h.opened
      · rw [hconn] at hc₁
        -- the clients of two descriptors are two
        have hcc : c₁ ≠ c := by
          rintro rfl
          exact hne (hs.apart fd d c₁ hc₁ hd)
        rw [h.stuck c₁ c₂ hc₁ hc₂]
        unfold after
        simp only
        split
        · rw [Function.update_of_ne hcc]
        · rfl

/-- A call for the descriptor is all done for it. -/
theorem actsFor_call_self (s : Server) (fd : ℤ) (x : Handler) :
    s.actsFor fd (.call fd x) = (s.call fd x).acts := if_pos rfl

/-- A step about another descriptor does nothing for this one. -/
theorem actsFor_of_ne {fd : ℤ} (s : Server) {l : Label} (h : l.fd ≠ fd) : s.actsFor fd l = [] := by
  cases l with
  | accept d => rfl
  | call d x => exact if_neg h

/-- The entries under a descriptor decide what a call for it does, since the handlers read no
other. -/
theorem Same.call {fd : ℤ} {s s' : Server} (h : Same fd s s') (x : Handler) :
    s'.call fd x = s.call fd x := by
  unfold Server.call
  rw [h.request, h.response]

/-- A step about the descriptor is the same step in its own run, and does the same for it. -/
theorem Same.own {fd : ℤ} {s s' t : Server} (h : Same fd s s') (hs : s.Receiving)
    (hs' : s'.Receiving) {l : Label} (hfd : l.fd = fd) (hstep : s.step l = some t) :
    ∃ t', s'.step l = some t' ∧ Same fd t t' ∧ s'.actsFor fd l = s.actsFor fd l := by
  -- a step for the descriptor itself finds the same entries in both
  cases l with
  | accept d =>
    obtain rfl : d = fd := hfd
    obtain ⟨⟨hdown, hnone⟩, rfl⟩ := accept_eq_some.mp hstep
    have hnone' : s'.conn d = none := by
      have hopened := h.opened
      rw [hnone] at hopened
      exact Option.isNone_iff_eq_none.mp (Option.isSome_eq_false_iff.mp hopened)
    refine ⟨_, accept_eq_some.mpr ⟨⟨h.down hdown, hnone'⟩, rfl⟩, ?_, rfl⟩
    refine ⟨h.request, h.response, ?_, fun c c' hc hc' => ?_, fun _ => h.down hdown⟩
    · simp only [Function.update_self, Option.isSome_some]
    · -- both connections are new, and no handler has worked for them
      rcases conn_of_accept hc with ⟨-, rfl⟩ | ⟨hne, -⟩
      · rcases conn_of_accept hc' with ⟨-, rfl⟩ | ⟨hne, -⟩
        · exact (hs'.unstuck _ le_rfl).trans (hs.unstuck _ le_rfl).symm
        · exact absurd rfl hne
      · exact absurd rfl hne
  | call d x =>
    obtain rfl : d = fd := hfd
    obtain ⟨c, hr, rfl⟩ := call_eq_some.mp hstep
    obtain ⟨hdown, hconn, hstuck⟩ := ready_eq_some.mp hr
    have hopened := h.opened
    rw [hconn] at hopened
    -- in its own run the client may have another number
    obtain ⟨c', hconn'⟩ := Option.isSome_iff_exists.mp hopened
    have hstuck' : s'.stuck c' = false := (h.stuck c c' hconn hconn').trans hstuck
    have hcall := h.call x
    refine ⟨_, call_eq_some.mpr
      ⟨c', ready_eq_some.mpr ⟨h.down hdown, hconn', hstuck'⟩, rfl⟩, ?_, ?_⟩
    · rw [hcall]
      refine ⟨?_, ?_, ?_, fun c₁ c₂ hc₁ hc₂ => ?_, id⟩
      · rw [after_requestStatus_self, after_requestStatus_self]
      · rw [after_responseStatus_self, after_responseStatus_self]
      · unfold after
        simp only
        split
        · rfl
        · exact h.opened
      · obtain rfl := Option.some.inj (hconn.symm.trans (conn_of_after hc₁).1)
        obtain rfl := Option.some.inj (hconn'.symm.trans (conn_of_after hc₂).1)
        unfold after
        simp only
        split
        · rw [Function.update_self, Function.update_self]
        · exact h.stuck c c' hconn hconn'
    · rw [actsFor_call_self, actsFor_call_self, hcall]

/-- **The run of the labels about one descriptor** ends where the whole run does, by induction on
the labels: a label is either about the descriptor or filtered out. -/
theorem run_filter {fd : ℤ} {labels : List Label} (hl : ∀ l ∈ labels, l.Receives) :
    ∀ {s s' t : Server}, Same fd s s' → s.Receiving → s'.Receiving →
      server.run s labels = some t →
      ∃ t', server.run s' (labels.filter (·.fd = fd)) = some t' ∧ Same fd t t' ∧
        doneFor fd s' (labels.filter (·.fd = fd)) = doneFor fd s labels := by
  -- over the schedule: a step for `fd` is taken on both sides, any other only on the left
  induction labels with
  | nil =>
    intro s s' t h _ _ hrun
    obtain rfl := Option.some.inj hrun
    exact ⟨s', rfl, h, rfl⟩
  | cons l ls ih =>
    intro s s' t h hs hs' hrun
    obtain ⟨hfirst, hrest⟩ := List.forall_mem_cons.mp hl
    obtain ⟨u, hstep, hrun⟩ := Option.bind_eq_some_iff.mp hrun
    have hu := hs.step hfirst hstep
    have hdone : doneFor fd s (l :: ls) = s.actsFor fd l ++ doneFor fd u ls := by
      rw [doneFor, show s.step l = some u from hstep]
    by_cases hfd : l.fd = fd
    · obtain ⟨u', hstep', hsame, hacts⟩ := h.own hs hs' hfd hstep
      obtain ⟨t', hrun', hsame', hdone'⟩ := ih hrest hsame hu (hs'.step hfirst hstep') hrun
      have hfilter : (l :: ls).filter (·.fd = fd) = l :: ls.filter (·.fd = fd) :=
        List.filter_cons_of_pos (decide_eq_true hfd)
      rw [hfilter]
      refine ⟨t', Option.bind_eq_some_iff.mpr ⟨u', hstep', hrun'⟩, hsame', ?_⟩
      rw [hdone, doneFor, hstep']
      exact congrArg₂ (· ++ ·) hacts hdone'
    -- the step is filtered out, and does nothing for `fd`
    · obtain ⟨t', hrun', hsame', hdone'⟩ := ih hrest (h.other hs hfirst hfd hstep) hu hs' hrun
      have hfilter : (l :: ls).filter (·.fd = fd) = ls.filter (·.fd = fd) :=
        List.filter_cons_of_neg (by rwa [decide_eq_true_iff])
      rw [hfilter]
      refine ⟨t', hrun', hsame', ?_⟩
      rw [hdone, actsFor_of_ne s hfd, List.nil_append]
      exact hdone'

/-- **Connections do not interfere.** For every interleaving of accepts and calls of `HandleRecv` on
any number of descriptors, the entries of each descriptor and everything done for it are those of
its own calls alone; and a call of `HandleSend` leaves the entries of all other descriptors. -/
theorem noninterference :
    (∀ (labels : List Label) (s : Server), (∀ l ∈ labels, l.Receives) →
      server.run server.start labels = some s → ∀ fd : ℤ,
        ∃ s', server.run server.start (labels.filter (·.fd = fd)) = some s' ∧
          s'.requestStatus fd = s.requestStatus fd ∧
          s'.responseStatus fd = s.responseStatus fd ∧
          doneFor fd server.start (labels.filter (·.fd = fd)) = doneFor fd server.start labels) ∧
    ∀ (s t : Server) (fd : ℤ) (w : HandleSend.World) (results : List HandleSend.SendResult),
      s.step (.call fd (.send w results)) = some t → ∀ d : ℤ, d ≠ fd →
        t.requestStatus d = s.requestStatus d ∧ t.responseStatus d = s.responseStatus d := by
  constructor
  · intro labels s hl hrun fd
    obtain ⟨s', hrun', hsame, hdone⟩ :=
      run_filter hl (same_refl fd server.start) receiving_init receiving_init hrun
    exact ⟨s', hrun', hsame.request, hsame.response, hdone⟩
  · intro s t fd w results hstep d hd
    obtain ⟨c, -, rfl⟩ := call_eq_some.mp hstep
    exact ⟨after_requestStatus_of_ne hd, after_responseStatus_of_ne hd⟩

/-- A call of `HandleRecv` that receives `bytes`. -/
def receives (bytes : Bytes) : Handler := .recv [.data bytes true] HandleSend.sampleWorld.fresh

/-- Two connections, the request of one received in two parts around the request of the other. -/
def twoVisitors : List Label :=
  [.accept 5, .accept 6, .call 5 (receives (lit "GET /a ")),
    .call 6 (receives (lit "GET /b HTTP/1.1\r\n\r\n")),
    .call 5 (receives (lit "HTTP/1.1\r\n\r\n"))]

theorem noninterference_sample :
    (∃ s', server.run server.start (twoVisitors.filter (·.fd = 5)) = some s' ∧
      (s'.responseStatus 5).map (·.bodyFileName) = some (lit "/a")) ∧
    ∃ s t : Server, s.step (.call 5 (.send HandleSend.sampleWorld [])) = some t ∧
      t.requestStatus 6 = s.requestStatus 6 ∧ t.responseStatus 6 = s.responseStatus 6 := by
  obtain ⟨s, hs⟩ := Option.isSome_iff_exists.mp
    (show (server.run server.start twoVisitors).isSome by decide +kernel)
  have hname : (server.run server.start twoVisitors).map (fun s =>
      ((s.responseStatus 5).map (·.bodyFileName), s.down, s.conn 5, s.stuck 0)) =
        some (some (lit "/a"), false, some 0, false) := by
    decide +kernel
  have hl : ∀ l ∈ twoVisitors, l.Receives := by
    intro l hl
    simp only [twoVisitors, List.mem_cons, List.not_mem_nil, or_false] at hl
    rcases hl with rfl | rfl | rfl | rfl | rfl <;> trivial
  rw [hs] at hname
  obtain ⟨hname, hdown, hconn, hstuck⟩ :
      (s.responseStatus 5).map (·.bodyFileName) = some (lit "/a") ∧ s.down = false ∧
        s.conn 5 = some 0 ∧ s.stuck 0 = false := by
    simpa using Option.some.inj hname
  obtain ⟨s', hs', -, hresponse, -⟩ := noninterference.1 twoVisitors s hl hs 5
  have hstep : s.step (.call 5 (.send HandleSend.sampleWorld [])) =
      some (s.after 5 0 (s.call 5 (.send HandleSend.sampleWorld []))) :=
    call_eq_some.mpr ⟨0, ready_eq_some.mpr ⟨hdown, hconn, hstuck⟩, rfl⟩
  exact ⟨⟨s', hs', by rw [hresponse, hname]⟩, s, _, hstep,
    noninterference.2 s _ 5 HandleSend.sampleWorld [] hstep 6 (by decide)⟩

end Server

end Cherokee
