import Cherokee.Connection

/-!
# The server between calls (`EventBase`, `AcceptConn::process`)

The two tables are keyed by descriptor numbers, and a number is used again once its connection is
closed. `server` is the system whose steps are accepts and whole calls of the two handlers, in any
order, over any number of connections.

* `Server.splits_of_reachable`: in a run whose calls leave nothing behind for the next connection
  under their descriptor, every connection goes as if it were alone.
-/

namespace Cherokee

/-- The state between calls. The two tables are those of the source; connections and logs are there
to tell one client from the next under the same number. -/
structure Server where
  /-- `EventBase::requestStatus` -/
  requestStatus : ℤ → Option Request
  /-- `EventBase::responseStatus` -/
  responseStatus : ℤ → Option Response
  /-- The connection open under a descriptor. -/
  conn : ℤ → Option ℕ
  /-- The number of connections accepted. -/
  accepted : ℕ
  /-- A handler working for the connection never returns. -/
  stuck : ℕ → Bool
  /-- The process has ended. -/
  down : Bool
  /-- What the handlers have done for a connection. -/
  log : ℕ → List Action

/-- A step of the system. Which handler is called for which descriptor, and what it receives or can
send, is left open. -/
inductive Label where
  /-- `AcceptConn::process` accepts a connection under the descriptor `fd`. -/
  | accept (fd : ℤ)
  /-- A handler is called for the descriptor `fd`. -/
  | call (fd : ℤ) (h : Handler)

/-- The descriptors closed as those of files. They are numbers like any others, and one of them may
be that of a connection. -/
def strays (acts : List Action) : List ℤ :=
  acts.filterMap fun
    | .closeFile d => some d
    | _ => none

namespace Server

/-- The state at the start: empty tables and no connection. -/
def init : Server where
  requestStatus _ := none
  responseStatus _ := none
  conn _ := none
  accepted := 0
  stuck _ := false
  down := false
  log _ := []

/-- The call of a handler for `fd`, on what stands in the tables for it. -/
def call (s : Server) (fd : ℤ) (h : Handler) : HandleSend.Call :=
  h.call (s.requestStatus fd) (s.responseStatus fd)

/-- The state behind a call for the connection `c` under the descriptor `fd`. The entries of `fd`
are what the call leaves, and no other entry is touched. -/
def after (s : Server) (fd : ℤ) (c : ℕ) (x : HandleSend.Call) : Server where
  requestStatus := Function.update s.requestStatus fd x.request
  responseStatus := Function.update s.responseStatus fd x.response
  conn := fun d => if d ∈ strays x.acts ∨ d = fd ∧ closes x.acts then none else s.conn d
  accepted := s.accepted
  stuck := if x.crash = some .diverges then Function.update s.stuck c true else s.stuck
  down := x.crash.any (· ≠ .diverges)
  log := Function.update s.log c (s.log c ++ x.acts)

/-- The connection a call for `fd` may work for: it is open, no handler for it hangs, and the
process is there. -/
def ready (s : Server) (fd : ℤ) : Option ℕ :=
  if s.down then none else (s.conn fd).filter fun c => !s.stuck c

/-- One step: an accept under a free descriptor, or a call for one that is ready. -/
def step (s : Server) : Label → Option Server
  | .accept fd =>
    if s.down = false ∧ s.conn fd = none then
      some { s with
        conn := Function.update s.conn fd (some s.accepted), accepted := s.accepted + 1 }
    else none
  | .call fd h => (s.ready fd).map fun c => s.after fd c (s.call fd h)

/-- A connection as it stands in the tables, between two calls. -/
def view (s : Server) (fd : ℤ) (c : ℕ) : Conn :=
  ⟨s.requestStatus fd, s.responseStatus fd, s.log c, false⟩

/-- A response has been asked for on the connection under `fd` and is not completely sent. -/
def owed (s : Server) (fd : ℤ) : Bool := (s.conn fd).any fun c => (ledger (s.log c)).owed

/-- A call closes no descriptor of a connection as that of a file. -/
def NoStray (s : Server) : Label → Prop
  | .accept _ => True
  | .call fd h => ∀ d ∈ strays (s.call fd h).acts, s.conn d = none

/-- A call leaves nothing behind: it closes a connection only when no response is owed on it, and no
other connection at all. -/
def Clean (s : Server) (l : Label) : Prop :=
  s.NoStray l ∧ match l with
    | .accept _ => True
    | .call fd h => closes (s.call fd h).acts → s.owed fd = false

instance (s : Server) : (l : Label) → Decidable (s.NoStray l)
  | .accept _ => .isTrue trivial
  | .call fd h => inferInstanceAs (Decidable (∀ d ∈ strays (s.call fd h).acts, s.conn d = none))

instance (s : Server) : (l : Label) → Decidable (s.Clean l)
  | .accept fd => inferInstanceAs (Decidable (s.NoStray (.accept fd) ∧ True))
  | .call fd h => inferInstanceAs
      (Decidable (s.NoStray (.call fd h) ∧ (closes (s.call fd h).acts → s.owed fd = false)))

end Server

/-- The server. -/
def server : Machine Server Label where
  start := Server.init
  step := Server.step

namespace Server

/-! ### What a step does -/

/-- A connection is ready just if it is open and nothing has ended. -/
theorem ready_eq_some {s : Server} {fd : ℤ} {c : ℕ} :
    s.ready fd = some c ↔ s.down = false ∧ s.conn fd = some c ∧ s.stuck c = false := by
  unfold ready
  cases s.down with
  | true => simp
  | false => simp [Option.filter_eq_some_iff]

/-- What is owed under a descriptor is what the account of its connection says. -/
theorem owed_of_conn {s : Server} {fd : ℤ} {c : ℕ} (h : s.conn fd = some c) :
    s.owed fd = (ledger (s.log c)).owed := by
  rw [owed, h]
  rfl

section After

variable (s : Server) (fd : ℤ) (c : ℕ) (x : HandleSend.Call)

@[simp] theorem after_requestStatus_self : (s.after fd c x).requestStatus fd = x.request :=
  Function.update_self _ _ _

@[simp] theorem after_responseStatus_self : (s.after fd c x).responseStatus fd = x.response :=
  Function.update_self _ _ _

@[simp] theorem after_log_self : (s.after fd c x).log c = s.log c ++ x.acts :=
  Function.update_self _ _ _

/-- The connection a call has been made for, when the call has returned and left it open. -/
theorem view_after (hcrash : x.crash = none) (hopen : closes x.acts = false) :
    (s.view fd c).after x = (s.after fd c x).view fd c := by
  unfold view Conn.after
  rw [after_requestStatus_self, after_responseStatus_self, after_log_self, hcrash, hopen]
  rfl

variable {s fd c x}

/-- A call leaves the requests of other descriptors as they are. -/
theorem after_requestStatus_of_ne {d : ℤ} (h : d ≠ fd) :
    (s.after fd c x).requestStatus d = s.requestStatus d := Function.update_of_ne h _ _

/-- A call leaves the responses of other descriptors as they are. -/
theorem after_responseStatus_of_ne {d : ℤ} (h : d ≠ fd) :
    (s.after fd c x).responseStatus d = s.responseStatus d := Function.update_of_ne h _ _

/-- A call is entered into no other log. -/
theorem after_log_of_ne {c' : ℕ} (h : c' ≠ c) : (s.after fd c x).log c' = s.log c' :=
  Function.update_of_ne h _ _

/-- A connection that is open behind a call was open before it. -/
theorem conn_of_after {d : ℤ} {c' : ℕ} (h : (s.after fd c x).conn d = some c') :
    s.conn d = some c' ∧ (d = fd → closes x.acts = false) := by
  unfold after at h
  simp only at h
  split at h
  · cases h
  · next hd => exact ⟨h, fun hfd => Bool.eq_false_iff.mpr fun hc => hd (.inr ⟨hfd, hc⟩)⟩

/-- A descriptor that is not open behind a call was not open before, or the call closed it. -/
theorem conn_after_eq_none {d : ℤ} (h : (s.after fd c x).conn d = none) :
    d ∈ strays x.acts ∨ (d = fd ∧ closes x.acts = true) ∨ s.conn d = none := by
  unfold after at h
  simp only at h
  split at h
  · next hd => exact or_assoc.mp (.inl hd)
  · exact .inr (.inr h)

/-- The handler has returned when its connection can be worked for again. -/
theorem crash_of_after {c' : ℕ} (hdown : (s.after fd c x).down = false)
    (hstuck : c' = c → (s.after fd c x).stuck c' = false) (hc : c' = c) : x.crash = none := by
  cases hcrash : x.crash with
  | none => rfl
  | some f =>
    -- a handler that hangs leaves its connection stuck, and any other crash ends the process
    by_cases hf : f = .diverges
    · have hs := hstuck hc
      rw [after, hcrash, hf] at hs
      simp only [if_true] at hs
      rw [hc, Function.update_self] at hs
      cases hs
    · rw [after, hcrash] at hdown
      simp [hf] at hdown

/-- A connection for which no handler hangs behind a call had none before. -/
theorem stuck_of_after {c' : ℕ} (h : (s.after fd c x).stuck c' = false) : s.stuck c' = false := by
  unfold after at h
  simp only at h
  split at h
  · by_cases hc : c' = c
    · rw [hc, Function.update_self] at h
      cases h
    · rwa [Function.update_of_ne hc] at h
  · exact h

end After

/-- Behind an accept an open descriptor is the new one, or it was open before. -/
theorem conn_of_accept {s : Server} {fd d : ℤ} {c : ℕ}
    (h : Function.update s.conn fd (some s.accepted) d = some c) :
    d = fd ∧ c = s.accepted ∨ d ≠ fd ∧ s.conn d = some c := by
  by_cases hdf : d = fd
  · rw [hdf, Function.update_self] at h
    exact .inl ⟨hdf, (Option.some.inj h).symm⟩
  · rw [Function.update_of_ne hdf] at h
    exact .inr ⟨hdf, h⟩

/-- An accept gives out the next number, under a descriptor that was free. -/
theorem accept_eq_some {s t : Server} {fd : ℤ} :
    s.step (.accept fd) = some t ↔ (s.down = false ∧ s.conn fd = none) ∧
      t = { s with conn := Function.update s.conn fd (some s.accepted), accepted :=
        s.accepted + 1 } := by
  rw [step, Option.ite_none_right_eq_some, Option.some.injEq]
  exact and_congr_right fun _ => eq_comm

/-- A call is there for every handler of a connection that is ready. -/
theorem call_eq_some {s t : Server} {fd : ℤ} {h : Handler} :
    s.step (.call fd h) = some t ↔ ∃ c, s.ready fd = some c ∧ t = s.after fd c (s.call fd h) := by
  rw [step, Option.map_eq_some_iff]
  exact exists_congr fun c => and_congr_right fun _ => eq_comm

/-! ### The numbers of connections -/

/-- Every connection has a number of its own, and those not accepted yet have done nothing. -/
structure Numbered (s : Server) : Prop where
  below : ∀ d c, s.conn d = some c → c < s.accepted
  unused : ∀ c, s.accepted ≤ c → s.log c = []
  apart : ∀ d d' c, s.conn d = some c → s.conn d' = some c → d = d'

/-- At the start no number has been given out. -/
theorem numbered_init : Numbered init where
  below := nofun
  unused _ _ := rfl
  apart := nofun

/-- Behind an accept the numbers of the open connections have been given out. -/
theorem below_accept {s : Server} (below : ∀ d c, s.conn d = some c → c < s.accepted) {fd d : ℤ}
    {c : ℕ} (hd : Function.update s.conn fd (some s.accepted) d = some c) : c < s.accepted + 1 := by
  rcases conn_of_accept hd with ⟨-, rfl⟩ | ⟨-, hd⟩
  · exact Nat.lt_succ_self _
  · exact Nat.lt_succ_of_lt (below d c hd)

/-- Behind an accept no two descriptors are those of one connection. -/
theorem apart_accept {s : Server} (below : ∀ d c, s.conn d = some c → c < s.accepted)
    (apart : ∀ d d' c, s.conn d = some c → s.conn d' = some c → d = d') {fd d d' : ℤ} {c : ℕ}
    (hd : Function.update s.conn fd (some s.accepted) d = some c)
    (hd' : Function.update s.conn fd (some s.accepted) d' = some c) : d = d' := by
  -- each of the two is the new descriptor or one that was open before
  rcases conn_of_accept hd with ⟨hdf, hc⟩ | ⟨-, hbefore⟩ <;>
    rcases conn_of_accept hd' with ⟨hdf', hc'⟩ | ⟨-, hbefore'⟩
  · exact hdf.trans hdf'.symm
  · exact absurd (below d' c hbefore') (by omega)
  · exact absurd (below d c hbefore) (by omega)
  · exact apart d d' c hbefore hbefore'

/-- An accept gives out a number that none has had. -/
theorem Numbered.accept {s t : Server} (h : s.Numbered) {fd : ℤ}
    (hstep : s.step (.accept fd) = some t) : t.Numbered := by
  obtain ⟨-, rfl⟩ := accept_eq_some.mp hstep
  exact ⟨fun _ _ => below_accept h.below, fun c hc => h.unused c (Nat.le_of_succ_le hc),
    fun _ _ _ => apart_accept h.below h.apart⟩

/-- A call gives out no number, and what it does is entered into the log of its own connection. -/
theorem Numbered.after {s : Server} (h : s.Numbered) {fd : ℤ} {c : ℕ} (hfd : s.conn fd = some c)
    (x : HandleSend.Call) : (s.after fd c x).Numbered where
  below d c' hd := h.below d c' (conn_of_after hd).1
  unused c' hc' := by
    have hne : c' ≠ c := by
      rintro rfl
      exact absurd (h.below fd c' hfd) (Nat.not_lt.mpr hc')
    rw [after_log_of_ne hne]
    exact h.unused c' hc'
  apart d d' c' hd hd' := h.apart d d' c' (conn_of_after hd).1 (conn_of_after hd').1

/-! ### Every connection as if it were alone -/

/-- Every connection is a run of its own, and nothing is left for the next one under its
descriptor. -/
structure Splits (G : Conn → Handler → Prop) (s : Server) : Prop where
  below : ∀ d c, s.conn d = some c → c < s.accepted
  unused : ∀ c, s.accepted ≤ c → s.log c = []
  apart : ∀ d d' c, s.conn d = some c → s.conn d' = some c → d = d'
  free : ∀ d, s.conn d = none → s.requestStatus d = none ∧ Conn.Idle (s.responseStatus d)
  alone : ∀ c, ∃ left, Conn.Idle left ∧ ∃ k, (connection left).Reachable G k ∧ k.log = s.log c ∧
    ∀ d, s.conn d = some c → s.stuck c = false → s.down = false → k = s.view d c

variable {G : Conn → Handler → Prop}

/-- At the start there is no connection to be kept apart. -/
theorem splits_init : Splits G init where
  below := nofun
  unused _ _ := rfl
  apart := nofun
  free _ _ := ⟨rfl, nofun⟩
  alone _ := ⟨none, nofun, _, .start, rfl, nofun⟩

/-- Connections that are kept apart are numbered. -/
theorem Splits.numbered {s : Server} (h : s.Splits G) : s.Numbered :=
  ⟨h.below, h.unused, h.apart⟩

/-- The entries of a connection that is ready are sound, as in a run in which it is alone. -/
theorem Splits.sound {s : Server} (h : s.Splits G) {fd : ℤ} {c : ℕ} (hr : s.ready fd = some c) :
    (s.view fd c).Sound := by
  obtain ⟨hdown, hconn, hstuck⟩ := ready_eq_some.mp hr
  obtain ⟨left, hleft, k, hk, -, hview⟩ := h.alone c
  have hkview := hview fd hconn hstuck hdown
  rw [← hkview]
  exact Conn.reachable_sound hleft hk (by rw [hkview]; rfl)

/-- An accepted connection starts with what is left under its descriptor. -/
theorem Splits.accept {s s' : Server} (h : s.Splits G) {fd : ℤ}
    (hstep : s.step (.accept fd) = some s') : s'.Splits G := by
  obtain ⟨hbelow, hunused, hapart⟩ := h.numbered.accept hstep
  obtain ⟨⟨-, hnone⟩, rfl⟩ := accept_eq_some.mp hstep
  obtain ⟨hrequest, hidle⟩ := h.free fd hnone
  refine ⟨hbelow, hunused, hapart, ?_, ?_⟩
  · intro d hd
    refine h.free d ?_
    by_cases hdf : d = fd
    · rwa [hdf]
    · exact (Function.update_of_ne hdf _ _).symm.trans hd
  · intro c
    by_cases hc : c = s.accepted
    · -- the new connection: it has done nothing
      refine ⟨s.responseStatus fd, hidle, _, .start, (h.unused c hc.ge).symm, ?_⟩
      intro d hd _ _
      rcases conn_of_accept hd with ⟨rfl, -⟩ | ⟨-, hd⟩
      · rw [view, hrequest]
        exact congrArg (Conn.mk none _ · false) (h.unused c hc.ge).symm
      · exact absurd (h.below d c hd) (by omega)
    · obtain ⟨left, hleft, k, hk, hlog, hview⟩ := h.alone c
      refine ⟨left, hleft, k, hk, hlog, fun d hd => ?_⟩
      rcases conn_of_accept hd with ⟨-, hd⟩ | ⟨-, hd⟩
      · exact absurd hd hc
      · exact hview d hd

section Call

variable {s : Server} {fd : ℤ} {c : ℕ} {x : Handler}

/-- Behind a call that is clean a free descriptor has nothing left. -/
theorem Splits.free_after (h : s.Splits G) (hr : s.ready fd = some c)
    (hclean : s.Clean (.call fd x)) {d : ℤ} (hd : (s.after fd c (s.call fd x)).conn d = none) :
    (s.after fd c (s.call fd x)).requestStatus d = none ∧
      Conn.Idle ((s.after fd c (s.call fd x)).responseStatus d) := by
  obtain ⟨-, hfd, -⟩ := ready_eq_some.mp hr
  have hsound := h.sound hr
  obtain ⟨hstray, hclose⟩ := hclean
  by_cases hdf : d = fd
  · -- the call has closed its own connection, on which nothing was owed
    subst hdf
    rcases conn_after_eq_none hd with hs | ⟨-, hc⟩ | hn
    · cases hfd.symm.trans (hstray d hs)
    · have hnothing := hclose hc
      rw [owed_of_conn hfd] at hnothing
      obtain ⟨hrequest, hresponse⟩ := hsound.closing_call hc
      rw [after_requestStatus_self, after_responseStatus_self]
      refine ⟨hrequest, ?_⟩
      change Conn.Idle (x.call _ _).response
      have hresponse' : (x.call (s.requestStatus d) (s.responseStatus d)).response =
          s.responseStatus d := hresponse
      rw [hresponse']
      exact hsound.idle hnothing
    · cases hfd.symm.trans hn
  · -- any other descriptor was free before, or only a stray one has been closed
    rw [after_requestStatus_of_ne hdf, after_responseStatus_of_ne hdf]
    refine h.free d ?_
    rcases conn_after_eq_none hd with hs | ⟨hd, -⟩ | hn
    · exact hstray d hs
    · exact absurd hd hdf
    · exact hn

/-- Behind a call every connection is still a run of its own: one step longer, or the same. -/
theorem Splits.alone_after (h : s.Splits G) (hr : s.ready fd = some c) (hG : G (s.view fd c) x)
    (c' : ℕ) :
    ∃ left, Conn.Idle left ∧ ∃ k, (connection left).Reachable G k ∧
      k.log = (s.after fd c (s.call fd x)).log c' ∧
      ∀ d, (s.after fd c (s.call fd x)).conn d = some c' →
        (s.after fd c (s.call fd x)).stuck c' = false → (s.after fd c (s.call fd x)).down = false →
          k = (s.after fd c (s.call fd x)).view d c' := by
  obtain ⟨hdown, hfd, hstuck⟩ := ready_eq_some.mp hr
  obtain ⟨left, hleft, k, hk, hlog, hview⟩ := h.alone c'
  -- the connection of the call has a run that is longer by it
  by_cases hc : c' = c
  · subst hc
    have hkview := hview fd hfd hstuck hdown
    subst hkview
    have hnext : (connection left).step (s.view fd c') x =
        some ((s.view fd c').after (s.call fd x)) :=
      (Conn.step_eq_some (k := s.view fd c') (h := x)).mpr ⟨rfl, rfl⟩
    refine ⟨left, hleft, _, .step x hk hG hnext, (after_log_self s fd c' _).symm, ?_⟩
    intro d hd hstuck' hdown'
    obtain ⟨hd, hopen⟩ := conn_of_after hd
    obtain rfl := h.apart d fd c' hd hfd
    exact view_after s d c' _ (crash_of_after hdown' (fun _ => hstuck') rfl) (hopen rfl)
  -- the run of another connection is as it was
  · refine ⟨left, hleft, k, hk, hlog.trans (after_log_of_ne hc).symm, ?_⟩
    intro d hd hstuck' _
    have hbefore := (conn_of_after hd).1
    -- the descriptor is not the one of the call, so its entries are untouched
    have hdf : d ≠ fd := by
      rintro rfl
      exact hc (Option.some.inj (hbefore.symm.trans hfd))
    rw [view, after_requestStatus_of_ne hdf, after_responseStatus_of_ne hdf,
      after_log_of_ne hc]
    exact hview d hbefore (stuck_of_after hstuck') hdown

end Call

/-- A step of a run whose calls leave nothing behind keeps the connections apart. -/
theorem Splits.step {s s' : Server} {l : Label} (h : s.Splits G) (hclean : s.Clean l)
    (hG : ∀ fd x c, l = .call fd x → s.ready fd = some c → G (s.view fd c) x)
    (hstep : s.step l = some s') : s'.Splits G := by
  cases l with
  | accept fd => exact h.accept hstep
  | call fd x =>
    -- the call is one of a connection, and its guard is about what the connection finds
    obtain ⟨c, hr, rfl⟩ := call_eq_some.mp hstep
    obtain ⟨-, hfd, -⟩ := ready_eq_some.mp hr
    obtain ⟨hbelow, hunused, hapart⟩ := h.numbered.after hfd (s.call fd x)
    exact ⟨hbelow, hunused, hapart, fun _ => h.free_after hr hclean,
      h.alone_after hr (hG fd x c rfl hr)⟩

/-- **Every connection goes as if it were alone**, in a run whose calls leave nothing behind. -/
theorem splits_of_reachable {H : Server → Label → Prop} (hclean : ∀ s l, H s l → s.Clean l)
    (hG : ∀ s fd x c, H s (.call fd x) → s.ready fd = some c → G (s.view fd c) x) {s : Server}
    (h : server.Reachable H s) : s.Splits G := by
  refine h.invariant splits_init ?_
  intro s l s' _ hs hl hstep
  exact hs.step (hclean s l hl) (fun fd x c hlab hr => hG s fd x c (hlab ▸ hl) hr) hstep

end Server

end Cherokee
