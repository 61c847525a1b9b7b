import Cherokee.Answering
import Cherokee.Arriving
import Cherokee.Lib.Simulation

/-!
# The server and the store side by side

`Stage` is where a connection is, seen from both sides, and `Simulated` relates the whole states. A
call is answered by the moves of its own session; the others are kept (`Stage.frame`), since the
call touches no file that another connection is uploading and writes over none that another is
downloading.

* `Arrived`: nothing happens in the store for a request before it is there, but that the file of an
  upload is made.
* `Simulated.after`: a call that the store answers (`CallAnswer`) keeps the relation.
* `Simulated.goes`: a call whose session goes on is answered by the store.
-/

namespace Cherokee

open HandleSend HandleRecv

/-- Nothing has been asked for, and nothing has been written into the entry. So it is for a
connection between two requests. -/
def Blank (response : Option Response) : Prop :=
  ∀ r ∈ response, r.status = .handleInit ∧ r.bodyFileName = [] ∧ r.msgBody = []

/-- No entry is a blank one: the next hand-over makes it either way. -/
theorem blank_none : Blank none := by
  intro r hr
  cases hr

/-- The entry that `operator[]` makes anew is blank, whatever its other members hold. -/
theorem blank_init (u : Uninit) : Blank (some (Response.init u)) := by
  intro r hr
  cases hr
  exact ⟨rfl, rfl, rfl⟩

/-! ### Where a connection is -/

/-- Where a connection is: its account `e`, its entries of both tables and the files on the one
side, and the phase of its session, which is about to ask `m`, on the other. There is one
constructor for each phase, and it says what of the two sides goes together. -/
inductive Stage (m : Message) (fs : FileSystem) (files : Bytes → File) (e : Exchange)
    (request : Option Request) (response : Option Response) : Phase → Prop where
  | waiting (arrived : m.At e.got none (request.getD Request.init)) (unasked : e.asked = false)
      (unstored : e.storing = none) (unsent : e.sending = none) (blank : Blank response) :
      Stage m fs files e request response .waiting
  /-- The file holds what it held when the upload began, and what has been appended since. -/
  | storing {u : Upload} {w before : Bytes} (message : m = .upload u)
      (arrived : m.At e.got (some w) (request.getD Request.init)) (unasked : e.asked = false)
      (stored : e.storing = some u.path) (unsent : e.sending = none) (blank : Blank response)
      (made : files u.path = some before) (held : fs.file u.path = some (before ++ w)) :
      Stage m fs files e request response .storing
  | asked {name : Bytes} {r : Response} (whole : e.got = m.bytes)
      (erased : request.getD Request.init = Request.init) (asked : e.asked = true)
      (unstored : e.storing = none) (unsent : e.sending = none) (entry : response = some r)
      (init : r.status = .handleInit) (named : r.bodyFileName = name) (blank : r.msgBody = []) :
      Stage m fs files e request response (.asked name)
  | answering {head body sent rest : Bytes} {r : Response} (whole : e.got = m.bytes)
      (erased : request.getD Request.init = Request.init) (asked : e.asked = true)
      (unstored : e.storing = none)
      (file : e.sending = if r.bodyType = .fileType then some r.fileMsgFd else none)
      (entry : response = some r) (sending : Sending r) (stands : Stands head body r sent)
      (left : head ++ body = sent ++ rest)
      (reads : r.bodyType = .fileType → fs.Reads r.fileMsgFd body) :
      Stage m fs files e request response (.answering rest)

namespace Stage

variable {m : Message} {fs fs' : FileSystem} {files files' : Bytes → File} {e : Exchange}
  {request : Option Request} {response : Option Response} {phase : Phase}

/-- **What another connection does leaves a connection where it is**, when it leaves the file that
is uploaded and what is read through the descriptor that is downloaded from. -/
theorem frame (h : Stage m fs files e request response phase)
    (hstoring : ∀ path, e.storing = some path →
      fs'.file path = fs.file path ∧ files' path = files path)
    (hsending : ∀ fd body, e.sending = some fd → fs.Reads fd body → fs'.Reads fd body) :
    Stage m fs' files' e request response phase := by
  cases h with
  | waiting arrived unasked unstored unsent blank =>
    exact .waiting arrived unasked unstored unsent blank
  | storing message arrived unasked stored unsent blank made held =>
    obtain ⟨hfile, hfiles⟩ := hstoring _ stored
    exact .storing message arrived unasked stored unsent blank (hfiles.trans made)
      (hfile.trans held)
  | asked whole erased asked unstored unsent entry init named blank =>
    exact .asked whole erased asked unstored unsent entry init named blank
  | answering whole erased asked unstored file entry sending stands left reads =>
    refine .answering whole erased asked unstored file entry sending stands left fun hb => ?_
    exact hsending _ _ (file.trans (if_pos hb)) (reads hb)

/-- No `Request` is as good as a new one, since `operator[]` makes one when it is looked at. -/
theorem congr_request (h : Stage m fs files e request response phase) {request' : Option Request}
    (heq : request'.getD Request.init = request.getD Request.init) :
    Stage m fs files e request' response phase := by
  cases h with
  | waiting arrived unasked unstored unsent blank =>
    exact .waiting (heq ▸ arrived) unasked unstored unsent blank
  | storing message arrived unasked stored unsent blank made held =>
    exact .storing message (heq ▸ arrived) unasked stored unsent blank made held
  | asked whole erased asked unstored unsent entry init named blank =>
    exact .asked whole (heq.trans erased) asked unstored unsent entry init named blank
  | answering whole erased asked unstored file entry sending stands left reads =>
    exact .answering whole (heq.trans erased) asked unstored file entry sending stands left reads

end Stage

/-! ### What has arrived -/

/-- What has arrived of the request `m` when its session is in this phase: an upload is under way
from the moment its file is opened, and a response is asked for when the whole request is there. -/
inductive Arrived (m : Message) (e : Exchange) : Phase → Prop where
  | waiting (unasked : e.asked = false) (unstored : e.storing = none) : Arrived m e .waiting
  | storing {u : Upload} (message : m = .upload u) (begun : e.got ≠ []) (unasked : e.asked = false)
      (stored : e.storing = some u.path) : Arrived m e .storing
  | asked {resource : Bytes} (whole : e.got = m.bytes) (asked : e.asked = true)
      (unstored : e.storing = none) : Arrived m e (.asked resource)
  | answering {rest : Bytes} (whole : e.got = m.bytes) (asked : e.asked = true)
      (unstored : e.storing = none) : Arrived m e (.answering rest)

/-- **Before the first byte of a request its session waits.** -/
theorem Arrived.waiting_of_nothing {m : Message} {e : Exchange} {phase : Phase}
    (h : Arrived m e phase) (hgot : e.got = []) : phase = .waiting := by
  cases h with
  | waiting unasked unstored => rfl
  | storing message begun unasked stored => exact absurd hgot begun
  | asked whole asked unstored => exact absurd (whole.symm.trans hgot) m.bytes_ne_nil
  | answering whole asked unstored => exact absurd (whole.symm.trans hgot) m.bytes_ne_nil

/-- Where a connection is, as much of its request has arrived as its phase says. -/
theorem Stage.arrived {m : Message} {fs : FileSystem} {files : Bytes → File} {e : Exchange}
    {request : Option Request} {response : Option Response} {phase : Phase}
    (h : Stage m fs files e request response phase) : Arrived m e phase := by
  cases h with
  | waiting arrived unasked unstored unsent blank => exact .waiting unasked unstored
  | storing message arrived unasked stored unsent blank made held =>
    refine .storing message (fun hgot => ?_) unasked stored
    -- what has been stored has arrived
    rw [hgot] at arrived
    cases arrived.nothing.1
  | asked whole erased asked unstored unsent entry init named blank =>
    exact .asked whole asked unstored
  | answering whole erased asked unstored file entry sending stands left reads =>
    exact .answering whole asked unstored

/-! ### The states -/

/-- The state of the server and the state of the store. The first fields are what the server alone
has to keep; the others say that each client has been sent and has asked the same on both sides, and
that the files agree where nobody is uploading. -/
structure Simulated (script : ℕ → ℕ → Message) (files : Bytes → File) (s : FileServer)
    (a : FileStore) : Prop where
  up : s.base.down = false
  awake : ∀ c, s.base.stuck c = false
  numbered : s.base.Numbered
  free : ∀ d, s.base.conn d = none →
    s.base.requestStatus d = none ∧ Blank (s.base.responseStatus d)
  wire : ∀ c, onWire (s.base.log c) = (a.session c).wire
  served : ∀ c, (s.exchange c).answered = (a.session c).served
  new : ∀ c, s.base.accepted ≤ c → a.session c = .start
  /-- What has happened for a client is in step with what has arrived from it, also when its
  connection has been closed. -/
  arrived : ∀ c, Arrived (script c (a.session c).served) (s.exchange c) (a.session c).phase
  stage : ∀ d c, s.base.conn d = some c → Stage (script c (a.session c).served) s.disk
    (a.files files) (s.exchange c) (s.base.requestStatus d) (s.base.responseStatus d)
    (a.session c).phase
  /-- A file that is not being uploaded is the one of the store. -/
  settled : ∀ path, (∀ c, (s.exchange c).storing ≠ some path) →
    s.disk.file path = a.files files path
  alone : ∀ c c' path, (s.exchange c).storing = some path → (s.exchange c').storing = some path →
    c = c'
  uploading : ∀ c path, (s.exchange c).storing = some path → ∃ d, s.base.conn d = some c

namespace FileServer

/-- Behind a call: the tables and the connections are what the call leaves, and the files what its
actions have made of them. -/
def behind (s : FileServer) (fd : ℤ) (c : ℕ) (x : HandleSend.Call) : FileServer :=
  ⟨s.base.after fd c x, s.disk.afterAll x.acts⟩

variable {s t : FileServer} {a b : FileStore} {script : ℕ → ℕ → Message} {files : Bytes → File}
  {page : Bytes} {fd : ℤ} {c : ℕ} {x : HandleSend.Call}

/-- The account of the connection a call is for: the actions of the call are entered. -/
theorem exchange_behind_self : (s.behind fd c x).exchange c =
    x.acts.foldl Exchange.enter (s.exchange c) := by
  unfold exchange behind
  rw [Server.after_log_self, exchange_append]

/-- The account of another connection stays as it is when a call is made for this one. -/
theorem exchange_behind_of_ne {c' : ℕ} (h : c' ≠ c) :
    (s.behind fd c x).exchange c' = s.exchange c' := by
  unfold exchange behind
  rw [Server.after_log_of_ne h]

/-- A call that is made finds a client under its descriptor, and leaves what it has done behind
it. -/
theorem call_eq_some {h : Handler} (hcall : s.call fd h = some t) :
    ∃ c, s.base.ready fd = some c ∧ t = s.behind fd c (s.base.call fd h) := by
  obtain ⟨base, hstep, rfl⟩ := Option.map_eq_some_iff.mp hcall
  obtain ⟨c, hready, rfl⟩ := Server.call_eq_some.mp hstep
  exact ⟨c, hready, rfl⟩

/-- **What is read through a descriptor** is still read behind actions that do not close it, open
none in use and do not write over its file. -/
theorem reads_afterAll {acts : List Action} {d : ℤ} (hstrays : d ∉ strays acts)
    (hopens : ∀ path d, Action.openRead path (some d) ∈ acts → ¬ s.InUse d) {body : Bytes}
    (hover : ∀ act ∈ acts, ∀ path, act.overwritten = some path →
      s.disk.inode path ≠ s.disk.opened d)
    (hreads : s.disk.Reads d body) : (s.disk.afterAll acts).Reads d body := by
  obtain ⟨i, hopened, -⟩ := id hreads
  have huse : s.InUse d := .inr (by rw [hopened]; exact Option.some_ne_none i)
  refine hreads.afterAll (fun act hact hrenews => ?_) hover
  -- only an `open` that returns the descriptor or its `close` renews what it is of
  cases act with
  | openRead path e =>
    obtain rfl : e = some d := hrenews
    exact hopens path d hact huse
  | closeFile e =>
    obtain rfl : e = d := hrenews
    exact hstrays (List.mem_filterMap.mpr ⟨_, hact, rfl⟩)
  | _ => cases hrenews

/-- A connection stays open behind a call, unless it is this one and the call has closed it. -/
theorem conn_behind (hspares : s.Spares c x.acts) {d : ℤ} {c' : ℕ} (hd : s.base.conn d = some c')
    (hopen : d = fd → ¬ closes x.acts = true) : (s.behind fd c x).base.conn d = some c' := by
  refine (if_neg ?_).trans hd
  rintro (hstray | ⟨heq, hclosed⟩)
  · rw [(hspares.strays d hstray).1] at hd
    cases hd
  · exact hopen heq hclosed

section Steps

variable {l : Label} {h : Handler}

/-- **What a step is**: an accept, or the call of a handler. -/
theorem step_cases (hstep : s.step page l = some t) :
    (∃ fd base, l = .accept fd ∧ s.base.step (.accept fd) = some base ∧ t = { s with base }) ∨
      ∃ fd h c, s.handler page l = some (fd, h) ∧ s.base.ready fd = some c ∧
        t = s.behind fd c (s.base.call fd h) := by
  have hcalled (hl : s.step page l = (s.handler page l).bind fun p => s.call p.1 p.2) :
      ∃ fd h c, s.handler page l = some (fd, h) ∧ s.base.ready fd = some c ∧
        t = s.behind fd c (s.base.call fd h) := by
    obtain ⟨⟨fd, h⟩, hhandler, hcall⟩ := Option.bind_eq_some_iff.mp (hl.symm.trans hstep)
    obtain ⟨c, hready, hbehind⟩ := call_eq_some hcall
    exact ⟨fd, h, c, hhandler, hready, hbehind⟩
  cases l with
  | accept fd =>
    change (if s.disk.opened fd = none then _ else none) = some t at hstep
    split at hstep
    · obtain ⟨base, hbase, rfl⟩ := Option.map_eq_some_iff.mp hstep
      exact .inl ⟨fd, base, rfl, hbase, rfl⟩
    · cases hstep
  | recv fd results fresh => exact .inr (hcalled rfl)
  | send fd v results => exact .inr (hcalled rfl)

/-- What the handler of a step finds. -/
theorem handler_cases (hhandler : s.handler page l = some (fd, h)) :
    (∃ results fresh, l = .recv fd results fresh ∧ h = .recv results fresh) ∨
      ∃ v results content, l = .send fd v results ∧ s.Offers v ∧ s.source page fd v = some content ∧
        h = s.sending page v results content := by
  cases l with
  | accept d => cases hhandler
  | recv d results fresh =>
    cases hhandler
    exact .inl ⟨results, fresh, rfl, rfl⟩
  | send d v results =>
    change (if s.Offers v then _ else none) = some (fd, h) at hhandler
    split at hhandler
    · next hoffers =>
      obtain ⟨content, hsource, hp⟩ := Option.map_eq_some_iff.mp hhandler
      cases hp
      exact .inr ⟨v, results, content, rfl, hoffers, hsource, rfl⟩
    · cases hhandler

/-- A handler that finds its connection ready is the call of the step. -/
theorem mem_callOf (hhandler : s.handler page l = some (fd, h))
    (hready : s.base.ready fd = some c) :
    (c, s.base.call fd h) ∈ s.callOf page l := by
  change (s.handler page l).bind _ = some _
  rw [hhandler]
  change (s.base.ready fd).map _ = some _
  rw [hready]
  rfl

end Steps

end FileServer

namespace Simulated

open FileServer

variable {s : FileServer} {a b : FileStore} {script : ℕ → ℕ → Message} {files : Bytes → File}
  {fd : ℤ} {c : ℕ} {x : HandleSend.Call}

/-- A connection that is uploading has been accepted. -/
theorem accepted_of_storing (h : Simulated script files s a) {c' : ℕ} {path : Bytes}
    (hs : (s.exchange c').storing = some path) : c' < s.base.accepted := by
  by_contra hge
  have hlog := h.numbered.unused c' (Nat.le_of_not_lt hge)
  rw [FileServer.exchange, hlog] at hs
  cases hs

/-- A connection that is downloading has been accepted. -/
theorem accepted_of_sending (h : Simulated script files s a) {c' : ℕ} {d : ℤ}
    (hs : (s.exchange c').sending = some d) : c' < s.base.accepted := by
  by_contra hge
  have hlog := h.numbered.unused c' (Nat.le_of_not_lt hge)
  rw [FileServer.exchange, hlog] at hs
  cases hs

/-- A call that keeps off the others leaves the file that another connection is uploading. -/
theorem storing_kept (h : Simulated script files s a) (hapart : s.Apart c x.acts) {c' : ℕ}
    (hne : c' ≠ c) {path : Bytes} (hs : (s.exchange c').storing = some path) :
    ∀ act ∈ x.acts, act.touched ≠ some path := by
  -- the call keeps off what is being uploaded
  intro act hact htouched
  exact hapart.storing c' (h.accepted_of_storing hs) hne act hact path htouched hs

/-- It leaves what is read through the descriptor that another connection is downloading from. -/
theorem sending_kept (h : Simulated script files s a) (hapart : s.Apart c x.acts)
    (hopens : ∀ path d, Action.openRead path (some d) ∈ x.acts → ¬ s.InUse d) {c' : ℕ}
    (hne : c' ≠ c)
    {d : ℤ} {body : Bytes} (hs : (s.exchange c').sending = some d) (hreads : s.disk.Reads d body) :
    (s.disk.afterAll x.acts).Reads d body := by
  have hc' := h.accepted_of_sending hs
  refine reads_afterAll (fun hstray => (hapart.strays d hstray).2 c' hc' hne hs) hopens
    (fun act hact path hover => ?_) hreads
  exact hapart.sending c' hc' hne d hs act hact path hover

/-- What the store does in answer to a call `x` for the connection `c`, to come from `a` to `b`. The
account of the connection behind the call is `x.acts.foldl Exchange.enter (s.exchange c)`. -/
structure CallAnswer (script : ℕ → ℕ → Message) (files : Bytes → File) (s : FileServer)
    (a b : FileStore) (c : ℕ) (x : HandleSend.Call) : Prop where
  others : ∀ c', c' ≠ c → b.session c' = a.session c'
  untouched : ∀ path, (∀ act ∈ x.acts, act.touched ≠ some path) →
    b.files files path = a.files files path
  wire : (a.session c).wire ++ onWire x.acts = (b.session c).wire
  served : (x.acts.foldl Exchange.enter (s.exchange c)).answered = (b.session c).served
  /-- An upload that is under way behind the call was so before, or its file is touched. -/
  storing : ∀ path, (x.acts.foldl Exchange.enter (s.exchange c)).storing = some path →
    (s.exchange c).storing = some path ∨ ∃ act ∈ x.acts, act.touched = some path
  stage : closes x.acts = false → Stage (script c (b.session c).served) (s.disk.afterAll x.acts)
    (b.files files) (x.acts.foldl Exchange.enter (s.exchange c)) x.request x.response
    (b.session c).phase
  closed : closes x.acts = true → x.request = none ∧ Blank x.response ∧
    Arrived (script c (b.session c).served) (x.acts.foldl Exchange.enter (s.exchange c))
      (b.session c).phase ∧ (x.acts.foldl Exchange.enter (s.exchange c)).storing = none
  /-- A file that nobody is uploading behind the call is the one of the store. -/
  settled : ∀ path, (x.acts.foldl Exchange.enter (s.exchange c)).storing ≠ some path →
    (∀ c', c' ≠ c → (s.exchange c').storing ≠ some path) →
      fileAfter path (s.disk.file path) x.acts = b.files files path

/-- The files behind a call that keeps to `filedir` are what its actions make of them. -/
theorem file_behind (hapart : s.Apart c x.acts) (path : Bytes) :
    (s.disk.afterAll x.acts).file path = fileAfter path (s.disk.file path) x.acts :=
  s.disk.file_afterAll (fun act hact p hp =>
    hapart.plain act hact p (Action.touched_of_alters hp)) path

/-! #### Behind a call, one part of the relation after the other -/

section Behind

variable (h : Simulated script files s a) (hfd : s.base.conn fd = some c)
  (hapart : s.Apart c x.acts) (hanswer : CallAnswer script files s a b c x)

include h hfd hapart hanswer in
/-- A descriptor that is free has no entries: it was so before, or it has been closed. -/
theorem free_behind {d : ℤ} (hd : (s.behind fd c x).base.conn d = none) :
    (s.behind fd c x).base.requestStatus d = none ∧
      Blank ((s.behind fd c x).base.responseStatus d) := by
  have hother (hnone : s.base.conn d = none) : (s.base.after fd c x).requestStatus d = none ∧
      Blank ((s.base.after fd c x).responseStatus d) := by
    have hne : d ≠ fd := by
      rintro rfl
      cases hfd.symm.trans hnone
    rw [Server.after_requestStatus_of_ne hne, Server.after_responseStatus_of_ne hne]
    exact h.free d hnone
  -- closed as the descriptor of a file, closed by the call, or free before
  rcases Server.conn_after_eq_none hd with hstray | ⟨rfl, hcloses⟩ | hnone
  · exact hother (hapart.strays d hstray).1
  · obtain ⟨hrequest, hblank, -, -⟩ := hanswer.closed hcloses
    exact ⟨(Server.after_requestStatus_self ..).trans hrequest,
      (Server.after_responseStatus_self s.base d c x).symm ▸ hblank⟩
  · exact hother hnone

include h hanswer in
/-- What the clients have been sent: its own client as much as the answer says, and the others what
they had been sent before. -/
theorem wire_behind (c' : ℕ) : onWire ((s.behind fd c x).base.log c') = (b.session c').wire := by
  by_cases hc : c' = c
  · subst hc
    calc onWire ((s.behind fd c' x).base.log c')
        = onWire (s.base.log c' ++ x.acts) := congrArg onWire (Server.after_log_self ..)
      _ = (a.session c').wire ++ onWire x.acts := by rw [onWire_append, h.wire c']
      _ = (b.session c').wire := hanswer.wire
  · rw [hanswer.others c' hc, ← h.wire c']
    exact congrArg onWire (Server.after_log_of_ne hc)

include h hanswer in
/-- What has arrived from the clients goes with the phases of their sessions, also where the call
has closed the connection. -/
theorem arrived_behind (c' : ℕ) :
    Arrived (script c' (b.session c').served) ((s.behind fd c x).exchange c')
      (b.session c').phase := by
  by_cases hc : c' = c
  · subst hc
    rw [exchange_behind_self]
    -- the answer says where the connection is, or in what state it was closed
    cases hcloses : closes x.acts with
    | false => exact (hanswer.stage hcloses).arrived
    | true => exact (hanswer.closed hcloses).2.2.1
  · rw [exchange_behind_of_ne hc, hanswer.others c' hc]
    exact h.arrived c'

include h hfd hapart hanswer in
/-- The connection of the call is where the answer says, and the others are kept. -/
theorem stage_behind (hopens : ∀ path d, Action.openRead path (some d) ∈ x.acts → ¬ s.InUse d)
    {d : ℤ} {c' : ℕ} (hd : (s.behind fd c x).base.conn d = some c') :
    Stage (script c' (b.session c').served) (s.behind fd c x).disk (b.files files)
      ((s.behind fd c x).exchange c') ((s.behind fd c x).base.requestStatus d)
      ((s.behind fd c x).base.responseStatus d) (b.session c').phase := by
  obtain ⟨hconn, hopen⟩ := Server.conn_of_after hd
  by_cases hc : c' = c
  · subst hc
    obtain rfl := h.numbered.apart d fd c' hconn hfd
    have hown := hanswer.stage (hopen rfl)
    rw [exchange_behind_self]
    exact (Server.after_requestStatus_self s.base d c' x).symm ▸
      (Server.after_responseStatus_self s.base d c' x).symm ▸ hown
  -- the entries of another connection are untouched, and what it uploads or downloads is kept
  · have hne : d ≠ fd := by
      rintro rfl
      exact hc (Option.some.inj (hconn.symm.trans hfd))
    have hold := h.stage d c' hconn
    rw [exchange_behind_of_ne hc, hanswer.others c' hc]
    change Stage _ _ _ _ ((s.base.after fd c x).requestStatus d)
      ((s.base.after fd c x).responseStatus d) _
    rw [Server.after_requestStatus_of_ne hne, Server.after_responseStatus_of_ne hne]
    refine hold.frame (fun path hpath => ?_) fun d' body hd' hreads =>
      h.sending_kept hapart hopens hc hd' hreads
    have htouched := h.storing_kept hapart hc hpath
    refine ⟨(file_behind hapart path).trans ?_, hanswer.untouched path htouched⟩
    exact fileAfter_of_not_alters (fun act hact hp =>
      htouched act hact (Action.touched_of_alters hp)) _

include hapart hanswer in
/-- A file that nobody is uploading behind the call is the one of the store. -/
theorem settled_behind {path : Bytes}
    (hpath : ∀ c', ((s.behind fd c x).exchange c').storing ≠ some path) :
    (s.behind fd c x).disk.file path = b.files files path := by
  refine (file_behind hapart path).trans ?_
  refine hanswer.settled path (fun hs => hpath c ?_) fun c' hc hs => hpath c' ?_
  · rw [exchange_behind_self, hs]
  · rw [exchange_behind_of_ne hc, hs]

include h hapart hanswer in
/-- What the connection is uploading behind the call, no other one is. -/
theorem alone_behind {c₁ c₂ : ℕ} {path : Bytes}
    (h₁ : ((s.behind fd c x).exchange c₁).storing = some path)
    (h₂ : ((s.behind fd c x).exchange c₂).storing = some path) : c₁ = c₂ := by
  -- what is new behind the call is touched in it, and so nobody else's
  have hnew {c' : ℕ} (hne : c' ≠ c)
      (hown : (x.acts.foldl Exchange.enter (s.exchange c)).storing = some path)
      (hother : (s.exchange c').storing = some path) : False := by
    rcases hanswer.storing path hown with hold | ⟨act, hact, htouched⟩
    · exact hne (h.alone c' c path hother hold)
    · exact h.storing_kept hapart hne hother act hact htouched
  -- the connection of the call may be either of the two
  by_cases hc₁ : c₁ = c <;> by_cases hc₂ : c₂ = c
  · exact hc₁.trans hc₂.symm
  · subst hc₁
    rw [exchange_behind_self] at h₁
    rw [exchange_behind_of_ne hc₂] at h₂
    exact (hnew hc₂ h₁ h₂).elim
  · subst hc₂
    rw [exchange_behind_self] at h₂
    rw [exchange_behind_of_ne hc₁] at h₁
    exact (hnew hc₁ h₂ h₁).elim
  · rw [exchange_behind_of_ne hc₁] at h₁
    rw [exchange_behind_of_ne hc₂] at h₂
    exact h.alone c₁ c₂ path h₁ h₂

include h hfd hapart hanswer in
/-- A connection that is uploading behind the call is open: the call closes none as a file, and its
own only when nothing is being uploaded on it. -/
theorem uploading_behind {c' : ℕ} {path : Bytes}
    (hpath : ((s.behind fd c x).exchange c').storing = some path) :
    ∃ d, (s.behind fd c x).base.conn d = some c' := by
  by_cases hc : c' = c
  · subst hc
    refine ⟨fd, conn_behind hapart.toSpares hfd fun _ hclose => ?_⟩
    rw [exchange_behind_self, (hanswer.closed hclose).2.2.2] at hpath
    cases hpath
  · rw [exchange_behind_of_ne hc] at hpath
    obtain ⟨d, hd⟩ := h.uploading c' path hpath
    refine ⟨d, conn_behind hapart.toSpares hd fun hdf _ => hc ?_⟩
    rw [hdf, hfd] at hd
    exact (Option.some.inj hd).symm

end Behind

/-- **A call that keeps off the others** and is answered by the store keeps the relation. Each part
of it has a lemma of its own above. -/
theorem after (h : Simulated script files s a) (hfd : s.base.conn fd = some c)
    (hapart : s.Apart c x.acts) (hreturns : s.Returns c x)
    (hopens : ∀ path d, Action.openRead path (some d) ∈ x.acts → ¬ s.InUse d)
    (hanswer : CallAnswer script files s a b c x) :
    Simulated script files (s.behind fd c x) b where
  -- the call returns, so that no handler hangs and the process is there
  up := by
    change x.crash.any _ = false
    rw [hreturns.crash]
    rfl
  awake c' := by
    change (if x.crash = some .diverges then _ else s.base.stuck) c' = false
    rw [hreturns.crash, if_neg (Option.some_ne_none _).symm]
    exact h.awake c'
  numbered := h.numbered.after hfd x
  free d hd := h.free_behind hfd hapart hanswer hd
  wire c' := h.wire_behind hanswer c'
  served c' := by
    by_cases hc : c' = c
    · subst hc
      rw [exchange_behind_self, hanswer.served]
    · rw [exchange_behind_of_ne hc, hanswer.others c' hc, h.served c']
  -- the connection of the call has been accepted
  new c' hc' := by
    have hc : c' ≠ c := Nat.ne_of_gt (Nat.lt_of_lt_of_le (h.numbered.below fd c hfd) hc')
    rw [hanswer.others c' hc]
    exact h.new c' hc'
  arrived c' := h.arrived_behind hanswer c'
  stage d c' hd := h.stage_behind hfd hapart hanswer hopens hd
  settled path hpath := settled_behind hapart hanswer hpath
  alone c₁ c₂ path h₁ h₂ := h.alone_behind hapart hanswer h₁ h₂
  uploading c' path hpath := h.uploading_behind hfd hapart hanswer hpath

/-- A call whose session goes on from `a` is answered by the store: by the moves that take the
session there. -/
theorem goes {page : Bytes} (h : Simulated script files s a) (hfd : s.base.conn fd = some c)
    (hapart : s.Apart c x.acts) (hreturns : s.Returns c x)
    (hopens : ∀ path d, Action.openRead path (some d) ∈ x.acts → ¬ s.InUse d) {es : List StoreOp}
    {next : Session} (hgoes : Goes page (script c) (a.files files) (a.session c) es next)
    (hanswer : CallAnswer script files s a (a.put c es next) c x) :
    ∃ ms b, (fileStore files page script).run a ms = some b ∧
      Simulated script files (s.behind fd c x) b := by
  obtain ⟨ms, hms⟩ := FileStore.run_of_goes hgoes
  exact ⟨ms, _, hms, h.after hfd hapart hreturns hopens hanswer⟩

/-- What is to be said of the answer in which the session goes on to `next`, and `es` happen. -/
theorem CallAnswer.of_goes {es : List StoreOp} {next : Session}
    (hfiles : ∀ path, (∀ act ∈ x.acts, act.touched ≠ some path) →
      filesAfter (a.files files) es path = a.files files path)
    (hwire : (a.session c).wire ++ onWire x.acts = next.wire)
    (hserved : (x.acts.foldl Exchange.enter (s.exchange c)).answered = next.served)
    (hstoring : ∀ path, (x.acts.foldl Exchange.enter (s.exchange c)).storing = some path →
      (s.exchange c).storing = some path ∨ ∃ act ∈ x.acts, act.touched = some path)
    (hstage : closes x.acts = false → Stage (script c next.served) (s.disk.afterAll x.acts)
      (filesAfter (a.files files) es) (x.acts.foldl Exchange.enter (s.exchange c)) x.request
      x.response next.phase)
    (hclosed : closes x.acts = true → x.request = none ∧ Blank x.response ∧
      Arrived (script c next.served) (x.acts.foldl Exchange.enter (s.exchange c)) next.phase ∧
      (x.acts.foldl Exchange.enter (s.exchange c)).storing = none)
    (hsettled : ∀ path, (x.acts.foldl Exchange.enter (s.exchange c)).storing ≠ some path →
      (∀ c', c' ≠ c → (s.exchange c').storing ≠ some path) →
        fileAfter path (s.disk.file path) x.acts = filesAfter (a.files files) es path) :
    CallAnswer script files s a (a.put c es next) c x where
  others c' hc := a.session_put_of_ne c es next hc
  untouched := by simpa only [FileStore.files_put] using hfiles
  wire := by simpa only [FileStore.session_put_self] using hwire
  served := by simpa only [FileStore.session_put_self] using hserved
  storing := hstoring
  stage := by simpa only [FileStore.files_put, FileStore.session_put_self] using hstage
  closed := by simpa only [FileStore.session_put_self] using hclosed
  settled := by simpa only [FileStore.files_put] using hsettled

/-- A file that a call touches, and that its connection is not uploading, is the one of the
store. -/
theorem file_of_touched (h : Simulated script files s a) (hapart : s.Apart c x.acts) {path : Bytes}
    (hown : (s.exchange c).storing ≠ some path) (ht : ∃ act ∈ x.acts, act.touched = some path) :
    s.disk.file path = a.files files path := by
  refine h.settled path fun c' hs => ?_
  by_cases hc : c' = c
  · exact hown (hc ▸ hs)
  · obtain ⟨act, hact, htouched⟩ := ht
    exact h.storing_kept hapart hc hs act hact htouched

/-- The same files are there, on both sides. -/
theorem file_ne_none (h : Simulated script files s a) (path : Bytes) :
    s.disk.file path ≠ none ↔ a.files files path ≠ none := by
  by_cases hs : ∃ c, (s.exchange c).storing = some path
  -- a file that is being uploaded was made on both sides when the upload began
  · obtain ⟨c, hc⟩ := hs
    obtain ⟨d, hd⟩ := h.uploading c path hc
    have hstage := h.stage d c hd
    generalize (a.session c).phase = phase at hstage
    cases hstage with
    | storing message arrived unasked stored unsent blank made held =>
      obtain rfl := Option.some.inj (stored.symm.trans hc)
      rw [made, held]
      exact iff_of_true (Option.some_ne_none _) (Option.some_ne_none _)
    | waiting _ _ unstored _ _ => rw [unstored] at hc; cases hc
    | asked _ _ _ unstored _ _ _ _ _ => rw [unstored] at hc; cases hc
    | answering _ _ _ unstored _ _ _ _ _ _ => rw [unstored] at hc; cases hc
  · rw [h.settled path fun c hc => hs ⟨c, hc⟩]

end Simulated

end Cherokee
