import Cherokee.Exits
import Cherokee.Interference
import Cherokee.Linear

/-!
# Downloads while the directory changes

A download is answered through a descriptor that is opened once, with the length the file has at
that moment. Uploads may append to the file while it is being sent, it may be removed, and another
one may be made under its name; and the client may send its next requests before it has the answer.
It gets the file as it was.

Nothing is asked of the clients here, and nothing of uploads: only that nobody writes over a file
that is being downloaded (`FileServer.Spares`), which is what a `PUT` request does.

* `FileServer.Delivering`: the answer of a connection is on its way.
* `FileServer.download_snapshot`: a download sends the file as it was when it was opened, whatever
  the others do meanwhile.
-/

namespace Cherokee

open HandleSend HandleRecv

/-! ### Calls of `HandleRecv` -/

/-- The action is none of those that construct or send a response. -/
def Action.Arriving : Action → Prop
  | .built _ => False
  | .sent _ => False
  | .sentFile _ => False
  | .finished => False
  | .openRead _ _ => False
  | .openTrunc _ _ => False
  | .write _ _ => False
  | .closeFile _ => False
  | _ => True

section Arriving

variable {a : Action} {acts : List Action}

/-- What is done to receive constructs and sends nothing. -/
theorem Action.Receiving.arriving (h : a.Receiving) : a.Arriving := by
  cases a <;> trivial

/-- What arrives writes nothing to the connection. -/
theorem Action.Arriving.silent (h : a.Arriving) : a.Silent := by
  cases a <;> trivial

/-- What arrives opens and closes no descriptor of a file. -/
theorem Action.Arriving.not_renews (h : a.Arriving) (fd : ℤ) : ¬ a.Renews fd := by
  cases a <;> first | exact id | exact h.elim

/-- What arrives writes over no file: an upload appends. -/
theorem Action.Arriving.not_overwritten (h : a.Arriving) (path : Bytes) :
    a.overwritten ≠ some path := by
  cases a <;> first | exact (Option.some_ne_none path).symm | exact h.elim

/-- What is being sent is still sent. -/
theorem Exchange.enters_arriving (h : ∀ a ∈ acts, a.Arriving) (e : Exchange) :
    (acts.foldl Exchange.enter e).sending = e.sending ∧
      (acts.foldl Exchange.enter e).answered = e.answered := by
  induction acts generalizing e with
  | nil => exact ⟨rfl, rfl⟩
  | cons a acts ih =>
    -- none of these actions is entered where the sending is
    have ha := h a List.mem_cons_self
    obtain ⟨hsending, hanswered⟩ := ih (fun b hb => h b (List.mem_cons_of_mem _ hb)) (e.enter a)
    rw [List.foldl_cons, hsending, hanswered]
    cases a <;> first | exact ⟨rfl, rfl⟩ | exact ha.elim

end Arriving

/-- A call of `HandleRecv` sends nothing, and leaves the response as it is but for the name of a
resource that it hands over. -/
theorem recv_arriving (results : List HandleRecv.RecvResult) (fresh : Uninit)
    {request : Option Request} (response : Option Response)
    (hlive : ∀ q ∈ request, q.status ≠ .handleComplete) :
    let x := Handler.call (.recv results fresh) request response
    (∀ a ∈ x.acts, a.Arriving) ∧
      (x.response = response ∨
        ∃ name, x.response = some (Response.setBodyFileName fresh response name)) := by
  intro x
  obtain ⟨before, last, hacts, hbefore, hend⟩ := Conn.recv_receives results fresh response hlive
  have hall (hlast : ∀ a ∈ last, a.Arriving) : ∀ a ∈ x.acts, a.Arriving := by
    rw [show x.acts = _ from hacts]
    exact List.forall_mem_append.mpr ⟨fun a ha => (hbefore a ha).arriving, hlast⟩
  -- on each way out of a call the actions are listed
  cases hend with
  | waits r crash request live kept => exact ⟨hall (by simp [Action.Arriving]), .inl kept⟩
  | closes rearmed crash request arm kept =>
    refine ⟨hall ?_, .inl kept⟩
    rcases arm with rfl | rfl <;> simp [Action.Arriving]
  | asks name logged crash live handed completes =>
    refine ⟨hall ?_, .inr ⟨name, handed⟩⟩
    rcases completes with rfl | ⟨method, resource, -, -, rfl⟩ <;> simp [Action.Arriving]
  | openFails path r crash request live kept => exact ⟨hall (by simp [Action.Arriving]), .inl kept⟩
  | crashes f crash kept => exact ⟨hall (List.forall_mem_nil _), .inl kept⟩

namespace HandleSend

/-- The name of the next resource changes nothing of what is being sent. -/
theorem Stands.named {head body sent : Bytes} {r : Response} (h : Stands head body r sent)
    (name : Bytes) : Stands head body { r with bodyFileName := name } sent := by
  -- the name is no part of what is sent
  have hholds (h : r.Holds head body) :
    ({ r with bodyFileName := name } : Response).Holds head body :=
    ⟨h.headMsg, h.headLen, h.page, h.bodyLen, h.empty, h.room⟩
  cases h with
  | head holds status offset accepted => exact .head (hholds holds) status offset accepted
  | body holds status offset accepted => exact .body (hholds holds) status offset accepted
  | done status accepted => exact .done status accepted

/-- What a stage opens is what the system has given it. -/
def Opens (w : World) (acts : List Action) : Prop :=
  ∀ path fd, Action.openRead path (some fd) ∈ acts → ∃ size, w.openRead path = some (fd, size)

/-- What a stage opens for a resource is what the system has given it: only a download opens
anything to read. -/
theorem operaStage_opensRead (w : World) (request : Option Request) (r : Response) :
    Opens w (operaStage w request r).acts := by
  intro path fd hmem
  unfold operaStage at hmem
  split at hmem
  · cases hmem
  · next opera filename hsplit =>
    -- the resources one after the other; all but the download open nothing to read
    split_ifs at hmem
    · unfold filelistStage at hmem
      simp only at hmem
      split at hmem <;> simp [built] at hmem
    · unfold downlStage at hmem
      simp only at hmem
      split at hmem
      · simp [reenter] at hmem
      · next d size hopen =>
        obtain ⟨rfl, rfl⟩ : path = cStr (lit "filedir/" ++ filename) ∧ fd = d := by
          simpa [built] using hmem
        exact ⟨size, hopen⟩
    · simp [delStage, reenter] at hmem
    · unfold putStage at hmem
      simp only at hmem
      split at hmem <;> simp [built, reenter] at hmem
    · simp [redirectStage, built] at hmem

/-- **What a call opens is what the system has given it.** -/
theorem process_opensRead (w : World) (results : List SendResult) (request : Option Request)
    (response : Option Response) : Opens w (process w results request response).acts := by
  have hinit (r : Response) : Opens w (initStage w request r).acts := by
    intro path fd hmem
    unfold initStage at hmem
    split at hmem
    · exact operaStage_opensRead w request r path fd (by simpa [Stage.prepend] using hmem)
    · cases hmem
  -- what is done behind the send loop opens nothing
  have hfinish (request : Option Request) (r : Response) (path : Bytes) (fd : ℤ) :
      Action.openRead path (some fd) ∉ (finish w request r).acts := by
    have hstray : Action.openRead path (some fd) ∉ closeStray w := by
      unfold closeStray
      split <;> simp
    unfold finish
    split_ifs <;> simp [hstray]
  intro path fd hmem
  cases response with
  | none => cases hmem
  | some r =>
    -- nor does sending
    have hwriting := sendLoop_writing results (initStage w request r).request
      (initStage w request r).response (.openRead path (some fd))
    unfold process at hmem
    simp only at hmem
    split at hmem
    · exact hinit r path fd hmem
    · exact hinit r path fd hmem
    · split at hmem
      · rcases List.mem_append.mp hmem with hmem | hmem
        · exact hinit r path fd hmem
        · exact (hwriting hmem).elim
      · rcases List.mem_append.mp hmem with hmem | hmem
        · rcases List.mem_append.mp hmem with hmem | hmem
          · exact hinit r path fd hmem
          · exact (hwriting hmem).elim
        · exact absurd hmem (hfinish _ _ path fd)

end HandleSend

namespace Server

/-- No entry of `requestStatus` is complete. -/
def Live (s : Server) : Prop := ∀ d, ∀ q ∈ s.requestStatus d, q.status ≠ .handleComplete

/-- A call leaves no entry complete. -/
theorem Live.call {s : Server} (h : s.Live) (fd : ℤ) (x : Handler) :
    ∀ q ∈ (s.call fd x).request, q.status ≠ .handleComplete := by
  cases x with
  | send w results => exact process_request_live w results (h fd) (s.responseStatus fd)
  | recv results fresh =>
    obtain ⟨-, -, hreturns⟩ := recv_strays results fresh (s.responseStatus fd) (h fd)
    cases hcrash : (HandleRecv.process results (s.requestStatus fd)).crash with
    | none => exact hreturns hcrash
    | some f => exact process_live results (h fd) hcrash

/-- A call leaves the entries of its own descriptor live, and those of the others as they were. -/
theorem Live.after {s : Server} (h : s.Live) (fd : ℤ) (c : ℕ) (x : Handler) :
    (s.after fd c (s.call fd x)).Live := by
  intro d
  by_cases hd : d = fd
  · subst hd
    rw [after_requestStatus_self]
    exact h.call d x
  · rw [after_requestStatus_of_ne hd]
    exact h d

end Server

namespace FileServer

/-! ### What is spared -/

/-- A step whose call spares the downloads of the others. -/
def Sparing (page : Bytes) (s : FileServer) (l : Label) : Prop :=
  ∀ p ∈ s.callOf page l, s.Spares p.1 p.2.acts

instance (page : Bytes) (s : FileServer) (l : Label) : Decidable (s.Sparing page l) :=
  inferInstanceAs (Decidable (∀ p ∈ s.callOf page l, _))

/-- What holds of the connections in any run, with no condition on the calls. -/
structure Sound (s : FileServer) : Prop where
  numbered : s.base.Numbered
  live : s.base.Live

section Behind

variable {s : FileServer} {fd : ℤ} {c : ℕ} {x : HandleSend.Call}

/-- What a call opens was not in use. -/
theorem opens_fresh {page : Bytes} {l : Label} {h : Handler}
    (hhandler : s.handler page l = some (fd, h))
    {path : Bytes} {d : ℤ} (hopen : Action.openRead path (some d) ∈ (s.base.call fd h).acts)
    (hlive : s.base.Live) : ¬ s.InUse d := by
  -- a `HandleRecv` opens no file to read, and a `HandleSend` what it has been given
  rcases handler_cases hhandler with
    ⟨results, fresh, rfl, rfl⟩ | ⟨v, results, content, rfl, hoffers, -, rfl⟩
  · exact ((recv_arriving results fresh (s.base.responseStatus fd) (hlive fd)).1 _ hopen).elim
  · obtain ⟨size, hsize⟩ := process_opensRead _ _ _ _ path d hopen
    obtain ⟨-, -, -, rfl, -⟩ := FileSystem.world_opens hsize
    exact hoffers.2

end Behind

/-! ### An answer on its way -/

/-- The answer with the bytes `answer` is on its way on the connection `c`; `front` is what had been
sent before it, of `n` answers. -/
inductive Delivering (front answer : Bytes) (n c : ℕ) (s : FileServer) : Prop where
  /-- A part of it has been sent. -/
  | sending {fd : ℤ} {head body sent : Bytes} {r : Response} (conn : s.base.conn fd = some c)
      (entry : s.base.responseStatus fd = some r) (sending : Sending r)
      (stands : Stands head body r sent) (whole : head ++ body = answer)
      (wire : onWire (s.base.log c) = front ++ sent) (count : (s.exchange c).answered = n)
      (file : (s.exchange c).sending = if r.bodyType = .fileType then some r.fileMsgFd else none)
      (reads : r.bodyType = .fileType → s.disk.Reads r.fileMsgFd body)
  /-- All of it has been sent. -/
  | sent (wire : front ++ answer <+: onWire (s.base.log c))
  /-- The connection has been closed. -/
  | broken (accepted : c < s.base.accepted) (closed : ∀ fd, s.base.conn fd ≠ some c)
      (wire : onWire (s.base.log c) <+: front ++ answer) (count : (s.exchange c).answered = n)

namespace Delivering

variable {page front answer : Bytes} {s t : FileServer} {l : Label} {fd : ℤ} {n c : ℕ}
  {x : HandleSend.Call}

/-- What has been sent and the answer agree as far as both go. -/
theorem agrees (h : Delivering front answer n c s) :
    onWire (s.base.log c) <+: front ++ answer ∧ (s.exchange c).answered = n ∨
      front ++ answer <+: onWire (s.base.log c) := by
  -- a part has been sent, all of it and perhaps more, or a part before the connection was closed
  cases h with
  | sending conn entry sending stands whole wire count file reads =>
    rw [wire, ← whole]
    exact .inl ⟨List.prefix_append_right_inj front |>.mpr stands.isPrefix, count⟩
  | sent wire => exact .inr wire
  | broken accepted closed wire count => exact .inl ⟨wire, count⟩

/-- **A call that constructs or sends the response**: what it has done before are the actions
`pre`. -/
theorem of_delivers {call : HandleSend.Call} {pre : List Action} (hx : x = call.prepend pre)
    (hfd : s.base.conn fd = some c) (hspares : s.Spares c x.acts) {w : World}
    {head body sent rest : Bytes} {r : Response} (hdelivers : Delivers w head body sent rest r call)
    (hsilent : onWire pre = []) (hcloses : closes pre = false)
    (whole : head ++ body = answer) (hleft : head ++ body = sent ++ rest)
    (wire : onWire (s.base.log c) = front ++ sent)
    (count : (pre.foldl Exchange.enter (s.exchange c)).answered = n)
    (hentered : (pre.foldl Exchange.enter (s.exchange c)).sending =
      if r.bodyType = .fileType then some r.fileMsgFd else none)
    (hreads : r.bodyType = .fileType → (s.disk.afterAll pre).Reads r.fileMsgFd body) :
    Delivering front answer n c (s.behind fd c x) := by
  have hplain := hdelivers.plain
  have hxacts : x.acts = pre ++ call.acts := by rw [hx]; rfl
  have hlog : onWire ((s.behind fd c x).base.log c) = front ++ sent ++ onWire call.acts := by
    change onWire ((s.base.after fd c x).log c) = _
    rw [Server.after_log_self, onWire_append, wire, hxacts, onWire_append, hsilent, List.nil_append]
  cases hdelivers with
  -- the rest does not go out at once: the entry stays, and so does what it sends from
  | waits writes next left crash response acts writing sending same stands taken =>
    have hopen : closes x.acts = false := by
      rw [hxacts, Conn.closes_append, hcloses, Bool.false_or]
      exact Conn.closes_eq_false.mpr fun hc => (hplain _ hc).2 rfl
    have hsent : onWire call.acts = onWire writes := by
      rw [acts, onWire_append]
      exact List.append_nil _
    have hexchange : (s.behind fd c x).exchange c = pre.foldl Exchange.enter (s.exchange c) := by
      rw [exchange_behind_self, hxacts, List.foldl_append, acts, List.foldl_append,
        Exchange.enters_writing writing]
      rfl
    refine .sending (conn_behind hspares hfd fun _ => Bool.eq_false_iff.mp hopen) ?_ sending
      stands whole ?_ (hexchange ▸ count) ?_ fun hb => ?_
    · change (s.base.after fd c x).responseStatus fd = some next
      rw [Server.after_responseStatus_self, hx]
      exact response
    · rw [hlog, hsent, List.append_assoc]
    · rw [hexchange, same.bodyType, same.fileMsgFd]
      exact hentered
    · change (s.disk.afterAll x.acts).Reads next.fileMsgFd body
      rw [hxacts, FileSystem.afterAll_append, same.fileMsgFd]
      refine (hreads (same.bodyType ▸ hb)).afterAll (fun act hact => ?_)
        fun act hact path hover => ?_
      · rw [acts] at hact
        rcases List.mem_append.mp hact with hact | hact
        · have hwriting := writing act hact
          cases act <;> first | exact id | cases hwriting
        · obtain rfl := List.mem_singleton.mp hact
          exact id
      · have ht := (hplain act hact).1
        rw [Action.touched_of_overwritten hover] at ht
        exact absurd ht (Option.some_ne_none path)
  -- what the call does behind the answer (a close, or the descriptor of the file) sends nothing
  | finishes writes crash response acts writing taken =>
    refine .sent ?_
    have hsent : onWire call.acts = rest := by
      rw [acts, onWire_append, onWire_append, onWire_closeStray, taken]
      exact List.append_nil _
    rw [hlog, hsent, List.append_assoc, ← hleft, whole]

/-- A call for another connection. -/
theorem other (h : Delivering front answer n c s) (hsound : s.base.Numbered) {c' : ℕ}
    (hspares : s.Spares c' x.acts)
    (hopens : ∀ path d, Action.openRead path (some d) ∈ x.acts → ¬ s.InUse d)
    (hfd : s.base.conn fd = some c') (hne : c ≠ c') :
    Delivering front answer n c (s.behind fd c' x) := by
  have hlog : (s.behind fd c' x).base.log c = s.base.log c := Server.after_log_of_ne hne
  have hexchange : (s.behind fd c' x).exchange c = s.exchange c := exchange_behind_of_ne hne
  cases h with
  | @sending d head body sent r conn entry sending stands whole wire count file reads =>
    have hdf : d ≠ fd := by
      rintro rfl
      exact hne (Option.some.inj (conn.symm.trans hfd))
    refine .sending (conn_behind hspares conn fun heq => absurd heq hdf)
      ((Server.after_responseStatus_of_ne hdf).trans entry) sending stands whole
      (by rw [hlog, wire])
      (hexchange ▸ count) (hexchange ▸ file) fun hb => ?_
    -- the file is still open as `r.fileMsgFd`, and nothing behind it is written over
    have hsending := file.trans (if_pos hb)
    refine reads_afterAll (fun hstray => ?_) hopens (fun act hact path hover => ?_) (reads hb)
    · exact (hspares.strays _ hstray).2 c (hsound.below d c conn) hne hsending
    · exact hspares.sending c (hsound.below d c conn) hne _ hsending act hact path hover
  | sent wire => exact .sent (hlog ▸ wire)
  | broken accepted closed wire count =>
    exact .broken accepted (fun d hd => closed d (Server.conn_of_after hd).1) (hlog ▸ wire)
      (hexchange ▸ count)

/-- A call of `HandleRecv` for the connection. -/
theorem recv (h : Delivering front answer n c s) (hsound : s.Sound)
    {results : List HandleRecv.RecvResult}
    {fresh : Uninit} (hx : x = s.base.call fd (.recv results fresh)) (hfd : s.base.conn fd = some c)
    (hspares : s.Spares c x.acts) : Delivering front answer n c (s.behind fd c x) := by
  obtain ⟨harriving, hresponse⟩ :=
    recv_arriving results fresh (s.base.responseStatus fd) (hsound.live fd)
  replace harriving : ∀ a ∈ x.acts, a.Arriving := hx ▸ harriving
  have hlog : onWire ((s.behind fd c x).base.log c) = onWire (s.base.log c) := by
    change onWire ((s.base.after fd c x).log c) = _
    rw [Server.after_log_self, onWire_append, onWire_silent fun a ha => (harriving a ha).silent,
      List.append_nil]
  have hexchange : ((s.behind fd c x).exchange c).sending = (s.exchange c).sending ∧
      ((s.behind fd c x).exchange c).answered = (s.exchange c).answered := by
    rw [exchange_behind_self]
    exact Exchange.enters_arriving harriving _
  cases h with
  | @sending d head body sent r conn entry sending stands whole wire count file reads =>
    obtain rfl := hsound.numbered.apart d fd c conn hfd
    cases hopen : closes x.acts with
    -- the client has gone: nothing more is sent to it
    | true =>
      refine .broken (hsound.numbered.below d c conn) (fun d' hd' => ?_) ?_
        (hexchange.2.trans count)
      · obtain ⟨hbefore, hstays⟩ := Server.conn_of_after hd'
        rw [hstays (hsound.numbered.apart d' d c hbefore conn)] at hopen
        cases hopen
      · rw [hlog, wire, ← whole]
        exact List.prefix_append_right_inj front |>.mpr stands.isPrefix
    | false =>
      have hreads (hb : r.bodyType = .fileType) : (s.disk.afterAll x.acts).Reads r.fileMsgFd body :=
        (reads hb).afterAll (fun a ha => (harriving a ha).not_renews _)
          fun a ha path hover => absurd hover ((harriving a ha).not_overwritten path)
      have hcount := hexchange.2.trans count
      have hfile := hexchange.1.trans file
      have hconn : (s.behind d c x).base.conn d = some c :=
        conn_behind hspares conn fun _ => Bool.eq_false_iff.mp hopen
      have hentry : (s.behind d c x).base.responseStatus d = x.response :=
        Server.after_responseStatus_self ..
      -- a next request only renames the entry: its answer is constructed behind this one
      rcases hresponse with hkept | ⟨name, hnamed⟩
      · exact .sending hconn (hentry.trans (hx ▸ hkept.trans entry)) sending stands whole
          (hlog.trans wire) hcount hfile hreads
      · have hhanded : x.response = some { r with bodyFileName := name } := by
          rw [hx]
          exact hnamed.trans
            (congrArg (fun e => some (Response.setBodyFileName fresh e name)) entry)
        exact .sending hconn (hentry.trans hhanded) sending (stands.named name) whole
          (hlog.trans wire) hcount hfile hreads
  | sent wire => exact .sent (hlog ▸ wire)
  | broken accepted closed wire count => exact absurd hfd (closed fd)

/-- A call of `HandleSend` for the connection. -/
theorem send (h : Delivering front answer n c s) (hsound : s.base.Numbered) {v : View}
    {results : List SendResult} {content : Bytes} (hsource : s.source page fd v = some content)
    (hx : x = s.base.call fd (s.sending page v results content)) (hfd : s.base.conn fd = some c)
    (hspares : s.Spares c x.acts) : Delivering front answer n c (s.behind fd c x) := by
  cases h with
  | @sending d head body sent r conn entry sending stands whole wire count file reads =>
    obtain rfl := hsound.apart d fd c conn hfd
    have hcall : x = HandleSend.process (s.disk.world page v)
        (results.map (SendResult.reading content)) (s.base.requestStatus d) (some r) := by
      rw [hx, ← entry]
      rfl
    -- what `sendfile` reads is still what the file held
    have hcontent (hb : r.bodyType = .fileType) : body <+: content :=
      prefix_of_source hsource entry (initStage_of_not_init sending.not_init) rfl hb (reads hb)
    obtain ⟨rest, hrest⟩ := stands.isPrefix
    have hdelivers :=
      process_delivers (s.disk.world page v) results (s.base.requestStatus d) sending
      stands hrest.symm hcontent
    rw [← hcall] at hdelivers
    exact of_delivers (show x = x.prepend [] from rfl) hfd hspares hdelivers rfl rfl whole
      hrest.symm wire count file reads
  | sent wire =>
    refine .sent (wire.trans ?_)
    change _ <+: onWire ((s.base.after fd c x).log c)
    rw [Server.after_log_self, onWire_append]
    exact List.prefix_append _ _
  | broken accepted closed wire count => exact absurd hfd (closed fd)

/-- **A step keeps an answer on its way.** -/
theorem step (h : Delivering front answer n c s) (hsound : s.Sound) (hspares : s.Sparing page l)
    (hstep : s.step page l = some t) : Delivering front answer n c t := by
  rcases step_cases hstep with ⟨fd, base, rfl, hbase, rfl⟩ | ⟨fd, x, c', hhandler, hready, rfl⟩
  · obtain ⟨⟨-, hnone⟩, rfl⟩ := Server.accept_eq_some.mp hbase
    cases h with
    | @sending d head body sent r conn entry sending stands whole wire count file reads =>
      -- the descriptor `accept` returns is free, so it is not the one of `c`
      refine .sending ((Function.update_of_ne ?_ _ _).trans conn) entry sending stands
        whole wire count file reads
      rintro rfl
      rw [hnone] at conn
      cases conn
    | sent wire => exact .sent wire
    | broken accepted closed wire count =>
      refine .broken (Nat.lt_succ_of_lt accepted) (fun d hd => ?_) wire count
      rcases Server.conn_of_accept hd with ⟨-, rfl⟩ | ⟨-, hd⟩
      · exact Nat.lt_irrefl _ accepted
      · exact closed d hd
  · obtain ⟨-, hfd, -⟩ := Server.ready_eq_some.mp hready
    have hspares := hspares _ (mem_callOf hhandler hready)
    -- a call for `c` goes on with the answer, and any other one spares it
    by_cases hc : c = c'
    · subst hc
      rcases handler_cases hhandler with
        ⟨results, fresh, rfl, rfl⟩ | ⟨v, results, content, rfl, -, hsource, rfl⟩
      · exact h.recv hsound rfl hfd hspares
      · exact h.send hsound.numbered hsource rfl hfd hspares
    · exact h.other hsound.numbered hspares
        (fun path d hopen => opens_fresh hhandler hopen hsound.live) hfd hc

end Delivering

/-! ### Downloads -/

section Downloads

variable {page : Bytes} {fs : FileSystem} {s t u : FileServer} {ls : List Label}

/-- Every step keeps the connections numbered and the entries live. -/
theorem Sound.step {l : Label} (h : s.Sound) (hstep : s.step page l = some t) : t.Sound := by
  rcases step_cases hstep with ⟨fd, base, rfl, hbase, rfl⟩ | ⟨fd, x, c, hhandler, hready, rfl⟩
  · refine ⟨h.numbered.accept hbase, ?_⟩
    obtain ⟨-, rfl⟩ := Server.accept_eq_some.mp hbase
    exact h.live
  · obtain ⟨-, hfd, -⟩ := Server.ready_eq_some.mp hready
    exact ⟨h.numbered.after hfd _, h.live.after fd c x⟩

/-- The connections are numbered and the entries live in every run. -/
theorem sound_of_reachable {G : FileServer → Label → Prop}
    (h : (fileServer page fs).Reachable G s) :
    s.Sound :=
  h.invariant ⟨Server.numbered_init, fun _ _ hq => absurd hq (Option.not_mem_none _)⟩
    fun _ _ _ _ hs _ hstep => hs.step hstep

/-- A run keeps an answer on its way. -/
theorem Delivering.run {front answer : Bytes} {n c : ℕ} (h : Delivering front answer n c s)
    (hs : s.Sound) (hrun : (fileServer page fs).run s ls = some t)
    (hspares : (fileServer page fs).Along (Sparing page) s ls) : Delivering front answer n c t := by
  refine (Machine.run_invariant (I := fun u => Delivering front answer n c u ∧ u.Sound) ?_ ⟨h, hs⟩
    hrun hspares).1
  rintro u l v ⟨hdelivering, hsound⟩ hl hstep
  exact ⟨hdelivering.step hsound hl hstep, hsound.step hstep⟩

/-- What is taken apart as a download is the resource of one. -/
theorem splitResource_of_read {name path : Bytes} (h : Query.of name = some (.read path)) :
    ∃ filename, splitResource name = .ok (lit "downl", filename) ∧
      path = cStr (lit "filedir/" ++ filename) := by
  unfold Query.of at h
  cases hsplit : splitResource name with
  | error f =>
    rw [hsplit] at h
    cases h
  | ok p =>
    obtain ⟨opera, filename⟩ := p
    rw [hsplit] at h
    simp only [Option.some.injEq] at h
    split_ifs at h with hroot hdownl
    · cases h
      exact ⟨filename, by rw [hdownl], rfl⟩

/-- **A call that opens a file for a download** answers with what the file holds. -/
theorem delivering_of_read {fd : ℤ} {c : ℕ} {r : Response} {path body : Bytes} {v : View}
    {results : List SendResult} (hfd : s.base.conn fd = some c)
    (entry : s.base.responseStatus fd = some r) (init : r.status = .handleInit)
    (hquery : Query.of r.bodyFileName = some (.read path)) (hfile : s.disk.file path = some body)
    (hlen : body.length < 2 ^ 63) (hspares : s.Sparing page (.send fd v results))
    (hstep : s.step page (.send fd v results) = some t) :
    Delivering (onWire (s.base.log c)) ((Answer.file body).bytes page)
      (s.exchange c).answered c t := by
  obtain ⟨filename, hsplit, hpath⟩ := splitResource_of_read hquery
  rcases step_cases hstep with ⟨_, _, hl, -⟩ | ⟨d, h, c', hhandler, hready, rfl⟩
  · cases hl
  obtain ⟨-, hd, -⟩ := Server.ready_eq_some.mp hready
  have hspares := hspares _ (mem_callOf hhandler hready)
  rcases handler_cases hhandler with ⟨_, _, hl, -⟩ | ⟨_, _, content, hl, hoffers, hsource, rfl⟩
  · cases hl
  cases hl
  obtain rfl := Option.some.inj (hfd.symm.trans hd)
  have hcall : s.base.call fd (s.sending page v results content) =
      HandleSend.process (s.disk.world page v)
        (results.map (SendResult.reading content)) (s.base.requestStatus fd) (some r) := by
    rw [← entry]
    rfl
  -- the file opens, with the length it has
  have hopen : (s.disk.world page v).openRead (cStr (lit "filedir/" ++ filename)) =
      some (v.fileFd, ⟨body.length, hlen⟩) := by
    change (s.disk.file _).bind _ = _
    rw [← hpath, hfile]
    exact dif_pos hlen
  obtain ⟨r', hbuilt, hreply⟩ := downlStage_built hopen (s.base.requestStatus fd) r
  have hstage : operaStage (s.disk.world page v) (s.base.requestStatus fd) r = _ :=
    (operaStage_of_split hsplit _ _).trans hbuilt
  have hstands : Stands (Reply.file v.fileFd ⟨body.length, hlen⟩).head body r' [] :=
    hreply.stands rfl (lt_trans hlen (by decide))
  have hreads : (s.disk.afterAll [.dispatch r.bodyFileName, .openRead path (some v.fileFd),
      .built r']).Reads r'.fileMsgFd body := by
    rw [hreply.body.2.1]
    obtain ⟨i, hi, hcontent⟩ := Option.map_eq_some_iff.mp hfile
    exact ⟨i, (Function.update_self ..).trans hi, hcontent ▸ List.prefix_rfl⟩
  -- what `sendfile` reads is what the file holds now, as it has just been opened
  have hcontent : body <+: content := by
    refine prefix_of_source hsource entry (y := (built (s.base.requestStatus fd) r'
      [.openRead path (some v.fileFd)]).prepend [.dispatch r.bodyFileName]) ?_ rfl
        hreply.body.1 hreads
    rw [initStage_of_init init, hstage, hpath]
  have hdelivers := process_delivers (s.disk.world page v) results (s.base.requestStatus fd)
    (.inl hreply.status) hstands (List.nil_append _).symm fun _ => hcontent
  have hx := hcall.trans (process_opens init hstage hreply.status)
  -- the call has opened the file and constructed the response before it sends
  refine Delivering.of_delivers hx hfd hspares hdelivers rfl ?_ rfl rfl
    (List.append_nil _).symm rfl rfl fun _ => ?_
  · simp [closes]
  · rw [hpath] at hreads
    exact hreads

/-- **A download sends the file as it was** when it was opened: a run that spares the downloads
comes to a state in which the connection has been sent a part of the answer, or the answer and then
something else. -/
theorem download_snapshot {fd : ℤ} {c : ℕ} {r : Response} {path body : Bytes} {v : View}
    {results : List SendResult} (hs : (fileServer page fs).Reachable (Sparing page) s)
    (hfd : s.base.conn fd = some c) (entry : s.base.responseStatus fd = some r)
    (init : r.status = .handleInit) (hquery : Query.of r.bodyFileName = some (.read path))
    (hfile : s.disk.file path = some body) (hlen : body.length < 2 ^ 63)
    (hrun : (fileServer page fs).run s (.send fd v results :: ls) = some t)
    (hspares : (fileServer page fs).Along (Sparing page) s (.send fd v results :: ls)) :
    onWire (t.base.log c) <+: onWire (s.base.log c) ++ (Answer.file body).bytes page ∧
        (t.exchange c).answered = (s.exchange c).answered ∨
      onWire (s.base.log c) ++ (Answer.file body).bytes page <+: onWire (t.base.log c) := by
  have hsound := sound_of_reachable hs
  obtain ⟨u, hstep, hrest⟩ := Option.bind_eq_some_iff.mp hrun
  obtain ⟨hfirst, hls⟩ := hspares
  rw [hstep] at hls
  replace hstep : s.step page (.send fd v results) = some u := hstep
  have hopened := delivering_of_read hfd entry init hquery hfile hlen hfirst hstep
  exact (hopened.run (hsound.step hstep) hrest hls).agrees

end Downloads

/-! ### The file is changed and deleted meanwhile -/

/-- The notes have been stored, and are asked for. -/
def askedNotes : List Label :=
  [.accept 5, .accept 6, chunkOn 5 sampleUpload.bytes,
    sendOn 5 7 [lit "mynotes.txt"] [.accepted 2048 []], chunkOn 6 (noteScript 1 1).bytes]

/-- Behind the first bytes of the answer the notes are stored again and deleted, and the client asks
for the list. -/
def changedNotes : List Label :=
  [chunkOn 5 sampleUpload.bytes, sendOn 5 8 [lit "mynotes.txt"] [.accepted 2048 []],
    chunkOn 5 (noteScript 0 1).bytes, sendOn 5 8 [lit "mynotes.txt"] [],
    chunkOn 6 (noteScript 1 0).bytes, sendOn 6 8 [] [.accepted 2048 []]]

theorem download_snapshot_notes :
    ∃ s t, (fileServer labelPage .empty).run
      (fileServer labelPage .empty).start askedNotes = some s ∧
      (fileServer labelPage .empty).run s (sendOn 6 7 [lit "mynotes.txt"]
        [.accepted 2048 [], .accepted 1 []] :: changedNotes) = some t ∧
      t.disk.names = [] ∧
        onWire (s.base.log 1) ++ (Answer.file sampleUpload.content).bytes labelPage <+:
        onWire (t.base.log 1) := by
  let ls := sendOn 6 7 [lit "mynotes.txt"] [.accepted 2048 [], .accepted 1 []] :: changedNotes
  -- what the theorem asks of the state before the call, by running up to it
  have hasked :
      ((fileServer labelPage .empty).run (fileServer labelPage .empty).start askedNotes).map
        (fun s => (s.base.conn 6,
          (s.base.responseStatus 6).map (fun r => (r.status, Query.of r.bodyFileName)),
          s.disk.file (filedir ++ lit "mynotes.txt"))) =
      some (some 1, some (.handleInit, some (.read (filedir ++ lit "mynotes.txt"))),
        some sampleUpload.content) := by
    decide +kernel
  -- and of the run behind it, in which the answer is sent to its end
  have hchanged :
      ((fileServer labelPage .empty).run (fileServer labelPage .empty).start askedNotes).map
        (fun s => (decide ((fileServer labelPage .empty).Along (Sparing labelPage) s ls),
        ((fileServer labelPage .empty).run s ls).map fun t =>
          (decide ((t.exchange 1).answered = (s.exchange 1).answered), t.disk.names))) =
      some (true, some (false, [])) := by
    decide +kernel
  have halong : (fileServer labelPage .empty).Along (Sparing labelPage)
      (fileServer labelPage .empty).start askedNotes := by
    decide +kernel
  obtain ⟨s, hs, hwhat⟩ := Option.map_eq_some_iff.mp hasked
  obtain ⟨hconn, hwhat⟩ := Prod.mk.inj hwhat
  obtain ⟨hresponse, hfile⟩ := Prod.mk.inj hwhat
  obtain ⟨r, entry, hentry⟩ := Option.map_eq_some_iff.mp hresponse
  obtain ⟨init, hquery⟩ := Prod.mk.inj hentry
  rw [hs] at hchanged
  obtain ⟨hspares, hend⟩ := Prod.mk.inj (Option.some.inj hchanged)
  obtain ⟨t, ht, hwhat⟩ := Option.map_eq_some_iff.mp hend
  obtain ⟨hanswered, hnames⟩ := Prod.mk.inj hwhat
  rcases download_snapshot (Machine.reachable_of_run .start hs halong) hconn entry init hquery hfile
    (by decide) ht (of_decide_eq_true hspares) with ⟨-, hcount⟩ | hsent
  · exact absurd hcount (of_decide_eq_false hanswered)
  · exact ⟨s, t, hs, ht, hnames, hsent⟩

end FileServer

end Cherokee
