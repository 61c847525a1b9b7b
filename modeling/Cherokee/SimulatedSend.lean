import Cherokee.Lingering
import Cherokee.Simulated

/-!
# A call of `HandleSend` and the store

A call that constructs a response answers the request from the files as they are: this is the moment
of the request. What is sent afterwards is the rest of the answer.

* `Simulated.send`: a call of `HandleSend` in an orderly run.
-/

namespace Cherokee

open HandleSend HandleRecv

/-! ### Sending an answer -/

section Goes

variable {page : Bytes} {m : ℕ → Message} {files : Bytes → File} {s s' : Session}
    {es : List StoreOp}

/-- A part of the answer is sent. -/
theorem Goes.delivers {w left : Bytes} (h : Goes page m files s es s')
    (hphase : s'.phase = .answering (w ++ left)) :
    Goes page m files s es
      { phase := .answering left, served := s'.served, wire := s'.wire ++ w } := by
  have hstep := h.step (.sends w.length hphase)
  rw [List.drop_left, List.take_left, Option.toList_none, List.append_nil] at hstep
  exact hstep

/-- The answer has been sent. -/
theorem Goes.settles (h : Goes page m files s es s') (hphase : s'.phase = .answering []) :
    Goes page m files s es { phase := .waiting, served := s'.served + 1, wire := s'.wire } := by
  have hstep := h.step (.settles hphase)
  rw [Option.toList_none, List.append_nil] at hstep
  exact hstep

end Goes

namespace HandleSend

/-- What a call does to send a response touches no file and closes no connection. -/
theorem Delivers.plain {w : World} {head body sent rest : Bytes} {r : Response} {c : Call}
    (h : Delivers w head body sent rest r c) :
    ∀ act ∈ c.acts, act.touched = none ∧ act ≠ .closeClient := by
  -- a `send` and a `sendfile` touch no file of `filedir`
  have hwriting {writes : List Action} (hw : ∀ act ∈ writes, act.Writing) :
      ∀ act ∈ writes, act.touched = none ∧ act ≠ .closeClient := by
    intro act hact
    have hwrites := hw act hact
    cases act with
    | sent data => exact ⟨rfl, by simp⟩
    | sentFile data => exact ⟨rfl, by simp⟩
    | _ => cases hwrites
  -- what comes last in the call arms the descriptor, or settles the response
  cases h with
  | waits writes next left crash response acts writing sending same stands taken =>
    rw [acts]
    refine List.forall_mem_append.mpr ⟨hwriting writing, ?_⟩
    simp [Action.touched]
  | finishes writes crash response acts writing taken =>
    rw [acts]
    refine List.forall_mem_append.mpr ⟨hwriting writing, List.forall_mem_append.mpr ⟨?_, ?_⟩⟩
    · simp [Action.touched]
    · exact forall_mem_closeStray w fun fd => ⟨rfl, by simp⟩

end HandleSend

/-- What is written is not entered into the account of the connection. -/
theorem Exchange.enters_writing {writes : List Action} (h : ∀ act ∈ writes, act.Writing)
    (e : Exchange) : writes.foldl Exchange.enter e = e := by
  induction writes with
  | nil => rfl
  | cons act writes ih =>
    have hact := h act List.mem_cons_self
    rw [List.foldl_cons, show e.enter act = e by cases act <;> first | rfl | cases hact]
    exact ih fun b hb => h b (List.mem_cons_of_mem _ hb)

/-- Nor is the `close` behind an erased response. -/
theorem Exchange.enters_closeStray (w : World) (e : Exchange) :
    (closeStray w).foldl Exchange.enter e = e := by
  unfold closeStray
  split <;> rfl

namespace FileSystem

/-- A file that opens is there, and its size is that of what it holds. -/
theorem world_opens {fs : FileSystem} {page path : Bytes} {v : FileServer.View} {fd : ℤ}
    {size : Fin (2 ^ 63)} (h : (fs.world page v).openRead path = some (fd, size)) :
    ∃ body, fs.file path = some body ∧ ∃ hlen : body.length < 2 ^ 63,
      v.fileFd = fd ∧ ⟨body.length, hlen⟩ = size := by
  obtain ⟨body, hfile, hopen⟩ := Option.bind_eq_some_iff.mp h
  split at hopen
  · next hlen => exact ⟨body, hfile, hlen, Prod.mk.inj (Option.some.inj hopen)⟩
  · cases hopen

/-- A file that does not open is not there, or too long for the store as well. -/
theorem opens_of_world {fs : FileSystem} {page path : Bytes} {v : FileServer.View}
    (h : (fs.world page v).openRead path = none) : StoreOp.opens (fs.file path) = none := by
  cases hfile : fs.file path with
  | none => rfl
  | some body =>
    have hopen : (if h : body.length < 2 ^ 63 then
        some (v.fileFd, (⟨body.length, h⟩ : Fin (2 ^ 63))) else none) = none := by
      have hbind : (fs.file path).bind _ = none := h
      rwa [hfile] at hbind
    by_cases hlen : body.length < 2 ^ 63
    · rw [dif_pos hlen] at hopen
      cases hopen
    · rw [StoreOp.opens, Option.filter_some, if_neg (by simpa using hlen)]

/-- What is removed is there, or it was not there before. -/
theorem on_remove (fs : FileSystem) (page : Bytes) (v : FileServer.View) (path p : Bytes) :
    (Action.remove path ((fs.world page v).remove path)).on p (fs.file p) =
      (StoreOp.removed path).on p (fs.file p) := by
  -- `remove` has succeeded just if there was a file; any other file stays
  by_cases hp : path = p
  · subst hp
    cases hfile : fs.file path <;>
      simp [Action.on, Action.alters, Action.onFile, StoreOp.on, world, hfile]
  · simp [Action.on, Action.alters, StoreOp.on, hp]

end FileSystem

namespace FileServer

/-- What a `sendfile` of a call reads begins with what the file of its response held. -/
theorem prefix_of_source {s : FileServer} {page : Bytes} {fd : ℤ} {v : View} {content body : Bytes}
    (hsource : s.source page fd v = some content) {r : Response}
    (hr : s.base.responseStatus fd = some r) {y : HandleSend.Stage}
    (hy : initStage (s.disk.world page v) (s.base.requestStatus fd) r = y)
    (hflow : y.flow = .proceed) (hb : y.response.bodyType = .fileType)
    (hreads : (s.disk.afterAll y.acts).Reads y.response.fileMsgFd body) : body <+: content := by
  obtain ⟨i, hopened, hbody⟩ := hreads
  -- the stage in which the response is constructed is the one `source` has looked at
  have hopening : s.opening page fd v = some y := by
    rw [opening, hr, Option.map_some, hy]
  rw [source, hopening] at hsource
  simp only [if_pos (And.intro hflow hb), FileSystem.read, hopened] at hsource
  rwa [← Option.some.inj hsource]

/-- Without the two entries that are no files, the names that are offered are those of the files. -/
theorem Offers.perm_names {s : FileServer} {v : View} (h : s.Offers v) :
    (v.order.filter fun name => name ≠ lit "." ∧ name ≠ lit "..").Perm s.disk.names := by
  -- no file is called `.` or `..`
  have hdots : s.disk.names.filter (fun name => decide (name ≠ lit "." ∧ name ≠ lit "..")) =
      s.disk.names := by
    refine List.filter_eq_self.mpr fun name hname => decide_eq_true ?_
    exact (s.disk.plain_of_mem_names hname).2.2.2
  have hperm := h.1.filter fun name => decide (name ≠ lit "." ∧ name ≠ lit "..")
  rwa [List.filter_cons_of_neg (by simp), List.filter_cons_of_neg (by simp), hdots] at hperm

end FileServer

namespace Simulated

open FileServer

variable {s : FileServer} {a b : FileStore} {script : ℕ → ℕ → Message} {files : Bytes → File}
  {fd : ℤ} {c : ℕ} {x : HandleSend.Call} {page : Bytes}

/-! ### A call and its connection -/

/-- `HandleSend` is called for the connection `c` under `fd`, with the answers `results` of `send`
and `sendfile`, the latter reading `content`; it does `x`, which is a step of an orderly run. No
`send` fails in such a step. -/
structure SendCall (page : Bytes) (s : FileServer) (fd : ℤ) (c : ℕ) (v : FileServer.View)
    (results : List SendResult) (content : Bytes) (x : HandleSend.Call) : Prop where
  conn : s.base.conn fd = some c
  offers : s.Offers v
  apart : s.Apart c x.acts
  returns : s.Returns c x
  source : s.source page fd v = some content
  failed : .failed ∉ results.map (SendResult.reading content)

/-- The request of the connection has arrived and been erased, and its response is still to be sent,
or a part of it. -/
structure Owes (script : ℕ → ℕ → Message) (s : FileServer) (a : FileStore) (fd : ℤ) (c : ℕ) :
    Prop where
  whole : (s.exchange c).got = (script c (a.session c).served).bytes
  erased : (s.base.requestStatus fd).getD Request.init = Request.init
  asked : (s.exchange c).asked = true
  unstored : (s.exchange c).storing = none

/-- The response is `r`, which is to be constructed for the resource `name`. -/
structure AsksFor (script : ℕ → ℕ → Message) (s : FileServer) (a : FileStore) (fd : ℤ) (c : ℕ)
    (name : Bytes) (r : Response) : Prop extends Owes script s a fd c where
  phase : (a.session c).phase = .asked name
  unsent : (s.exchange c).sending = none
  entry : s.base.responseStatus fd = some r
  init : r.status = .handleInit
  named : r.bodyFileName = name
  blank : r.msgBody = []

/-- What a call does before it sends, and what the store does at the same moment. On the side of the
server these are accesses to files, on the side of the store the operations `es`, and they agree on
every file that the two have had in common. -/
structure Prepares (files : Bytes → File) (s : FileServer) (a : FileStore) (c : ℕ)
    (pre : List Action) (es : List StoreOp) (e : Exchange) : Prop where
  /-- A descriptor that is opened was not in use. -/
  opens : ∀ path d, Action.openRead path (some d) ∈ pre → ¬ s.InUse d
  entered : pre.foldl Exchange.enter (s.exchange c) = e
  silent : onWire pre = []
  closes : closes pre = false
  /-- What the call does not touch the store leaves. -/
  untouched : ∀ path, (∀ act ∈ pre, act.touched ≠ some path) →
    filesAfter (a.files files) es path = a.files files path
  settled : ∀ path, s.disk.file path = a.files files path →
    fileAfter path (s.disk.file path) pre = filesAfter (a.files files) es path

/-- With the line that takes the resource apart in front and the construction of the response
behind, nothing else has happened but that its file is now the one that is being sent. -/
theorem Prepares.built {pre : List Action} {es : List StoreOp}
    (h : Prepares files s a c pre es (s.exchange c)) (name : Bytes) (r : Response) :
    Prepares files s a c (.dispatch name :: pre ++ [.built r]) es { s.exchange c with
      sending := if r.bodyType = .fileType then some r.fileMsgFd else none } where
  opens path d hmem := h.opens path d (by simpa using hmem)
  entered := by
    rw [List.cons_append, List.foldl_cons, List.foldl_append]
    exact congrArg (Exchange.enter · (.built r)) h.entered
  silent := by
    rw [List.cons_append, onWire_cons, onWire_append, h.silent]
    rfl
  closes := by
    rw [Conn.closes_append]
    simpa [Cherokee.closes] using h.closes
  untouched path huntouched := h.untouched path fun act hact => huntouched act (by simp [hact])
  settled path hsame := by
    rw [List.cons_append, fileAfter_cons, fileAfter_append]
    exact h.settled path hsame

/-! ### Sending on -/

section Delivers

variable {pre : List Action} {es : List StoreOp} {call : HandleSend.Call} {w : World}
  {head body sent rest : Bytes} {r : Response}

/-- A call that prepares a response, or finds it prepared, and sends on. Nothing that is done to
send touches a file, so the files behind the call are those behind what it has done before; what is
left to say is where the connection and its session are. -/
theorem send_goes (h : Simulated script files s a) (hfd : s.base.conn fd = some c)
    (hx : x = call.prepend pre) (hapart : s.Apart c x.acts) (hreturns : s.Returns c x)
    {e k : Exchange} (hprepares : Prepares files s a c pre es e)
    (hplain : ∀ act ∈ call.acts, act.touched = none ∧ act ≠ .closeClient)
    (unstored : (s.exchange c).storing = none) {next : Session}
    (hgoes : Goes page (script c) (a.files files) (a.session c) es next)
    (hwire : (a.session c).wire ++ onWire call.acts = next.wire)
    (hentered : call.acts.foldl Exchange.enter e = k) (hserved : k.answered = next.served)
    (hnone : k.storing = none)
    (hstage :
      Stage (script c next.served) (s.disk.afterAll x.acts) (filesAfter (a.files files) es) k
        call.request call.response next.phase) :
    ∃ ms b, (fileStore files page script).run a ms = some b ∧
      Simulated script files (s.behind fd c x) b := by
  have hxacts : x.acts = pre ++ call.acts := by rw [hx]; rfl
  have hfold : x.acts.foldl Exchange.enter (s.exchange c) = k := by
    rw [hxacts, List.foldl_append, hprepares.entered, hentered]
  -- neither what is done before nor what is done to send closes the connection
  have hopen : closes x.acts = false := by
    rw [hxacts, Conn.closes_append, hprepares.closes, Bool.false_or]
    exact Conn.closes_eq_false.mpr fun hc => (hplain _ hc).2 rfl
  -- the files are what they are behind what has been done before
  have hstill (path : Bytes) (f : File) : fileAfter path f x.acts = fileAfter path f pre := by
    rw [hxacts, fileAfter_append]
    refine fileAfter_of_not_alters (fun act hact ha => ?_) _
    have ht := (hplain act hact).1
    rw [Action.touched_of_alters ha] at ht
    exact Option.some_ne_none path ht
  -- what the answer says of a call, one part after the other
  refine h.goes hfd hapart hreturns ?_ hgoes (.of_goes ?_ ?_ (hfold ▸ hserved) ?_ ?_ ?_ ?_)
  · intro path d hmem
    rw [hxacts] at hmem
    rcases List.mem_append.mp hmem with hmem | hmem
    · exact hprepares.opens path d hmem
    · cases (hplain _ hmem).1
  · intro path huntouched
    refine hprepares.untouched path fun act hact => huntouched act ?_
    exact hxacts ▸ List.mem_append_left _ hact
  · rw [hxacts, onWire_append, hprepares.silent, List.nil_append, hwire]
  · intro path hp
    rw [hfold, hnone] at hp
    cases hp
  · intro _
    rw [hfold, hx]
    rw [hx] at hstage
    exact hstage
  · intro hc
    rw [hopen] at hc
    cases hc
  · intro path _ hothers
    rw [hstill]
    refine hprepares.settled path (h.settled path fun c' => ?_)
    by_cases hc : c' = c
    · rw [hc, unstored]
      exact (Option.some_ne_none path).symm
    · exact hothers c' hc

/-- What is done to send closes no descriptor of a file and writes over none, so that the rest of
the file is still read through the descriptor of the response. -/
theorem reads_writing {fs : FileSystem} {writes : List Action} {d : ℤ}
    (writing : ∀ act ∈ writes, act.Writing) (hreads : fs.Reads d body) :
    (fs.afterAll (writes ++ [.modifyWaitFd true true true])).Reads d body := by
  -- neither a `send` nor the `modifyWaitFd` opens, closes or writes over anything
  have hquiet : ∀ act ∈ writes ++ [.modifyWaitFd true true true],
      ¬ act.Renews d ∧ act.overwritten = none := by
    intro act hact
    rcases List.mem_append.mp hact with hact | hact
    · have hwriting := writing act hact
      cases act <;> first | exact ⟨id, rfl⟩ | cases hwriting
    · obtain rfl := List.mem_singleton.mp hact
      exact ⟨id, rfl⟩
  refine hreads.afterAll (fun act hact => (hquiet act hact).1) fun act hact path hover => ?_
  rw [(hquiet act hact).2] at hover
  cases hover

/-- **A response that has been constructed** is sent on, with what has been done before in the
call. If a part of it is left the session has sent as much of the answer; if none is left, the
response is erased, the session settles, and both wait for the next request. -/
theorem send_delivers (h : Simulated script files s a) (hfd : s.base.conn fd = some c)
    (hx : x = call.prepend pre) (hapart : s.Apart c x.acts) (hreturns : s.Returns c x)
    (howes : Owes script s a fd c) (hdelivers : Delivers w head body sent rest r call)
    (hgoes : Goes page (script c) (a.files files) (a.session c) es
      ((a.session c).enter (.answering rest)))
    (hprepares : Prepares files s a c pre es { s.exchange c with
      sending := if r.bodyType = .fileType then some r.fileMsgFd else none })
    (hrequest : call.request.getD Request.init = Request.init) (hleft : head ++ body = sent ++ rest)
    (hreads : r.bodyType = .fileType → (s.disk.afterAll pre).Reads r.fileMsgFd body) :
    ∃ ms b, (fileStore files page script).run a ms = some b ∧
      Simulated script files (s.behind fd c x) b := by
  have hplain := hdelivers.plain
  have hxacts : x.acts = pre ++ call.acts := by rw [hx]; rfl
  cases hdelivers with
  -- a part is left: the session has sent what the connection has
  | waits writes next left crash response acts writing sending same stands taken =>
    rw [taken] at hgoes
    have hsent : onWire call.acts = onWire writes := by
      rw [acts, onWire_append]
      exact List.append_nil _
    refine h.send_goes hfd hx hapart hreturns hprepares hplain howes.unstored
      (hgoes.delivers rfl) (by rw [hsent]; rfl) (k := { s.exchange c with
        sending := if r.bodyType = .fileType then some r.fileMsgFd else none }) ?_
      (h.served c) howes.unstored ?_
    · rw [acts, List.foldl_append, Exchange.enters_writing writing]
      rfl
    · refine .answering howes.whole hrequest howes.asked howes.unstored ?_ response sending stands
        ?_ fun hb => ?_
      · rw [same.bodyType, same.fileMsgFd]
      · rw [hleft, taken, List.append_assoc]
      · rw [hxacts, FileSystem.afterAll_append, same.fileMsgFd, acts]
        exact reads_writing writing (hreads (same.bodyType ▸ hb))
  -- nothing is left: the session has sent the rest, and settles
  | finishes writes crash response acts writing taken =>
    rw [taken, ← List.append_nil (onWire writes)] at hgoes
    have hsent : onWire call.acts = onWire writes := by
      rw [acts, onWire_append, onWire_append, onWire_closeStray]
      exact List.append_nil _
    refine h.send_goes hfd hx hapart hreturns hprepares hplain howes.unstored
      ((hgoes.delivers rfl).settles rfl) (by rw [hsent]; rfl)
      (k := ⟨(s.exchange c).answered + 1, [], false, none, none⟩) ?_
      (congrArg (· + 1) (h.served c)) rfl ?_
    · rw [acts, List.foldl_append, Exchange.enters_writing writing, List.foldl_append]
      exact Exchange.enters_closeStray w _
    · refine .waiting ?_ rfl rfl rfl ?_
      · rw [hrequest]
        exact Message.at_start _
      · rw [response]
        exact blank_init _

end Delivers

section Called

variable {v : FileServer.View} {results : List SendResult} {content : Bytes}

/-- A response that is being sent is sent on. -/
theorem send_answering (h : Simulated script files s a)
    (hcall : SendCall page s fd c v results content x)
    (hx : x = s.base.call fd (s.sending page v results content)) (howes : Owes script s a fd c)
    {head body sent rest : Bytes} {r : Response} (hphase : (a.session c).phase = .answering rest)
    (file : (s.exchange c).sending = if r.bodyType = .fileType then some r.fileMsgFd else none)
    (entry : s.base.responseStatus fd = some r) (sending : Sending r)
    (stands : Stands head body r sent) (left : head ++ body = sent ++ rest)
    (reads : r.bodyType = .fileType → s.disk.Reads r.fileMsgFd body) :
    ∃ ms b, (fileStore files page script).run a ms = some b ∧
      Simulated script files (s.behind fd c x) b := by
  have hprocess : x = HandleSend.process (s.disk.world page v)
      (results.map (SendResult.reading content)) (s.base.requestStatus fd) (some r) := by
    rw [hx, ← entry]
    rfl
  -- what `sendfile` reads begins with what the file held when the response was constructed
  have hcontent (hb : r.bodyType = .fileType) : body <+: content :=
    prefix_of_source hcall.source entry (initStage_of_not_init sending.not_init) rfl hb (reads hb)
  have hdelivers := process_delivers (s.disk.world page v) results (s.base.requestStatus fd) sending
    stands left hcontent
  rw [← hprocess] at hdelivers
  -- nothing happens in the store before the sending: it has been answered
  have hgoes : Goes page (script c) (a.files files) (a.session c) []
      ((a.session c).enter (.answering rest)) := by
    rw [← hphase]
    exact .refl
  refine h.send_delivers hcall.conn (show x = x.prepend [] from rfl) hcall.apart hcall.returns
    howes hdelivers hgoes ⟨fun _ _ hmem => ?_, ?_, rfl, rfl, fun _ _ => rfl, fun _ hsame => hsame⟩
    ?_ left reads
  · cases hmem
  · rw [← file]
    rfl
  · rw [hprocess, process_request _ hcall.failed, howes.erased]

/-! ### Answering -/

variable {name : Bytes} {r : Response}

/-- A response that is constructed in the call is sent on: `ops` are what is done with files for it,
and `e` answers the request. -/
theorem send_opens (h : Simulated script files s a)
    (hcall : SendCall page s fd c v results content x) (hasks : AsksFor script s a fd c name r)
    {r' : Response} {request : Option Request} (ops : List Action) (answer : Answer)
    (hx : x = (HandleSend.process (s.disk.world page v) (results.map (SendResult.reading content))
      request (some r')).prepend (.dispatch name :: ops ++ [.built r']))
    (hrequest : request.getD Request.init = Request.init)
    (hstage : operaStage (s.disk.world page v) (s.base.requestStatus fd) r = built request r' ops)
    {reply : Reply} (hreply : reply.In r') (hhead : answer.head page = reply.head)
    (hbody : reply.Carries (answer.body page)) (hroom : (answer.body page).length < 2 ^ 64)
    {query : Query} (hquery : Query.of name = some query) {e : StoreOp}
    (hanswered : query.Answered e) (hholds : e.Holds (a.files files))
    (hanswer : e.answer = some answer) (hprepares : Prepares files s a c ops [e] (s.exchange c))
    (hreads : r'.bodyType = .fileType →
      (s.disk.afterAll ops).Reads r'.fileMsgFd (answer.body page)) :
    ∃ ms b, (fileStore files page script).run a ms = some b ∧
      Simulated script files (s.behind fd c x) b := by
  have hr' : Sending r' := .inl hreply.status
  have hstands := hreply.stands hbody hroom
  -- taking the resource apart and noting the construction touch no file
  have hreads' (hb : r'.bodyType = .fileType) :
      (s.disk.afterAll (.dispatch name :: ops ++ [.built r'])).Reads r'.fileMsgFd
        (answer.body page) := by
    rw [List.cons_append, FileSystem.afterAll_cons, FileSystem.afterAll_append]
    exact hreads hb
  have hcontent (hb : r'.bodyType = .fileType) : answer.body page <+: content := by
    refine prefix_of_source hcall.source hasks.entry (y :=
      (built request r' ops).prepend [.dispatch name]) ?_ rfl hb (hreads' hb)
    rw [initStage_of_init hasks.init, hasks.named, hstage]
  have hdelivers := process_delivers (s.disk.world page v) results request hr' hstands
    (List.nil_append _).symm hcontent
  -- this is the moment at which the store answers the request
  have hmoves : Moves page (a.files files) (script c (a.session c).served) (a.session c) (some e)
      ((a.session c).enter (.answering (answer.bytes page))) :=
    .answers hasks.phase hquery hanswered hholds hanswer
  rw [← hhead] at hdelivers
  refine h.send_delivers hcall.conn hx hcall.apart hcall.returns hasks.toOwes hdelivers hmoves.goes
    (hprepares.built name r') ?_ (List.nil_append _).symm hreads'
  rw [process_request _ hcall.failed, hrequest]

/-- A response that is entered again: `act` is what is done with a file, and `e` what happens. -/
theorem send_reenters (h : Simulated script files s a)
    (hcall : SendCall page s fd c v results content x) (hasks : AsksFor script s a fd c name r)
    {again : Bytes} {act : Action} {u : Uninit}
    (hx : x = ⟨s.base.requestStatus fd, some { Response.init u with bodyFileName := again },
      [.dispatch name, act, .modifyWaitFd true true true], none⟩)
    {e : Option StoreOp}
    (hmoves : Moves page (a.files files) (script c (a.session c).served) (a.session c) e
      ((a.session c).enter (.asked again)))
    (hprepares : Prepares files s a c [act] e.toList (s.exchange c)) :
    ∃ ms b, (fileStore files page script).run a ms = some b ∧
      Simulated script files (s.behind fd c x) b := by
  -- the account is as before: what has been asked for is asked for again
  have hsame : x.acts.foldl Exchange.enter (s.exchange c) = s.exchange c := by
    rw [hx]
    exact congrArg (Exchange.enter · (.modifyWaitFd true true true)) hprepares.entered
  have hopen : closes x.acts = false := by
    rw [hx]
    exact (Conn.closes_append [.dispatch name, act] _).trans
      (congrArg (· || false) hprepares.closes)
  -- what the answer says of a call, one part after the other
  refine h.goes hcall.conn hcall.apart hcall.returns ?_ hmoves.goes (.of_goes ?_ ?_ ?_ ?_ ?_ ?_ ?_)
  · intro path d hmem
    rw [hx] at hmem
    simp only [List.mem_cons, List.not_mem_nil, reduceCtorEq, or_false, false_or] at hmem
    exact hprepares.opens path d (hmem ▸ List.mem_cons_self)
  · intro path huntouched
    refine hprepares.untouched path fun act' hact => huntouched act' ?_
    rw [hx]
    exact List.mem_cons_of_mem _ (List.mem_cons.mpr (.inl (List.mem_singleton.mp hact)))
  · rw [hx]
    have hsilent : act.onWire ++ [] = [] := hprepares.silent
    change (a.session c).wire ++ (act.onWire ++ []) = (a.session c).wire
    rw [hsilent, List.append_nil]
  · rw [hsame]
    exact h.served c
  · intro path hp
    exact .inl (hsame ▸ hp)
  · intro _
    rw [hsame, hx]
    exact .asked hasks.whole hasks.erased hasks.asked hasks.unstored hasks.unsent rfl rfl rfl rfl
  · intro hc
    rw [hopen] at hc
    cases hc
  · intro path hp hothers
    rw [hsame] at hp
    rw [hx]
    refine hprepares.settled path (h.settled path fun c' => ?_)
    by_cases hc : c' = c
    · exact hc ▸ hp
    · exact hothers c' hc

/-- A file that the call touches is the one of the store: no other connection is uploading to it. -/
theorem AsksFor.file_eq (h : Simulated script files s a)
    (hcall : SendCall page s fd c v results content x) (hasks : AsksFor script s a fd c name r)
    {path : Bytes} {act : Action} (hact : act ∈ x.acts) (ht : act.touched = some path) :
    s.disk.file path = a.files files path :=
  h.file_of_touched hcall.apart (by rw [hasks.unstored]; exact (Option.some_ne_none path).symm)
    ⟨act, hact, ht⟩

/-- What `readdir` gives is what the store lists. -/
theorem listed (h : Simulated script files s a) {v : FileServer.View} (hoffers : s.Offers v) :
    (StoreOp.listed (v.order.filter fun name => name ≠ lit "." ∧ name ≠ lit "..")).Holds
      (a.files files) := by
  -- in the order of `readdir`, the names are those of the files
  have hperm := hoffers.perm_names
  refine ⟨hperm.nodup_iff.mpr s.disk.nodup_names, fun name => ?_⟩
  rw [hperm.mem_iff, s.disk.mem_names, h.file_ne_none]

/-- A response that is constructed without a look at a file. -/
theorem prepares_nil {e : StoreOp} (he : ∀ path f, e.on path f = f) :
    Prepares files s a c [] [e] (s.exchange c) where
  opens _ _ hmem := by cases hmem
  entered := rfl
  silent := rfl
  closes := rfl
  untouched path _ := he path _
  settled path hsame := hsame.trans (he path _).symm

/-- A file that is opened to be read stays as it is. -/
theorem prepares_openRead (path : Bytes) (o : Option ℤ) (body : File)
    (hopens : ∀ d ∈ o, ¬ s.InUse d) :
    Prepares files s a c [.openRead path o] [.read path body] (s.exchange c) where
  opens p d hmem := by
    obtain ⟨-, rfl⟩ : p = path ∧ some d = o := by simpa using hmem
    exact hopens d rfl
  entered := rfl
  silent := rfl
  closes := rfl
  untouched _ _ := rfl
  settled _ hsame := hsame

/-- The file is removed on both sides, or was on neither. -/
theorem prepares_remove (path : Bytes) (v : FileServer.View) :
    Prepares files s a c [.remove path ((s.disk.world page v).remove path)] [.removed path]
      (s.exchange c) where
  opens p d hmem := by simp at hmem
  entered := rfl
  silent := rfl
  closes := rfl
  untouched p huntouched := by
    refine if_neg fun hpath => huntouched _ List.mem_cons_self ?_
    exact congrArg some hpath
  settled p hsame := by
    rw [filesAfter_cons, filesAfter_nil, StoreOp.apply, ← hsame]
    exact FileSystem.on_remove s.disk page v path p

/-- `put` behind an erased request: the file is emptied, and nothing is written to it. -/
theorem prepares_clear (path : Bytes) :
    Prepares files s a c [.openTrunc path true, .write path []] [.cleared path]
      (s.exchange c) where
  opens p d hmem := by simp at hmem
  entered := rfl
  silent := rfl
  closes := rfl
  untouched p huntouched :=
    if_neg fun hpath => huntouched (.openTrunc path true) (by simp) (congrArg some hpath)
  settled p hsame := by
    rw [hsame]
    change fileAfter p (a.files files p) _ = (StoreOp.cleared path).on p (a.files files p)
    by_cases hp : path = p <;> simp [Action.on, Action.alters, Action.onFile, StoreOp.on, hp]

/-- A file that does not open to be written stays as it is, and nothing happens in the store. -/
theorem prepares_refused (path : Bytes) :
    Prepares files s a c [.openTrunc path false] [] (s.exchange c) where
  opens p d hmem := by simp at hmem
  entered := rfl
  silent := rfl
  closes := rfl
  untouched _ _ := rfl
  settled p hsame := by
    rw [hsame]
    exact ite_self _

section Asked

variable (h : Simulated script files s a) (hcall : SendCall page s fd c v results content x)
  (hasks : AsksFor script s a fd c name r)

include h hcall hasks

/-- `/`: the page lists the files there are at this moment. -/
theorem send_page (hquery : Query.of name = some .list) (lists : (s.disk.world page v).Lists)
    {r' : Response} (reply : (Reply.page (listPage (s.disk.world page v))).In r')
    (stage : operaStage (s.disk.world page v) (s.base.requestStatus fd) r =
      built (s.base.requestStatus fd) r' [])
    (hx : x = (HandleSend.process (s.disk.world page v) (results.map (SendResult.reading content))
      (s.base.requestStatus fd) (some r')).prepend [.dispatch r.bodyFileName, .built r']) :
    ∃ ms b, (fileStore files page script).run a ms = some b ∧
      Simulated script files (s.behind fd c x) b := by
  refine h.send_opens hcall hasks [] (.page _) (hasks.named ▸ hx) hasks.erased stage reply rfl rfl
    ?_ hquery (.list _) (h.listed hcall.offers) rfl (prepares_nil fun _ _ => rfl) fun hb => ?_
  · exact lt_of_le_of_lt lists.room (by decide)
  -- a page is not read from a file
  · rw [reply.body.1] at hb
    cases hb

/-- `downl` of a file that opens: the answer is what the file holds at this moment. -/
theorem send_file {path : Bytes} {d : ℤ} {size : Fin (2 ^ 63)}
    (hquery : Query.of name = some (.read path))
    (opens : (s.disk.world page v).openRead path = some (d, size)) {r' : Response}
    (reply : (Reply.file d size).In r')
    (stage : operaStage (s.disk.world page v) (s.base.requestStatus fd) r =
      built (s.base.requestStatus fd) r' [.openRead path (some d)])
    (hx : x = (HandleSend.process (s.disk.world page v) (results.map (SendResult.reading content))
      (s.base.requestStatus fd) (some r')).prepend
        [.dispatch r.bodyFileName, .openRead path (some d), .built r']) :
    ∃ ms b, (fileStore files page script).run a ms = some b ∧
      Simulated script files (s.behind fd c x) b := by
  obtain ⟨body, hfile, hlen, rfl, rfl⟩ := FileSystem.world_opens opens
  have hopened : Action.openRead path (some v.fileFd) ∈ x.acts := by
    rw [hx]
    exact List.mem_append_left _ (by simp)
  have hsame : s.disk.file path = a.files files path := hasks.file_eq h hcall hopened rfl
  refine h.send_opens hcall hasks [.openRead path (some v.fileFd)] (.file body) (hasks.named ▸ hx)
    hasks.erased stage reply rfl rfl ?_ hquery (.read path body) ?_ rfl
    (prepares_openRead path _ _ ?_) fun _ => ?_
  · exact lt_trans hlen (by decide)
  · change some body = StoreOp.opens (a.files files path)
    rw [← hsame, hfile, StoreOp.opens, Option.filter_some, if_pos (decide_eq_true hlen)]
  -- the descriptor that is given out was not in use
  · rintro _ ⟨⟩
    exact hcall.offers.2
  -- through it the file is read that has just been opened
  · rw [reply.body.2.1]
    obtain ⟨i, hi, hcontent⟩ := Option.map_eq_some_iff.mp hfile
    exact ⟨i, (Function.update_self ..).trans hi, hcontent ▸ List.prefix_rfl⟩

/-- `downl` of a file that does not open: the client is redirected, in another call. -/
theorem send_missing {path : Bytes} (hquery : Query.of name = some (.read path))
    (fails : (s.disk.world page v).openRead path = none)
    (hx : x = ⟨s.base.requestStatus fd,
      some { Response.init (s.disk.world page v).fresh with bodyFileName := lit "/redirect" },
      [.dispatch r.bodyFileName, .openRead path none, .modifyWaitFd true true true], none⟩) :
    ∃ ms b, (fileStore files page script).run a ms = some b ∧
      Simulated script files (s.behind fd c x) b := by
  have htried : Action.openRead path none ∈ x.acts := by
    rw [hx]
    exact List.mem_cons_of_mem _ List.mem_cons_self
  have hsame : s.disk.file path = a.files files path := hasks.file_eq h hcall htried rfl
  refine h.send_reenters hcall hasks (hasks.named ▸ hx) (e := some (.read path none))
    (.misses hasks.phase hquery ?_) (prepares_openRead path none none nofun)
  rw [← hsame]
  exact FileSystem.opens_of_world fails

/-- `del`: the file is removed, and the list is sent in another call. -/
theorem send_removes {path : Bytes} (hquery : Query.of name = some (.remove path))
    (hx : x = ⟨s.base.requestStatus fd,
      some { Response.init (s.disk.world page v).fresh with bodyFileName := lit "/" },
      [.dispatch r.bodyFileName, .remove path ((s.disk.world page v).remove path),
        .modifyWaitFd true true true], none⟩) :
    ∃ ms b, (fileStore files page script).run a ms = some b ∧
      Simulated script files (s.behind fd c x) b :=
  h.send_reenters hcall hasks (hasks.named ▸ hx) (.removes hasks.phase hquery)
    (prepares_remove path v)

/-- `put` of a file that opens: the request is gone, so the file is made empty. -/
theorem send_clears {path : Bytes} (hquery : Query.of name = some (.clear path)) {r' : Response}
    (reply : Reply.stored.In r')
    (stage : operaStage (s.disk.world page v) (s.base.requestStatus fd) r =
      built (some ((s.base.requestStatus fd).getD Request.init)) r'
        [.openTrunc path true, .write path ((s.base.requestStatus fd).getD Request.init).recvMsg])
    (hx : x = (HandleSend.process (s.disk.world page v) (results.map (SendResult.reading content))
      (some ((s.base.requestStatus fd).getD Request.init)) (some r')).prepend
        [.dispatch r.bodyFileName, .openTrunc path true,
          .write path ((s.base.requestStatus fd).getD Request.init).recvMsg, .built r']) :
    ∃ ms b, (fileStore files page script).run a ms = some b ∧
      Simulated script files (s.behind fd c x) b := by
  -- the request has been erased, so its `recvMsg` is empty
  have hblank : ((s.base.requestStatus fd).getD Request.init).recvMsg = [] := by
    rw [hasks.erased]
    rfl
  rw [hblank] at stage hx
  refine h.send_opens hcall hasks [.openTrunc path true, .write path []] .cleared
    (hasks.named ▸ hx) (by exact hasks.erased) stage reply rfl rfl (Nat.two_pow_pos 64) hquery
    (.clear path) trivial rfl (prepares_clear path) fun hb => ?_
  rw [show r'.bodyType = _ from reply.body] at hb
  cases hb

/-- `put` of a file that does not open: the client is redirected, in another call. -/
theorem send_refuses {path : Bytes} (hquery : Query.of name = some (.clear path))
    (hx : x = ⟨s.base.requestStatus fd,
      some { Response.init (s.disk.world page v).fresh with bodyFileName := lit "/redirect" },
      [.dispatch r.bodyFileName, .openTrunc path false, .modifyWaitFd true true true], none⟩) :
    ∃ ms b, (fileStore files page script).run a ms = some b ∧
      Simulated script files (s.behind fd c x) b :=
  h.send_reenters hcall hasks (hasks.named ▸ hx) (e := none) (.refuses hasks.phase hquery)
    (prepares_refused path)

/-- Everything else is redirected at once. -/
theorem send_redirects (hquery : Query.of name = some .other) {r' : Response}
    (reply : Reply.redirect.In r')
    (stage : operaStage (s.disk.world page v) (s.base.requestStatus fd) r =
      built (s.base.requestStatus fd) r' [])
    (hx : x = (HandleSend.process (s.disk.world page v) (results.map (SendResult.reading content))
      (s.base.requestStatus fd) (some r')).prepend [.dispatch r.bodyFileName, .built r']) :
    ∃ ms b, (fileStore files page script).run a ms = some b ∧
      Simulated script files (s.behind fd c x) b := by
  refine h.send_opens hcall hasks [] .redirect (hasks.named ▸ hx) hasks.erased stage reply rfl rfl
    (Nat.two_pow_pos 64) hquery .other trivial rfl (prepares_nil fun _ _ => rfl) fun hb => ?_
  rw [show r'.bodyType = _ from reply.body] at hb
  cases hb

/-- A response that has been asked for is constructed, or entered again: one lemma for each kind of
resource, and for each outcome of opening its file. -/
theorem send_asked (hx : x = s.base.call fd (s.sending page v results content)) :
    ∃ ms b, (fileStore files page script).run a ms = some b ∧
      Simulated script files (s.behind fd c x) b := by
  have hprocess : x = HandleSend.process (s.disk.world page v)
      (results.map (SendResult.reading content)) (s.base.requestStatus fd) (some r) := by
    rw [hx, ← hasks.entry]
    rfl
  obtain ⟨query, hquery, hqueried⟩ :=
    process_queried hasks.init hasks.blank (hprocess ▸ hcall.returns.crash)
  rw [← hprocess] at hqueried
  rw [hasks.named] at hquery
  cases hqueried with
  | page lists r' reply stage call => exact h.send_page hcall hasks hquery lists reply stage call
  | file path d size opens r' reply stage call =>
    exact h.send_file hcall hasks hquery opens reply stage call
  | missing path fails call => exact h.send_missing hcall hasks hquery fails call
  | removes path call => exact h.send_removes hcall hasks hquery call
  | clears path opens r' reply stage call =>
    exact h.send_clears hcall hasks hquery reply stage call
  | refuses path fails call => exact h.send_refuses hcall hasks hquery call
  | redirects r' reply stage call => exact h.send_redirects hcall hasks hquery reply stage call

end Asked

end Called

/-- A call that finds no response does nothing, and nothing happens in the store. -/
theorem send_nothing (h : Simulated script files s a) (hfd : s.base.conn fd = some c)
    (hx : x = ⟨s.base.requestStatus fd, none, [], none⟩) (hapart : s.Apart c x.acts)
    (hreturns : s.Returns c x) (entry : s.base.responseStatus fd = none) :
    ∃ ms b, (fileStore files page script).run a ms = some b ∧
      Simulated script files (s.behind fd c x) b := by
  subst hx
  have hgoes : Goes page (script c) (a.files files) (a.session c) [] (a.session c) := .refl
  refine h.goes hfd hapart hreturns ?_ hgoes (.of_goes (fun _ _ => rfl) (List.append_nil _)
    (h.served c) (fun _ hp => .inl hp) (fun _ => ?_) ?_ fun path hp hothers => ?_)
  · intro path d hmem
    cases hmem
  · rw [← entry]
    exact h.stage fd c hfd
  · intro hc
    cases hc
  · refine h.settled path fun c' => ?_
    by_cases hc : c' = c
    · exact hc ▸ hp
    · exact hothers c' hc

/-- **A call of `HandleSend`** is answered by the store. -/
theorem send (h : Simulated script files s a) (hfd : s.base.conn fd = some c)
    {v : FileServer.View} (hoffers : s.Offers v) {results : List SendResult} {content : Bytes}
    (hx : x = s.base.call fd (s.sending page v results content)) (hapart : s.Apart c x.acts)
    (hreturns : s.Returns c x) (hsource : s.source page fd v = some content)
    (hfailed : .failed ∉ results) : ∃ ms b, (fileStore files page script).run a ms = some b ∧
      Simulated script files (s.behind fd c x) b := by
  -- what a `sendfile` reads does not make it fail
  have hfailed' : .failed ∉ results.map (SendResult.reading content) := by
    intro hmem
    obtain ⟨y, hy, hreading⟩ := List.mem_map.mp hmem
    cases y with
    | failed => exact hfailed hy
    | accepted n disk => cases hreading
    | again => cases hreading
  -- nothing has been asked for: an entry would end the process
  have hnone (hblank : Blank (s.base.responseStatus fd)) : s.base.responseStatus fd = none := by
    cases hentry : s.base.responseStatus fd with
    | none => rfl
    | some r =>
      have hcrash := hreturns.crash
      obtain ⟨hinit, hname, -⟩ := hblank r hentry
      have hcall : x = HandleSend.process (s.disk.world page v)
          (results.map (SendResult.reading content)) (s.base.requestStatus fd) (some r) := by
        rw [hx, ← hentry]
        rfl
      rw [hcall, process_gone _ _ _ hinit hname] at hcrash
      cases hcrash
  -- between two requests, and while an upload is arriving, the call finds nothing
  have hidle (hblank : Blank (s.base.responseStatus fd)) :
      ∃ ms b, (fileStore files page script).run a ms = some b ∧
        Simulated script files (s.behind fd c x) b := by
    refine h.send_nothing hfd ?_ hapart hreturns (hnone hblank)
    rw [hx]
    change HandleSend.process _ _ _ (s.base.responseStatus fd) = _
    rw [hnone hblank]
    rfl
  have hcall : SendCall page s fd c v results content x :=
    ⟨hfd, hoffers, hapart, hreturns, hsource, hfailed'⟩
  have hstage := h.stage fd c hfd
  generalize hphase : (a.session c).phase = phase at hstage
  -- where the connection is decides what the call finds
  cases hstage with
  | waiting arrived unasked unstored unsent blank => exact hidle blank
  | storing message arrived unasked stored unsent blank made held => exact hidle blank
  | asked whole erased asked unstored unsent entry init named blank =>
    exact h.send_asked hcall
      ⟨⟨whole, erased, asked, unstored⟩, hphase, unsent, entry, init, named, blank⟩ hx
  | answering whole erased asked unstored file entry sending stands left reads =>
    exact h.send_answering hcall hx ⟨whole, erased, asked, unstored⟩ hphase file entry
      sending stands left reads

end Simulated

end Cherokee
