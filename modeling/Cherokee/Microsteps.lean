import Cherokee.Exits

/-!
# The steps of a handler

A handler works on the entries of its descriptor access by access, and other workers may run between
two of them. Up to its last decision a handler does nothing but access the entries; behind it come
the steps of one of the ways out of `process`, with the re-arm or the close among them.

* `Exit.ops`: the ways out, step by step.
* `HandleRecv.call_exits`, `HandleSend.call_exits`: a call that is left alone goes one of these
  ways.
-/

namespace Cherokee

/-- The entries of a descriptor in the two tables, as a handler finds them at one of its
accesses. -/
structure Entries where
  request : Option Request
  response : Option Response

/-- One step of a handler behind its last decision in the loop: an access to an entry, a call for
the descriptor, or a test that decides on the steps behind it. -/
inductive Op where
  /-- `responseStatus[fd].setBodyFileName(name)` by `HandleRecv` -/
  | setBodyFileName (name : Bytes)
  /-- `requestStatus[fd].setStatus(status)` -/
  | setStatus (status : MsgStatus)
  /-- `if (requestStatus[fd].getStatus() == HANDLE_COMPLETE)` behind the receive loop -/
  | requestComplete
  /-- `else if (requestStatus[fd].getStatus() == HANDLE_ERROR)` -/
  | requestError
  /-- `requestStatus.erase(fd)` -/
  | eraseRequest
  /-- `if (responseStatus[fd].getStatus() == HANDLE_COMPLETE)` behind the send loop -/
  | responseComplete
  /-- `else if (responseStatus[fd].getStatus() == HANDLE_ERROR)` -/
  | responseError
  /-- `responseStatus.erase(fd)` -/
  | eraseResponse
  /-- `if (responseStatus[fd].getBodyType() == FILE_TYPE)` behind the erased entry -/
  | bodyType
  /-- `responseStatus[fd].getFileMsgFd()` -/
  | fileMsgFd
  /-- `modifyWaitFd(epollFd, fd, true, …, addEpollout)` -/
  | modifyWaitFd (addEpollout : Bool)
  /-- `deleteWaitFd(epollFd, fd)` -/
  | deleteWaitFd
  /-- `close(fd)` -/
  | close
  /-- `close` of the descriptor of a file. -/
  | closeFile (d : ℤ)
deriving DecidableEq, Repr

namespace Op

/-- The step accesses an entry of one of the tables. -/
def touches : Op → Bool
  | .modifyWaitFd _ => false
  | .deleteWaitFd => false
  | .close => false
  | .closeFile _ => false
  | _ => true

/-- What a step does to the entries, and the steps it decides on. `operator[]` makes an entry where
there is none; a `Response` made so holds `fresh`. -/
def run (fresh : Uninit) (e : Entries) : Op → Entries × List Op
  | .setBodyFileName name =>
    ({ e with response := some (Response.setBodyFileName fresh e.response name) }, [])
  | .setStatus status =>
    ({ e with request := some { e.request.getD Request.init with status } }, [])
  | .requestComplete =>
    let r := e.request.getD Request.init
    ({ e with request := some r },
      -- the `else if` is a second access
      if r.status = .handleComplete then [.eraseRequest] else [.requestError])
  | .requestError =>
    let r := e.request.getD Request.init
    ({ e with request := some r },
      if r.status = .handleError then [.deleteWaitFd, .close, .eraseRequest] else [])
  | .eraseRequest => ({ e with request := none }, [])
  | .responseComplete =>
    let r := e.response.getD (Response.init fresh)
    ({ e with response := some r },
      -- the type of the body is asked of the erased entry, which `operator[]` makes anew
      if r.status = .handleComplete then [.eraseResponse, .modifyWaitFd false, .bodyType]
      else [.responseError])
  | .responseError =>
    let r := e.response.getD (Response.init fresh)
    ({ e with response := some r },
      if r.status = .handleError then
        [.eraseResponse, .modifyWaitFd false, .close, .bodyType]
      else [.modifyWaitFd true])
  | .eraseResponse => ({ e with response := none }, [])
  | .bodyType =>
    let r := e.response.getD (Response.init fresh)
    ({ e with response := some r }, if r.bodyType = .fileType then [.fileMsgFd] else [])
  | .fileMsgFd =>
    let r := e.response.getD (Response.init fresh)
    ({ e with response := some r }, [.closeFile r.fileMsgFd])
  | .modifyWaitFd _ => (e, [])
  | .deleteWaitFd => (e, [])
  | .close => (e, [])
  | .closeFile _ => (e, [])

/-- A step that accesses no entry decides on nothing, and leaves both as they are. -/
theorem run_of_not_touches {op : Op} (h : op.touches = false) (fresh : Uninit) (e : Entries) :
    op.run fresh e = (e, []) := by
  cases op <;> first | rfl | cases h

/-- What a step does to the registration of the handler's descriptor. -/
def register (o : Option Interest) : Op → Option Interest
  | .modifyWaitFd addEpollout => o.map fun _ => ⟨true, addEpollout⟩
  | .deleteWaitFd => none
  | .close => none
  | _ => o

end Op

/-- The ways out of the two handlers, each with the accesses and calls that stand behind its
decision. -/
inductive Exit where
  /-- `HandleRecv`: `recv` has returned `EAGAIN`. -/
  | again
  /-- `HandleRecv`: the peer has closed, or `recv` has failed. -/
  | failed
  /-- `HandleRecv`: the request is complete. -/
  | completes (name : Bytes)
  /-- `HandleRecv`: the head of a `PUT` is complete. -/
  | puts (name : Bytes)
  /-- `HandleRecv`: the upload file does not open. -/
  | openFails
  /-- `HandleSend`: there is no response. -/
  | idle
  /-- `HandleSend`: the response is to be entered again. -/
  | reenters
  /-- `HandleSend`: the send loop has been left. -/
  | sends
deriving DecidableEq, Repr

namespace Exit

/-- The handler a way out belongs to, which is the one that takes its steps. -/
def kind : Exit → Kind
  | .idle => .send
  | .reenters => .send
  | .sends => .send
  | _ => .recv

/-- The steps of a way out, in the order of the source. -/
def ops : Exit → List Op
  | .again => [.modifyWaitFd false, .requestComplete]
  | .failed => [.setStatus .handleError, .requestComplete]
  | .completes name =>
    [.setBodyFileName name, .modifyWaitFd true, .setStatus .handleComplete, .requestComplete]
  | .puts name =>
    [.setBodyFileName name, .modifyWaitFd true, .setStatus .handleBody, .requestComplete]
  | .openFails => [.requestComplete]
  | .idle => []
  | .reenters => [.modifyWaitFd true]
  | .sends => [.responseComplete]

end Exit

/-! ### A handler that is left alone -/

/-- What a handler leaves that nobody comes between: the entries and the registration. Each step
works on what the one before has left, and what it decides on comes next. -/
inductive Alone (fresh : Uninit) : List Op → Entries → Option Interest →
    Entries → Option Interest → Prop where
  | done (e : Entries) (o : Option Interest) : Alone fresh [] e o e o
  | step {op : Op} {ops : List Op} {e e' : Entries} {o o' : Option Interest}
      (rest : Alone fresh ((op.run fresh e).2 ++ ops) (op.run fresh e).1 (op.register o) e' o') :
      Alone fresh (op :: ops) e o e' o'

namespace Alone

variable {fresh : Uninit} {e e' e'' : Entries} {o o' o'' : Option Interest}

/-- One list of steps behind another, with the entries and the registration that the first
leaves. -/
theorem append {ops more : List Op} (h : Alone fresh ops e o e' o')
    (hmore : Alone fresh more e' o' e'' o'') : Alone fresh (ops ++ more) e o e'' o'' := by
  induction h with
  | done => exact hmore
  | @step op ops e e' o o' rest ih =>
    refine .step ?_
    -- what the first step decides on comes before all the others
    have hrest := ih hmore
    rwa [List.append_assoc] at hrest

/-- A step that decides on no other, so that the list ends with it. -/
theorem single {op : Op} (h : op.run fresh e = (e', [])) :
    Alone fresh [op] e o e' (op.register o) := by
  refine .step ?_
  rw [h]
  exact .done _ _

/-- A step that decides on the next ones, by what it finds in the entry. -/
theorem decides {op : Op} (e' : Entries) (ops : List Op) (h : op.run fresh e = (e', ops))
    (hops : Alone fresh ops e' (op.register o) e'' o'') : Alone fresh [op] e o e'' o'' := by
  refine .step ?_
  rw [h, List.append_nil]
  exact hops

end Alone

namespace HandleRecv

/-- Behind the receive loop: the tests of the status, one access each, come to what `finish` does at
once. -/
theorem alone_finish (fresh : Uninit) (r : Request) (response : Option Response)
    (o : Option Interest) :
    Alone fresh [.requestComplete] ⟨some r, response⟩ o ⟨(finish r).1, response⟩
      (register o (finish r).2) := by
  unfold finish
  by_cases hcomplete : r.status = .handleComplete
  · rw [if_pos hcomplete]
    refine .decides ⟨some r, response⟩ [.eraseRequest] ?_ (.single rfl)
    simp [Op.run, hcomplete]
  rw [if_neg hcomplete]
  refine .decides ⟨some r, response⟩ [.requestError] ?_ ?_
  · simp [Op.run, hcomplete]
  by_cases herror : r.status = .handleError
  · rw [if_pos herror]
    refine .decides ⟨some r, response⟩ [.deleteWaitFd, .close, .eraseRequest] ?_ ?_
    · simp [Op.run, herror]
    · exact .step (.step (.step (.done _ _)))
  · rw [if_neg herror]
    refine .decides ⟨some r, response⟩ [] ?_ (.done _ _)
    simp [Op.run, herror]

/-- The way out of the receive loop. -/
structure Leaves (fresh : Uninit) (response : Option Response) (o : Option Interest) (x : Received)
    (exit : Exit) (r : Request) : Prop where
  kind : exit.kind = .recv
  alone : ∃ ops, exit.ops = ops ++ [.requestComplete] ∧
    Alone fresh ops ⟨some r, response⟩ o ⟨some x.request, handOver fresh response x.acts⟩
      (register o x.acts)

/-- What a turn of the loop does before its last decision are accesses, and it leaves by the same
way out. -/
theorem Leaves.prepend {fresh : Uninit} {response : Option Response} {o : Option Interest}
    {x : Received} {exit : Exit} {r : Request} (h : Leaves fresh response o x exit r)
    {acts : List Action} (hacts : ∀ a ∈ acts, a.Receiving) :
    Leaves fresh response o (x.prepend acts) exit r := by
  refine ⟨h.kind, ?_⟩
  obtain ⟨ops, hops, halone⟩ := h.alone
  refine ⟨ops, hops, ?_⟩
  change Alone fresh ops _ o ⟨some x.request, handOver fresh response (acts ++ x.acts)⟩
    (register o (acts ++ x.acts))
  rw [Conn.handOver_append fresh response hacts,
    register_behind (fun a ha => (hacts a ha).plain)]
  exact halone

/-- The steps that hand a resource over; the status they set is the one the `Request` has behind the
turn. -/
theorem alone_asks (fresh : Uninit) (response : Option Response) (o : Option Interest)
    (name : Bytes) (r : Request) :
    Alone fresh [.setBodyFileName name, .modifyWaitFd true, .setStatus r.status]
      ⟨some r, response⟩ o
      ⟨some r, handOver fresh response [.setBodyFileName name, .modifyWaitFd true true true]⟩
      (register o [.setBodyFileName name, .modifyWaitFd true true true]) :=
  .step (.step (.step (.done _ _)))

/-- **Every way out of the receive loop** is one of `Exit`. The induction is on what `recv` has
still to return, and each turn either goes on or decides on the way out. -/
theorem recvLoop_exits (fresh : Uninit) (response : Option Response) (o : Option Interest)
    (results : List RecvResult) {r : Request} (hlive : r.status ≠ .handleComplete)
    (hreturns : (recvLoop results r).crash = none) :
    ∃ exit q, Leaves fresh response o (recvLoop results r) exit q := by
  have hagain (r : Request) (rest : List RecvResult) : Leaves fresh response o
      ⟨r, [.modifyWaitFd true true false], none, rest⟩ .again r :=
    ⟨rfl, [.modifyWaitFd false], rfl, .single rfl⟩
  have hfailed (r : Request) (rest : List RecvResult) : Leaves fresh response o
      ⟨{ r with status := .handleError }, [], none, rest⟩ .failed r :=
    ⟨rfl, [.setStatus .handleError], rfl, .single rfl⟩
  induction results generalizing r with
  | nil => exact ⟨.again, r, hagain r []⟩
  | cons x rest ih =>
    cases x with
    | again => exact ⟨.again, r, hagain r rest⟩
    | closed => exact ⟨.failed, r, hfailed r rest⟩
    | failed => exact ⟨.failed, r, hfailed r rest⟩
    | data buf ofs =>
      -- what a turn does last decides how the loop leaves
      obtain ⟨before, last, hacts, hbefore, hend⟩ := recvTurn_ends buf ofs hlive
      unfold recvLoop at hreturns ⊢
      simp only at hreturns ⊢
      cases hend with
      -- the loop goes on, and the way out is the one of the turns behind
      | again flow live =>
        simp only [flow] at hreturns ⊢
        obtain ⟨exit, q, h⟩ := ih live hreturns
        refine ⟨exit, q, h.prepend ?_⟩
        rw [hacts, List.append_nil]
        exact hbefore
      -- the request is complete: its resource is handed over, and the status set
      | completes flow status method =>
        simp only [flow]
        rw [hacts]
        have hasks :=
          alone_asks fresh response o (askedFor (recvTurn buf ofs r).request.requestMethod
          (recvTurn buf ofs r).request.requestResource) (recvTurn buf ofs r).request
        rw [status] at hasks
        exact ⟨.completes _, (recvTurn buf ofs r).request,
          Leaves.prepend (x := ⟨_, _, none, rest⟩) ⟨rfl, _, rfl, hasks⟩ hbefore⟩
      | puts flow status method =>
        simp only [flow]
        rw [hacts]
        have hasks := alone_asks fresh response o (recvTurn buf ofs r).request.requestResource
          (recvTurn buf ofs r).request
        rw [status] at hasks
        exact ⟨.puts _, (recvTurn buf ofs r).request,
          Leaves.prepend (x := ⟨_, _, none, rest⟩) ⟨rfl, _, rfl, hasks⟩ hbefore⟩
      | openFails path flow status =>
        simp only [flow]
        rw [hacts]
        exact ⟨.openFails, (recvTurn buf ofs r).request,
          Leaves.prepend (x := ⟨_, _, none, rest⟩) ⟨rfl, [], rfl, .done _ _⟩ hbefore⟩
      -- a call that crashes has no way out
      | crashes f flow =>
        simp only [flow] at hreturns
        cases hreturns

/-- **A call of `HandleRecv` that nobody comes between goes one of the ways out**: its accesses
leave the `Request` as the way out finds it, and the steps of the way out do the rest. -/
theorem call_exits (results : List RecvResult) (fresh : Uninit) {request : Option Request}
    (response : Option Response) (o : Option Interest)
    (hlive : ∀ q ∈ request, q.status ≠ .handleComplete)
    (hreturns : (Handler.call (.recv results fresh) request response).crash = none) :
    let c := Handler.call (.recv results fresh) request response
    ∃ (exit : Exit) (q : Request), exit.kind = .recv ∧
      Alone fresh exit.ops ⟨some q, response⟩ o ⟨c.request, c.response⟩ (register o c.acts) := by
  intro c
  change (process results request).crash = none at hreturns
  unfold process Received.finish at hreturns
  -- a call that returns has left the loop without a crash
  cases hloop : (recvLoop results (request.getD Request.init)).crash with
  | some f => simp [hloop] at hreturns
  | none =>
    obtain ⟨exit, q, hkind, ops, hops, halone⟩ :=
      recvLoop_exits fresh response o results (live_getD hlive) hloop
    refine ⟨exit, q, hkind, ?_⟩
    generalize hx : recvLoop results (request.getD Request.init) = x at hloop halone
    have hcall : process results request = ⟨(finish x.request).1,
        x.acts ++ (finish x.request).2, none, x.rest⟩ := by
      unfold process Received.finish
      rw [hx]
      simp only [hloop]
    -- what `finish` does hands nothing over
    have hresponse : c.response = handOver fresh response x.acts := by
      change handOver fresh response (process results request).acts = _
      have hnone : handedOver (finish x.request).2 = [] := by
        unfold finish
        split_ifs <;> rfl
      rw [hcall, handOver, handedOver_append, hnone, List.append_nil]
      rfl
    rw [hops, hresponse, show c.request = _ from congrArg Call.request hcall,
      show c.acts = _ from congrArg Call.acts hcall, register_append]
    exact halone.append (alone_finish fresh x.request _ _)

end HandleRecv

namespace HandleSend

/-- Behind the send loop: the response is complete, or there is more of it to send. -/
theorem exits_of_sendEnd {w : World} {c : Call} {before last : List Action} (o : Option Interest)
    (hacts : c.acts = before ++ last) (hbefore : ∀ a ∈ before, a.Plain) (hend : SendEnd w c last) :
    ∃ r, Alone w.fresh (Exit.ops .sends) ⟨c.request, some r⟩ o ⟨c.request, c.response⟩
      (register o c.acts) := by
  rw [hacts, register_behind hbefore]
  cases hend with
  -- neither complete nor in error: the descriptor is armed for output
  | waits r crash stays sending =>
    have hcomplete := sending.not_complete
    have herror := sending.not_error
    rw [stays]
    refine ⟨r, .decides ⟨c.request, some r⟩ [.responseError] ?_
      (.decides ⟨c.request, some r⟩ [.modifyWaitFd true] ?_ (.single rfl))⟩
    · simp [Op.run, hcomplete]
    · simp [Op.run, herror]
  -- the entry is erased, and the next access makes a new one, of which the type of the body is read
  | finishes crash stays =>
    rw [stays, register_append, register_plain (closeStray_plain w)]
    refine ⟨{ Response.init w.fresh with status := .handleComplete }, .step (.step (.step ?_))⟩
    -- whatever the new entry happens to hold decides whether a descriptor is closed
    by_cases hfile : w.fresh.bodyType = .fileType
    · refine .decides ⟨c.request, some (Response.init w.fresh)⟩ [.fileMsgFd] ?_
        (.step (.step (.done _ _)))
      simp [Op.run, Response.init, hfile]
    · refine .decides ⟨c.request, some (Response.init w.fresh)⟩ [] ?_ (.done _ _)
      simp [Op.run, Response.init, hfile]

/-- **A call of `HandleSend` that nobody comes between goes one of the ways out.** -/
theorem call_exits (w : World) (results : List SendResult) (request : Option Request)
    {response : Option Response} (o : Option Interest)
    (hr : ∀ r ∈ response, r.status = .handleInit ∨ Sending r)
    (hreturns : (process w results request response).crash = none) :
    let c := process w results request response
    ∃ (exit : Exit) (e : Entries), exit.kind = .send ∧
      Alone w.fresh exit.ops e o ⟨c.request, c.response⟩ (register o c.acts) := by
  intro c
  -- a call that has come to the send loop arms the descriptor with its last action
  have hsends {before last : List Action} (hacts : c.acts = before ++ last)
      (hbefore : ∀ a ∈ before, a.Plain) (hend : SendEnd w c last) :
      ∃ (exit : Exit) (e : Entries), exit.kind = .send ∧
        Alone w.fresh exit.ops e o ⟨c.request, c.response⟩ (register o c.acts) := by
    obtain ⟨r, halone⟩ := exits_of_sendEnd o hacts hbefore hend
    exact ⟨.sends, _, rfl, halone⟩
  cases response with
  | none => exact ⟨.idle, ⟨request, none⟩, rfl, .done _ _⟩
  | some r =>
    -- a response that is being sent, one that is prepared, and one that is only looked at
    cases process_ends w results request (hr r rfl) with
    | resumes writes last sending acts writing ends =>
      exact hsends acts (fun a ha => (writing a ha).plain) ends
    | opens before writes last built status acts preparing writing ends =>
      exact hsends acts (plain_opens _ built preparing writing) ends
    | reenters before next status crash stays init acts preparing =>
      refine ⟨.reenters, ⟨c.request, c.response⟩, rfl, ?_⟩
      have hregister : register o c.acts = register o [.modifyWaitFd true true true] := by
        rw [show c.acts = _ from acts]
        exact register_behind (plain_dispatch _ preparing) _ o
      rw [hregister]
      exact .single rfl
    | crashes f before next status crash => cases hreturns.symm.trans crash

end HandleSend

end Cherokee
