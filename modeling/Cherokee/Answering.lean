import Cherokee.FailedSend
import Cherokee.FileServer
import Cherokee.FileStore
import Cherokee.PageMarkup

/-!
# A response is constructed and sent

What a call of `HandleSend` does for a response that has been asked for: it constructs it and sends,
as a call that finds it constructed does (`process_opens`), or leaves it for re-entry. A call that
sends only moves the response on (`process_delivers`).

A `sendfile` never reads behind the length the response has announced, so a file that has grown
since is sent as it was (`process_reading`).
-/

namespace Cherokee

namespace HandleSend

/-! ### What is read from a file -/

/-- A chunk ends with the length it is taken of, so that bytes behind it do not get into the
chunk. -/
theorem chunk_append (body more : Bytes) (sent n : ℕ) :
    chunk (body ++ more) body.length sent n = chunk body body.length sent n := by
  unfold chunk
  by_cases hs : sent ≤ body.length
  · rw [List.drop_append_of_le_length hs, List.take_append_of_le_length]
    rw [List.length_drop]
    exact Nat.min_le_right _ _
  · rw [Nat.sub_eq_zero_of_le (Nat.le_of_not_le hs), Nat.min_zero, List.take_zero, List.take_zero]

/-- Sending from a body that has grown is sending from the body. -/
theorem sendBody_append {r : Response} {body : Bytes} (hlen : r.msgBodyLen = body.length)
    (more : Bytes) (n : ℕ) : sendBody r (body ++ more) n = sendBody r body n := by
  unfold sendBody
  rw [hlen, chunk_append]

/-- Sending from the head leaves what is sent. -/
theorem sendHead_sameContent (r : Response) (n : ℕ) : SameContent r (sendHead r n).1 := by
  unfold sendHead
  simp only
  split <;> rfl

/-- Sending from the body leaves it too. -/
theorem sendBody_sameContent (r : Response) (msg : Bytes) (n : ℕ) :
    SameContent r (sendBody r msg n).1 := by
  unfold sendBody
  simp only
  split <;> rfl

/-- Sending moves the response on, and leaves what it is: only the status and the count change. -/
theorem sendLoop_sameContent (results : List SendResult) (request : Option Request) {r : Response}
    (hr : Sending r) : SameContent r (sendLoop results request r).response := by
  refine sendLoop_induction (P := fun r s => SameContent r s.response) ?_ ?_ ?_ ?_ ?_ results hr
  · exact fun _ _ _ _ => rfl
  · exact fun r n s _ h => (sendHead_sameContent r n).trans h
  · exact fun r n s _ _ h => (sendBody_sameContent r _ n).trans h
  · exact fun r n disk s _ _ h => (sendBody_sameContent r disk n).trans h
  · exact fun r s _ _ h =>
      SameContent.trans (q := { r with status := .handleComplete, curStatusHasSendLen := 0 }) rfl h

/-- The length that was announced stays. -/
theorem SameContent.msgBodyLen {r q : Response} (h : SameContent r q) :
    q.msgBodyLen = r.msgBodyLen := (congrArg Response.msgBodyLen h).trans rfl

/-- The type of the body stays, and with it how it is sent. -/
theorem SameContent.bodyType {r q : Response} (h : SameContent r q) : q.bodyType = r.bodyType :=
  (congrArg Response.bodyType h).trans rfl

/-- The descriptor of the file stays, even when its name is removed. -/
theorem SameContent.fileMsgFd {r q : Response} (h : SameContent r q) : q.fileMsgFd = r.fileMsgFd :=
  (congrArg Response.fileMsgFd h).trans rfl

/-- **What stands behind the announced length of a file is not sent**: the count of a `sendfile` is
what is left of the length, wherever the file ends now. -/
theorem sendLoop_reading {body : Bytes} (more : Bytes) (results : List SendResult)
    (request : Option Request) {r : Response} (hr : Sending r)
    (hlen : r.bodyType = .fileType → r.msgBodyLen = body.length) :
    sendLoop (results.map (SendResult.reading (body ++ more))) request r =
      sendLoop (results.map (SendResult.reading body)) request r := by
  induction results generalizing r with
  | nil => rfl
  | cons x results ih =>
    have hhead (n : ℕ) := sendHead_sameContent r n
    have hbody (msg : Bytes) (n : ℕ) := sendBody_sameContent r msg n
    -- a response that goes on is the same one, so the hypothesis on the length still holds
    have hnext {q : Response} (hq : SameContent r q) (hs : Sending q) :
        sendLoop (results.map (SendResult.reading (body ++ more))) request q =
          sendLoop (results.map (SendResult.reading body)) request q :=
      ih hs fun hb => hq.msgBodyLen.trans (hlen (hq.bodyType ▸ hb))
    rw [List.map_cons, List.map_cons]
    rcases hr with hs | hs
    -- the head does not come from the file
    · unfold sendLoop
      simp only [hs]
      cases x with
      | accepted n disk =>
        exact congrArg (Stage.prepend _) (hnext (hhead n) (sendHead_status hs n))
      | again => rfl
      | failed => rfl
    · -- a turn of the body is the last one, or the loop goes on
      have hturn {q : Response} {a : Action} (hq : SameContent r q)
          (hstatus : q.status = .handleBody ∨ q.status = .handleComplete) :
          (if q.status = .handleComplete then (⟨request, q, [a], .proceed⟩ : Stage)
            else (sendLoop (results.map (SendResult.reading (body ++ more))) request q).prepend
            [a]) =
          if q.status = .handleComplete then ⟨request, q, [a], .proceed⟩
            else (sendLoop (results.map (SendResult.reading body)) request q).prepend [a] := by
        by_cases hc : q.status = .handleComplete
        · rw [if_pos hc, if_pos hc]
        · rw [if_neg hc, if_neg hc, hnext hq (.inr (hstatus.resolve_right hc))]
      unfold sendLoop
      simp only [hs]
      cases hb : r.bodyType with
      | htmlType =>
        cases x with
        | accepted n disk => exact hturn (hbody _ n) (sendBody_status hs _ n)
        | again => rfl
        | failed => rfl
      | fileType =>
        cases x with
        | accepted n disk =>
          -- here the file is read, up to the announced length
          simp only [SendResult.reading, sendBody_append (hlen hb)]
          exact hturn (hbody _ n) (sendBody_status hs _ n)
        | again => rfl
        | failed => rfl
      | emptyType => rfl

/-- A response that is not being sent is left alone by the loop, which then asks the system
nothing. -/
theorem sendLoop_still (results : List SendResult) (request : Option Request) {r : Response}
    (hr : ¬ Sending r) : (sendLoop results request r).response = r ∧
      (sendLoop results request r).acts = [] := by
  unfold sendLoop
  unfold Sending at hr
  cases hstatus : r.status <;> simp_all

/-- All the loop does is send. -/
theorem sendLoop_writing (results : List SendResult) (request : Option Request) (r : Response) :
    ∀ a ∈ (sendLoop results request r).acts, a.Writing := by
  by_cases hr : Sending r
  · exact (sendLoop_sends results request hr).writes
  · rw [(sendLoop_still results request hr).2]
    exact List.forall_mem_nil _

/-! ### A call that sends -/

/-- A call for a response that is being sent is the send loop and what stands behind it. -/
theorem process_sending {w : World} {results : List SendResult} {request : Option Request}
    {r : Response} (hr : Sending r) : process w results request (some r) =
      (finish w (sendLoop results request r).request (sendLoop results request r).response).prepend
        (sendLoop results request r).acts :=
  process_proceed (initStage_of_not_init hr.not_init) rfl (sendLoop_sends results request hr).flow

/-- **A file that has grown** since the response announced its length is sent as it was, in the
whole call. -/
theorem process_reading {body : Bytes} (more : Bytes) (w : World) (results : List SendResult)
    (request : Option Request) {r : Response} (hr : Sending r)
    (hlen : r.bodyType = .fileType → r.msgBodyLen = body.length) :
    process w (results.map (SendResult.reading (body ++ more))) request (some r) =
      process w (results.map (SendResult.reading body)) request (some r) := by
  rw [process_sending hr, process_sending hr, sendLoop_reading more results request hr hlen]

/-- What a call makes of a response that stands behind `sent`, with `rest` still to be sent: it
sends a part and waits for room, or sends all of it and finishes. -/
inductive Delivers (w : World) (head body sent rest : Bytes) (r : Response) (c : Call) : Prop where
  | waits (writes : List Action) (next : Response) (left : Bytes) (crash : c.crash = none)
      (response : c.response = some next) (acts : c.acts = writes ++ [.modifyWaitFd true true true])
      (writing : ∀ a ∈ writes, a.Writing) (sending : Sending next) (same : SameContent r next)
      (stands : Stands head body next (sent ++ onWire writes))
      (taken : rest = onWire writes ++ left)
  | finishes (writes : List Action) (crash : c.crash = none)
      (response : c.response = some (Response.init w.fresh))
      (acts : c.acts = writes ++ ([.finished, .modifyWaitFd true true false] ++ closeStray w))
      (writing : ∀ a ∈ writes, a.Writing) (taken : rest = onWire writes)

/-- The length of the body that is announced is the one that is sent, for a page and for a file. -/
theorem Stands.msgBodyLen {head body sent : Bytes} {r : Response} (h : Stands head body r sent)
    (hr : Sending r) (hb : r.bodyType ≠ .emptyType) : r.msgBodyLen = body.length := by
  cases h with
  | head holds _ _ _ => exact holds.bodyLen hb
  | body holds _ _ _ => exact holds.bodyLen hb
  | done status _ => exact absurd status hr.not_complete

/-- **A call for a response that is being sent** sends on, and erases the response when it is
complete. Through the descriptor of its file the body is read, and perhaps more behind it. -/
theorem process_delivers (w : World) (results : List SendResult) (request : Option Request)
    {r : Response} (hr : Sending r) {head body sent rest content : Bytes}
    (hstands : Stands head body r sent) (hleft : head ++ body = sent ++ rest)
    (hcontent : r.bodyType = .fileType → body <+: content) : Delivers w head body sent rest r
      (process w (results.map (SendResult.reading content)) request (some r)) := by
  -- what is read behind the body is not sent
  obtain ⟨results', heq, hdisk⟩ : ∃ results',
      process w (results.map (SendResult.reading content)) request (some r) =
        process w results' request (some r) ∧
        (r.bodyType = .fileType → Unchanged body results') := by
    by_cases hb : r.bodyType = .fileType
    -- the file holds the body and perhaps `more`, which `process_reading` takes away
    · obtain ⟨more, rfl⟩ := hcontent hb
      have hlen := hstands.msgBodyLen hr (by rw [hb]; decide)
      refine ⟨_, process_reading more w results request hr fun _ => hlen, fun _ n disk hmem => ?_⟩
      obtain ⟨y, -, hy⟩ := List.mem_map.mp hmem
      cases y with
      | accepted k d =>
        cases hy
        rfl
      | again => cases hy
      | failed => cases hy
    · exact ⟨_, rfl, fun hfile => absurd hfile hb⟩
  have hloop := sendLoop_sends results' request hr
  have hsent := sendLoop_sentOn results' request hstands hr.not_complete hdisk
  have hsame := sendLoop_sameContent results' request hr
  rw [heq, process_sending hr]
  generalize sendLoop results' request r = x at hloop hsent hsame
  have hstands' := hsent.stands
  unfold finish
  by_cases hc : x.response.status = .handleComplete
  · rw [if_pos hc]
    -- the loop has come to the end: everything that was left is on the wire
    refine .finishes x.acts rfl rfl rfl hloop.writes ?_
    cases hstands' with
    | head _ status _ _ => rw [hc] at status; cases status
    | body _ status _ _ => rw [hc] at status; cases status
    | done _ accepted =>
      exact (List.append_cancel_left (accepted.trans hleft)).symm
  · have hs := hloop.status.resolve_right hc
    rw [if_neg hc, if_neg hs.not_error]
    -- the loop has stopped before: what is on the wire is a beginning of what was left
    have hpre := hstands'.isPrefix
    rw [hleft, List.prefix_append_right_inj] at hpre
    obtain ⟨left, htaken⟩ := hpre
    exact .waits x.acts x.response left rfl rfl rfl hloop.writes hs hsame hstands' htaken.symm

/-! ### A call that constructs -/

section Opens

variable {w : World} {results : List SendResult} {request q : Option Request} {r r' : Response}
  {files : List Action}

/-- **A call that constructs its response** sends as a call that finds it constructed; the
construction comes in front of it. -/
theorem process_opens (init : r.status = .handleInit)
    (hstage : operaStage w request r = built q r' files)
    (hstatus : r'.status = .handleHead) : process w results request (some r) =
      (process w results q (some r')).prepend
        (.dispatch r.bodyFileName :: files ++ [.built r']) := by
  have hloop := sendLoop_sends results q (r := r') (.inl hstatus)
  have hinit : initStage w request r = (built q r' files).prepend [.dispatch r.bodyFileName] := by
    rw [initStage_of_init init, hstage]
  rw [process_proceed hinit rfl hloop.flow, process_sending (.inl hstatus)]
  change Call.mk _ _ ((.dispatch r.bodyFileName :: (files ++ [.built r']) ++
    (sendLoop results q r').acts) ++ _) _ = Call.mk _ _ (_ ++ ((sendLoop results q r').acts ++ _)) _
  rw [List.append_assoc, List.cons_append, List.cons_append]
  rfl

/-- A call that leaves its response for re-entry: another name stands in the entry, and the
descriptor is armed for writing. -/
theorem process_reenters (init : r.status = .handleInit) {name : Bytes}
    (hstage : operaStage w request r = reenter w q name files) :
    process w results request (some r) =
      ⟨q, some { Response.init w.fresh with bodyFileName := name },
        .dispatch r.bodyFileName :: (files ++ [.modifyWaitFd true true true]), none⟩ := by
  rw [process_leave (initStage_of_init init) (by rw [hstage]; rfl), hstage]
  rfl

end Opens

/-- What a call does for a response whose resource has been taken apart, one case for each outcome
of what it opens. -/
inductive Queried (w : World) (results : List SendResult) (request : Option Request) (r : Response)
    (c : Call) : Query → Prop where
  | page (lists : w.Lists) (r' : Response) (reply : (Reply.page (listPage w)).In r')
      (stage : operaStage w request r = built request r' [])
      (call : c = (process w results request (some r')).prepend
        [.dispatch r.bodyFileName, .built r']) : Queried w results request r c .list
  | file (path : Bytes) (fd : ℤ) (size : Fin (2 ^ 63)) (opens : w.openRead path = some (fd, size))
      (r' : Response) (reply : (Reply.file fd size).In r')
      (stage : operaStage w request r = built request r' [.openRead path (some fd)])
      (call : c = (process w results request (some r')).prepend
        [.dispatch r.bodyFileName, .openRead path (some fd), .built r']) :
      Queried w results request r c (.read path)
  | missing (path : Bytes) (fails : w.openRead path = none)
      (call : c = ⟨request, some { Response.init w.fresh with bodyFileName := lit "/redirect" },
        [.dispatch r.bodyFileName, .openRead path none, .modifyWaitFd true true true], none⟩) :
      Queried w results request r c (.read path)
  | removes (path : Bytes)
      (call : c = ⟨request, some { Response.init w.fresh with bodyFileName := lit "/" },
        [.dispatch r.bodyFileName, .remove path (w.remove path), .modifyWaitFd true true true],
        none⟩) :
      Queried w results request r c (.remove path)
  | clears (path : Bytes) (opens : w.openTrunc path = true) (r' : Response)
      (reply : Reply.stored.In r')
      (stage : operaStage w request r = built (some (request.getD Request.init)) r'
        [.openTrunc path true, .write path (request.getD Request.init).recvMsg])
      (call : c = (process w results (some (request.getD Request.init)) (some r')).prepend
        [.dispatch r.bodyFileName, .openTrunc path true,
          .write path (request.getD Request.init).recvMsg, .built r']) :
      Queried w results request r c (.clear path)
  | refuses (path : Bytes) (fails : w.openTrunc path = false)
      (call : c = ⟨request, some { Response.init w.fresh with bodyFileName := lit "/redirect" },
        [.dispatch r.bodyFileName, .openTrunc path false, .modifyWaitFd true true true], none⟩) :
      Queried w results request r c (.clear path)
  | redirects (r' : Response) (reply : Reply.redirect.In r')
      (stage : operaStage w request r = built request r' [])
      (call : c = (process w results request (some r')).prepend
        [.dispatch r.bodyFileName, .built r']) : Queried w results request r c .other

/-- **A call for a response whose resource is still to be taken apart**: it names one of the six
operations, and what the call does is decided by what that operation opens. -/
theorem process_queried {w : World} {results : List SendResult} {request : Option Request}
    {r : Response} (init : r.status = .handleInit) (blank : r.msgBody = [])
    (hcrash : (process w results request (some r)).crash = none) :
    ∃ query, Query.of r.bodyFileName = some query ∧
      Queried w results request r (process w results request (some r)) query := by
  unfold Query.of
  cases hsplit : splitResource r.bodyFileName with
  | error f =>
    rw [process_crash (f := f) (initStage_of_init init) (by
      rw [operaStage_of_error hsplit]; rfl)] at hcrash
    cases hcrash
  | ok p =>
    obtain ⟨opera, filename⟩ := p
    have hstage := operaStage_of_split hsplit w request
    refine ⟨_, rfl, ?_⟩
    by_cases hroot : opera = lit "/"
    · rw [if_pos hroot] at hstage ⊢
      cases hpage : getFileListPage w r.msgBody with
      | error f =>
        rw [process_crash (f := f) (initStage_of_init init) (by
          rw [hstage]; unfold filelistStage getStatusLine; simp only [hpage]; rfl)] at hcrash
        cases hcrash
      | ok page =>
        obtain ⟨r', hbuilt, hreply⟩ := filelistStage_page hpage request
        rw [blank] at hpage
        rw [getFileListPage_eq_listPage hpage] at hreply
        exact .page ((getFileListPage_isOk_iff w).mp ⟨page, hpage⟩) r' hreply (hstage.trans hbuilt)
          (process_opens init (hstage.trans hbuilt) hreply.status)
    rw [if_neg hroot] at hstage ⊢
    by_cases hdownl : opera = lit "downl"
    · rw [if_pos hdownl] at hstage ⊢
      cases hopen : w.openRead (cStr (lit "filedir/" ++ filename)) with
      | none =>
        have hagain : downlStage w request r filename = reenter w request (lit "/redirect")
            [.openRead (cStr (lit "filedir/" ++ filename)) none] := by
          unfold downlStage getStatusLine
          simp only [hopen]
        exact .missing _ hopen (process_reenters init (hstage.trans hagain))
      | some file =>
        obtain ⟨fd, size⟩ := file
        obtain ⟨r', hbuilt, hreply⟩ := downlStage_built hopen request r
        exact .file _ fd size hopen r' hreply (hstage.trans hbuilt)
          (process_opens init (hstage.trans hbuilt) hreply.status)
    rw [if_neg hdownl] at hstage ⊢
    by_cases hdel : opera = lit "del"
    · rw [if_pos hdel] at hstage ⊢
      exact .removes _ (process_reenters init hstage)
    rw [if_neg hdel] at hstage ⊢
    by_cases hput : opera = lit "put"
    · rw [if_pos hput] at hstage ⊢
      cases hopen : w.openTrunc (cStr (lit "filedir/" ++ filename)) with
      | true =>
        obtain ⟨r', hbuilt, hreply⟩ := putStage_built hopen request r
        exact .clears _ hopen r' hreply (hstage.trans hbuilt)
          (process_opens init (hstage.trans hbuilt) hreply.status)
      | false =>
        have hagain : putStage w request r filename = reenter w request (lit "/redirect")
            [.openTrunc (cStr (lit "filedir/" ++ filename)) false] := by
          unfold putStage
          simp only [hopen, Bool.false_eq_true, if_false]
        exact .refuses _ hopen (process_reenters init (hstage.trans hagain))
    rw [if_neg hput] at hstage ⊢
    obtain ⟨r', hbuilt, hreply⟩ := redirectStage_built request r
    exact .redirects r' hreply (hstage.trans hbuilt)
      (process_opens init (hstage.trans hbuilt) hreply.status)

end HandleSend

/-! ### Where a new response stands -/

namespace Reply

open HandleSend

/-- The body that is sent with a reply: the page itself, a file of the announced size, or
nothing. -/
def Carries (body : Bytes) : Reply → Prop
  | page b => b = body
  | file _ size => size = body.length
  | stored => body = []
  | redirect => body = []

/-- A head with a length that a string can have is short, since a number below `2 ^ 64` has twenty
digits at most. -/
theorem headOf_short {status : Bytes} {n : ℕ} {lines : List Bytes} (hn : n < 2 ^ 64)
    (h : status.length + (lines.flatMap (· ++ crlf)).length < 2 ^ 30) :
    (headOf (status :: (lit "Content-Length: " ++ toDecimal n) :: lines)).length < 2 ^ 31 := by
  have hdec := toDecimal_length hn
  have hmark : (lit "Content-Length: ").length = 16 := rfl
  simp only [headOf, crlf, List.flatMap_cons, List.length_append, List.length_cons,
    List.length_nil, hmark] at h ⊢
  omega

/-- The head of a reply can be counted by an `int`. -/
theorem head_short {a : Reply} {body : Bytes} (h : a.Carries body) (hroom : body.length < 2 ^ 64) :
    a.head.length < 2 ^ 31 := by
  cases a with
  | page b =>
    rw [← h] at hroom
    exact headOf_short hroom (by decide)
  | file fd size =>
    have hsize : (size : ℕ) < 2 ^ 64 := lt_trans size.isLt (by decide)
    refine headOf_short hsize ?_
    have hdec := toDecimal_length (n := toSize (((size : ℕ) : ℤ) - 1)) (by unfold toSize; omega)
    simp only [fileLines, List.flatMap_cons, List.flatMap_nil, List.length_append, List.length_nil]
    change 15 + (38 + 2 + (10 + _ + 2 + (22 + 2 + 0))) < _
    omega
  | stored => decide
  | redirect => decide

/-- **A new response stands in front of its head**: nothing of it has been sent, and head and body
are what the reply says. -/
theorem In.stands {a : Reply} {r : Response} (h : a.In r) {body : Bytes} (hbody : a.Carries body)
    (hroom : body.length < 2 ^ 64) : Stands a.head body r [] := by
  refine .head ?_ h.status (.inr h.unsent) (by rw [h.unsent]; rfl)
  have hb := h.body
  refine ⟨h.head, ?_, ?_, ?_, ?_, hroom⟩
  · rw [h.headLen, toInt_of_lt (head_short hbody hroom), toSize_natCast]
    exact lt_trans (head_short hbody hroom) (by decide)
  · intro ht
    cases a with
    | page b => exact hb.2.1.trans hbody
    | file fd size => rw [hb.1] at ht; cases ht
    | stored => rw [show r.bodyType = _ from hb] at ht; cases ht
    | redirect => rw [show r.bodyType = _ from hb] at ht; cases ht
  · intro ht
    cases a with
    | page b => rw [hb.2.2, show b = body from hbody]
    | file fd size => exact hb.2.2.trans hbody
    | stored => exact absurd hb ht
    | redirect => exact absurd hb ht
  · intro ht
    cases a with
    | page b => rw [hb.1] at ht; cases ht
    | file fd size => rw [hb.1] at ht; cases ht
    | stored => exact hbody
    | redirect => exact hbody

end Reply

end Cherokee
