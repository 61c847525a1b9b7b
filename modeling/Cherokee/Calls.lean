import Cherokee.RecvRun
import Cherokee.Wire

/-!
# What a call does

Every exit of the two handlers, as the actions a call takes before it leaves through it.

* `HandleRecv.process_ends`: a call of `HandleRecv::process` receives, and then waits, closes the
  connection, completes its request, hands a `PUT` over, or gives up on an upload file.
* `HandleSend.process_ends`: a call of `HandleSend::process` prepares a response or leaves it for
  re-entry, sends, and then erases a complete response or waits for room.
-/

namespace Cherokee

/-- The resource a complete request asks for: the one of its request line for a `GET`, and
`/redirect` for a `POST`, which sends the browser back to the list. -/
def askedFor (method resource : Bytes) : Bytes :=
  if method = lit "GET" then resource else lit "/redirect"

/-- The action belongs to receiving: it touches neither the response table nor the descriptor. A
file that does not open is left out, since the handler returns there. -/
def Action.Receiving : Action → Prop
  | .recvd _ => True
  | .requestLine _ => True
  | .openAppend _ ok => ok = true
  | .append _ _ => True
  | _ => False

/-- The action puts bytes on the connection, from a buffer or from a file. -/
def Action.Writing : Action → Prop
  | .sent _ => True
  | .sentFile _ => True
  | _ => False

/-- The `Request` a call begins with is not complete: a new one is in `HANDLE_INIT`, and a complete
one would have been erased. -/
theorem live_getD {request : Option Request} (hlive : ∀ q ∈ request, q.status ≠ .handleComplete) :
    (request.getD Request.init).status ≠ .handleComplete := by
  cases request with
  | none => exact nofun
  | some q => exact hlive q rfl

namespace HandleRecv

open Request

/-! ### A turn of the receive loop -/

/-- How a turn ends, with its last actions: by these the entry, the response table and the
descriptor are changed, and by nothing before them. -/
inductive TurnEnd (t : Turn) : List Action → Prop where
  /-- More is to be received. -/
  | again (flow : t.flow = .again) (live : t.request.status ≠ .handleComplete) : TurnEnd t []
  /-- The request is complete. -/
  | completes (flow : t.flow = .leave) (status : t.request.status = .handleComplete)
      (method : t.request.requestMethod = lit "GET" ∨ t.request.requestMethod = lit "POST") :
      TurnEnd t [.setBodyFileName (askedFor t.request.requestMethod t.request.requestResource),
        .modifyWaitFd true true true]
  /-- The head of a `PUT` is complete. -/
  | puts (flow : t.flow = .leave) (status : t.request.status = .handleBody)
      (method : t.request.requestMethod = lit "PUT") :
      TurnEnd t [.setBodyFileName t.request.requestResource, .modifyWaitFd true true true]
  /-- The upload file does not open. -/
  | openFails (path : Bytes) (flow : t.flow = .leave) (status : t.request.status = .handleBody) :
      TurnEnd t [.openAppend path false]
  | crashes (f : Fault) (flow : t.flow = .crash f) : TurnEnd t []

/-- The actions of a turn are receiving, and then those of its end. -/
def Turn.Ends (t : Turn) : Prop :=
  ∃ before last, t.acts = before ++ last ∧ (∀ a ∈ before, a.Receiving) ∧ TurnEnd t last

/-- The loop goes on with a request that is not complete. -/
theorem Turn.Ends.live {t : Turn} (h : t.Ends) (hflow : t.flow = .again) :
    t.request.status ≠ .handleComplete := by
  obtain ⟨before, last, -, -, hend⟩ := h
  cases hend with
  | again _ live => exact live
  | completes flow => cases hflow.symm.trans flow
  | puts flow => cases hflow.symm.trans flow
  | openFails _ flow => cases hflow.symm.trans flow
  | crashes _ flow => cases hflow.symm.trans flow

/-- Actions of receiving before a turn are part of its receiving. -/
theorem Turn.Ends.prepend {t : Turn} (h : t.Ends) {acts : List Action}
    (ha : ∀ a ∈ acts, a.Receiving) : (t.prepend acts).Ends := by
  obtain ⟨before, last, hacts, hbefore, hend⟩ := h
  refine ⟨acts ++ before, last, ?_, ?_, ?_⟩
  · change acts ++ t.acts = _
    rw [hacts, List.append_assoc]
  · intro a ha'
    exact (List.mem_append.mp ha').elim (ha a) (hbefore a)
  · cases hend with
    | again flow live => exact .again flow live
    | completes flow status method => exact .completes (t := t.prepend acts) flow status method
    | puts flow status method => exact .puts (t := t.prepend acts) flow status method
    | openFails path flow status => exact .openFails path flow status
    | crashes f flow => exact .crashes f flow

/-- A stage that waits for more bytes. -/
theorem ends_again {r : Request} (h : r.status ≠ .handleComplete) : Turn.Ends ⟨r, [], .again⟩ :=
  ⟨[], [], rfl, nofun, .again rfl h⟩

/-- A stage that completes a `GET` or a `POST` and asks for the response that belongs to it. -/
theorem ends_complete (r : Request) {name : Bytes}
    (hm : r.requestMethod = lit "GET" ∨ r.requestMethod = lit "POST")
    (hn : name = askedFor r.requestMethod r.requestResource) : (complete r name).Ends := by
  refine ⟨[], _, rfl, nofun, ?_⟩
  rw [hn]
  exact .completes (t := complete r _) rfl rfl hm

/-- The end of a `POST`, for which `/redirect` is asked in every case. -/
theorem ends_redirect {r : Request} (hm : r.requestMethod = lit "POST") :
    (complete r (lit "/redirect")).Ends := by
  refine ends_complete r (.inr hm) ?_
  rw [askedFor, hm, if_neg (by decide)]

/-- The content stage ends a turn: it waits for more content, hands over at the final delimiter, or
returns when the file does not open. -/
theorem contentStage_ends (ofs : Bool) {r : Request} (hs : r.status = .handleBody)
    (hm : r.requestMethod = lit "POST") : (contentStage ofs r).Ends := by
  have hlive : r.status ≠ .handleComplete := by
    rw [hs]
    exact nofun
  unfold contentStage
  by_cases hc : r.fileMsgStatus = .fileContent
  · rw [if_pos hc]
    cases ofs with
    -- the file does not open: the handler returns at once
    | false => exact ⟨[], [.openAppend r.uploadPath false], rfl, nofun, .openFails _ rfl hs⟩
    | true =>
      rw [if_pos rfl]
      generalize contentLoop r.boundary? r.recvMsg = content
      -- opening and appending belong to receiving; the end is decided by the content loop
      have hwrites : ∀ a ∈ [Action.openAppend r.uploadPath true,
          .append r.uploadPath content.written], a.Receiving := by
        intro a ha
        simp only [List.mem_cons, List.not_mem_nil, or_false] at ha
        rcases ha with rfl | rfl <;> trivial
      obtain ⟨written, recvMsg, ended⟩ := content
      cases ended with
      | wait => exact ⟨_, [], (List.append_nil _).symm, hwrites, .again rfl hlive⟩
      | complete =>
        exact (ends_redirect (r := { r with recvMsg, fileMsgStatus := .fileComplete }) hm).prepend
          hwrites
      | crash f => exact ⟨_, [], (List.append_nil _).symm, hwrites, .crashes f rfl⟩
  · rw [if_neg hc]
    -- no content here: the part is complete already, or its header is not
    by_cases hf : r.fileMsgStatus = .fileComplete
    · rw [if_pos hf]
      exact ends_redirect hm
    · rw [if_neg hf]
      exact ends_again hlive

/-- An upload whose first boundary is as announced is one still: the stage changes how far it is,
not what it is. -/
theorem beginStage_upload {r r' : Request} (hr : r.isUpload = true)
    (h : beginStage r = .ok (some r')) : r'.isUpload = true := by
  unfold beginStage at h
  split at h
  · split at h
    · split at h
      · cases h
      · split at h
        · cases h
          exact hr
        · cases h
    · cases h
      exact hr
  · cases h
    exact hr

/-- The stages of a `POST` end a turn, whichever of them is the last to have what it waits for. -/
theorem postStage_ends (ofs : Bool) {r : Request} (hs : r.status = .handleBody)
    (hm : r.requestMethod = lit "POST") : (postStage ofs r).Ends := by
  unfold postStage
  by_cases hmul : r.isMultipart = true
  · rw [if_pos hmul]
    cases hbegin : beginStage r with
    | error f => exact ⟨[], [], rfl, nofun, .crashes f rfl⟩
    | ok o =>
      cases o with
      | none => exact ends_redirect hm
      | some r₁ =>
        have hup := beginStage_upload (isUpload_iff.mpr ⟨hs, hm, hmul⟩) hbegin
        simp only
        cases hpart : partStage r₁ with
        | error f => exact ⟨[], [], rfl, nofun, .crashes f rfl⟩
        | ok r₂ =>
          obtain ⟨hs₂, hm₂, -⟩ := isUpload_iff.mp (partStage_stays hup hpart).1
          exact contentStage_ends ofs hs₂ hm₂
  · rw [if_neg hmul]
    exact ends_redirect hm

/-- The body of the receive loop ends a turn. -/
theorem recvTurn_ends (buf : Bytes) (ofs : Bool) {r : Request}
    (hlive : r.status ≠ .handleComplete) :
    (recvTurn buf ofs r).Ends := by
  -- the stages of the head log the chunk and the request line
  have hreceiving : ∀ a ∈ .recvd buf :: (requestLineStage (r.push buf)).2, a.Receiving := by
    intro a ha
    rcases List.mem_cons.mp ha with rfl | ha
    · trivial
    · unfold requestLineStage at ha
      split at ha
      · split at ha
        · rw [List.mem_singleton.mp ha]
          trivial
        · cases ha
      · cases ha
  have hlive₁ := requestLineStage_live (r := r.push buf) hlive
  rw [recvTurn_eq]
  generalize requestLineStage (r.push buf) = p at hreceiving hlive₁
  cases hhead : headStage p.1 with
  | error f => exact ⟨_, [], (List.append_nil _).symm, hreceiving, .crashes f rfl⟩
  | ok r₂ =>
    -- the header lines do not complete a request
    have hlive₂ : r₂.status ≠ .handleComplete := by
      rcases headStage_status hhead with h | h <;> rw [h]
      · exact hlive₁
      · decide
    refine Turn.Ends.prepend ?_ hreceiving
    unfold bodyStage
    by_cases hs : r₂.status = .handleBody
    · rw [if_pos hs]
      split_ifs with hget hpost hput
      · exact ends_complete r₂ (.inl hget) (if_pos hget).symm
      · exact postStage_ends ofs hs hpost
      · exact ⟨[], _, rfl, fun a ha => absurd ha List.not_mem_nil,
          .puts (t := ⟨r₂, _, .leave⟩) rfl hs hput⟩
      · exact ends_again hlive₂
    · rw [if_neg hs]
      exact ends_again hlive₂

/-! ### A call of `HandleRecv::process` -/

/-- How a call ends, with its last actions. It waits, it closes, it completes a request, it asks for
the response of a `PUT`, its upload file does not open, or it ends the process. -/
inductive Ending (c : Call) : List Action → Prop where
  /-- There is nothing more to receive. -/
  | waits (r : Request) (crash : c.crash = none) (request : c.request = some r)
      (live : r.status ≠ .handleComplete) : Ending c [.modifyWaitFd true true false]
  /-- The connection is closed; a request in error is re-armed before. -/
  | closes (rearmed : List Action) (crash : c.crash = none) (request : c.request = none)
      (arm : rearmed = [] ∨ rearmed = [.modifyWaitFd true true false]) :
      Ending c (rearmed ++ [.deleteWaitFd, .shutdown, .closeClient])
  /-- The request is complete: a response is asked for, and the `Request` is erased. -/
  | completes (method resource : Bytes) (crash : c.crash = none) (request : c.request = none)
      (asks : method = lit "GET" ∨ method = lit "POST") :
      Ending c [.setBodyFileName (askedFor method resource), .modifyWaitFd true true true,
        .processed method resource]
  /-- A response for a `PUT` is asked for, and the `Request` stays. -/
  | puts (r : Request) (crash : c.crash = none) (request : c.request = some r)
      (live : r.status ≠ .handleComplete) :
      Ending c [.setBodyFileName r.requestResource, .modifyWaitFd true true true]
  /-- The upload file does not open: nothing is armed. -/
  | openFails (path : Bytes) (r : Request) (crash : c.crash = none) (request : c.request = some r)
      (live : r.status ≠ .handleComplete) : Ending c [.openAppend path false]
  /-- The call does not return. -/
  | crashes (f : Fault) (crash : c.crash = some f) : Ending c []

/-- The actions of a call are receiving, and then those of its end. -/
def Call.Ends (c : Call) : Prop :=
  ∃ before last, c.acts = before ++ last ∧ (∀ a ∈ before, a.Receiving) ∧ Ending c last

/-- Actions of receiving before a call are part of its receiving. -/
theorem Call.Ends.prepend {c : Call} (h : c.Ends) {acts : List Action}
    (ha : ∀ a ∈ acts, a.Receiving) : (c.prepend acts).Ends := by
  obtain ⟨before, last, hacts, hbefore, hend⟩ := h
  refine ⟨acts ++ before, last, ?_, ?_, ?_⟩
  · rw [Call.prepend_acts, hacts, List.append_assoc]
  · intro a ha'
    exact (List.mem_append.mp ha').elim (ha a) (hbefore a)
  · cases hend with
    | waits r crash request live => exact .waits r crash request live
    | closes rearmed crash request arm => exact .closes rearmed crash request arm
    | completes method resource crash request asks =>
      exact .completes method resource crash request asks
    | puts r crash request live => exact .puts r crash request live
    | openFails path r crash request live => exact .openFails path r crash request live
    | crashes f crash => exact .crashes f crash

/-- Behind `EAGAIN` the descriptor is re-armed for reading, and the request stays. -/
theorem again_ends {r : Request} (hlive : r.status ≠ .handleComplete) (rest : List RecvResult) :
    (Received.finish ⟨r, [.modifyWaitFd true true false], none, rest⟩).Ends := by
  unfold Received.finish HandleRecv.finish
  simp only
  rw [if_neg hlive]
  split
  · exact ⟨[], _, rfl, nofun, .closes [_] rfl rfl (.inr rfl)⟩
  · exact ⟨[], _, rfl, nofun, .waits r rfl rfl hlive⟩

/-- Behind a peer that has closed, or a `recv` that has failed, the connection is closed. -/
theorem error_ends (r : Request) (rest : List RecvResult) :
    (Received.finish ⟨{ r with status := .handleError }, [], none, rest⟩).Ends :=
  ⟨[], _, rfl, nofun, .closes [] rfl rfl (.inl rfl)⟩

/-- **Every exit of `HandleRecv::process`.** -/
theorem recvLoop_ends (results : List RecvResult) {r : Request}
    (hlive : r.status ≠ .handleComplete) :
    (recvLoop results r).finish.Ends := by
  induction results generalizing r with
  | nil => exact again_ends hlive []
  | cons x rest ih =>
    cases x with
    | again => exact again_ends hlive rest
    | closed => exact error_ends r rest
    | failed => exact error_ends r rest
    | data buf ofs =>
      -- the loop leaves the way its last turn does
      obtain ⟨before, last, hacts, hbefore, hend⟩ := recvTurn_ends buf ofs hlive
      unfold recvLoop
      simp only
      cases hend with
      | again flow live =>
        rw [List.append_nil] at hacts
        simp only [flow, Received.finish_prepend]
        exact (ih live).prepend (by rw [hacts]; exact hbefore)
      -- behind the loop the request is erased and shown as processed
      | completes flow status method =>
        simp only [flow]
        unfold Received.finish HandleRecv.finish
        simp only [status, if_true]
        exact ⟨before, _, by rw [hacts, List.append_assoc]; rfl, hbefore,
          .completes _ _ rfl rfl method⟩
      -- the status is `HANDLE_BODY`, for which there is nothing behind the loop
      | puts flow status method =>
        simp only [flow]
        unfold Received.finish HandleRecv.finish
        simp only [status]
        refine ⟨before, _, ?_, hbefore, .puts (recvTurn buf ofs r).request rfl rfl ?_⟩
        · simpa using hacts
        · rw [status]
          exact nofun
      | openFails path flow status =>
        simp only [flow]
        unfold Received.finish HandleRecv.finish
        simp only [status]
        refine ⟨before, _, ?_, hbefore, .openFails path (recvTurn buf ofs r).request rfl rfl ?_⟩
        · simpa using hacts
        · rw [status]
          exact nofun
      | crashes f flow =>
        simp only [flow]
        exact ⟨before, [], hacts, hbefore, .crashes f rfl⟩

/-- **Every exit of `HandleRecv::process`**, on the entry of its descriptor. -/
theorem process_ends (results : List RecvResult) {entry : Option Request}
    (hlive : ∀ r ∈ entry, r.status ≠ .handleComplete) : (process results entry).Ends :=
  recvLoop_ends results (live_getD hlive)

end HandleRecv

namespace HandleSend

/-! ### A call of `HandleSend::process` -/

/-- The response is being sent, from its head or from its body. The descriptor is then re-armed for
writing. -/
def Sending (r : Response) : Prop := r.status = .handleHead ∨ r.status = .handleBody

theorem Sending.not_init {r : Response} (h : Sending r) : r.status ≠ .handleInit := by
  rcases h with h | h <;> rw [h] <;> exact nofun

theorem Sending.not_complete {r : Response} (h : Sending r) : r.status ≠ .handleComplete := by
  rcases h with h | h <;> rw [h] <;> exact nofun

theorem Sending.not_error {r : Response} (h : Sending r) : r.status ≠ .handleError := by
  rcases h with h | h <;> rw [h] <;> exact nofun

/-- What the send loop leaves: the `Request` may be in error, bytes have been sent, and the response
is complete or still being sent. -/
structure Sends (request : Option Request) (s : Stage) : Prop where
  flow : s.flow = .proceed
  request : s.request = request ∨ s.request = setError request
  writes : ∀ a ∈ s.acts, a.Writing
  status : Sending s.response ∨ s.response.status = .handleComplete

/-- The send loop, by induction on the answers of the system: it only writes, and leaves with the
response complete or on its way. -/
theorem sendLoop_sends (results : List SendResult) (request : Option Request) {r : Response}
    (hr : Sending r) : Sends request (sendLoop results request r) := by
  have hstep {s : Stage} {a : Action} (ha : a.Writing) (h : Sends request s) :
      Sends request (s.prepend [a]) := by
    refine ⟨h.flow, h.request, fun x hx => ?_, h.status⟩
    rcases List.mem_cons.mp hx with rfl | hx
    · exact ha
    · exact h.writes x hx
  refine sendLoop_induction (P := fun _ s => Sends request s) ?_ ?_ ?_ ?_ ?_ results hr
  · intro q r hq hr
    exact ⟨rfl, hq, nofun, or_assoc.mpr hr⟩
  · intro r n s _ h
    exact hstep trivial h
  · intro r n s _ _ h
    exact hstep trivial h
  · intro r n disk s _ _ h
    exact hstep trivial h
  · intro r s _ _ h
    exact h

/-- How a call that comes to the send loop ends, with its last actions: it re-arms for reading when
the response is complete, and for writing when it is not. -/
inductive SendEnd (w : World) (c : Call) : List Action → Prop where
  /-- The response is complete, and a new one stands in its place. -/
  | finishes (crash : c.crash = none) (response : c.response = some (Response.init w.fresh)) :
      SendEnd w c ([.finished, .modifyWaitFd true true false] ++ closeStray w)
  /-- There is no room, or an error. -/
  | waits (r : Response) (crash : c.crash = none) (response : c.response = some r)
      (sending : Sending r) : SendEnd w c [.modifyWaitFd true true true]

/-- **Every exit of `HandleSend::process`** with a response `r`. -/
inductive Ending (w : World) (r : Response) (c : Call) : Prop where
  /-- The response is sent on. -/
  | resumes (writes last : List Action) (sending : Sending r) (acts : c.acts = writes ++ last)
      (writing : ∀ a ∈ writes, a.Writing) (ends : SendEnd w c last)
  /-- The response is constructed and sent. -/
  | opens (before writes last : List Action) (built : Response) (status : r.status = .handleInit)
      (acts : c.acts = .dispatch r.bodyFileName :: before ++ [.built built] ++ writes ++ last)
      (preparing : ∀ a ∈ before, a.Preparing) (writing : ∀ a ∈ writes, a.Writing)
      (ends : SendEnd w c last)
  /-- The response is replaced by another one for the same request. -/
  | reenters (before : List Action) (next : Response) (status : r.status = .handleInit)
      (crash : c.crash = none) (response : c.response = some next)
      (init : next.status = .handleInit)
      (acts : c.acts = .dispatch r.bodyFileName :: before ++ [.modifyWaitFd true true true])
      (preparing : ∀ a ∈ before, a.Preparing)
  /-- The call does not return. -/
  | crashes (f : Fault) (before : List Action) (next : Response) (status : r.status = .handleInit)
      (crash : c.crash = some f) (response : c.response = some next)
      (init : next.status = .handleInit) (acts : c.acts = .dispatch r.bodyFileName :: before)
      (preparing : ∀ a ∈ before, a.Preparing)

/-- Behind the send loop, for a response that is complete or on its way: the two ends that `SendEnd`
lists. -/
theorem finish_ends (w : World) (request : Option Request) {r : Response}
    (hr : Sending r ∨ r.status = .handleComplete) (acts : List Action) :
    ∃ last, ((finish w request r).prepend acts).acts = acts ++ last ∧
      SendEnd w ((finish w request r).prepend acts) last := by
  refine ⟨(finish w request r).acts, rfl, ?_⟩
  unfold finish
  by_cases hc : r.status = .handleComplete
  · rw [if_pos hc]
    exact .finishes rfl rfl
  · have hs := hr.resolve_right hc
    rw [if_neg hc, if_neg hs.not_error]
    exact .waits r rfl rfl hs

/-- **Every exit of `HandleSend::process`**: the response was on its way and is sent on, it is
constructed and sent, or another response is put in its place. -/
theorem process_ends (w : World) (results : List SendResult) (request : Option Request)
    {r : Response} (hr : r.status = .handleInit ∨ Sending r) :
    Ending w r (process w results request (some r)) := by
  rcases hr with hi | hs
  · rcases operaStage_opens w request hi with ho | hl
    -- the response is constructed, and then sent in the same call
    · have hloop := sendLoop_sends results (operaStage w request r).request
        (r := (operaStage w request r).response) (.inl ho.status)
      obtain ⟨before, hacts, hbefore⟩ := ho.acts
      rw [process_proceed (initStage_of_init hi) ho.flow hloop.flow]
      obtain ⟨last, hlast, hend⟩ := finish_ends w
        (sendLoop results (operaStage w request r).request
          (operaStage w request r).response).request hloop.status
        (((operaStage w request r).prepend [.dispatch r.bodyFileName]).acts ++
          (sendLoop results (operaStage w request r).request
            (operaStage w request r).response).acts)
      refine .opens before _ last (operaStage w request r).response hi (hlast.trans ?_) hbefore
        hloop.writes hend
      change .dispatch r.bodyFileName :: (operaStage w request r).acts ++ _ ++ _ = _
      rw [hacts]
      rfl
    -- none is constructed: the handler returns for the next call, or the process ends
    · rcases hl.exit with ⟨hflow, before, hacts, hbefore⟩ | ⟨f, hflow, hbefore⟩
      · rw [process_leave (initStage_of_init hi) hflow]
        refine .reenters before _ hi rfl rfl hl.status ?_ hbefore
        change .dispatch r.bodyFileName :: (operaStage w request r).acts = _
        rw [hacts]
        rfl
      · rw [process_crash (initStage_of_init hi) hflow]
        exact .crashes f _ _ hi rfl rfl hl.status rfl hbefore
  -- the response was on its way, so the first stage does nothing
  · have hloop := sendLoop_sends results request hs
    rw [process_proceed (initStage_of_not_init hs.not_init) rfl hloop.flow]
    obtain ⟨last, hlast, hend⟩ := finish_ends w (sendLoop results request r).request hloop.status
      ((⟨request, r, [], .proceed⟩ : Stage).acts ++ (sendLoop results request r).acts)
    exact .resumes _ last hs hlast hloop.writes hend

/-- The construction of a response looks at the `Request` of its descriptor, and makes an empty one
where there is none. -/
theorem operaStage_request (w : World) (request : Option Request) (r : Response) :
    (operaStage w request r).request = request ∨
      (operaStage w request r).request = some (request.getD Request.init) := by
  unfold operaStage
  split
  · exact .inl rfl
  · split_ifs
    · unfold filelistStage
      simp only
      split <;> exact .inl rfl
    · unfold downlStage
      simp only
      split <;> exact .inl rfl
    · exact .inl rfl
    · unfold putStage
      simp only
      split
      · exact .inr rfl
      · exact .inl rfl
    · exact .inl rfl

/-- The first stage does so too, since it constructs the response or leaves the entries alone. -/
theorem initStage_request (w : World) (request : Option Request) (r : Response) :
    (initStage w request r).request = request ∨
      (initStage w request r).request = some (request.getD Request.init) := by
  unfold initStage
  split
  · exact operaStage_request w request r
  · exact .inl rfl

/-- The send loop leaves the entry of `requestStatus` alone, or sets its status. -/
theorem sendLoop_request_cases (results : List SendResult) (request : Option Request)
    (r : Response) :
    (sendLoop results request r).request = request ∨
      (sendLoop results request r).request = setError request := by
  fun_induction sendLoop results request r <;>
    first | assumption | exact .inl rfl | exact .inr rfl

/-- What stands behind the send loop does not touch `requestStatus`. -/
theorem finish_request (w : World) (request : Option Request) (r : Response) :
    (finish w request r).request = request := by
  unfold finish
  split_ifs <;> rfl

/-- A call leaves the `Request` of its first stage, or that of the send loop behind it. -/
theorem process_request_eq (w : World) (results : List SendResult) (request : Option Request)
    (r : Response) :
    (process w results request (some r)).request = (initStage w request r).request ∨
      (process w results request (some r)).request =
        (sendLoop results (initStage w request r).request
          (initStage w request r).response).request := by
  unfold process
  simp only
  split
  · exact .inl rfl
  · exact .inl rfl
  · right
    split
    · rfl
    · exact finish_request w _ _

/-- **What a call of `HandleSend` leaves in `requestStatus`** is the entry it has found or made,
with the status set when sending has failed. -/
theorem process_request_cases (w : World) (results : List SendResult) (request : Option Request)
    (response : Option Response) :
    ∀ q ∈ (process w results request response).request,
      q = request.getD Request.init ∨
        q = { request.getD Request.init with status := .handleError } := by
  have hown (q : Request) (hq : q ∈ request) : q = request.getD Request.init := by
    rw [Option.mem_def.mp hq]
    rfl
  cases response with
  | none => exact fun q hq => .inl (hown q hq)
  | some r =>
    have hstage := initStage_request w request r
    -- what the first stage leaves, and the loop behind it
    have hfirst : ∀ q ∈ (initStage w request r).request, q = request.getD Request.init := by
      rcases hstage with h | h <;> rw [h]
      · exact hown
      · rintro q ⟨⟩
        rfl
    have hsame : (initStage w request r).request.getD Request.init = request.getD Request.init := by
      rcases hstage with h | h <;> rw [h]
      rfl
    intro q hq
    -- the loop has not been reached, or it has set the status of a request at most
    rcases process_request_eq w results request r with h | h
    · rw [h] at hq
      exact .inl (hfirst q hq)
    · rw [h] at hq
      rcases sendLoop_request_cases results (initStage w request r).request
        (initStage w request r).response with hloop | hloop
      · rw [hloop] at hq
        exact .inl (hfirst q hq)
      · rw [hloop, setError, hsame] at hq
        exact .inr (Option.some.inj hq).symm

/-- No call leaves a `Request` that is complete. -/
theorem process_request_live (w : World) (results : List SendResult) {request : Option Request}
    (hlive : ∀ q ∈ request, q.status ≠ .handleComplete) (response : Option Response) :
    ∀ q ∈ (process w results request response).request, q.status ≠ .handleComplete := by
  have hentry := live_getD hlive
  intro q hq
  rcases process_request_cases w results request response q hq with rfl | rfl
  · exact hentry
  · exact nofun

end HandleSend

end Cherokee
