import Cherokee.PartialSends

/-!
# A send that fails

`send` and `sendfile` are called at three places of `HandleSend::process`. Behind a `-1` that is not
`EAGAIN` each of them sets `HANDLE_ERROR` and leaves the send loop, and what is behind the loop has
a branch for `HANDLE_ERROR` that erases the response and closes the connection. But the status is
set in `requestStatus`, and the branch reads `responseStatus`.

* `HandleSend.sendLoop_fails`: a loop that comes to a failing send leaves a response that is still
  being sent.
* `HandleSend.failed_send_rearmed`: the call waits for the descriptor again, as if there had been no
  room.
-/

namespace Cherokee

namespace HandleSend

/-- The send loop comes to a `send` or `sendfile` that returns `-1` with an `errno` other than
`EAGAIN`; every call before it takes something. -/
inductive Fails : List SendResult → Response → Prop where
  | here {file : Bytes} {r : Response} {a : Ask} (asked : ask file r = some a)
      (results : List SendResult) : Fails (.failed :: results) r
  | behind {disk : Bytes} {r : Response} {a : Ask} (asked : ask disk r = some a) {n : ℕ}
      {results : List SendResult} (rest : Fails results (accept disk r n).1) :
      Fails (.accepted n disk :: results) r

/-- A call of `HandleSend::process` comes to a failing send: the response is constructed in it, or
was constructed before, and its send loop fails. -/
structure CallFails (w : World) (results : List SendResult) (request : Option Request)
    (r : Response) : Prop where
  proceeds : (initStage w request r).flow = .proceed
  fails : Fails results (initStage w request r).response

/-- What a failed send is to leave: no response but one made behind the erased one, the client's
descriptor closed and not armed for output, and nothing sent by any later call. -/
structure EndsResponse (c : Call) : Prop where
  removed : ∀ q ∈ c.response, ∃ u, q = Response.init u
  closed : .closeClient ∈ c.acts
  disarmed : ∀ edge oneshot, .modifyWaitFd edge oneshot true ∉ c.acts
  quiet : ∀ calls, onWire (sends calls c.request c.response).acts = []

/-- The two responses differ in how far they have been sent only. -/
def SameContent (r q : Response) : Prop :=
  q = { r with status := q.status, curStatusHasSendLen := q.curStatusHasSendLen }

theorem SameContent.trans {r q p : Response} (h : SameContent r q) (h' : SameContent q p) :
    SameContent r p := by
  unfold SameContent at h h' ⊢
  rw [h', h]

theorem accept_sameContent (file : Bytes) (r : Response) (n : ℕ) :
    SameContent r (accept file r n).1 := by
  have hhead : SameContent r (sendHead r n).1 := by
    unfold sendHead
    simp only
    split <;> rfl
  have hbody (msg : Bytes) : SameContent r (sendBody r msg n).1 := by
    unfold sendBody
    simp only
    split <;> rfl
  unfold accept
  split
  · exact hhead
  · exact hbody file
  · exact hbody r.msgBody

/-- Only a response that is being sent makes a call. -/
theorem sending_of_ask {file : Bytes} {r : Response} {a : Ask} (h : ask file r = some a) :
    Sending r := by
  cases hs : r.status with
  | handleHead => exact .inl hs
  | handleBody => exact .inr hs
  | handleInit => simp [ask, hs] at h
  | handleComplete => simp [ask, hs] at h
  | handleError => simp [ask, hs] at h

theorem Fails.sending {results : List SendResult} {r : Response} (h : Fails results r) :
    Sending r := by
  cases h with
  | here asked => exact sending_of_ask asked
  | behind asked => exact sending_of_ask asked

/-- **The send loop at a failing send.** Whatever has been sent before, the response it leaves is
the one it was given, and is still being sent. -/
theorem sendLoop_fails {results : List SendResult} {r : Response} (h : Fails results r)
    (request : Option Request) :
    ∃ q r' acts, sendLoop results request r = ⟨q, r', acts, .proceed⟩ ∧ Sending r' ∧
      SameContent r r' := by
  induction h with
  | here asked results =>
    -- the status is set in the other table: the response stays as it is
    obtain ⟨q, hloop⟩ := sendLoop_stop asked (show ∀ n disk, (SendResult.failed :: results).head? ≠
      some (.accepted n disk) by simp) request
    exact ⟨q, _, [], hloop, sending_of_ask asked, rfl⟩
  | @behind disk r a asked n results rest ih =>
    obtain ⟨act, -, hturn⟩ := sendLoop_turn asked (fun _ => rfl) n results request
    obtain ⟨q, r', acts, hloop, hsending, hsame⟩ := ih
    -- the response is not complete: a further call is made for it
    rw [if_neg rest.sending.not_complete, hloop] at hturn
    exact ⟨q, r', act :: acts, hturn, hsending, (accept_sameContent disk r n).trans hsame⟩

/-- **A call with a failing send**: the response is still there, and still being sent. -/
theorem process_fails {w : World} {results : List SendResult} {request : Option Request}
    {r : Response} (h : CallFails w results request r) :
    ∃ q, (process w results request (some r)).response = some q ∧ Sending q ∧
      SameContent (initStage w request r).response q := by
  obtain ⟨q, r', acts, hloop, hsending, hsame⟩ :=
    sendLoop_fails h.fails (initStage w request r).request
  refine ⟨r', ?_, hsending, hsame⟩
  rw [process_proceed rfl h.proceeds (by rw [hloop]), hloop]
  unfold finish
  -- the branch for `HANDLE_ERROR` asks for the status of the response
  rw [if_neg hsending.not_complete, if_neg hsending.not_error]
  rfl

theorem CallFails.status {w : World} {results : List SendResult} {request : Option Request}
    {r : Response} (h : CallFails w results request r) : r.status = .handleInit ∨ Sending r := by
  by_cases hi : r.status = .handleInit
  · exact .inl hi
  · have hfails := h.fails
    rw [initStage_of_not_init hi] at hfails
    exact .inr hfails.sending

/-- A call that leaves a response to be sent on ends by arming the descriptor for output, and closes
nothing. -/
theorem rearmed_of_sending {w : World} {results : List SendResult} {request : Option Request}
    {r q : Response} (hr : r.status = .handleInit ∨ Sending r)
    (hq : (process w results request (some r)).response = some q) (hsending : Sending q) :
    (∃ before, (process w results request (some r)).acts =
      before ++ [.modifyWaitFd true true true]) ∧
    .closeClient ∉ (process w results request (some r)).acts := by
  -- a call that has come to the send loop waits
  have hwaits {last : List Action} (hend : SendEnd w (process w results request (some r)) last) :
      last = [.modifyWaitFd true true true] := by
    cases hend with
    | waits => rfl
    | finishes _ response =>
      obtain rfl := Option.some.inj (hq.symm.trans response)
      exact absurd rfl hsending.not_init
  -- a response that is being sent is not one left for re-entry
  have hnext {next : Response}
      (response : (process w results request (some r)).response = some next) :
      next.status ≠ .handleInit := by
    obtain rfl := Option.some.inj (hq.symm.trans response)
    exact hsending.not_init
  cases process_ends w results request hr with
  | resumes writes last sending acts writing ends =>
    -- the last action is the re-arming, and what stands before it closes nothing
    obtain rfl := hwaits ends
    rw [acts]
    refine ⟨⟨writes, rfl⟩, fun hmem => ?_⟩
    rcases List.mem_append.mp hmem with hmem | hmem
    · exact writing _ hmem
    · simp at hmem
  | opens before writes last built status acts preparing writing ends =>
    obtain rfl := hwaits ends
    rw [acts]
    refine ⟨⟨_, rfl⟩, fun hmem => ?_⟩
    simp only [List.mem_append, List.mem_cons, List.not_mem_nil, or_false, reduceCtorEq,
      false_or] at hmem
    rcases hmem with hmem | hmem
    · exact preparing _ hmem
    · exact writing _ hmem
  | reenters before next status crash response init => exact absurd init (hnext response)
  | crashes f before next status crash response init => exact absurd init (hnext response)

/-- **A failed send does not end the response.** In every call in which a `send` or `sendfile`
fails, of a head or a body, at any offset and for any body, the response keeps its place with all
that has been constructed for it, the client's descriptor is not closed, and the call ends by arming
it for output. -/
theorem failed_send_rearmed {w : World} {results : List SendResult} {request : Option Request}
    {r : Response} (h : CallFails w results request r) :
    let c := process w results request (some r)
    ¬ EndsResponse c ∧
      (∃ q, c.response = some q ∧ Sending q ∧ SameContent (initStage w request r).response q) ∧
      .closeClient ∉ c.acts ∧ ∃ before, c.acts = before ++ [.modifyWaitFd true true true] := by
  intro c
  obtain ⟨q, hq, hsending, hsame⟩ := process_fails h
  obtain ⟨harmed, hclosed⟩ := rearmed_of_sending h.status hq hsending
  exact ⟨fun hends => hclosed hends.closed, ⟨q, hq, hsending, hsame⟩, hclosed, harmed⟩

theorem shortPage_fails : CallFails sampleWorld [.accepted 1 [], .failed] none shortPage :=
  ⟨rfl, @Fails.behind [] _ _ rfl _ _ (@Fails.here [] _ _ rfl [])⟩

theorem failed_send_rearmed_page :
    .closeClient ∉ (process sampleWorld [.accepted 1 [], .failed] none (some shortPage)).acts :=
  (failed_send_rearmed shortPage_fails).2.2.1

/-- The peer has vanished behind the first byte of the head. -/
theorem failed_send_kept :
    ¬ ∀ (w : World) (results : List SendResult) (request : Option Request) (r : Response),
      CallFails w results request r → EndsResponse (process w results request (some r)) := by
  intro h
  have hends := h sampleWorld [.accepted 1 [], .failed] none shortPage shortPage_fails
  have hopen : .closeClient ∉
      (process sampleWorld [.accepted 1 [], .failed] none (some shortPage)).acts := by
    decide +kernel
  exact hopen hends.closed

end HandleSend

end Cherokee
