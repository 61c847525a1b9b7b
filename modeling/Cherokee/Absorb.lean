import Cherokee.RecvSpec

/-!
# Absorbing received bytes

`Request.absorb r x` is the request `r` after the bytes `x` have been received and everything that
can be decided has been decided: its lines are read (`Request.drained`) and the rest is settled
(`Request.settle`).

* `Request.absorb_append`: absorbing `x ++ y` is absorbing `x` and then `y`, as long as no response
  is asked for in between; a complete request leaves what comes later untouched
  (`Request.absorb_append_of_complete`).
* `HandleRecv.recvTurn_follows`: the body of the receive loop computes `absorb`.
-/

open DelimScan

namespace Cherokee

open HandleRecv

/-- What is decided about a request once its lines have been read: the request that is left, what
goes to its file, and the resource for which a response is asked, if there is one. -/
structure Outcome where
  /-- The request, with what it has not consumed. -/
  request : Request
  /-- The bytes written to the upload file, when the content stage has run. -/
  written : Option Bytes
  /-- The resource a response is asked for. -/
  handed : Option Bytes

namespace Outcome

/-- The actions behind a decision, in the order of the source: the file is opened and appended to,
and then the resource is handed over and the descriptor armed. -/
def acts (o : Outcome) : List Action :=
  (match o.written with
    | some data => [.openAppend o.request.uploadPath true, .append o.request.uploadPath data]
    | none => []) ++
  (match o.handed with
    | some name => [.setBodyFileName name, .modifyWaitFd true true true]
    | none => [])

/-- The bytes written to the file at `path`: those of the decision when it is the file of the
request, and none otherwise. -/
def writtenTo (o : Outcome) (path : Bytes) : Bytes :=
  if path = o.request.uploadPath then o.written.getD [] else []

/-- The actions behind a decision append to a file what the decision writes to it. -/
@[simp] theorem appendedTo_acts (o : Outcome) (path : Bytes) :
    appendedTo path o.acts = o.writtenTo path := by
  obtain ⟨r, w, h⟩ := o
  unfold acts writtenTo
  cases w <;> cases h <;> simp [Action.appendedTo, eq_comm]

/-- The actions behind a decision receive nothing. -/
@[simp] theorem received_acts (o : Outcome) : received o.acts = [] := by
  obtain ⟨r, w, h⟩ := o
  cases w <;> cases h <;> rfl

/-- They log no request as complete, which is done behind the receive loop. -/
@[simp] theorem completed_acts (o : Outcome) : completed o.acts = [] := by
  obtain ⟨r, w, h⟩ := o
  cases w <;> cases h <;> rfl

/-- They hand the resource over for which a response is asked, and no other. -/
@[simp] theorem handedOver_acts (o : Outcome) : handedOver o.acts = o.handed.toList := by
  obtain ⟨r, w, h⟩ := o
  cases w <;> cases h <;> rfl

/-- The decision, when `data` has been written before it: what it writes goes behind that. -/
def after (data : Bytes) (o : Outcome) : Outcome :=
  { o with written := o.written.map (data ++ ·) }

@[simp] theorem after_request (data : Bytes) (o : Outcome) : (o.after data).request = o.request :=
  rfl

@[simp] theorem after_handed (data : Bytes) (o : Outcome) : (o.after data).handed = o.handed := rfl

/-- Nothing that has been written before changes nothing. -/
@[simp] theorem after_nil (o : Outcome) : o.after [] = o := by
  obtain ⟨r, w, h⟩ := o
  cases w <;> rfl

end Outcome

namespace Request

/-- The request is complete and a response for `name` is asked for. -/
def settled (r : Request) (written : Option Bytes) (name : Bytes) : Outcome where
  request := { r with status := .handleComplete }
  written := written
  handed := some name

/-- What becomes of an upload whose content has been scanned for the final delimiter: it is complete
when that has been found, and otherwise keeps what may still become one. -/
def scanned (r : Request) (s : Result UInt8) : Outcome :=
  if s.found then
    { r with recvMsg := s.held, fileMsgStatus := .fileComplete }.settled
      (some s.released) (lit "/redirect")
  else ⟨r.withMsg s.held, some s.released, none⟩

/-- What becomes of a request whose lines have been read: in the body the method decides, and for an
upload how far its part has come. -/
def settle (r : Request) : Outcome :=
  match r.status with
  | .handleComplete => r.settled none (lit "/redirect")
  | .handleBody =>
    if r.requestMethod = lit "GET" then r.settled none r.requestResource
    else if r.requestMethod = lit "POST" then
      if r.isMultipart then
        match r.fileMsgStatus with
        | .fileContent => r.scanned (scan (delimiter (r.boundary?.getD [])) r.recvMsg)
        | .fileComplete => r.settled none (lit "/redirect")
        | _ => ⟨r, none, none⟩
      else r.settled none (lit "/redirect")
    else if r.requestMethod = lit "PUT" then ⟨r, none, some r.requestResource⟩
    else ⟨r, none, none⟩
  | _ => ⟨r, none, none⟩

/-- The request after the bytes `x` have been received: all lines that are complete have been read,
and what can be decided has been. -/
def absorb (r : Request) (x : Bytes) : Except Fault Outcome := (r.push x).drained.map settle

/-- When the lines can be read, what they leave is settled. -/
theorem absorb_of_drained {r r' : Request} {x : Bytes} (hd : (r.push x).drained = .ok r') :
    r.absorb x = .ok r'.settle := by
  rw [absorb, hd]
  rfl

/-- When a line is refused, so is the whole. -/
theorem absorb_of_refused {r : Request} {x : Bytes} {f : Fault}
    (hd : (r.push x).drained = .error f) :
    r.absorb x = .error f := by
  rw [absorb, hd]
  rfl

/-- What has been absorbed is what the lines that have been read decide. -/
theorem drained_of_absorb {r : Request} {x : Bytes} {o : Outcome} (h : r.absorb x = .ok o) :
    ∃ r', (r.push x).drained = .ok r' ∧ r'.settle = o := by
  cases hd : (r.push x).drained with
  | error f => cases (absorb_of_refused hd).symm.trans h
  | ok r' => exact ⟨r', rfl, Except.ok.inj ((absorb_of_drained hd).symm.trans h)⟩

/-- The content stage runs, should it be reached: the file opens, and the lengths of the content
loop fit an `int`. -/
def Fits (ofs : Bool) (r : Request) : Prop :=
  r.isUpload = true → r.fileMsgStatus = .fileContent →
    ofs = true ∧ ∃ b, r.boundary? = some b ∧
      (r.recvMsg = [] ∨ (b.length + 8 < 2 ^ 31 ∧ r.recvMsg.length < 2 ^ 31))

/-! ### Reading a decision off the request -/

/-- In front of the body nothing is decided, and in error nothing either. -/
theorem settle_of_not_body {r : Request} (h : r.status ≠ .handleBody)
    (h' : r.status ≠ .handleComplete) : r.settle = ⟨r, none, none⟩ := by
  unfold settle
  cases hs : r.status <;> simp_all

/-- In the body the method decides. -/
theorem settle_of_body {r : Request} (h : r.status = .handleBody) :
    r.settle =
      if r.requestMethod = lit "GET" then r.settled none r.requestResource
      else if r.requestMethod = lit "POST" then
        if r.isMultipart then
          match r.fileMsgStatus with
          | .fileContent => r.scanned (scan (delimiter (r.boundary?.getD [])) r.recvMsg)
          | .fileComplete => r.settled none (lit "/redirect")
          | _ => ⟨r, none, none⟩
        else r.settled none (lit "/redirect")
      else if r.requestMethod = lit "PUT" then ⟨r, none, some r.requestResource⟩
      else ⟨r, none, none⟩ := by
  rw [settle, h]

/-- For an upload in the body it is how far its part has come that decides. -/
theorem settle_of_upload {r : Request} (h : r.isUpload = true) :
    r.settle = match r.fileMsgStatus with
      | .fileContent => r.scanned (scan (delimiter (r.boundary?.getD [])) r.recvMsg)
      | .fileComplete => r.settled none (lit "/redirect")
      | _ => ⟨r, none, none⟩ := by
  obtain ⟨hs, hm, hc⟩ := isUpload_iff.mp h
  rw [settle_of_body hs, if_neg (by rw [hm]; decide), if_pos hm, if_pos hc]

/-- In the content of an upload the scan for the final delimiter decides. -/
theorem settle_of_content {r : Request} (h : r.isUpload = true)
    (hf : r.fileMsgStatus = .fileContent) :
    r.settle = r.scanned (scan (delimiter (r.boundary?.getD [])) r.recvMsg) := by
  rw [settle_of_upload h, hf]

/-! ### Absorbing piece by piece -/

/-- Outside the content of an upload, a request for which no response is asked waits as it is. -/
theorem settle_of_waiting {r : Request}
    (hc : ¬ (r.isUpload = true ∧ r.fileMsgStatus = .fileContent))
    (hn : r.settle.handed = none) : r.settle = ⟨r, none, none⟩ := by
  by_cases hs : r.status = .handleBody
  · rw [settle_of_body hs] at hn ⊢
    -- by the method: all but an upload and an unknown method ask for a response
    split_ifs at hn ⊢ with hget hpost hmul hput
    · cases hn
    · have hu : r.isUpload = true := isUpload_iff.mpr ⟨hs, hpost, hmul⟩
      cases hf : r.fileMsgStatus with
      | fileBeginFlag => rfl
      | fileHead => rfl
      | fileContent => exact absurd ⟨hu, hf⟩ hc
      | fileComplete =>
        rw [hf] at hn
        cases hn
    · cases hn
    · rfl
  · refine settle_of_not_body hs fun hcomp => ?_
    rw [settle, hcomp] at hn
    cases hn

/-- The content of an upload asks for no line. -/
theorem drained_of_content {r : Request} (hu : r.isUpload = true)
    (hf : r.fileMsgStatus = .fileContent) : r.drained = .ok r :=
  drained_of_rest (.inl (by rw [wantsLine_of_upload hu, hf]; rfl))

/-- A scan that goes on from one before it writes what that one had released in front of its own. -/
theorem scanned_releaseAll (r r' : Request) (s : Result UInt8) (p : Bytes)
    (h : r.withMsg [] = r'.withMsg []) :
    r.scanned (s.releaseAll p) = (r'.scanned s).after p := by
  have hw (m : Bytes) : r.withMsg m = r'.withMsg m := by
    rw [← withMsg_withMsg r [] m, h, withMsg_withMsg]
  have hs := congrArg (fun r : Request => { r with fileMsgStatus := .fileComplete }) (hw s.held)
  unfold scanned
  -- the delimiter has been found in what is scanned now, or not
  cases hf : s.found with
  | true =>
    rw [Result.releaseAll_found, hf, if_pos rfl, if_pos rfl]
    exact congrArg (fun r : Request => r.settled (some (p ++ s.released)) (lit "/redirect")) hs
  | false =>
    rw [Result.releaseAll_found, hf, if_neg (by decide), if_neg (by decide),
      Result.releaseAll_held, hw s.held]
    rfl

/-- A request settled without a response goes on from what it has not consumed: settling it with
more bytes is absorbing these bytes from what it has left. -/
theorem settle_push {r : Request} (hn : r.settle.handed = none) (y : Bytes) :
    (r.push y).drained.map settle =
      (r.settle.request.absorb y).map (Outcome.after (r.settle.written.getD [])) := by
  -- in the content of an upload the scan goes on, and elsewhere nothing has been consumed
  by_cases hc : r.isUpload = true ∧ r.fileMsgStatus = .fileContent
  · obtain ⟨hu, hf⟩ := hc
    rw [settle_of_content hu hf] at hn ⊢
    have hpush : (r.push y).settle = (r.push y).scanned
        (scan (delimiter (r.boundary?.getD [])) (r.recvMsg ++ y)) :=
      settle_of_content (r := r.push y) hu hf
    have happ := scan_append (D := delimiter (r.boundary?.getD [])) r.recvMsg y
    generalize scan (delimiter (r.boundary?.getD [])) r.recvMsg = s at hn happ
    have hfound : s.found = false := by
      by_contra hfound
      rw [scanned, if_pos (by simpa using hfound)] at hn
      cases hn
    have hreq : ((r.withMsg s.held).push y).settle = ((r.withMsg s.held).push y).scanned
        (scan (delimiter (r.boundary?.getD [])) (s.held ++ y)) :=
      settle_of_content (r := (r.withMsg s.held).push y) hu hf
    rw [happ hfound] at hpush
    rw [scanned, if_neg (by simp [hfound]), absorb,
      drained_of_content (r := r.push y) hu hf,
      drained_of_content (r := (r.withMsg s.held).push y) hu hf]
    simp only [Except.map, hpush, hreq, Option.getD_some]
    exact congrArg Except.ok (scanned_releaseAll _ _ _ _ rfl)
  · rw [settle_of_waiting hc hn]
    unfold absorb
    cases (r.push y).drained <;> simp [Except.map]

/-- **Absorbing is independent of where the input is cut**, as long as no response is asked for in
between. What is written in the two parts is written one behind the other. -/
theorem absorb_append {r : Request} {x : Bytes} {o : Outcome} (h : r.absorb x = .ok o)
    (hn : o.handed = none) (y : Bytes) :
    r.absorb (x ++ y) = (o.request.absorb y).map (Outcome.after (o.written.getD [])) := by
  obtain ⟨r', hd, rfl⟩ := drained_of_absorb h
  rw [← settle_push hn y, absorb, drained_push, hd]
  rfl

/-- A request that asks for a line waits for it, so that nothing is decided before the line has
arrived. -/
theorem settle_of_wantsLine {r : Request} (h : r.wantsLine = true) :
    r.settle = ⟨r, none, none⟩ := by
  by_cases hu : r.isUpload = true
  · rw [wantsLine_of_upload hu] at h
    rw [settle_of_upload hu]
    cases hf : r.fileMsgStatus with
    | fileBeginFlag => rfl
    | fileHead => rfl
    | fileContent => rw [hf] at h; cases h
    | fileComplete => rw [hf] at h; cases h
  · refine settle_of_not_body (fun hs => ?_) fun hs => ?_ <;>
      simp [wantsLine, hs, hu] at h

/-- Outside the content of an upload nothing is decided by the unprocessed data, which is just
carried along. -/
theorem settle_withMsg {r : Request} (hc : ¬ (r.isUpload = true ∧ r.fileMsgStatus = .fileContent))
    (m : Bytes) :
    (r.withMsg m).settle = { r.settle with request := r.settle.request.withMsg m } := by
  by_cases hs : r.status = .handleBody
  · rw [settle_of_body hs, settle_of_body (r := r.withMsg m) hs]
    simp only [withMsg_requestMethod, withMsg_isMultipart, withMsg_fileMsgStatus]
    by_cases hget : r.requestMethod = lit "GET"
    · simp only [hget, ↓reduceIte]
      rfl
    by_cases hpost : r.requestMethod = lit "POST"
    · by_cases hmul : r.isMultipart = true
      · have hu : r.isUpload = true := isUpload_iff.mpr ⟨hs, hpost, hmul⟩
        simp only [hpost, hmul, ↓reduceIte]
        cases hf : r.fileMsgStatus with
        | fileBeginFlag => rfl
        | fileHead => rfl
        | fileContent => exact absurd ⟨hu, hf⟩ hc
        | fileComplete => rfl
      · simp only [hpost, hmul, ↓reduceIte]
        rfl
    · by_cases hput : r.requestMethod = lit "PUT"
      · simp only [hput, ↓reduceIte]
        rfl
      · simp only [hget, hpost, hput, ↓reduceIte]
  · by_cases hcomp : r.status = .handleComplete
    · rw [settle, settle, withMsg_status, hcomp]
      rfl
    · rw [settle_of_not_body hs hcomp, settle_of_not_body (r := r.withMsg m) hs hcomp]

/-- A request that is complete stays so, and leaves what comes later behind what it has not
consumed. -/
theorem settle_push_of_complete {r : Request} (h : r.settle.request.status = .handleComplete)
    (hr : r.wantsLine = false) (y : Bytes) :
    (r.push y).drained.map settle =
      .ok { r.settle with request := r.settle.request.push y } := by
  rw [drained_of_rest (r := r.push y) (.inl hr)]
  -- an upload has found its delimiter, and for the others the data plays no part
  by_cases hc : r.isUpload = true ∧ r.fileMsgStatus = .fileContent
  · obtain ⟨hu, hf⟩ := hc
    have hset := settle_of_content hu hf
    have hfound : (scan (delimiter (r.boundary?.getD [])) r.recvMsg).found = true := by
      by_contra hfound
      rw [hset, scanned, if_neg hfound] at h
      cases (isUpload_iff.mp hu).1.symm.trans (show r.status = .handleComplete from h)
    have happ := scan_append_of_found (delimiter_ne_nil _) hfound y
    have hpush : (r.push y).settle = (r.push y).scanned
        (scan (delimiter (r.boundary?.getD [])) (r.recvMsg ++ y)) :=
      settle_of_content (r := r.push y) hu hf
    rw [Except.map, hpush, happ, hset, scanned, scanned, if_pos rfl, if_pos hfound]
    rfl
  · have hmsg : r.settle.request.recvMsg = r.recvMsg := by
      have hself := settle_withMsg hc r.recvMsg
      rw [withMsg_self] at hself
      rw [hself, withMsg_recvMsg]
    rw [push, Except.map, settle_withMsg hc, push, hmsg]

/-- What comes behind a complete request is left alone: it stands behind what the request has not
consumed, and changes nothing else. -/
theorem absorb_append_of_complete {r : Request} {x : Bytes} {o : Outcome}
    (h : r.absorb x = .ok o) (hc : o.request.status = .handleComplete) (y : Bytes) :
    r.absorb (x ++ y) = .ok { o with request := o.request.push y } := by
  obtain ⟨r', hd, rfl⟩ := drained_of_absorb h
  -- a request that still asked for a line would not be complete
  have hr : r'.wantsLine = false := by
    by_contra hw
    rw [Bool.not_eq_false] at hw
    rw [settle_of_wantsLine hw] at hc
    simp [wantsLine, isUpload, show r'.status = .handleComplete from hc] at hw
  rw [← settle_push_of_complete hc hr y, absorb, drained_push, hd]
  rfl

/-- A response is asked for when the request is complete, and for every `PUT` in its body, which
stays as it is. -/
theorem settle_handed {r : Request} (h : r.settle.handed ≠ none) :
    r.settle.request.status = .handleComplete ∨
      (r.requestMethod = lit "PUT" ∧ r.settle.request = r ∧ r.status = .handleBody) := by
  by_cases hs : r.status = .handleBody
  · rw [settle_of_body hs] at h ⊢
    split_ifs at h ⊢ with hget hpost hmul hput
    · exact .inl rfl
    · cases hf : r.fileMsgStatus with
      | fileBeginFlag => simp [hf] at h
      | fileHead => simp [hf] at h
      | fileContent =>
        simp only [hf] at h ⊢
        unfold scanned at h ⊢
        split at h
        · next hfound => exact .inl (by rw [if_pos hfound]; rfl)
        · exact absurd rfl h
      | fileComplete => exact .inl rfl
    · exact .inl rfl
    · exact .inr ⟨hput, rfl, hs⟩
    · exact absurd rfl h
  · by_cases hcomp : r.status = .handleComplete
    · rw [settle, hcomp]
      exact .inl rfl
    · rw [settle_of_not_body hs hcomp] at h
      exact absurd rfl h

/-- A decision touches the unprocessed data and the two stages only: method, resource, headers and
file name stay what the lines have made them. -/
theorem settle_fields (r : Request) : ∃ recvMsg status fileMsgStatus,
    r.settle.request = { r with recvMsg, status, fileMsgStatus } := by
  by_cases hc : r.isUpload = true ∧ r.fileMsgStatus = .fileContent
  · rw [settle_of_content hc.1 hc.2]
    unfold scanned
    split
    · exact ⟨_, _, _, rfl⟩
    · exact ⟨_, r.status, r.fileMsgStatus, rfl⟩
  · by_cases hs : r.status = .handleBody
    · rw [settle_of_body hs]
      split_ifs with hget hpost hmul hput
      · exact ⟨r.recvMsg, _, r.fileMsgStatus, rfl⟩
      · split
        · next hf => exact absurd ⟨isUpload_iff.mpr ⟨hs, hpost, hmul⟩, hf⟩ hc
        · exact ⟨r.recvMsg, .handleComplete, r.fileMsgStatus, rfl⟩
        · exact ⟨r.recvMsg, r.status, r.fileMsgStatus, rfl⟩
      · exact ⟨r.recvMsg, _, r.fileMsgStatus, rfl⟩
      · exact ⟨r.recvMsg, r.status, r.fileMsgStatus, rfl⟩
      · exact ⟨r.recvMsg, r.status, r.fileMsgStatus, rfl⟩
    · by_cases hcomp : r.status = .handleComplete
      · rw [settle, hcomp]
        exact ⟨r.recvMsg, .handleComplete, r.fileMsgStatus, rfl⟩
      · rw [settle_of_not_body hs hcomp]
        exact ⟨r.recvMsg, r.status, r.fileMsgStatus, rfl⟩

/-- Without a response the status is the one the lines have left, and it is not complete. -/
theorem settle_status {r : Request} (h : r.settle.handed = none) :
    r.settle.request.status = r.status ∧ r.status ≠ .handleComplete := by
  by_cases hc : r.isUpload = true ∧ r.fileMsgStatus = .fileContent
  · obtain ⟨hu, hf⟩ := hc
    rw [settle_of_content hu hf] at h ⊢
    unfold scanned at h ⊢
    split at h
    · cases h
    · next hfound =>
      rw [if_neg hfound, (isUpload_iff.mp hu).1]
      exact ⟨(isUpload_iff.mp hu).1, nofun⟩
  · rw [settle_of_waiting hc h]
    refine ⟨rfl, fun hcomp => ?_⟩
    rw [settle, hcomp] at h
    cases h

/-- A line refused in a part is refused in the whole: no later byte takes it back. -/
theorem absorb_append_of_error {r : Request} {x : Bytes} {f : Fault} (h : r.absorb x = .error f)
    (y : Bytes) : r.absorb (x ++ y) = .error f := by
  cases hd : (r.push x).drained with
  | error f' =>
    obtain rfl : f' = f := Except.error.inj ((absorb_of_refused hd).symm.trans h)
    refine absorb_of_refused ?_
    rw [drained_push, hd]
    rfl
  | ok r' => cases (absorb_of_drained hd).symm.trans h

/-- A response that has been asked for is not taken back by more input, and is for the same
resource. -/
theorem absorb_append_handed {r : Request} {x : Bytes} {o : Outcome} (h : r.absorb x = .ok o)
    (hh : o.handed ≠ none) (y : Bytes) :
    ∃ o', r.absorb (x ++ y) = .ok o' ∧ o'.handed = o.handed := by
  obtain ⟨r', hd, hset⟩ := drained_of_absorb h
  -- the request is complete, or it is a `PUT`
  rcases settle_handed (hset ▸ hh) with hcomp | ⟨hput, -, hbody⟩
  · exact ⟨_, absorb_append_of_complete h (hset ▸ hcomp) y, rfl⟩
  · -- a `PUT` asks for its response again
    have hu : r'.isUpload = false := by
      by_contra hu
      have hpost := (isUpload_iff.mp (by simpa using hu)).2.1
      rw [hput] at hpost
      exact absurd hpost (by decide)
    refine ⟨(r'.push y).settle, absorb_of_drained ?_, ?_⟩
    · rw [drained_push, hd]
      exact drained_of_rest (r := r'.push y) (.inl (by simp [wantsLine, push, hu, hbody]))
    · rw [← hset, push, settle_withMsg (by simp [hu])]

/-- Once a part has asked for no response, the rest goes on with the request it leaves. -/
theorem absorb_rest {r : Request} {x y : Bytes} {o o₁ : Outcome} (h : r.absorb (x ++ y) = .ok o)
    (h₁ : r.absorb x = .ok o₁) (hn₁ : o₁.handed = none) :
    ∃ o₂, o₁.request.absorb y = .ok o₂ ∧ o = o₂.after (o₁.written.getD []) := by
  rw [absorb_append h₁ hn₁] at h
  cases h₂ : o₁.request.absorb y with
  | error f => rw [h₂] at h; cases h
  | ok o₂ =>
    rw [h₂] at h
    exact ⟨o₂, rfl, (Except.ok.inj h).symm⟩

/-- What asks for no response as a whole asks for none after a part, so that it can be absorbed part
by part. -/
theorem absorb_split {r : Request} {x y : Bytes} {o : Outcome} (h : r.absorb (x ++ y) = .ok o)
    (hn : o.handed = none) :
    ∃ o₁ o₂, r.absorb x = .ok o₁ ∧ o₁.handed = none ∧ o₁.request.absorb y = .ok o₂ ∧
      o₂.handed = none ∧ o = o₂.after (o₁.written.getD []) := by
  cases h₁ : r.absorb x with
  | error f =>
    rw [absorb_append_of_error h₁] at h
    cases h
  | ok o₁ =>
    have hn₁ : o₁.handed = none := by
      by_contra hh
      obtain ⟨o', ho', hh'⟩ := absorb_append_handed h₁ hh y
      obtain rfl : o' = o := Except.ok.inj (ho'.symm.trans h)
      exact hh (hh'.symm.trans hn)
    obtain ⟨o₂, h₂, rfl⟩ := absorb_rest h h₁ hn₁
    exact ⟨o₁, o₂, rfl, hn₁, h₂, hn, rfl⟩

/-- The content of an upload is written to its file, and scanned. -/
theorem absorb_of_content {r : Request} (hu : r.isUpload = true)
    (hf : r.fileMsgStatus = .fileContent) (y : Bytes) :
    r.absorb y =
      .ok ((r.push y).scanned (scan (delimiter (r.boundary?.getD [])) (r.recvMsg ++ y))) := by
  rw [absorb, drained_of_content (r := r.push y) hu hf, Except.map,
    settle_of_content (r := r.push y) hu hf]
  rfl

/-- A scan does not change where the upload goes. -/
theorem scanned_uploadPath (r : Request) (s : Result UInt8) :
    (r.scanned s).request.uploadPath = r.uploadPath := by
  unfold scanned
  split <;> rfl

/-- What a scan has released is written. -/
theorem scanned_written (r : Request) (s : Result UInt8) :
    (r.scanned s).written = some s.released := by
  unfold scanned
  split <;> rfl

/-- What a scan holds back is kept as the unprocessed data. -/
theorem scanned_recvMsg (r : Request) (s : Result UInt8) :
    (r.scanned s).request.recvMsg = s.held := by
  unfold scanned
  split <;> rfl

/-- Only the content of an upload is written to a file. -/
theorem settle_written {r : Request} (h : r.settle.written ≠ none) :
    r.isUpload = true ∧ r.fileMsgStatus = .fileContent := by
  by_contra hc
  by_cases hs : r.status = .handleBody
  · rw [settle_of_body hs] at h
    split_ifs at h with hget hpost hmul hput
    · exact h rfl
    · cases hf : r.fileMsgStatus with
      | fileContent => exact hc ⟨isUpload_iff.mpr ⟨hs, hpost, hmul⟩, hf⟩
      | _ => simp [hf, settled] at h
    · exact h rfl
    · exact h rfl
    · exact h rfl
  · by_cases hcomp : r.status = .handleComplete
    · rw [settle, hcomp] at h
      exact h rfl
    · rw [settle_of_not_body hs hcomp] at h
      exact h rfl

/-- What is written piece by piece goes to one file, one piece behind the other. -/
theorem writtenTo_after {r : Request} {x y : Bytes} {o o' : Outcome} (h : r.absorb x = .ok o)
    (hn : o.handed = none) (h' : o.request.absorb y = .ok o') (path : Bytes) :
    (o'.after (o.written.getD [])).writtenTo path = o.writtenTo path ++ o'.writtenTo path := by
  cases hw : o.written with
  | none => simp [Outcome.writtenTo, hw]
  | some w =>
    obtain ⟨r', -, hset⟩ := drained_of_absorb h
    obtain ⟨hu, hf⟩ := settle_written (r := r') (by rw [hset, hw]; exact nofun)
    rw [settle_of_content hu hf] at hset
    -- without a response the upload has only kept what the scan holds back
    have hreq : o.request = r'.withMsg o.request.recvMsg := by
      rw [← hset] at hn ⊢
      unfold scanned at hn ⊢
      split at hn
      · cases hn
      · next hfound => rw [if_neg hfound]; rfl
    have hcont := absorb_of_content (r := r'.withMsg o.request.recvMsg) hu hf y
    rw [← hreq, h'] at hcont
    have ho' := Except.ok.inj hcont
    -- the content does not change the name of its file
    have hpath : o'.request.uploadPath = o.request.uploadPath := by
      rw [ho', scanned_uploadPath, hreq]
      rfl
    have hwritten : ∃ w', o'.written = some w' := ⟨_, by rw [ho', scanned_written]⟩
    obtain ⟨w', hw'⟩ := hwritten
    unfold Outcome.writtenTo Outcome.after
    rw [hw, hw']
    simp only [hpath]
    split <;> simp

end Request

namespace HandleRecv

open Request

/-- A turn of the receive loop acts as decided. Where the request is complete, what it has not
consumed is about to be erased and is not compared. -/
structure Turn.Follows (t : Turn) (before : List Action) (o : Outcome) : Prop where
  acts : t.acts = before ++ o.acts
  flow : t.flow = if o.handed = none then .again else .leave
  request : t.request.withMsg [] = o.request.withMsg []
  msg : o.request.status ≠ .handleComplete → t.request = o.request

/-- What a turn has done before is in front of what it does as decided. -/
theorem Turn.Follows.prepend {t : Turn} {before : List Action} {o : Outcome}
    (h : t.Follows before o) (acts : List Action) :
    (t.prepend acts).Follows (acts ++ before) o where
  acts := by rw [List.append_assoc, ← h.acts]; rfl
  flow := h.flow
  request := h.request
  msg := h.msg

/-- Going on as it is follows the decision to wait. -/
theorem follows_again (r : Request) : Turn.Follows ⟨r, [], .again⟩ [] ⟨r, none, none⟩ :=
  ⟨rfl, rfl, rfl, fun _ => rfl⟩

/-- Completing the request follows the decision to do so. -/
theorem follows_complete (r : Request) (name : Bytes) :
    (complete r name).Follows [] (r.settled none name) :=
  ⟨rfl, rfl, rfl, fun h => absurd rfl h⟩

/-- The content stage decides as the scan does, where its file opens and its lengths fit; behind the
content it completes the request. -/
theorem contentStage_follows {ofs : Bool} {r : Request} (hu : r.isUpload = true)
    (hb : r.fileMsgStatus ≠ .fileBeginFlag) (hh : r.fileMsgStatus ≠ .fileHead)
    (hfit : r.Fits ofs) : (contentStage ofs r).Follows [] r.settle := by
  unfold contentStage
  by_cases hc : r.fileMsgStatus = .fileContent
  · obtain ⟨hofs, b, hbd, hlen⟩ := hfit hu hc
    rw [if_pos hc, if_pos hofs, settle_of_content hu hc]
    -- on an empty buffer the lengths do not matter
    have hloop : contentLoop (some b) r.recvMsg =
        ⟨(scan (delimiter b) r.recvMsg).released, (scan (delimiter b) r.recvMsg).held,
          if (scan (delimiter b) r.recvMsg).found then .complete else .wait⟩ := by
      rcases hlen with hnil | ⟨h1, h2⟩
      · rw [hnil]
        exact contentLoop_nil _
      · exact contentLoop_eq_scan h1 h2
    rw [hbd, hloop, Option.getD_some]
    obtain ⟨released, held, found⟩ := scan (delimiter b) r.recvMsg
    cases found with
    | true => exact ⟨rfl, rfl, rfl, fun h => absurd rfl h⟩
    | false => exact ⟨rfl, rfl, rfl, fun _ => rfl⟩
  · rw [if_neg hc]
    have hcomp : r.fileMsgStatus = .fileComplete := by
      cases hf : r.fileMsgStatus <;> simp_all
    rw [if_pos hcomp, settle_of_upload hu, hcomp]
    exact follows_complete r _

/-- The part header stage leaves an upload an upload, and moves on within it. -/
theorem partStage_stays {r r' : Request} (hu : r.isUpload = true) (h : partStage r = .ok r') :
    r'.isUpload = true ∧
      (r'.fileMsgStatus = .fileBeginFlag → r' = r) := by
  unfold partStage at h
  split at h
  · next hf =>
    have hleaves : r'.isUpload = true ∧ r'.fileMsgStatus ≠ .fileBeginFlag := by
      refine lineLoop_leaves (P := InPartHead)
        (Q := fun r => r.isUpload = true ∧ r.fileMsgStatus ≠ .fileBeginFlag) ?_ ?_ ?_
        partTurn_decreasing ⟨hu, hf⟩ h
      · exact fun r hr => ⟨hr.1, by rw [hr.2]; decide⟩
      · exact fun r m hr => ⟨hr.1, fun h => by cases h⟩
      · intro r r' m line hr ho
        obtain ⟨name, rfl⟩ := addPartLine_fields ho
        exact hr
    exact ⟨hleaves.1, fun hb => absurd hb hleaves.2⟩
  · cases h
    exact ⟨hu, fun _ => rfl⟩

/-- Behind the part header stage the lines of an upload have been read: either it asks for none, or
none is complete. -/
theorem partStage_rest {r r' : Request} (hu : r.isUpload = true)
    (hbegin : r.fileMsgStatus = .fileBeginFlag → cutLine r.recvMsg = none)
    (h : partStage r = .ok r') : r'.wantsLine = false ∨ cutLine r'.recvMsg = none := by
  obtain ⟨hu', hstay⟩ := partStage_stays hu h
  rw [wantsLine_of_upload hu']
  cases hf : r'.fileMsgStatus with
  | fileBeginFlag =>
    have heq := hstay hf
    exact .inr (by rw [heq]; exact hbegin (by rw [← heq]; exact hf))
  | fileHead => exact .inr ((drained_partStage hu).2 r' h ⟨hu', hf⟩)
  | fileContent => exact .inl rfl
  | fileComplete => exact .inl rfl

/-- What the stages of an upload do: a line is refused, the content stage is next, or the first line
is not the start boundary. -/
inductive PostRead (ofs : Bool) (r : Request) : Prop
  | refused (f : Fault) (drained : r.drained = .error f)
      (turn : postStage ofs r = ⟨(postStage ofs r).request, [], .crash f⟩)
  | content (r' : Request) (drained : r.drained = .ok r') (upload : r'.isUpload = true)
      (turn : postStage ofs r = contentStage ofs r')
  | foreign (m : Bytes)
      (drained : r.drained = .ok (({ r with status := .handleComplete } : Request).withMsg m))
      (turn : postStage ofs r = complete r (lit "/redirect"))

/-- What the stages of an upload do is one of the three, by what the stage of the start boundary and
the one of the part header say. -/
theorem postStage_cases (ofs : Bool) {r : Request} (hu : r.isUpload = true) : PostRead ofs r := by
  obtain ⟨-, -, hm⟩ := isUpload_iff.mp hu
  have hbegin := drained_beginStage hu
  -- the start boundary: the look-up throws, the line is another one, or the part begins
  cases hB : beginStage r with
  | error f =>
    rw [hB] at hbegin
    exact .refused f hbegin (by unfold postStage; simp only [if_pos hm, hB])
  | ok o =>
    rw [hB] at hbegin
    cases o with
    | none =>
      obtain ⟨m, hdrained⟩ := hbegin
      exact .foreign m hdrained (by unfold postStage; simp only [if_pos hm, hB])
    | some r₁ =>
      obtain ⟨hd₁, hu₁, hrest₁⟩ := hbegin
      have hd₂ := (drained_partStage hu₁).1
      -- the header of the part, of which a line may be refused
      cases hP : partStage r₁ with
      | error f =>
        rw [hP] at hd₂
        exact .refused f (hd₁.trans hd₂) (by unfold postStage; simp only [if_pos hm, hB, hP])
      | ok r₂ =>
        rw [hP] at hd₂
        have hend := drained_of_rest (partStage_rest hu₁ hrest₁ hP)
        exact .content r₂ (hd₁.trans (Eq.trans hd₂ hend)) (partStage_stays hu₁ hP).1
          (by unfold postStage; simp only [if_pos hm, hB, hP])

/-- The stages of an upload decide as settling does, once the lines of the part have been read. -/
theorem postStage_follows {ofs : Bool} {r r' : Request} (hu : r.isUpload = true)
    (hd : r.drained = .ok r')
    (hfit : r'.Fits ofs) : (postStage ofs r).Follows [] r'.settle := by
  cases postStage_cases ofs hu with
  | refused f drained => cases drained.symm.trans hd
  | content q drained hu' turn =>
    obtain rfl : q = r' := Except.ok.inj (drained.symm.trans hd)
    rw [turn]
    by_cases hb : q.fileMsgStatus = .fileBeginFlag
    · rw [contentStage, if_neg (by rw [hb]; decide), if_neg (by rw [hb]; decide),
        settle_of_upload hu', hb]
      exact follows_again q
    · by_cases hh : q.fileMsgStatus = .fileHead
      · rw [contentStage, if_neg (by rw [hh]; decide), if_neg (by rw [hh]; decide),
          settle_of_upload hu', hh]
        exact follows_again q
      · exact contentStage_follows hu' hb hh hfit
  | foreign m drained turn =>
    obtain rfl := Except.ok.inj (drained.symm.trans hd)
    rw [turn]
    exact ⟨rfl, rfl, rfl, fun h => absurd rfl h⟩

/-- Outside the body, and in a body that is no upload, the lines have been read. -/
theorem rest_of_not_upload {r : Request}
    (hinit : r.status = .handleInit → cutLine r.recvMsg = none)
    (hhead : r.status = .handleHead → cutLine r.recvMsg = none) (hu : r.isUpload = false) :
    r.wantsLine = false ∨ cutLine r.recvMsg = none := by
  cases h : r.status with
  | handleInit => exact .inr (hinit h)
  | handleHead => exact .inr (hhead h)
  | handleBody => exact .inl (by simp [wantsLine, hu, h])
  | handleComplete => exact .inl (by simp [wantsLine, hu, h])
  | handleError => exact .inl (by simp [wantsLine, hu, h])

/-- The `HANDLE_BODY` stage decides as settling does, for each of the methods. -/
theorem bodyStage_follows {ofs : Bool} {r r' : Request} (hlive : r.status ≠ .handleComplete)
    (hinit : r.status = .handleInit → cutLine r.recvMsg = none)
    (hhead : r.status = .handleHead → cutLine r.recvMsg = none) (hd : r.drained = .ok r')
    (hfit : r'.Fits ofs) : (bodyStage ofs r).Follows [] r'.settle := by
  by_cases hu : r.isUpload = true
  · obtain ⟨hs, hm, -⟩ := isUpload_iff.mp hu
    rw [bodyStage, if_pos hs, if_neg (by rw [hm]; decide), if_pos hm]
    exact postStage_follows hu hd hfit
  · rw [drained_of_rest (rest_of_not_upload hinit hhead (by simpa using hu))] at hd
    cases hd
    unfold bodyStage
    by_cases hs : r.status = .handleBody
    · rw [if_pos hs, settle_of_body hs]
      -- by the method, in the order of the source
      split_ifs with hget hpost hmul hput
      · exact follows_complete r _
      · exact absurd (isUpload_iff.mpr ⟨hs, hpost, hmul⟩) hu
      · rw [postStage, if_neg hmul]
        exact follows_complete r _
      · exact ⟨rfl, rfl, rfl, fun _ => rfl⟩
      · exact follows_again r
    · rw [if_neg hs, settle_of_not_body hs hlive]
      exact follows_again r

/-- The stage of the request line completes no request. -/
theorem requestLineStage_live {r : Request} (h : r.status ≠ .handleComplete) :
    (requestLineStage r).1.status ≠ .handleComplete := by
  unfold requestLineStage
  split
  · split
    · rintro ⟨⟩
    · exact h
  · exact h

/-- The header stage leaves the section to the body, or stays in it. -/
theorem headStage_status {r r' : Request} (h : headStage r = .ok r') :
    r'.status = r.status ∨ r'.status = .handleBody := by
  unfold headStage at h
  split at h
  · next hs =>
    rw [hs]
    refine lineLoop_leaves (P := fun r => r.status = .handleHead)
      (Q := fun r => r.status = .handleHead ∨ r.status = .handleBody) ?_ ?_ ?_
      headTurn_decreasing hs h
    · exact fun r hr => .inl hr
    · intro r m _
      unfold endHead
      split <;> exact .inr rfl
    · exact fun r r' m line hr ho => (addHeaderOpt_status ho).trans hr
  · cases h
    exact .inl rfl

/-- Behind the line stages of the head no complete line of the head is left in the buffer. -/
theorem headStage_rest {r r' : Request} (hline : r.status = .handleInit → cutLine r.recvMsg = none)
    (h : headStage r = .ok r') :
    (r'.status = .handleInit → cutLine r'.recvMsg = none) ∧
      (r'.status = .handleHead → cutLine r'.recvMsg = none) := by
  refine ⟨fun hi => ?_, (drained_headStage r).2 r' h⟩
  rcases headStage_status h with hs | hs
  · have hsame : r' = r := by
      unfold headStage at h
      rw [if_neg (by rw [← hs, hi]; decide)] at h
      exact (Except.ok.inj h).symm
    rw [hsame]
    exact hline (by rw [← hsame]; exact hi)
  · rw [hs] at hi
    cases hi

/-- A turn of the receive loop, stage by stage: the request line, the headers, of which one may
throw, and the body. -/
theorem recvTurn_eq (buf : Bytes) (ofs : Bool) (r : Request) :
    recvTurn buf ofs r = match headStage (requestLineStage (r.push buf)).1 with
      | .error f => ⟨(requestLineStage (r.push buf)).1,
          .recvd buf :: (requestLineStage (r.push buf)).2, .crash f⟩
      | .ok r' => (bodyStage ofs r').prepend (.recvd buf :: (requestLineStage (r.push buf)).2) :=
        rfl

/-- A turn on a request whose head has been read is its body stage. -/
theorem recvTurn_behind_head {r : Request} (hi : r.status ≠ .handleInit)
    (hh : r.status ≠ .handleHead) (buf : Bytes) (ofs : Bool) :
    recvTurn buf ofs r = (bodyStage ofs (r.push buf)).prepend [.recvd buf] := by
  have hline : requestLineStage (r.push buf) = (r.push buf, []) := if_neg hi
  have hhead : headStage (r.push buf) = .ok (r.push buf) := if_neg hh
  rw [recvTurn_eq, hline]
  simp only
  rw [hhead]

/-- A turn on a `PUT` in its body asks for its response, again with every chunk. -/
theorem recvTurn_put {r : Request} (hs : r.status = .handleBody) (hm : r.requestMethod = lit "PUT")
    (buf : Bytes) (ofs : Bool) : recvTurn buf ofs r = ⟨r.push buf,
      [.recvd buf, .setBodyFileName r.requestResource, .modifyWaitFd true true true], .leave⟩ := by
  have hget : lit "PUT" ≠ lit "GET" := by decide
  have hpost : lit "PUT" ≠ lit "POST" := by decide
  have hbody : (r.push buf).status = .handleBody := hs
  have hput : (r.push buf).requestMethod = lit "PUT" := hm
  rw [recvTurn_behind_head (by rw [hs]; exact nofun) (by rw [hs]; exact nofun), bodyStage,
    if_pos hbody, hput, if_neg hget, if_neg hpost, if_pos rfl]
  rfl

/-- What the stages of the head do in a turn: a line is refused, or the body stage goes on with the
request they leave, whose lines in the head have been read. -/
inductive HeadRead (buf : Bytes) (ofs : Bool) (r : Request) : Prop
  | refused (f : Fault) (drained : (r.push buf).drained = .error f)
      (turn : recvTurn buf ofs r = ⟨(recvTurn buf ofs r).request,
        .recvd buf :: (requestLineStage (r.push buf)).2, .crash f⟩)
  | left (q : Request) (drained : (r.push buf).drained = q.drained)
      (live : r.status ≠ .handleComplete → q.status ≠ .handleComplete)
      (init : q.status = .handleInit → cutLine q.recvMsg = none)
      (head : q.status = .handleHead → cutLine q.recvMsg = none)
      (turn : recvTurn buf ofs r =
        (bodyStage ofs q).prepend (.recvd buf :: (requestLineStage (r.push buf)).2))

/-- What the stages of the head do in a turn is one of the two. -/
theorem recvTurn_head (buf : Bytes) (ofs : Bool) (r : Request) : HeadRead buf ofs r := by
  have hread := (drained_headStage (requestLineStage (r.push buf)).1).1
  rw [drained_requestLineStage] at hread
  have hturn := recvTurn_eq buf ofs r
  -- a header is refused or not
  cases hH : headStage (requestLineStage (r.push buf)).1 with
  | error f =>
    rw [hH] at hread hturn
    exact .refused f hread (by rw [hturn])
  | ok q =>
    rw [hH] at hread hturn
    obtain ⟨hinit, hhead⟩ := headStage_rest (requestLineStage_rest _) hH
    refine .left q hread (fun hlive => ?_) hinit hhead hturn
    have hlive₁ := requestLineStage_live (r := r.push buf) hlive
    rcases headStage_status hH with h | h <;> rw [h]
    · exact hlive₁
    · decide

/-- **The body of the receive loop absorbs the chunk**: what a turn does is what settling decides
about the request whose lines have been read. -/
theorem recvTurn_follows {r r' : Request} {buf : Bytes} {ofs : Bool}
    (hlive : r.status ≠ .handleComplete) (hd : (r.push buf).drained = .ok r')
    (hfit : r'.Fits ofs) :
    (recvTurn buf ofs r).Follows
      (.recvd buf :: (requestLineStage (r.push buf)).2) r'.settle := by
  cases recvTurn_head buf ofs r with
  | refused f drained => cases drained.symm.trans hd
  | left q drained live init head turn =>
    have hpre := (bodyStage_follows (live hlive) init head (drained.symm.trans hd) hfit).prepend
      (.recvd buf :: (requestLineStage (r.push buf)).2)
    rwa [List.append_nil, ← turn] at hpre

/-- The body of the receive loop for a chunk behind which the request is an upload: the content
stage is next. -/
theorem recvTurn_of_upload {r r' : Request} {buf : Bytes} (ofs : Bool)
    (hd : (r.push buf).drained = .ok r') (hu : r'.isUpload = true) :
    recvTurn buf ofs r =
      (contentStage ofs r').prepend (.recvd buf :: (requestLineStage (r.push buf)).2) := by
  cases recvTurn_head buf ofs r with
  | refused f drained => cases drained.symm.trans hd
  | left q drained live init head turn =>
    have hq := drained.symm.trans hd
    by_cases hu₁ : q.isUpload = true
    · obtain ⟨hs, hm, -⟩ := isUpload_iff.mp hu₁
      rw [turn, bodyStage, if_pos hs, if_neg (by rw [hm]; decide), if_pos hm]
      cases postStage_cases ofs hu₁ with
      | refused f drained => cases drained.symm.trans hq
      | content r₂ drained _ stage =>
        obtain rfl : r₂ = r' := Except.ok.inj (drained.symm.trans hq)
        rw [stage]
      | foreign m drained =>
        obtain rfl := Except.ok.inj (drained.symm.trans hq)
        cases (isUpload_iff.mp hu).1
    · rw [drained_of_rest (rest_of_not_upload init head (by simpa using hu₁))] at hq
      obtain rfl := Except.ok.inj hq
      exact absurd hu hu₁

/-- A chunk with a line that is refused ends the process. -/
theorem recvTurn_of_error {r : Request} {buf : Bytes} {f : Fault} (ofs : Bool)
    (hd : (r.push buf).drained = .error f) :
    recvTurn buf ofs r = ⟨(recvTurn buf ofs r).request,
      .recvd buf :: (requestLineStage (r.push buf)).2, .crash f⟩ := by
  cases recvTurn_head buf ofs r with
  | refused f' drained turn =>
    obtain rfl : f' = f := Except.error.inj (drained.symm.trans hd)
    exact turn
  | left q drained live init head turn =>
    have hq := drained.symm.trans hd
    by_cases hu : q.isUpload = true
    · obtain ⟨hs, hm, -⟩ := isUpload_iff.mp hu
      cases postStage_cases ofs hu with
      | refused f' drained stage =>
        obtain rfl : f' = f := Except.error.inj (drained.symm.trans hq)
        rw [turn, bodyStage, if_pos hs, if_neg (by rw [hm]; decide), if_pos hm, stage]
        simp [Turn.prepend]
      | content r' drained => cases drained.symm.trans hq
      | foreign m drained => cases drained.symm.trans hq
    · rw [drained_of_rest (rest_of_not_upload init head (by simpa using hu))] at hq
      cases hq

end HandleRecv

end Cherokee
