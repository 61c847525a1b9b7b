import Cherokee.Calls

/-!
# Partial sends

`send` and `sendfile` take as much as they have room for. One counter, `curStatusHasSendLen`, stands
for what is gone of the head and then of the body, and `HandleSend::process` can be left and entered
again at any byte of either.

A response with the head `head` and the body `body` (`Response.Holds`) stands behind the bytes `w`
when `w` is the part of `head ++ body` up to its counter (`HandleSend.Stands`). Every `send` and
`sendfile` moves it on by what was taken (`HandleSend.accept_stands`), and is called with an offset
inside its part and the count that is left of it (`HandleSend.Ask.Inside`).

* `HandleSend.partial_sends`: over any number of calls nothing is lost, repeated or reordered, and
  the response is complete with its last byte.
-/

namespace Cherokee

/-- The response has the head `head` and the body `body`, which is a page, the content of a file, or
nothing, and its lengths are those of the two. -/
structure Response.Holds (head body : Bytes) (r : Response) : Prop where
  headMsg : r.beforeBodyMsg = head
  headLen : toSize r.beforeBodyMsgLen = head.length
  page : r.bodyType = .htmlType → r.msgBody = body
  bodyLen : r.bodyType ≠ .emptyType → r.msgBodyLen = body.length
  empty : r.bodyType = .emptyType → body = []
  /-- Its length is an `unsigned long`. -/
  room : body.length < 2 ^ 64

namespace HandleSend

/-! ### What is called -/

/-- What `send` or `sendfile` is called with: the string or the file, the offset in it, and the
count, which is a `size_t`. -/
structure Ask where
  part : Bytes
  offset : ℕ
  count : ℕ

/-- The offset is inside the part, and the count is what is left of it behind the offset. -/
structure Ask.Inside (a : Ask) : Prop where
  offset : a.offset ≤ a.part.length
  count : a.count = a.part.length - a.offset

/-- What the system takes of what it is asked for: as many bytes as the answer says, and no more
than the count. -/
def Ask.taken (a : Ask) : SendResult → Bytes
  | .accepted n _ => (a.part.drop a.offset).take (min n a.count)
  | _ => []

/-- The call that the send loop makes for a response, when there is one; `file` is the content of
the open file. Without a body there is nothing to call for behind the head. -/
def ask (file : Bytes) (r : Response) : Option Ask :=
  match r.status, r.bodyType with
  | .handleHead, _ => some ⟨r.beforeBodyMsg, r.curStatusHasSendLen,
      toSize (r.beforeBodyMsgLen - r.curStatusHasSendLen)⟩
  | .handleBody, .htmlType => some ⟨r.msgBody, r.curStatusHasSendLen,
      toSize ((r.msgBodyLen : ℤ) - r.curStatusHasSendLen)⟩
  | .handleBody, .fileType => some ⟨file, r.curStatusHasSendLen,
      toSize ((r.msgBodyLen : ℤ) - r.curStatusHasSendLen)⟩
  | _, _ => none

/-- The response behind a call that has taken at most `n` bytes, and the bytes themselves. -/
def accept (file : Bytes) (r : Response) (n : ℕ) : Response × Bytes :=
  match r.status, r.bodyType with
  | .handleHead, _ => sendHead r n
  | _, .fileType => sendBody r file n
  | _, _ => sendBody r r.msgBody n

/-- The calls that the send loop makes on the answers of the system. The loop ends with the first
answer that takes nothing. -/
def asks (file : Bytes) : List SendResult → Response → List Ask
  | .accepted n _ :: results, r =>
    match ask file r with
    | some a => a :: asks file results (accept file r n).1
    | none => []
  | _, r => (ask file r).toList

/-! ### Where a response stands -/

/-- The response stands behind the bytes `w` of its head and body: within its head, within its body,
or behind all of it. -/
inductive Stands (head body : Bytes) (r : Response) (w : Bytes) : Prop where
  | head (holds : r.Holds head body) (status : r.status = .handleHead)
      (offset : r.curStatusHasSendLen < head.length ∨ r.curStatusHasSendLen = 0)
      (accepted : w = head.take r.curStatusHasSendLen)
  | body (holds : r.Holds head body) (status : r.status = .handleBody)
      (offset : r.curStatusHasSendLen < body.length ∨ r.curStatusHasSendLen = 0)
      (accepted : w = head ++ body.take r.curStatusHasSendLen)
  | done (status : r.status = .handleComplete) (accepted : w = head ++ body)

variable {head body w : Bytes} {r : Response}

/-- The bytes behind which a response stands are the beginning of its head and body. -/
theorem Stands.isPrefix (h : Stands head body r w) : w <+: head ++ body := by
  cases h with
  | head _ _ _ accepted =>
    rw [accepted]
    exact (List.take_prefix _ _).trans (List.prefix_append _ _)
  | body _ _ _ accepted =>
    rw [accepted]
    exact List.prefix_append_right_inj head |>.mpr (List.take_prefix _ _)
  | done _ accepted => exact accepted ▸ List.prefix_refl _

/-- A count that is left of a length does not wrap, as the offset is no larger than the length. -/
theorem toSize_sub {z : ℤ} {len sent : ℕ} (h : toSize z = len) (hs : sent ≤ len) :
    toSize (z - sent) = len - sent := by
  unfold toSize at h ⊢
  omega

/-- What a response that stands is sent with is inside its part, so that no byte beyond the part is
read. -/
theorem Stands.inside (h : Stands head body r w) {a : Ask} (ha : ask body r = some a) :
    a.Inside := by
  cases h with
  | head holds status offset =>
    simp only [ask, status, Option.some.injEq] at ha
    subst ha
    have hle : r.curStatusHasSendLen ≤ head.length := by omega
    exact ⟨by rw [holds.headMsg]; exact hle,
      by rw [holds.headMsg]; exact toSize_sub holds.headLen hle⟩
  | body holds status offset =>
    have hle : r.curStatusHasSendLen ≤ body.length := by omega
    -- the length less the offset, as a `size_t`
    have hcount (he : r.bodyType ≠ .emptyType) :
        toSize ((r.msgBodyLen : ℤ) - r.curStatusHasSendLen) =
          body.length - r.curStatusHasSendLen := by
      rw [holds.bodyLen he]
      exact toSize_sub (toSize_natCast holds.room) hle
    -- a page is sent from memory and a file from its descriptor
    cases hb : r.bodyType with
    | htmlType =>
      simp only [ask, status, hb, Option.some.injEq] at ha
      subst ha
      have hpage := holds.page hb
      exact ⟨by rw [hpage]; exact hle, by rw [hpage]; exact hcount (by rw [hb]; exact nofun)⟩
    | fileType =>
      simp only [ask, status, hb, Option.some.injEq] at ha
      subst ha
      exact ⟨hle, hcount (by rw [hb]; exact nofun)⟩
    | emptyType => simp [ask, status, hb] at ha
  | done status => simp [ask, status] at ha

/-- What a response holds does not depend on its status and its counter. -/
theorem holds_moved (holds : r.Holds head body) (status : MsgStatus) (sent : ℕ) :
    ({ r with status, curStatusHasSendLen := sent } : Response).Holds head body :=
  ⟨holds.headMsg, holds.headLen, holds.page, holds.bodyLen, holds.empty, holds.room⟩

/-- A `send` of the head moves the response on within the head, or to the first byte of its body. -/
theorem sendHead_stands (holds : r.Holds head body) (status : r.status = .handleHead) (n : ℕ) :
    Stands head body (sendHead r n).1 (head.take r.curStatusHasSendLen ++ (sendHead r n).2) := by
  have hnext :=
    take_append_chunk r.beforeBodyMsg (toSize r.beforeBodyMsgLen) r.curStatusHasSendLen n
  have hlen := holds.headLen
  unfold sendHead
  simp only
  generalize chunk r.beforeBodyMsg (toSize r.beforeBodyMsgLen) r.curStatusHasSendLen n = data
    at hnext ⊢
  rw [holds.headMsg] at hnext
  split
  · next hle =>
    -- the head is sent: the counter begins again
    refine .body (holds_moved holds .handleBody 0) rfl (.inr rfl) ?_
    rw [hnext, List.take_of_length_le (by omega)]
    exact (List.append_nil head).symm
  · next hlt =>
    exact .head (holds_moved holds r.status _) status (.inl (by simp only; omega)) hnext

/-- A `send` or `sendfile` of the body moves the response on within the body, or to its end. -/
theorem sendBody_stands (holds : r.Holds head body) (status : r.status = .handleBody)
    (he : r.bodyType ≠ .emptyType) (n : ℕ) :
    Stands head body (sendBody r body n).1
      (head ++ body.take r.curStatusHasSendLen ++ (sendBody r body n).2) := by
  have hnext := take_append_chunk body r.msgBodyLen r.curStatusHasSendLen n
  have hlen := holds.bodyLen he
  rw [sendBody_snd]
  unfold sendBody
  simp only
  generalize chunk body r.msgBodyLen r.curStatusHasSendLen n = data at hnext ⊢
  rw [List.append_assoc, hnext]
  -- the last byte has been taken, or some are left
  split
  · next hle =>
    refine .done rfl ?_
    rw [List.take_of_length_le (by omega)]
  · next hlt =>
    exact .body (holds_moved holds r.status _) status (.inl (by simp only; omega)) rfl

/-- **A `send` or `sendfile` moves the response on** by what was taken. -/
theorem accept_stands (h : Stands head body r w) {a : Ask} (ha : ask body r = some a) (n : ℕ) :
    Stands head body (accept body r n).1 (w ++ (accept body r n).2) := by
  -- by where the response stands; a complete one is not sent on
  cases h with
  | head holds status offset accepted =>
    rw [accepted, accept, status]
    exact sendHead_stands holds status n
  | body holds status offset accepted =>
    cases hb : r.bodyType with
    | htmlType =>
      have hmsg := sendBody_stands holds status (by rw [hb]; exact nofun) n
      rw [accepted, accept, status, hb]
      simp only [holds.page hb]
      exact hmsg
    | fileType =>
      rw [accepted, accept, status, hb]
      exact sendBody_stands holds status (by rw [hb]; exact nofun) n
    | emptyType => simp [ask, status, hb] at ha
  | done status => simp [ask, status] at ha

/-- What was taken is what the call was for: the bytes from its offset on, as many as were taken. -/
theorem accept_snd (h : Stands head body r w) {a : Ask} (ha : ask body r = some a) (n : ℕ)
    (disk : Bytes) : (accept body r n).2 = a.taken (.accepted n disk) := by
  -- the call asks for the part behind what has been taken
  have hin := h.inside ha
  cases h with
  | head holds status offset accepted =>
    simp only [ask, status, Option.some.injEq] at ha
    subst ha
    -- from the head the chunk is counted by an `int`
    have hsnd : (sendHead r n).2 =
        chunk r.beforeBodyMsg (toSize r.beforeBodyMsgLen) r.curStatusHasSendLen n := by
      unfold sendHead
      simp only
      split <;> rfl
    rw [accept, status]
    simp only
    rw [hsnd, chunk, Ask.taken, hin.count, holds.headLen, holds.headMsg]
  | body holds status offset accepted =>
    have hcount := hin.count
    cases hb : r.bodyType with
    | htmlType =>
      simp only [ask, status, hb, Option.some.injEq] at ha
      subst ha
      rw [accept, status, hb]
      simp only
      rw [sendBody_snd, chunk, Ask.taken, hcount, holds.bodyLen (by rw [hb]; exact nofun),
        holds.page hb]
    -- from a file the chunk is what `sendfile` reads, as long as the body
    | fileType =>
      simp only [ask, status, hb, Option.some.injEq] at ha
      subst ha
      rw [accept, status, hb]
      simp only
      rw [sendBody_snd, chunk, Ask.taken, hcount, holds.bodyLen (by rw [hb]; exact nofun)]
    | emptyType => simp [ask, status, hb] at ha
  | done status => simp [ask, status] at ha

/-! ### The send loop -/

/-- Sending does not change the type of the body. -/
theorem accept_bodyType (file : Bytes) (r : Response) (n : ℕ) :
    (accept file r n).1.bodyType = r.bodyType := by
  have hhead : (sendHead r n).1.bodyType = r.bodyType := by
    unfold sendHead
    simp only
    split <;> rfl
  have hbody (msg : Bytes) : (sendBody r msg n).1.bodyType = r.bodyType := by
    unfold sendBody
    simp only
    split <;> rfl
  unfold accept
  split
  · exact hhead
  · exact hbody file
  · exact hbody r.msgBody

/-- A turn of the send loop in which bytes are taken: it puts these bytes on the wire, and the loop
goes on unless the response is complete with them. -/
theorem sendLoop_turn {file : Bytes} {a : Ask} (ha : ask file r = some a) {disk : Bytes}
    (hdisk : r.bodyType = .fileType → disk = file) (n : ℕ) (results : List SendResult)
    (request : Option Request) :
    ∃ act : Action, act.onWire = (accept file r n).2 ∧
      sendLoop (.accepted n disk :: results) request r =
        if (accept file r n).1.status = .handleComplete then
          ⟨request, (accept file r n).1, [act], .proceed⟩
        else (sendLoop results request (accept file r n).1).prepend [act] := by
  cases hs : r.status with
  | handleHead =>
    -- the head is never the last part
    have hlive : (sendHead r n).1.status ≠ .handleComplete := by
      rcases sendHead_status hs n with h | h <;> rw [h] <;> exact nofun
    refine ⟨.sent (sendHead r n).2, by simp only [accept, hs]; rfl, ?_⟩
    simp only [accept, hs]
    rw [if_neg hlive, sendLoop, hs]
  | handleBody =>
    cases hb : r.bodyType with
    | htmlType =>
      refine ⟨.sent (sendBody r r.msgBody n).2, by simp only [accept, hs, hb]; rfl, ?_⟩
      simp only [accept, hs, hb]
      rw [sendLoop, hs]
      simp only [hb]
    | fileType =>
      -- what `sendfile` reads is the file as it was
      obtain rfl := hdisk hb
      refine ⟨.sentFile (sendBody r disk n).2, by simp only [accept, hs, hb]; rfl, ?_⟩
      simp only [accept, hs, hb]
      rw [sendLoop, hs]
      simp only [hb]
    | emptyType => simp [ask, hs, hb] at ha
  | handleInit => simp [ask, hs] at ha
  | handleComplete => simp [ask, hs] at ha
  | handleError => simp [ask, hs] at ha

/-- A turn of the send loop in which nothing is taken ends the loop, and leaves the response as it
is. -/
theorem sendLoop_stop {file : Bytes} {a : Ask} (ha : ask file r = some a)
    {results : List SendResult}
    (hx : ∀ n disk, results.head? ≠ some (.accepted n disk)) (request : Option Request) :
    ∃ q, sendLoop results request r = ⟨q, r, [], .proceed⟩ := by
  cases results with
  | nil =>
    refine ⟨request, ?_⟩
    cases hs : r.status <;> cases hb : r.bodyType <;> simp [ask, hs, hb] at ha <;>
      simp [sendLoop, hs, hb]
  | cons x results =>
    cases x with
    | accepted n disk => exact absurd rfl (hx n disk)
    | again =>
      refine ⟨request, ?_⟩
      cases hs : r.status <;> cases hb : r.bodyType <;> simp [ask, hs, hb] at ha <;>
        simp [sendLoop, hs, hb]
    | failed =>
      refine ⟨setError request, ?_⟩
      cases hs : r.status <;> cases hb : r.bodyType <;> simp [ask, hs, hb] at ha <;>
        simp [sendLoop, hs, hb]

/-- The file is unchanged while it is sent: every `sendfile` reads `body`. -/
def Unchanged (body : Bytes) (results : List SendResult) : Prop :=
  ∀ n disk, .accepted n disk ∈ results → disk = body

/-- What the send loop leaves of a response that stood behind `w`: it stands behind what has been
sent since, and every call that was made was for a stretch inside its part. -/
structure SentOn (head body w : Bytes) (r : Response) (results : List SendResult) (s : Stage) :
    Prop where
  flow : s.flow = .proceed
  stands : Stands head body s.response (w ++ onWire s.acts)
  /-- A response without a body does not wait behind its head. -/
  settled : s.response.status = .handleBody → s.response.bodyType ≠ .emptyType
  bodyType : s.response.bodyType = r.bodyType
  inside : ∀ a ∈ asks body results r, a.Inside
  taken : onWire s.acts = (List.zipWith Ask.taken (asks body results r) results).flatten

/-- A response for which nothing is called is complete behind its head: it has no body. -/
theorem Stands.of_ask_none (h : Stands head body r w) (hc : r.status ≠ .handleComplete)
    (ha : ask body r = none) :
    r.status = .handleBody ∧ r.bodyType = .emptyType ∧ w = head ++ body := by
  cases h with
  | head _ status => simp [ask, status] at ha
  | body holds status offset accepted =>
    cases hb : r.bodyType with
    | htmlType => simp [ask, status, hb] at ha
    | fileType => simp [ask, status, hb] at ha
    | emptyType =>
      rw [holds.empty hb, List.take_nil] at accepted
      exact ⟨status, rfl, by rw [accepted, holds.empty hb]⟩
  | done status => exact absurd status hc

/-- Where the loop has nothing to call for it makes no call, whatever answers there are. -/
theorem asks_nil {file : Bytes} (ha : ask file r = none) (results : List SendResult) :
    asks file results r = [] := by
  unfold asks
  split <;> simp [ha]

/-- A loop that takes nothing leaves the response where it stands. -/
theorem sentOn_stop (h : Stands head body r w) {a : Ask} (ha : ask body r = some a)
    {results : List SendResult} (hx : ∀ n disk, results.head? ≠ some (.accepted n disk))
    (request : Option Request) : SentOn head body w r results (sendLoop results request r) := by
  obtain ⟨q, hq⟩ := sendLoop_stop ha hx request
  -- one more call is made, and it takes nothing
  have hasks : asks body results r = [a] := by
    unfold asks
    split
    · next n disk results => exact absurd rfl (hx n disk)
    · rw [ha]
      rfl
  rw [hq]
  refine ⟨rfl, by simpa using h, fun hs hb => ?_, rfl, ?_, ?_⟩
  · simp [ask, show r.status = .handleBody from hs, show r.bodyType = .emptyType from hb] at ha
  · rw [hasks]
    exact fun x hmem => List.mem_singleton.mp hmem ▸ h.inside ha
  · rw [hasks]
    cases results with
    | nil => rfl
    | cons x results =>
      cases x with
      | accepted n disk => exact absurd rfl (hx n disk)
      | again => rfl
      | failed => rfl

/-- A response without a body is complete behind its head, whatever the answers are. -/
theorem sentOn_empty (h : Stands head body r w) (hc : r.status ≠ .handleComplete)
    (ha : ask body r = none) (results : List SendResult) (request : Option Request) :
    SentOn head body w r results (sendLoop results request r) := by
  obtain ⟨hs, hb, hw⟩ := h.of_ask_none hc ha
  rw [sendLoop_empty results request hs hb]
  refine ⟨rfl, .done rfl (by simpa using hw), nofun, rfl, ?_, ?_⟩
  · rw [asks_nil ha]
    exact nofun
  · rw [asks_nil ha]
    rfl

/-- **The send loop sends on** from where the response stands, for any answers of the system, as
long as the file does not change. -/
theorem sendLoop_sentOn (results : List SendResult) (request : Option Request)
    (h : Stands head body r w) (hc : r.status ≠ .handleComplete)
    (hdisk : r.bodyType = .fileType → Unchanged body results) :
    SentOn head body w r results (sendLoop results request r) := by
  -- over the answers: each that takes bytes moves the response on, any other ends the loop
  induction results generalizing r w with
  | nil =>
    cases ha : ask body r with
    | none => exact sentOn_empty h hc ha [] request
    | some a => exact sentOn_stop h ha (by simp) request
  | cons x results ih =>
    cases ha : ask body r with
    | none => exact sentOn_empty h hc ha _ request
    | some a =>
      cases x with
      | again => exact sentOn_stop h ha (by simp) request
      | failed => exact sentOn_stop h ha (by simp) request
      | accepted n disk =>
        -- the file is as it was, so the turn takes what the ask describes
        have hsame : r.bodyType = .fileType → disk = body :=
          fun hb => hdisk hb n disk List.mem_cons_self
        obtain ⟨act, hact, hturn⟩ := sendLoop_turn ha hsame n results request
        have hmoved := accept_stands h ha n
        have htype := accept_bodyType body r n
        have htaken := accept_snd h ha n disk
        have hasks : asks body (.accepted n disk :: results) r =
            a :: asks body results (accept body r n).1 := by
          rw [asks, ha]
        rw [hturn]
        by_cases hdone : (accept body r n).1.status = .handleComplete
        -- a response that is complete asks for nothing more
        · have hnone : ask body (accept body r n).1 = none := by
            unfold ask
            rw [hdone]
          rw [if_pos hdone]
          refine ⟨rfl, ?_, fun hs => ?_, htype, ?_, ?_⟩
          · simpa [hact] using hmoved
          · cases hdone.symm.trans hs
          · rw [hasks, asks_nil hnone]
            exact fun x hmem => List.mem_singleton.mp hmem ▸ h.inside ha
          · rw [hasks, asks_nil hnone]
            simp [hact, htaken]
        · rw [if_neg hdone]
          have hrest := ih hmoved hdone fun hb m d hm =>
            hdisk (htype.symm.trans hb) m d (List.mem_cons_of_mem _ hm)
          refine ⟨hrest.flow, ?_, hrest.settled, hrest.bodyType.trans htype, ?_, ?_⟩
          · have hstands := hrest.stands
            rw [← hact, List.append_assoc] at hstands
            exact hstands
          · rw [hasks]
            intro y hy
            rcases List.mem_cons.mp hy with rfl | hy
            · exact h.inside ha
            · exact hrest.inside y hy
          · rw [hasks, List.zipWith_cons_cons, List.flatten_cons, ← hrest.taken, ← htaken, ← hact]
            rfl

/-! ### Calls -/

/-- What a response that is being sent is between two calls: it stands behind what has been sent, or
it is complete and a fresh one without a name is in its place. -/
inductive Partly (head body w : Bytes) (bodyType : MsgBodyType) : Option Response → Prop
  | going (r : Response) (stands : Stands head body r w) (live : r.status ≠ .handleComplete)
      (settled : r.status = .handleBody → r.bodyType ≠ .emptyType) (kept : r.bodyType = bodyType) :
      Partly head body w bodyType (some r)
  | gone (r : Response) (init : r.status = .handleInit) (unnamed : r.bodyFileName = [])
      (all : w = head ++ body) : Partly head body w bodyType (some r)

/-- What a call does for a response that is being sent: where the response stands behind it, what it
has asked for, and when it makes the response complete. -/
structure CallSends (head body w : Bytes) (bodyType : MsgBodyType) (results : List SendResult)
    (r : Response) (c : Call) : Prop where
  partly : Partly head body (w ++ onWire c.acts) bodyType c.response
  /-- The response is complete only when everything has been sent. -/
  finished : ∀ before after, c.acts = before ++ .finished :: after →
    w ++ onWire before = head ++ body
  inside : ∀ a ∈ asks body results r, a.Inside
  taken : onWire c.acts = (List.zipWith Ask.taken (asks body results r) results).flatten
  /-- The response is complete in the call that sends the last byte. -/
  prompt : w ≠ head ++ body → w ++ onWire c.acts = head ++ body →
    (body = [] → bodyType = .emptyType) → .finished ∈ c.acts

/-- What has been sent is the beginning of the head and the body, also when the response is gone. -/
theorem Partly.isPrefix {bodyType : MsgBodyType} {response : Option Response}
    (h : Partly head body w bodyType response) : w <+: head ++ body := by
  cases h with
  | going r stands => exact stands.isPrefix
  | gone r init unnamed all => exact all ▸ List.prefix_refl _

/-- Behind its last byte a response is complete, when it has one: neither in its head nor in its
body are all bytes gone. -/
theorem Stands.complete_of_all (h : Stands head body r w)
    (hsettled : r.status = .handleBody → r.bodyType ≠ .emptyType) (hne : w ≠ [])
    (hall : w = head ++ body) (hb : body = [] → r.bodyType = .emptyType) :
    r.status = .handleComplete := by
  have hlen := congrArg List.length hall
  rw [List.length_append] at hlen
  cases h with
  | done status => exact status
  | head _ _ offset accepted =>
    rcases offset with hlt | hzero
    · rw [accepted, List.length_take] at hlen
      omega
    · rw [hzero, List.take_zero] at accepted
      exact absurd accepted hne
  | body _ status offset accepted =>
    rw [accepted, List.length_append, List.length_take] at hlen
    have hnil : body = [] := List.eq_nil_of_length_eq_zero (by omega)
    exact absurd (hb hnil) (hsettled status)

/-- Closing a stray descriptor puts nothing on the wire. -/
theorem onWire_closeStray (world : World) : onWire (closeStray world) = [] :=
  onWire_silent (forall_mem_closeStray world fun _ => trivial)

/-- Nor does it make a response complete. -/
theorem finished_not_mem_closeStray (world : World) : .finished ∉ closeStray world := by
  intro hfinished
  exact forall_mem_closeStray (P := fun a => a ≠ .finished) world (fun _ => nofun) _ hfinished rfl

/-- A send loop that has sent the last byte: the call makes the response complete, and puts a fresh
one in its place. -/
theorem SentOn.complete {results : List SendResult} {s : Stage} (h : SentOn head body w r results s)
    (hnot : .finished ∉ s.acts) (hdone : s.response.status = .handleComplete) (world : World) :
    CallSends head body w r.bodyType results r
      ((finish world s.request s.response).prepend s.acts) := by
  have hall : w ++ onWire s.acts = head ++ body := by
    cases h.stands with
    | head _ status => cases hdone.symm.trans status
    | body _ status => cases hdone.symm.trans status
    | done _ accepted => exact accepted
  have hwire : onWire (s.acts ++ ([.finished, .modifyWaitFd true true false] ++
      closeStray world)) = onWire s.acts := by
    rw [onWire_append, onWire_append, onWire_closeStray]
    exact List.append_nil _
  unfold finish
  rw [if_pos hdone]
  refine ⟨?_, ?_, h.inside, hwire.trans h.taken, fun _ _ _ => ?_⟩
  · change Partly head body (w ++ onWire (s.acts ++ _)) _ (some (Response.init world.fresh))
    rw [hwire]
    exact .gone _ rfl rfl hall
  · intro before after hacts
    -- the one `.finished` stands behind the loop
    have hsplit : s.acts ++ .finished :: (.modifyWaitFd true true false :: closeStray world) =
        before ++ .finished :: after := hacts
    have hrest : .finished ∉ (.modifyWaitFd true true false :: closeStray world) := by
      simpa using finished_not_mem_closeStray world
    obtain ⟨rfl, -, -⟩ := (List.append_cons_inj_of_notMem hnot hrest).mp hsplit
    exact hall
  · exact List.mem_append_right _ List.mem_cons_self

/-- A send loop that has stopped before the last byte: the call keeps the response, and waits for
the descriptor again. -/
theorem SentOn.going {results : List SendResult} {s : Stage} (h : SentOn head body w r results s)
    (hnot : .finished ∉ s.acts) (hdone : s.response.status ≠ .handleComplete) (world : World) :
    CallSends head body w r.bodyType results r
      ((finish world s.request s.response).prepend s.acts) := by
  -- the loop leaves no response in error, so behind it the descriptor is armed for writing
  have herror : s.response.status ≠ .handleError := by
    cases h.stands with
    | head _ status => rw [status]; exact nofun
    | body _ status => rw [status]; exact nofun
    | done status => exact absurd status hdone
  have hwire : onWire (s.acts ++ [.modifyWaitFd true true true]) = onWire s.acts := by
    rw [onWire_append]
    exact List.append_nil _
  unfold finish
  rw [if_neg hdone, if_neg herror]
  refine ⟨?_, ?_, h.inside, hwire.trans h.taken, fun hne hall hb => ?_⟩
  · change Partly head body (w ++ onWire (s.acts ++ _)) _ (some s.response)
    rw [hwire]
    exact .going s.response h.stands hdone h.settled h.bodyType
  · intro before after hacts
    -- nothing has been finished, neither in the loop nor behind it
    have hmem : .finished ∈ s.acts ++ [.modifyWaitFd true true true] := by
      have hin : .finished ∈ before ++ .finished :: after :=
        List.mem_append_right before List.mem_cons_self
      rwa [← hacts] at hin
    rcases List.mem_append.mp hmem with hm | hm
    · exact absurd hm hnot
    · simp at hm
  · -- the last byte has been sent: the loop has left it complete
    have hsame : w ++ onWire (s.acts ++ [.modifyWaitFd true true true]) = head ++ body := hall
    rw [hwire] at hsame
    refine absurd (h.stands.complete_of_all h.settled ?_ hsame fun hnil => ?_) hdone
    · intro hnil
      obtain ⟨rfl, -⟩ := List.append_eq_nil_iff.mp hnil
      rw [← hsame, hnil] at hne
      exact hne rfl
    · rw [h.bodyType]
      exact hb hnil

/-- **A call for a response that is being sent** sends on, and then makes it complete or waits. -/
theorem process_sends (world : World) (results : List SendResult) (request : Option Request)
    (h : Stands head body r w) (hc : r.status ≠ .handleComplete)
    (hdisk : r.bodyType = .fileType → Unchanged body results) :
    CallSends head body w r.bodyType results r (process world results request (some r)) := by
  have hsending : Sending r := by
    cases h with
    | head _ status => exact .inl status
    | body _ status => exact .inr status
    | done status => exact absurd status hc
  have hloop := sendLoop_sentOn results request h hc hdisk
  have hwrites := (sendLoop_sends results request hsending).writes
  rw [process_proceed (initStage_of_not_init hsending.not_init) rfl hloop.flow]
  simp only [List.nil_append]
  generalize sendLoop results request r = s at hloop hwrites
  have hnot : .finished ∉ s.acts := fun hm => hwrites _ hm
  by_cases hdone : s.response.status = .handleComplete
  · exact hloop.complete hnot hdone world
  · exact hloop.going hnot hdone world

/-- A call behind a complete response sends nothing: the entry has no name, and taking it apart
throws. -/
theorem process_gone (world : World) (results : List SendResult) (request : Option Request)
    (hi : r.status = .handleInit) (hn : r.bodyFileName = []) :
    process world results request (some r) =
      ⟨request, some r, [.dispatch []], some .outOfRange⟩ := by
  have hstage : operaStage world request r = ⟨request, r, [], .crash .outOfRange⟩ :=
    operaStage_of_error (by rw [hn]; rfl) world request
  have hinit : initStage world request r = ⟨request, r, [.dispatch []], .crash .outOfRange⟩ := by
    rw [initStage_of_init hi, hstage, hn]
    rfl
  rw [process_crash hinit rfl]

/-- **A call**, whether the response is being sent or gone, does what a call for such a response may
do. -/
theorem Partly.process {bodyType : MsgBodyType} (h : Partly head body w bodyType (some r))
    (world : World) (results : List SendResult) (request : Option Request)
    (hdisk : bodyType = .fileType → Unchanged body results) :
    CallSends head body w bodyType results r
      (HandleSend.process world results request (some r)) := by
  cases h with
  | going r stands live settled kept =>
    subst kept
    exact process_sends world results request stands live hdisk
  | gone r init unnamed all =>
    -- everything has been sent, and the call finds a response without a name
    have hnone : ask body r = none := by
      unfold ask
      rw [init]
    rw [process_gone world results request init unnamed]
    refine ⟨.gone r init unnamed ?_, fun before after hacts => ?_, ?_, ?_, fun hne =>
      absurd all hne⟩
    · simpa [Action.onWire] using all
    · have hin : Action.finished ∈ before ++ .finished :: after :=
        List.mem_append_right before List.mem_cons_self
      rw [← hacts] at hin
      simp at hin
    · rw [asks_nil hnone]
      intro x hx
      cases hx
    · rw [asks_nil hnone]
      rfl

/-! ### Responses that are constructed -/

/-- A response that has been constructed holds its head, and the page or the file it was constructed
for. -/
theorem Opened.holds {s : Stage} (h : Opened s) (hroom : body.length < 2 ^ 64)
    (hpage : s.response.bodyType = .htmlType → s.response.msgBody = body)
    (hfile : s.response.bodyType = .fileType → s.response.msgBodyLen = body.length)
    (hempty : s.response.bodyType = .emptyType → body = []) :
    s.response.Holds s.response.beforeBodyMsg body where
  headMsg := rfl
  headLen := h.sound.headLen
  page := hpage
  bodyLen he := by
    cases hb : s.response.bodyType with
    | htmlType => rw [← h.sound.bodyLen hb, hpage hb]
    | fileType => exact hfile hb
    | emptyType => exact absurd hb he
  empty := hempty
  room := hroom

/-! ### Any number of calls -/

/-- Calls of `HandleSend` one after the other, each on what the one before has left. -/
def sends (calls : List (World × List SendResult)) (request : Option Request)
    (response : Option Response) : Call :=
  visits (calls.map fun x => .send x.1 x.2) request response

/-- The first call, and the others behind it when it returns. -/
theorem sends_cons (x : World × List SendResult) (calls : List (World × List SendResult))
    (request : Option Request) (response : Option Response) :
    sends (x :: calls) request response =
      match (process x.1 x.2 request response).crash with
      | some _ => process x.1 x.2 request response
      | none => (sends calls (process x.1 x.2 request response).request
          (process x.1 x.2 request response).response).prepend
            (process x.1 x.2 request response).acts :=
  rfl

/-- Any number of calls keep the response where it stands by what they have sent, and make it
complete only behind its last byte. By induction on the calls. -/
theorem sends_partly {bodyType : MsgBodyType} (calls : List (World × List SendResult))
    (request : Option Request) {response : Option Response}
    (h : Partly head body w bodyType response)
    (hdisk : bodyType = .fileType → ∀ x ∈ calls, Unchanged body x.2) :
    Partly head body (w ++ onWire (sends calls request response).acts) bodyType
        (sends calls request response).response ∧
      ∀ before after, (sends calls request response).acts = before ++ .finished :: after →
        w ++ onWire before = head ++ body := by
  induction calls generalizing request response w with
  | nil =>
    refine ⟨by simpa [sends, visits] using h, fun before after hacts => ?_⟩
    -- after := ##1 :: without a call nothing is finished
    have hin : Action.finished ∈ before ++ .finished :: after :=
      List.mem_append_right before List.mem_cons_self
    rw [← hacts] at hin
    simp [sends, visits] at hin
  | cons x calls ih =>
    -- the call finds the response, or the fresh one behind it
    obtain ⟨r, rfl⟩ : ∃ r, response = some r := by cases h <;> exact ⟨_, rfl⟩
    have hcall := h.process x.1 x.2 request fun hb => hdisk hb x List.mem_cons_self
    rw [sends_cons]
    generalize HandleSend.process x.1 x.2 request (some r) = c at hcall
    cases c.crash with
    | some f => exact ⟨hcall.partly, hcall.finished⟩
    | none =>
      obtain ⟨hpartly, hfinished⟩ := ih c.request hcall.partly fun hb y hy =>
        hdisk hb y (List.mem_cons_of_mem x hy)
      generalize sends calls c.request c.response = d at hpartly hfinished
      refine ⟨?_, fun before after hacts => ?_⟩
      · change Partly head body (w ++ onWire (c.acts ++ d.acts)) _ _
        rwa [onWire_append, ← List.append_assoc]
      · -- the response becomes complete in the first call, or in the ones behind it
        have hsplit : c.acts ++ d.acts = before ++ .finished :: after := hacts
        rcases List.append_eq_append_iff.mp hsplit with ⟨t, rfl, hd⟩ | ⟨t, hc, hd⟩
        · rw [onWire_append, ← List.append_assoc]
          exact hfinished t after hd
        · cases t with
          | nil =>
            rw [List.append_nil] at hc
            rw [← hc]
            simpa using hfinished [] after hd.symm
          | cons a t =>
            obtain ⟨rfl, -⟩ := List.cons.inj hd
            exact hcall.finished before t hc

/-- The actions at the beginning put the beginning of the bytes on the wire. -/
theorem onWire_isPrefix {xs ys : List Action} (h : xs <+: ys) : onWire xs <+: onWire ys := by
  obtain ⟨t, rfl⟩ := h
  rw [onWire_append]
  exact List.prefix_append _ _

/-- **Partial sends lose, repeat and reorder nothing.** Take a response in `HANDLE_HEAD` of which
nothing has been sent, with the head `head` and the body `body`, and any number of calls with any
answers of the system. At every moment the bytes taken begin `head ++ body`, and the response is
complete only when they are all of it. In the next call every `send` and `sendfile` has its offset
inside its part and is asked for what is left of it, what the call sends is what they take, and the
response is complete in the very call in which its last byte is taken, unless it has an empty page
or file as its body. -/
theorem partial_sends {r : Response} {head body : Bytes} (holds : r.Holds head body)
    (status : r.status = .handleHead) (unsent : r.curStatusHasSendLen = 0)
    (request : Option Request) (calls : List (World × List SendResult))
    (hdisk : r.bodyType = .fileType → ∀ x ∈ calls, Unchanged body x.2) :
    let c := sends calls request (some r)
    (∀ acts, acts <+: c.acts → onWire acts <+: head ++ body) ∧
      (∀ before after, c.acts = before ++ .finished :: after → onWire before = head ++ body) ∧
      ∀ world results q, (r.bodyType = .fileType → Unchanged body results) →
        c.response = some q →
        let d := process world results c.request (some q)
        (∀ a ∈ asks body results q, a.offset ≤ a.part.length ∧ a.count = a.part.length - a.offset) ∧
          onWire d.acts = (List.zipWith Ask.taken (asks body results q) results).flatten ∧
          (onWire c.acts ≠ head ++ body → onWire (c.acts ++ d.acts) = head ++ body →
            (body = [] → r.bodyType = .emptyType) → .finished ∈ d.acts) := by
  intro c
  -- nothing has been sent yet
  have hstart : Partly head body [] r.bodyType (some r) := by
    refine .going r (.head holds status (.inr unsent) ?_) (by rw [status]; exact nofun)
      (fun hs => ?_) rfl
    · rw [unsent, List.take_zero]
    · cases status.symm.trans hs
  obtain ⟨hpartly, hfinished⟩ := sends_partly calls request hstart hdisk
  rw [List.nil_append] at hpartly
  refine ⟨fun acts hacts => (onWire_isPrefix hacts).trans hpartly.isPrefix, ?_, ?_⟩
  · intro before after hacts
    simpa using hfinished before after hacts
  · intro world results q hq hentry d
    rw [hentry] at hpartly
    -- the next call, on what the calls before have left
    have hcall := hpartly.process world results c.request hq
    refine ⟨fun a ha => ⟨(hcall.inside a ha).offset, (hcall.inside a ha).count⟩, hcall.taken, ?_⟩
    intro hne hall hb
    rw [onWire_append] at hall
    exact hcall.prompt hne hall hb

/-- A page of three bytes behind a head of four, of which nothing has been sent. -/
def shortPage : Response :=
  { Response.init sampleWorld.fresh with
    status := .handleHead
    beforeBodyMsg := lit "head"
    beforeBodyMsgLen := 4
    msgBody := lit "one"
    msgBodyLen := 3
    bodyType := .htmlType
    curStatusHasSendLen := 0 }

/-- The head is cut behind its first byte, the page behind its second. -/
def cutSends : List (World × List SendResult) :=
  [(sampleWorld, [.accepted 1 [], .again]),
    (sampleWorld, [.accepted 9 [], .accepted 2 [], .failed])]

theorem partial_sends_sample :
    ∃ q, (sends cutSends none (some shortPage)).response = some q ∧
      .finished ∈ (process sampleWorld [.accepted 1 []]
        (sends cutSends none (some shortPage)).request (some q)).acts := by
  obtain ⟨q, hq⟩ := Option.isSome_iff_exists.mp
    (show (sends cutSends none (some shortPage)).response.isSome by decide +kernel)
  have hall : (sends cutSends none (some shortPage)).response.map (fun q =>
      onWire ((sends cutSends none (some shortPage)).acts ++ (process sampleWorld [.accepted 1 []]
        (sends cutSends none (some shortPage)).request (some q)).acts)) =
      some (lit "head" ++ lit "one") := by
    decide +kernel
  rw [hq] at hall
  have holds : shortPage.Holds (lit "head") (lit "one") :=
    ⟨rfl, rfl, fun _ => rfl, fun _ => rfl, nofun, by decide⟩
  have h := partial_sends holds rfl rfl none cutSends nofun
  exact ⟨q, hq, (h.2.2 sampleWorld [.accepted 1 []] q nofun hq).2.2 (by decide +kernel)
    (Option.some.inj hall) nofun⟩

end HandleSend

end Cherokee
