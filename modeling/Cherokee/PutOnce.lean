import Cherokee.Dispatch
import Cherokee.Progress
import Cherokee.PutRequest

/-!
# A `PUT` is stored and answered

`HandleRecv` asks for the response to a `PUT` as soon as its head has been read, and again with
every chunk behind it; `HandleSend` writes what it finds of the body when it enters the response. In
a run in which the response is entered only when everything has been received, and the file opens,
the body is stored and one response is sent (`Put.kept_of_waits`). With the head in one chunk and
the body in the next there is a run that answers twice, the first time with an empty file
(`Put.answered_twice`).

* `HandleSend.operaStage_put`: what entering the response does.
* `Put.Phase`: where a `PUT` stands between two calls, and `Put.Phase.step`: every call keeps it.
-/

open Search

namespace Cherokee

namespace HandleSend

/-! ### The response to a `PUT` -/

/-- The head of the response to a `PUT`: a page without a body, and without an address. -/
def putHead : Bytes :=
  lit "HTTP/1.1 200 OK\r\nContent-Length: 0\r\nContent-Type: text/html;charset=UTF-8\r\n" ++
    lit "Connection: keep-alive\r\n\r\n"

/-- What the source puts together for it, piece by piece, is this head. -/
theorem putHead_eq :
    lit "HTTP/1.1" ++ lit " " ++ lit "200" ++ lit " " ++ lit "OK" ++ crlf ++
      getMessageHeader (lit "0") (lit "html") [] [] ++ crlf = putHead := by
  decide +kernel

/-- The resource stands in the head of the request, so that it is as short as a string can be. -/
theorem resource_lt {p : Put} (hlen : p.bytes.length ≤ maxSize) : p.resource.length < 2 ^ 63 := by
  have hmem : p.requestLine.bytes ++ crlf ∈ p.head.lines.map (· ++ crlf) :=
    List.mem_map.mpr ⟨_, by simp [Head.lines, Put.head], rfl⟩
  have hline : (p.requestLine.bytes ++ crlf).length ≤ p.head.bytes.length := by
    rw [Head.bytes, List.flatMap_def]
    exact (List.sublist_flatten_of_mem hmem).length_le
  have hresource : p.resource.length ≤ p.requestLine.bytes.length := by
    simp only [RequestLine.bytes, Put.requestLine, List.length_append]
    omega
  unfold maxSize at hlen
  simp only [Put.bytes, List.length_append] at hlen hline
  omega

/-- The operation and the name of a `PUT` are cut out of its resource. -/
theorem splitResource_put {p : Put} (hlen : p.bytes.length ≤ maxSize) :
    splitResource p.resource = .ok (lit "put", p.name) := by
  have hlong : p.resource.length ≤ maxSize := by
    have hlt := resource_lt hlen
    unfold maxSize
    omega
  have hslash := @splitResource_slash 47 (lit "put") (by decide) p.name (by decide) hlong
  rw [if_neg p.name_token.1] at hslash
  exact hslash

/-- Entering the response stores what has been received of the body by then, and constructs the
response. Without a `Request` the message of a new one is written. -/
theorem operaStage_put {p : Put} (hlen : p.bytes.length ≤ maxSize) {w : World}
    (hw : w.openTrunc p.path = true) (request : Option Request) {r : Response}
    (hr : r.bodyFileName = p.resource) :
    let q := request.getD Request.init
    ∃ built, operaStage w request r =
        ⟨some q, built, [.openTrunc p.path true, .write p.path q.recvMsg, .built built], .proceed⟩ ∧
      built.status = .handleHead ∧ built.bodyType = .emptyType ∧ built.beforeBodyMsg = putHead := by
  have hw' : w.openTrunc (cStr (lit "filedir/" ++ p.name)) = true := hw
  have hsplit : splitResource r.bodyFileName = .ok (lit "put", p.name) := by
    rw [hr, splitResource_put hlen]
  have hstage : operaStage w request r = putStage w request r p.name :=
    operaStage_of_split hsplit w request
  rw [hstage, putStage, if_pos hw']
  exact ⟨_, rfl, rfl, rfl, putHead_eq⟩

end HandleSend

/-! ### Sending it -/

/-- The action touches no file and constructs no response, so that neither the body nor the answer
is changed by it. -/
def Action.Calm : Action → Prop
  | .openAppend _ _ => False
  | .append _ _ => False
  | .remove _ _ => False
  | .openTrunc _ _ => False
  | .write _ _ => False
  | .built _ => False
  | .sentFile _ => False
  | _ => True

/-- A calm action alters no file. -/
theorem Action.Calm.alters {a : Action} (h : a.Calm) : a.alters = none := by
  cases a <;> first | rfl | exact h.elim

namespace HandleSend

/-- Calm actions add no response. -/
theorem responses_calm {acts : List Action} (h : ∀ a ∈ acts, a.Calm) (xs : List Action) :
    responses (xs ++ acts) = responses xs := by
  rw [responses_append]
  induction acts with
  | nil => rfl
  | cons a acts ih =>
    have ha := h a List.mem_cons_self
    rw [List.foldl_cons, show record (responses xs) a = responses xs by
      cases a <;> first | rfl | exact ha.elim]
    exact ih fun x hx => h x (List.mem_cons_of_mem a hx)

/-- Closing a stray descriptor is calm. -/
theorem closeStray_calm (w : World) : ∀ a ∈ closeStray w, a.Calm :=
  forall_mem_closeStray w fun _ => trivial

/-- Sending a response without a body is calm, and leaves it one without a body. -/
theorem sendLoop_calm (results : List SendResult) (request : Option Request) {r : Response}
    (hr : Sending r) (hb : r.bodyType = .emptyType) :
    (∀ a ∈ (sendLoop results request r).acts, a.Calm) ∧
      (sendLoop results request r).response.bodyType = .emptyType := by
  refine sendLoop_induction (P := fun r s => r.bodyType = .emptyType →
    (∀ a ∈ s.acts, a.Calm) ∧ s.response.bodyType = .emptyType) ?_ ?_ ?_ ?_ ?_ results hr hb
  · exact fun q r _ _ hb => ⟨nofun, hb⟩
  -- a part of the head
  · intro r n s _ ih hb
    have hkeep : (sendHead r n).1.bodyType = r.bodyType := by
      unfold sendHead
      simp only
      split <;> rfl
    obtain ⟨hcalm, hbody⟩ := ih (hkeep.trans hb)
    refine ⟨fun a ha => ?_, hbody⟩
    rcases List.mem_cons.mp ha with rfl | ha
    · trivial
    · exact hcalm a ha
  -- neither a page nor a file is sent for it
  · intro r n s _ hpage _ hb
    cases hpage.symm.trans hb
  · intro r n disk s _ hfile _ hb
    cases hfile.symm.trans hb
  · exact fun r s _ _ ih hb => ih hb

/-- The response without a body is still being sent, in its entry. -/
def Answering (response : Option Response) : Prop :=
  ∃ r, response = some r ∧ Sending r ∧ r.bodyType = .emptyType

/-- How a call ends that sends a response without a body: it is still owed, or it has been sent and
the entry is idle. Everything the call has done by then is calm. -/
theorem send_ends (w : World) (results : List SendResult) (request : Option Request) {r : Response}
    (hr : Sending r) (hb : r.bodyType = .emptyType) (before : List Action) :
    let t := sendLoop results request r
    let c := (finish w t.request t.response).prepend (before ++ t.acts)
    ∃ late, c.acts = before ++ late ∧ (∀ a ∈ late, a.Calm) ∧ c.crash = none ∧
      ((Answering c.response ∧ ∀ l : Ledger, (late.foldl Ledger.enter l).owed = l.owed) ∨
        (Conn.Idle c.response ∧ ∀ l : Ledger, (late.foldl Ledger.enter l).owed = false)) := by
  intro t c
  obtain ⟨hcalm, hbody⟩ := sendLoop_calm results request hr hb
  have hsends := sendLoop_sends results request hr
  -- sending does not enter the account; what follows behind the loop does
  have hquiet : ∀ a ∈ t.acts, a.Quiet := fun a ha => (hsends.writes a ha).quiet
  refine ⟨t.acts ++ (finish w t.request t.response).acts, List.append_assoc _ _ _, ?_, ?_, ?_⟩
  · intro a ha
    rcases List.mem_append.mp ha with ha | ha
    · exact hcalm a ha
    · unfold finish at ha
      split_ifs at ha
      · rcases List.mem_append.mp ha with ha | ha
        · simp only [List.mem_cons, List.not_mem_nil, or_false] at ha
          rcases ha with rfl | rfl <;> trivial
        · exact closeStray_calm w a ha
      · rcases List.mem_append.mp ha with ha | ha
        · simp only [List.mem_cons, List.not_mem_nil, or_false] at ha
          rcases ha with rfl | rfl | rfl <;> trivial
        -- a failed response is erased and its connection closed
        · exact closeStray_calm w a ha
      · rw [List.mem_singleton.mp ha]
        trivial
  · change (finish w t.request t.response).crash = none
    unfold finish
    split_ifs <;> rfl
  · change (Answering (finish w t.request t.response).response ∧ _) ∨
      (Conn.Idle (finish w t.request t.response).response ∧ _)
    simp only [List.foldl_append, Ledger.enters_quiet hquiet]
    -- either bytes are left to send or the answer is complete
    rcases hsends.status with hs | hc
    · left
      rw [finish, if_neg hs.not_complete, if_neg hs.not_error]
      exact ⟨⟨t.response, rfl, hs, hbody⟩, fun l => rfl⟩
    · right
      rw [finish, if_pos hc]
      refine ⟨?_, fun l => by rw [Ledger.enters_finished]; rfl⟩
      rintro q ⟨⟩
      exact ⟨rfl, rfl⟩

end HandleSend

/-- The action belongs to receiving a request and asking for its response. -/
def Action.Asking : Action → Prop
  | .recvd _ => True
  | .requestLine _ => True
  | .setBodyFileName _ => True
  | .modifyWaitFd _ _ _ => True
  | _ => False

/-- Nothing of it goes to the client. -/
theorem Action.Asking.silent {a : Action} (h : a.Asking) : a.Silent := by
  cases a <;> trivial

/-- It does not end a response. -/
theorem Action.Asking.ne_finished {a : Action} (h : a.Asking) : a ≠ .finished := by
  rintro rfl
  exact h

namespace Put

open Conn HandleSend HandleRecv

/-! ### Runs -/

/-- The calls of a `PUT`, in any order: `HandleRecv` receives the bytes of the request, however they
are cut, and `HandleSend` is called while a response is owed. -/
def Arrives (p : Put) (k : Conn) : Handler → Prop
  | .recv results _ => (∀ x ∈ results, x.Arrives) ∧ received k.log ++ stream results <+: p.bytes
  | .send _ _ => (ledger k.log).owed = true

/-- The response is entered only when everything has been received, and the file opens. -/
def Waits (p : Put) (k : Conn) : Handler → Prop
  | .recv _ _ => True
  | .send w _ => (∃ r ∈ k.response, r.status = .handleInit) →
      received k.log = p.bytes ∧ w.openTrunc p.path = true

instance (p : Put) (k : Conn) : (x : Handler) → Decidable (p.Arrives k x)
  | .recv _ _ => inferInstanceAs (Decidable (_ ∧ _))
  | .send _ _ => inferInstanceAs (Decidable (_ = true))

instance (p : Put) (k : Conn) : (x : Handler) → Decidable (p.Waits k x)
  | .recv _ _ => .isTrue trivial
  | .send _ _ => inferInstanceAs (Decidable (_ → _ ∧ _))

/-- The file opens, in the calls of `HandleSend`. -/
def Opens (p : Put) : Handler → Prop
  | .recv _ _ => True
  | .send w _ => w.openTrunc p.path = true

instance (p : Put) : (x : Handler) → Decidable (p.Opens x)
  | .recv _ _ => .isTrue trivial
  | .send _ _ => inferInstanceAs (Decidable (_ = true))

/-- The body is stored, and one response is sent: what a client of a `PUT` may rely on, at every
moment of the run. -/
structure Kept (p : Put) (f : File) (k : Conn) : Prop where
  /-- From the first response on the file has the body. -/
  stored : ∀ xs, xs <+: k.log → .finished ∈ xs → fileAfter p.path f xs = some p.body
  /-- No other response is constructed than one. -/
  once : responses k.log = [] ∨ responses k.log = [(putHead, [])]
  /-- When everything has been received and nothing is owed the response is on the wire. -/
  answered : received k.log = p.bytes → (ledger k.log).owed = false → onWire k.log = putHead
  /-- When everything has been received a call that finds room sends what is owed. -/
  served : received k.log = p.bytes → k.ended = false → (ledger k.log).owed = true →
    ∀ w, w.openTrunc p.path = true → ∃ results,
      let c := HandleSend.process w results k.request k.response
      c.crash = none ∧ (ledger (k.log ++ c.acts)).owed = false

/-- No response has been entered: so far the calls have received the request and asked for its
response, which is owed as soon as the head is there. -/
structure Asks (p : Put) (k : Conn) : Prop where
  asking : ∀ a ∈ k.log, a.Asking
  request : p.At (received k.log) (k.request.getD Request.init)
  owed : (ledger k.log).owed = true ↔ p.head.bytes <+: received k.log
  response : (ledger k.log).owed = true →
    ∃ r, k.response = some r ∧ r.status = .handleInit ∧ r.bodyFileName = p.resource

/-- The body has been stored. Behind the actions `early` the file has it, what comes later leaves
it, and the one response is owed or has been sent. -/
structure Stored (p : Put) (k : Conn) (early late : List Action) : Prop where
  log : k.log = early ++ late
  unsent : .finished ∉ early
  file : ∀ f, fileAfter p.path f early = some p.body
  calm : ∀ a ∈ late, a.Calm
  whole : received k.log = p.bytes
  once : responses k.log = [(putHead, [])]
  response : (Answering k.response ∧ (ledger k.log).owed = true) ∨
    (Idle k.response ∧ (ledger k.log).owed = false)

/-- Where a `PUT` stands between two calls. -/
inductive Phase (p : Put) (k : Conn) : Prop
  | asks (h : p.Asks k)
  | stored (early late : List Action) (h : p.Stored k early late)

/-- Receiving and asking construct no response. -/
theorem responses_asking {acts : List Action} (h : ∀ a ∈ acts, a.Asking) : responses acts = [] :=
  foldl_record_silent (fun a ha => (h a ha).silent) []

/-- What reads lines belongs to receiving. -/
theorem receiving_of_reading {a : Action} (h : Reading a) : a.Receiving := by
  cases a <;> trivial

/-- It belongs to asking as well. -/
theorem asking_of_reading {a : Action} (h : Reading a) : a.Asking := by
  cases a <;> trivial

/-- The hand-over at the end of a call puts the resource of the `PUT` into the entry. -/
theorem handOver_asks (p : Put) (fresh : Uninit) (entry : Option Response) {lines : List Action}
    (h : ∀ a ∈ lines, Reading a) :
    handOver fresh entry (lines ++ [.setBodyFileName p.resource, .modifyWaitFd true true true]) =
      some (Response.setBodyFileName fresh entry p.resource) :=
  handOver_append fresh entry (fun a ha => receiving_of_reading (h a ha)) _

/-- Calls that read lines and then ask stay within asking. -/
theorem asking_append {log lines last : List Action} (hlog : ∀ a ∈ log, a.Asking)
    (hlines : ∀ a ∈ lines, Reading a) (hlast : ∀ a ∈ last, a.Asking) :
    ∀ a ∈ log ++ (lines ++ last), a.Asking := by
  intro a ha
  simp only [List.mem_append] at ha
  rcases ha with ha | ha | ha
  · exact hlog a ha
  · exact asking_of_reading (hlines a ha)
  · exact hlast a ha

/-- The resource is handed over, and from then on a response is owed. -/
theorem owed_of_asks {log lines : List Action} (hlines : ∀ a ∈ lines, Reading a) (name : Bytes) :
    (ledger (log ++ (lines ++ [.setBodyFileName name, .modifyWaitFd true true true]))).owed =
      true := by
  rw [ledger_append, List.foldl_append,
    Ledger.enters_quiet fun a ha => (receiving_of_reading (hlines a ha)).quiet]
  rfl

/-- A call that only receives leaves what is owed as it was. -/
theorem owed_of_waits {log lines : List Action} (hlines : ∀ a ∈ lines, Reading a) :
    (ledger (log ++ (lines ++ [.modifyWaitFd true true false]))).owed = (ledger log).owed := by
  rw [ledger_quiet]
  intro a ha
  rcases List.mem_append.mp ha with ha | ha
  · exact (receiving_of_reading (hlines a ha)).quiet
  · rw [List.mem_singleton.mp ha]
    trivial

/-- Receiving in front of the response: the call waits for more of the head, or asks for the
response as soon as the head is there, and again with every chunk behind it. -/
theorem Asks.receives {p : Put} {k : Conn} (hk : k.Sound) (h : p.Asks k)
    {results : List RecvResult} (hs : ∀ x ∈ results, x.Arrives)
    (hq : received k.log ++ stream results <+: p.bytes) (fresh : Uninit) :
    p.Asks (k.after (Handler.call (.recv results fresh) k.request k.response)) := by
  have hreceives := process_receiving hs h.request hq
  have hcall : Handler.call (.recv results fresh) k.request k.response =
      ⟨(HandleRecv.process results k.request).request,
        handOver fresh k.response (HandleRecv.process results k.request).acts,
        (HandleRecv.process results k.request).acts,
        (HandleRecv.process results k.request).crash⟩ := rfl
  rw [hcall]
  generalize HandleRecv.process results k.request = c at hreceives
  unfold Conn.after
  cases hreceives with
  | waits lines r reading acts crash request head =>
    have hreceived : received (k.log ++ c.acts) = received k.log ++ received lines := by
      rw [acts]
      simp [Action.received]
    -- no answer is owed before the head is whole
    have howed : (ledger k.log).owed ≠ true := fun ho =>
      head.early ((h.owed.mp ho).trans (List.prefix_append _ _))
    have howed' : (ledger (k.log ++ c.acts)).owed ≠ true := by
      rw [acts, owed_of_waits reading]
      exact howed
    refine ⟨?_, ?_, ⟨fun ho => absurd ho howed', fun hp => ?_⟩, fun ho => absurd ho howed'⟩
    · simp only [acts]
      exact asking_append h.asking reading (by simp [Action.Asking])
    · simp only [hreceived, request]
      exact .head head
    · simp only [hreceived] at hp
      exact absurd hp head.early
  | idles r m acts crash request whole asked =>
    have hreceived : received (k.log ++ c.acts) = received k.log := by
      rw [acts]
      simp [Action.received]
    -- the call registers the descriptor again, and nothing else
    have howed : (ledger (k.log ++ c.acts)).owed = (ledger k.log).owed := by
      rw [acts]
      exact owed_of_waits (List.forall_mem_nil _)
    refine ⟨?_, ?_, ?_, ?_⟩
    · simp only [acts]
      exact asking_append h.asking (List.forall_mem_nil _) (by simp [Action.Asking])
    · simp only [hreceived, request]
      exact .body m whole asked
    · simp only [hreceived, howed]
      exact h.owed
    · -- the entry of `responseStatus` is not touched
      have hkept : handOver fresh k.response c.acts = k.response := by rw [acts]; rfl
      simp only [howed, hkept]
      exact h.response
  -- the resource is handed over, for the first time or once more
  | asks lines r m reading acts crash request whole asked =>
    have hreceived : received (k.log ++ c.acts) = received k.log ++ received lines := by
      rw [acts]
      simp [Action.received]
    refine ⟨?_, ?_, iff_of_true ?_ ?_, fun _ => ?_⟩
    · simp only [acts]
      exact asking_append h.asking reading (by simp [Action.Asking])
    · simp only [hreceived, request]
      exact .body m whole asked
    · simp only [acts]
      exact owed_of_asks reading p.resource
    · simp only [hreceived, whole, List.prefix_append]
    · refine ⟨Response.setBodyFileName fresh k.response p.resource, ?_, ?_, rfl⟩
      · simp only [acts]
        exact handOver_asks p fresh k.response reading
      · -- the entry is idle, or asked for the same resource before
        cases howed : (ledger k.log).owed with
        | true =>
          obtain ⟨r', hr', hinit, -⟩ := h.response howed
          rw [hr']
          exact hinit
        | false =>
          have hidle := hk.idle howed
          cases hr : k.response with
          | none => rfl
          | some r' => exact (hidle r' hr).1

/-- When what has been received is the whole request, its message is the whole body. -/
theorem At.asked_body {p : Put} {q : Bytes} {r : Request} (h : p.At q r) (hq : q = p.bytes) :
    p.Asked p.body r := by
  cases h with
  | head h => exact absurd (hq ▸ List.prefix_append _ _) h.early
  | body m whole asked =>
    obtain rfl : m = p.body := List.append_cancel_left (whole.symm.trans hq)
    exact asked

/-- Serving a response receives nothing. -/
theorem received_serving {acts : List Action} (h : ∀ a ∈ acts, a.Serving) : received acts = [] := by
  refine List.flatMap_eq_nil_iff.mpr fun a ha => ?_
  have hs := h a ha
  cases a <;> first | rfl | exact hs.elim

/-- What entering the response does: the resource is taken apart, and the body written to its
file. -/
def entering (p : Put) (built : Response) : List Action :=
  [.dispatch p.resource, .openTrunc p.path true, .write p.path p.body, .built built]

/-- Behind these actions the file has the body, whatever was in it. -/
theorem fileAfter_entering (p : Put) (built : Response) (f : File) :
    fileAfter p.path f (p.entering built) = some p.body := by
  simp [entering, Action.on, Action.alters, Action.onFile]

/-- Entering the response when everything has been received: the body is stored, and the response is
the first one. -/
theorem Asks.enters {p : Put} {k : Conn} (hk : k.Sound) (hlen : p.bytes.length ≤ maxSize)
    (h : p.Asks k) (howed : (ledger k.log).owed = true) (hq : received k.log = p.bytes) {w : World}
    (hw : w.openTrunc p.path = true) (results : List SendResult) :
    ∃ early late, p.Stored
      (k.after (HandleSend.process w results k.request k.response)) early late := by
  have hserving := send_serving w results k.request hk.response
  -- the call finds an answer in its first state, for this resource
  obtain ⟨r, hr, hinit, hnamed⟩ := h.response howed
  obtain ⟨built, hstage, hstatus, htype, hhead⟩ := operaStage_put hlen hw k.request hnamed
  rw [(h.request.asked_body hq).recvMsg] at hstage
  have hinitStage : initStage w k.request r =
      ⟨some (k.request.getD Request.init), built, p.entering built, .proceed⟩ := by
    rw [initStage_of_init hinit, hstage, hnamed]
    rfl
  have hflow := (sendLoop_sends results (some (k.request.getD Request.init)) (r := built)
    (.inl hstatus)).flow
  rw [hr, process_proceed hinitStage rfl hflow] at hserving ⊢
  obtain ⟨late, hacts, hcalm, -, hend⟩ := send_ends w results
    (some (k.request.getD Request.init)) (.inl hstatus) htype (p.entering built)
  generalize (finish w _ _).prepend _ = c at hacts hend hserving ⊢
  -- the head built here is the first of this log
  have honce : responses (k.log ++ p.entering built) = [(putHead, [])] := by
    rw [responses_append, responses_asking h.asking, ← hhead]
    have hno : built.bodyType ≠ .htmlType := by rw [htype]; exact nofun
    simp [entering, record, hno]
  have howed' : (ledger (k.log ++ p.entering built)).owed = true := by
    rw [ledger_append]
    exact howed
  -- the log falls into what stands before the file is written, and what follows
  refine ⟨k.log ++ p.entering built, late, ?_, ?_, ?_, hcalm, ?_, ?_, ?_⟩
  · change k.log ++ c.acts = _
    rw [hacts, List.append_assoc]
  · intro hmem
    rcases List.mem_append.mp hmem with hmem | hmem
    · exact (h.asking _ hmem).ne_finished rfl
    · simp [entering] at hmem
  · intro f
    rw [fileAfter_append, fileAfter_entering]
  · change received (k.log ++ c.acts) = _
    rw [received_append, received_serving hserving, hq, List.append_nil]
  · change responses (k.log ++ c.acts) = _
    rw [hacts, ← List.append_assoc, responses_calm hcalm, honce]
  · change (_ ∧ (ledger (k.log ++ c.acts)).owed = _) ∨ (_ ∧ (ledger (k.log ++ c.acts)).owed = _)
    rw [hacts, ← List.append_assoc, ledger_append]
    refine hend.imp (fun h => ⟨h.1, ?_⟩) (fun h => ⟨h.1, h.2 _⟩)
    rw [h.2, howed']

/-- Sending goes on behind the body that has been stored, until the response is complete. -/
theorem Stored.sends {p : Put} {k : Conn} (hk : k.Sound) {early late : List Action}
    (h : p.Stored k early late) (howed : (ledger k.log).owed = true) (w : World)
    (results : List SendResult) : ∃ late', p.Stored
      (k.after (HandleSend.process w results k.request k.response)) early (late ++ late') := by
  have hserving := send_serving w results k.request hk.response
  obtain ⟨⟨r, hr, hsending, htype⟩, -⟩ := h.response.resolve_right fun h => by
    cases howed.symm.trans h.2
  have hflow := (sendLoop_sends results k.request hsending).flow
  rw [hr, process_proceed (initStage_of_not_init hsending.not_init) rfl hflow] at hserving ⊢
  obtain ⟨late', hacts, hcalm, -, hend⟩ := send_ends w results k.request hsending htype []
  simp only at hserving ⊢
  generalize (finish w _ _).prepend _ = c at hacts hend hserving ⊢
  rw [List.nil_append] at hacts
  refine ⟨late', ?_, h.unsent, h.file, ?_, ?_, ?_, ?_⟩
  · change k.log ++ c.acts = _
    rw [hacts, h.log, List.append_assoc]
  · intro a ha
    exact (List.mem_append.mp ha).elim (h.calm a) (hcalm a)
  · change received (k.log ++ c.acts) = _
    rw [received_append, received_serving hserving, h.whole, List.append_nil]
  · change responses (k.log ++ c.acts) = _
    rw [hacts, responses_calm hcalm, h.once]
  · change (_ ∧ (ledger (k.log ++ c.acts)).owed = _) ∨ (_ ∧ (ledger (k.log ++ c.acts)).owed = _)
    rw [hacts, ledger_append]
    refine hend.imp (fun h => ⟨h.1, ?_⟩) (fun h => ⟨h.1, h.2 _⟩)
    rw [h.2, howed]

/-- There is nothing more to receive behind the body that has been stored, so that a call of
`HandleRecv` changes nothing of it. -/
theorem Stored.receives {p : Put} {k : Conn} {early late : List Action}
    (h : p.Stored k early late) {results : List RecvResult} (hs : ∀ x ∈ results, x.Arrives)
    (hq : received k.log ++ stream results <+: p.bytes) (fresh : Uninit) :
    ∃ late', p.Stored (k.after (Handler.call (.recv results fresh) k.request k.response)) early
      (late ++ late') := by
  -- the whole request has arrived already
  have hnone : stream results = [] := by
    rw [h.whole] at hq
    exact List.append_right_eq_self.mp (hq.eq_of_length_le (by simp))
  obtain ⟨hacts, -, -⟩ := process_silent hs hnone k.request
  have hcall : Handler.call (.recv results fresh) k.request k.response =
      ⟨(HandleRecv.process results k.request).request,
        handOver fresh k.response (HandleRecv.process results k.request).acts,
        (HandleRecv.process results k.request).acts,
        (HandleRecv.process results k.request).crash⟩ := rfl
  rw [hcall]
  generalize HandleRecv.process results k.request = c at hacts
  -- so the call registers the descriptor, and may be the end of the request or the connection
  have hlast : c.acts = [.modifyWaitFd true true false] ∨
      (∃ method resource, c.acts = [.modifyWaitFd true true false, .processed method resource]) ∨
      c.acts = [.modifyWaitFd true true false, .deleteWaitFd, .shutdown, .closeClient] := by
    rw [hacts, HandleRecv.finish]
    split_ifs
    · exact .inr (.inl ⟨_, _, rfl⟩)
    · exact .inr (.inr rfl)
    · exact .inl rfl
  have hcalm : ∀ a ∈ c.acts, a.Calm := by
    rcases hlast with hl | ⟨method, resource, hl⟩ | hl <;> rw [hl] <;> simp [Action.Calm]
  have hquiet : ∀ a ∈ c.acts, a.Quiet := by
    rcases hlast with hl | ⟨method, resource, hl⟩ | hl <;> rw [hl] <;> simp [Action.Quiet]
  have hkept : handOver fresh k.response c.acts = k.response := by
    rcases hlast with hl | ⟨method, resource, hl⟩ | hl <;> rw [hl] <;> rfl
  have hreceived : received c.acts = [] := by
    rcases hlast with hl | ⟨method, resource, hl⟩ | hl <;> rw [hl] <;> rfl
  -- what is stored, sent and owed is as before the call
  refine ⟨c.acts, ?_, h.unsent, h.file, ?_, ?_, ?_, ?_⟩
  · change k.log ++ c.acts = _
    rw [h.log, List.append_assoc]
  · intro a ha
    exact (List.mem_append.mp ha).elim (h.calm a) (hcalm a)
  · change received (k.log ++ c.acts) = _
    rw [received_append, hreceived, h.whole, List.append_nil]
  · change responses (k.log ++ c.acts) = _
    rw [responses_calm hcalm, h.once]
  · change (Answering (handOver fresh k.response c.acts) ∧ (ledger (k.log ++ c.acts)).owed = _) ∨
      (Idle (handOver fresh k.response c.acts) ∧ (ledger (k.log ++ c.acts)).owed = _)
    rw [hkept, ledger_quiet k.log hquiet]
    exact h.response

/-- **Every call keeps the phase**, of either handler, as long as the response is entered only when
everything has been received. -/
theorem Phase.step {p : Put} (hlen : p.bytes.length ≤ maxSize) {k : Conn} (hk : k.Sound)
    (h : p.Phase k) {x : Handler} (harrives : p.Arrives k x) (hwaits : p.Waits k x) :
    p.Phase (k.after (x.call k.request k.response)) := by
  cases x with
  -- a call of `HandleRecv` receives in either phase
  | recv results fresh =>
    obtain ⟨hs, hq⟩ := harrives
    cases h with
    | asks h => exact .asks (h.receives hk hs hq fresh)
    | stored early late h =>
      obtain ⟨late', h'⟩ := h.receives hs hq fresh
      exact .stored early (late ++ late') h'
  -- a call of `HandleSend` enters the response, or sends it on
  | send w results =>
    cases h with
    | asks h =>
      obtain ⟨r, hr, hinit, -⟩ := h.response harrives
      obtain ⟨hq, hw⟩ := hwaits ⟨r, hr, hinit⟩
      obtain ⟨early, late, h'⟩ := h.enters hk hlen harrives hq hw results
      exact .stored early late h'
    | stored early late h =>
      obtain ⟨late', h'⟩ := h.sends hk harrives w results
      exact .stored early (late ++ late') h'

/-- A `PUT` starts with nothing asked for, as its head is not empty. -/
theorem asks_start (p : Put) (left : Option Response) : p.Asks (connection left).start := by
  refine ⟨nofun, p.at_start, iff_of_false nofun ?_, nofun⟩
  intro h
  exact p.head_ne_nil (List.prefix_nil.mp h)

/-- In front of the response nothing has been sent, and an owed response can be entered. -/
theorem Asks.kept {p : Put} (hlen : p.bytes.length ≤ maxSize) {k : Conn} (h : p.Asks k) (f : File) :
    p.Kept f k where
  stored xs hxs hfin := absurd rfl (h.asking _ (hxs.subset hfin)).ne_finished
  once := .inl (responses_asking h.asking)
  answered hq howed := by
    rw [h.owed.mpr (hq ▸ List.prefix_append _ _)] at howed
    cases howed
  served hq _ howed w hw := by
    obtain ⟨r, hr, hinit, hnamed⟩ := h.response howed
    obtain ⟨built, hstage, -⟩ := operaStage_put hlen hw k.request hnamed
    -- the response is opened by the call, as its file opens
    rcases operaStage_opens w k.request hinit with ho | hl
    · obtain ⟨results, hflow, hcomplete⟩ := sendLoop_completes (.inl ho.status) ho.sound
        (operaStage w k.request r).request
      refine ⟨results, ?_⟩
      rw [hr]
      exact ⟨returns_of_complete (initStage_of_init hinit) ho.flow hflow hcomplete,
        owed_of_complete (initStage_of_init hinit) ho.flow hflow hcomplete k.log⟩
    · -- the file opens
      rw [hstage] at hl
      rcases hl.exit with ⟨hflow, -⟩ | ⟨f, hflow, -⟩ <;> cases hflow

/-- Behind the body that has been stored, and the response to it, all is kept: what comes later
leaves the file, and constructs no other response. -/
theorem Stored.kept {p : Put} {k : Conn} {early late : List Action} (h : p.Stored k early late)
    (htracks : EntryTracks (onWire k.log) (responses k.log) k.response) (f : File) :
    p.Kept f k where
  stored xs hxs hfin := by
    rw [h.log] at hxs
    -- the prefix ends in front of storing the body, or behind it
    rcases List.prefix_or_prefix_of_prefix hxs (List.prefix_append early late) with
      hearly | ⟨more, rfl⟩
    · exact absurd (hearly.subset hfin) h.unsent
    · have hmore : more <+: late := (List.prefix_append_right_inj early).mp hxs
      rw [fileAfter_append, h.file]
      refine fileAfter_of_not_alters (fun a ha => ?_) _
      rw [(h.calm a (hmore.subset ha)).alters]
      exact nofun
  once := .inr h.once
  answered _ howed := by
    rcases h.response with ⟨-, ho⟩ | ⟨hidle, -⟩
    · cases howed.symm.trans ho
    -- nothing is owed, so the answer has been sent whole
    · rw [delivered_of_init htracks fun r hr => (hidle r hr).1, h.once, flatten_singleton,
        List.append_nil]
  served _ _ howed w _ := by
    rcases h.response with ⟨⟨r, hr, hsending, -⟩, -⟩ | ⟨-, ho⟩
    · rw [hr] at htracks
      have hinit := hsending.not_init
      -- with room enough one call sends what is left of the answer
      obtain ⟨results, hflow, hcomplete⟩ :=
        sendLoop_completes hsending (sound_of_tracks htracks hsending) k.request
      refine ⟨results, ?_⟩
      rw [hr]
      exact ⟨returns_of_complete (initStage_of_not_init hinit) rfl hflow hcomplete,
        owed_of_complete (initStage_of_not_init hinit) rfl hflow hcomplete k.log⟩
    · cases howed.symm.trans ho

/-- **A `PUT` is stored and answered once** in every run in which its response is entered only when
everything has been received, and the file opens. -/
theorem kept_of_waits {p : Put} (hlen : p.bytes.length ≤ maxSize) (f : File)
    {left : Option Response} (hleft : Idle left) {k : Conn}
    (h : (connection left).Reachable (fun k x => p.Arrives k x ∧ p.Waits k x) k) : p.Kept f k := by
  have hphase : p.Phase k := by
    refine h.invariant (.asks (p.asks_start left)) ?_
    rintro k x k' hreach hphase ⟨harrives, hwaits⟩ hstep
    obtain ⟨hopen, rfl⟩ := step_eq_some.mp hstep
    exact hphase.step hlen (reachable_sound hleft hreach hopen) harrives hwaits
  -- before the response is entered, and behind that
  cases hphase with
  | asks h => exact h.kept hlen f
  | stored early late hstored => exact hstored.kept (reachable_own hleft h).tracks f

/-- `PUT /put/a.txt` with a body of five bytes. -/
def hello : Put where
  name := lit "a.txt"
  version := lit "HTTP/1.1"
  before := []
  after := []
  length := lit "5"
  body := lit "hello"
  name_token := by decide
  version_token := http_token
  headers_accepted := nofun
  length_decimal := by decide
  length_body := by decide

/-- The bytes `buf` in one result of `recv`. -/
def receive (buf : Bytes) : Handler := .recv [.data buf true] sampleWorld.fresh

/-- A call of `HandleSend` that sends all there is. -/
def sendAll : Handler := .send sampleWorld [.accepted 4096 []]

/-- The request in two parts, and then the response. -/
def inOrder : List Handler :=
  [receive (hello.bytes.take 10), receive (hello.bytes.drop 10), sendAll]

theorem kept_of_waits_sample :
    ∃ k, (connection none).run (connection none).start inOrder = some k ∧ hello.Kept none k ∧
      onWire k.log = putHead := by
  obtain ⟨k, hk⟩ := Option.isSome_iff_exists.mp
    (show ((connection none).run (connection none).start inOrder).isSome by decide +kernel)
  have hstate : ((connection none).run (connection none).start inOrder).map
      (fun k => (received k.log, (ledger k.log).owed)) = some (hello.bytes, false) := by
    decide +kernel
  rw [hk] at hstate
  obtain ⟨hreceived, howed⟩ := Prod.mk.inj (Option.some.inj hstate)
  have hkept := kept_of_waits (p := hello) (by decide) none idle_none
    (Machine.reachable_of_run .start hk (by decide +kernel))
  exact ⟨k, hk, hkept, hkept.answered hreceived howed⟩

/-- The head, its response, and then the body: the order in which the second answer comes about. -/
def early : List Handler :=
  [receive hello.head.bytes, sendAll, receive hello.body, sendAll]

/-- The request is answered twice, the first time with an empty file. -/
theorem answered_twice :
    ¬ ∀ (p : Put) (f : File) (left : Option Response) (k : Conn), p.bytes.length ≤ maxSize →
      Idle left → (connection left).Reachable (fun k x => p.Arrives k x ∧ p.Opens x) k →
        p.Kept f k := by
  intro h
  obtain ⟨k, hk⟩ := Option.isSome_iff_exists.mp
    (show ((connection none).run (connection none).start early).isSome by decide +kernel)
  have hresponses : ((connection none).run (connection none).start early).map
      (fun k => responses k.log) = some [(putHead, []), (putHead, [])] := by
    decide +kernel
  rw [hk] at hresponses
  have hresponses : responses k.log = [(putHead, []), (putHead, [])] := Option.some.inj hresponses
  have honce := (h hello none none k (by decide) idle_none
    (Machine.reachable_of_run .start hk (by decide +kernel))).once
  rw [hresponses] at honce
  rcases honce with honce | honce <;> cases honce

end Put

end Cherokee
