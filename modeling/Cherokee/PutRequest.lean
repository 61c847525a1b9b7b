import Cherokee.Uploading

/-!
# `PUT` requests

A `PUT` announces the length of its body, but `HandleRecv` does not look at it: once the head has
been read every chunk hands the resource over, and the `Request` stays in `HANDLE_BODY` with what
has been received of the body, for `HandleSend` to take from there.

* `Put.reads`: what is read of a `PUT`, however much of it has been received.
* `Put.asked_turn`: what a chunk does behind the head.
* `Put.process_receiving`: what a call of `HandleRecv` does to a `PUT`.
-/

open Search

namespace Cherokee

open HandleRecv Request

/-! ### The form -/

/-- A well-formed `PUT` of one file: its name is a token, its header lines are accepted, and its
length is a decimal number. Nothing says that the length is that of the body, since the source does
not compare them. -/
structure Put where
  name : Bytes
  version : Bytes
  /-- The headers before `Content-Length`. -/
  before : List HeaderLine
  /-- The headers behind `Content-Length`. -/
  after : List HeaderLine
  /-- The value of `Content-Length`. -/
  length : Bytes
  body : Bytes
  name_token : IsToken name
  version_token : IsToken version
  headers_accepted : ∀ h ∈ before ++ after, h.Accepted
  length_decimal : IsDecimal length
  length_body : decimal length = body.length

namespace Put

/-- The resource of the request, which `HandleSend` splits into `/put` and the name. -/
def resource (p : Put) : Bytes := lit "/put/" ++ p.name

/-- The file the body is stored in. -/
def path (p : Put) : Bytes := cStr (lit "filedir/" ++ p.name)

/-- The request line. -/
def requestLine (p : Put) : RequestLine where
  method := lit "PUT"
  resource := p.resource
  version := p.version
  method_token := put_token
  resource_token := by
    refine ⟨by simp [resource, lit], fun c hc => ?_⟩
    rcases List.mem_append.mp hc with hc | hc
    · exact (show IsWord (lit "/put/") by decide) c hc
    · exact p.name_token.2 c hc
  version_token := p.version_token

/-- `Content-Length: …` -/
def contentLength (p : Put) : HeaderLine where
  key := lit "Content-Length"
  value := p.length
  key_token := contentLength_token
  value_line := fun hm => absurd (p.length_decimal.2.1 lf hm) (by decide)

/-- The head of the request. -/
def head (p : Put) : Head where
  line := p.requestLine
  headers := p.before ++ [p.contentLength] ++ p.after
  headers_accepted := by
    intro h hh
    simp only [List.mem_append, List.mem_singleton] at hh
    rcases hh with (hh | rfl) | hh
    · exact p.headers_accepted h (List.mem_append_left _ hh)
    · refine ⟨fun _ => p.length_decimal, fun hkey => ?_⟩
      exact absurd hkey (show lit "Content-Length" ≠ lit "Content-Type" by decide)
    · exact p.headers_accepted h (List.mem_append_right _ hh)

/-- The bytes of the request. -/
def bytes (p : Put) : Bytes := p.head.bytes ++ p.body

/-- The head is not empty, so a message that has begun can be told from one that has not. -/
theorem head_ne_nil (p : Put) : p.head.bytes ≠ [] := by
  simp [Head.bytes, Head.lines, crlf]

/-! ### Reading a `PUT` -/

/-- The head has been read, and `m` has been received behind it. The body stays in `recvMsg`, where
nothing reads it. -/
structure Asked (p : Put) (m : Bytes) (r : Request) : Prop where
  status : r.status = .handleBody
  method : r.requestMethod = lit "PUT"
  resource : r.requestResource = p.resource
  recvMsg : r.recvMsg = m

/-- A `PUT` is no upload in the sense of `HandleRecv`, which looks for a `POST`. -/
theorem Asked.not_upload {p : Put} {m : Bytes} {r : Request} (h : p.Asked m r) :
    r.isUpload = false := by
  by_contra hu
  have hpost := (isUpload_iff.mp (by simpa using hu)).2.1
  rw [h.method] at hpost
  exact absurd hpost (by decide)

/-- More of the body goes behind what is there. -/
theorem Asked.push {p : Put} {m : Bytes} {r : Request} (h : p.Asked m r) (buf : Bytes) :
    p.Asked (m ++ buf) (r.push buf) where
  status := h.status
  method := h.method
  resource := h.resource
  recvMsg := by rw [← h.recvMsg]; rfl

/-- The body of a `PUT` asks for no line. -/
theorem Asked.drained {p : Put} {m : Bytes} {r : Request} (h : p.Asked m r) : r.drained = .ok r :=
  drained_of_rest (.inl (by simp [wantsLine, h.not_upload, h.status]))

/-- A response for the resource is asked for with everything that has been received: each turn
behind the head does so once more. -/
theorem Asked.settle {p : Put} {m : Bytes} {r : Request} (h : p.Asked m r) :
    r.settle = ⟨r, none, some p.resource⟩ := by
  have hget : lit "PUT" ≠ lit "GET" := by decide
  have hpost : lit "PUT" ≠ lit "POST" := by decide
  rw [settle_of_body h.status, h.method, if_neg hget, if_neg hpost, if_pos rfl, h.resource]

/-- The head has been read, and what has come with it behind the head is the beginning of the
body. -/
theorem reads_head (p : Put) (m : Bytes) :
    ∃ r, (Request.init.push (p.head.bytes ++ m)).drained = .ok r ∧ p.Asked m r := by
  obtain ⟨msgHeader, contentLength, -, hread⟩ := p.head.reads_lines
  have hdrained := drained_of_reads hread m
  have hasked : p.Asked m
      (({ p.head.line.request with msgHeader, contentLength } : Request).endHead.withMsg m) := by
    unfold endHead
    split <;> exact ⟨rfl, rfl, rfl, rfl⟩
  rw [hasked.drained] at hdrained
  exact ⟨_, hdrained, hasked⟩

/-- The request has received `q`, which stops in front of the body: its whole lines have been read,
and it waits for the next. -/
structure InHead (p : Put) (q : Bytes) (r : Request) : Prop where
  early : ¬ p.head.bytes <+: q
  reads : (Request.init.push q).drained = .ok r
  waits : r.settle = ⟨r, none, none⟩
  rest : r.AtRest

/-- An upload in its body stays a `POST`, since the request line is read once. -/
theorem method_of_upload {r r' : Request} (hu : r.isUpload = true) (hd : r.drained = .ok r') :
    r'.requestMethod = lit "POST" := by
  obtain ⟨hs, hm, -⟩ := isUpload_iff.mp hu
  have hkeep := drained_induction
    (P := fun r => (r.status = .handleBody ∨ r.status = .handleComplete) ∧
      r.requestMethod = lit "POST") ?_ ⟨.inl hs, hm⟩ hd
  · exact hkeep.2
  · rintro r r' line rest ⟨hs, hm⟩ - - ho
    have hinit : r.status ≠ .handleInit := by
      rcases hs with h | h <;> rw [h] <;> exact nofun
    exact ⟨(readLine_body hs ho).1, (readLine_asked hinit ho).2.1.trans hm⟩

/-- What has been received of the head has been read, as far as its lines are complete. -/
theorem reads_early (p : Put) {q rest : Bytes} (hne : rest ≠ []) (hq : q ++ rest = p.head.bytes) :
    ∃ r, p.InHead q r := by
  obtain ⟨whole, hwhole, hasked⟩ := p.reads_head []
  rw [List.append_nil, ← hq] at hwhole
  -- the bytes so far are shorter than the head
  have hearly : ¬ p.head.bytes <+: q := by
    intro h
    have hlen := h.length_le
    rw [← hq, List.length_append] at hlen
    exact hne (List.eq_nil_of_length_eq_zero (by omega))
  cases hd : (Request.init.push q).drained with
  | error f =>
    rw [drained_push, hd] at hwhole
    cases hwhole
  | ok r =>
    -- the rest of the head ends the reading that `q` began
    have hpush : (r.push rest).drained = .ok whole := by
      rw [drained_push, hd] at hwhole
      exact hwhole
    have habsorb : Request.init.absorb q = .ok r.settle := absorb_of_drained hd
    have hhanded : r.settle.handed = none := by
      by_contra hh
      rcases settle_handed hh with hcomplete | ⟨hput, -, hbody⟩
      · -- a request that is complete stays so
        have hall := absorb_append_of_complete habsorb hcomplete rest
        rw [absorb, hwhole, Except.map, hasked.settle] at hall
        have hstatus := congrArg Outcome.request (Except.ok.inj hall)
        have hcomp : whole.status = .handleComplete := by
          rw [show whole = _ from hstatus]
          exact hcomplete
        cases hasked.status.symm.trans hcomp
      · -- a `PUT` in its body keeps what comes behind
        have hr : p.Asked (r.recvMsg ++ rest) (r.push rest) := by
          have hu : r.isUpload = false := by
            by_contra hu
            have hpost := (isUpload_iff.mp (by simpa using hu)).2.1
            rw [hput] at hpost
            exact absurd hpost (by decide)
          rw [drained_of_rest (r := r.push rest)
            (.inl (by simp [wantsLine, Request.push, hu, hbody]))]
            at hpush
          obtain rfl := Except.ok.inj hpush
          exact ⟨hasked.status, hasked.method, hasked.resource, rfl⟩
        rw [hr.drained] at hpush
        obtain rfl := Except.ok.inj hpush
        exact hne (List.append_eq_nil_iff.mp (hr.recvMsg.symm.trans hasked.recvMsg)).2
    have hother : ¬ (r.isUpload = true ∧ r.fileMsgStatus = .fileContent) := by
      rintro ⟨hu, -⟩
      have hpost := method_of_upload (r := r.push rest) hu hpush
      rw [hasked.method] at hpost
      exact absurd hpost (by decide)
    have hwaits := settle_of_waiting hother hhanded
    have hrest := absorb_atRest init_atRest.sound habsorb hhanded
    rw [hwaits] at hrest
    exact ⟨r, hearly, hd, hwaits, hrest⟩

/-- The request has received `q`, and stands in its head or in its body. -/
inductive At (p : Put) (q : Bytes) (r : Request) : Prop where
  | head (h : p.InHead q r)
  | body (m : Bytes) (whole : q = p.head.bytes ++ m) (asked : p.Asked m r)

/-- **What has been received of a `PUT` has been read.** -/
theorem reads (p : Put) {q : Bytes} (hq : q <+: p.bytes) :
    ∃ r, (Request.init.push q).drained = .ok r ∧ p.At q r := by
  rcases List.prefix_or_prefix_of_prefix hq (List.prefix_append p.head.bytes p.body) with
    ⟨rest, hrest⟩ | ⟨m, rfl⟩
  · cases rest with
    | nil =>
      rw [List.append_nil] at hrest
      obtain ⟨r, hread, hr⟩ := p.reads_head []
      rw [List.append_nil] at hread
      exact ⟨r, by rw [hrest]; exact hread, .body [] (by rw [hrest, List.append_nil]) hr⟩
    | cons c rest =>
      obtain ⟨r, hr⟩ := p.reads_early (List.cons_ne_nil c rest) hrest
      exact ⟨r, hr.reads, .head hr⟩
  · obtain ⟨r, hread, hr⟩ := p.reads_head m
    exact ⟨r, hread, .body m rfl hr⟩

/-- A `PUT` starts in front of its body, with nothing received. -/
theorem at_start (p : Put) : p.At [] Request.init := by
  obtain ⟨r, hread, hr⟩ := p.reads (List.nil_prefix (l := p.bytes))
  have hinit : (Request.init.push []).drained = .ok Request.init :=
    drained_of_rest init_atRest.lines
  rw [hinit] at hread
  obtain rfl := Except.ok.inj hread
  exact hr

/-! ### Receiving a `PUT` -/

/-- A chunk behind the head: the resource is handed over, the chunk is kept in `recvMsg`, and the
turn leaves without completing the request. -/
theorem Asked.turn {p : Put} {m : Bytes} {r : Request} (h : p.Asked m r) (buf : Bytes)
    (ofs : Bool) :
    recvTurn buf ofs r =
      ⟨r.push buf, [.recvd buf, .setBodyFileName p.resource, .modifyWaitFd true true true],
        .leave⟩ := by
  rw [recvTurn_put h.status h.method, h.resource]

/-- A call that receives something behind the head takes one chunk of it, and leaves the rest of the
results to the next call. -/
theorem Asked.process {p : Put} {m : Bytes} {r : Request} (h : p.Asked m r) (buf : Bytes)
    (ofs : Bool) (rest : List RecvResult) :
    HandleRecv.process (.data buf ofs :: rest) (some r) =
      ⟨some (r.push buf), [.recvd buf, .setBodyFileName p.resource, .modifyWaitFd true true true],
        none, rest⟩ := by
  have hstatus : (r.push buf).status = .handleBody := h.status
  unfold HandleRecv.process recvLoop
  rw [Option.getD_some, h.turn buf ofs]
  simp [Received.finish, HandleRecv.finish, hstatus]

/-- A call that receives nothing arms the descriptor for reading, whatever has been received
before. -/
theorem process_silent {results : List RecvResult} (hs : ∀ x ∈ results, x.Arrives)
    (hnone : stream results = []) (entry : Option Request) :
    (HandleRecv.process results entry).acts =
      .modifyWaitFd true true false :: (HandleRecv.finish (entry.getD Request.init)).2 ∧
    (HandleRecv.process results entry).request = (HandleRecv.finish (entry.getD Request.init)).1 ∧
    (HandleRecv.process results entry).crash = none := by
  cases results with
  | nil => exact ⟨rfl, rfl, rfl⟩
  | cons x results =>
    cases hs x List.mem_cons_self with
    | again => exact ⟨rfl, rfl, rfl⟩
    | data buf ofs hbuf => exact absurd (List.append_eq_nil_iff.mp hnone).1 hbuf

/-- What a call does to a `PUT` that has received `q`. Behind the head the resource is handed over
by every call that receives something. -/
inductive Receives (p : Put) (q : Bytes) (c : Call) : Prop where
  /-- The head is not complete. -/
  | waits (lines : List Action) (r : Request) (reading : ∀ a ∈ lines, Reading a)
      (acts : c.acts = lines ++ [.modifyWaitFd true true false]) (crash : c.crash = none)
      (request : c.request = some r) (head : p.InHead (q ++ received lines) r)
  /-- Nothing has been received behind the head. -/
  | idles (r : Request) (m : Bytes) (acts : c.acts = [.modifyWaitFd true true false])
      (crash : c.crash = none) (request : c.request = some r) (whole : q = p.head.bytes ++ m)
      (asked : p.Asked m r)
  /-- The head is complete, or more has been received behind it. -/
  | asks (lines : List Action) (r : Request) (m : Bytes) (reading : ∀ a ∈ lines, Reading a)
      (acts : c.acts = lines ++ [.setBodyFileName p.resource, .modifyWaitFd true true true])
      (crash : c.crash = none) (request : c.request = some r)
      (whole : q ++ received lines = p.head.bytes ++ m) (asked : p.Asked m r)

/-- A turn that stays in the head, in front of the rest of the call. -/
theorem Receives.prepend {p : Put} {q buf : Bytes} {lines : List Action} {c : Call}
    (hlines : Lines buf lines) (hq : ¬ p.head.bytes <+: q ++ buf) (h : p.Receives (q ++ buf) c) :
    p.Receives q (c.prepend lines) := by
  have hreading {more : List Action} (hmore : ∀ a ∈ more, Reading a) :
      ∀ a ∈ lines ++ more, Reading a :=
    fun a ha => (List.mem_append.mp ha).elim (hlines.reading a) (hmore a)
  have hreceived (more : List Action) :
      q ++ received (lines ++ more) = q ++ buf ++ received more := by
    rw [received_append, hlines.received, List.append_assoc]
  cases h with
  | waits more r reading acts crash request head =>
    refine .waits (lines ++ more) r (hreading reading) ?_ crash request ?_
    · rw [Call.prepend_acts, acts, List.append_assoc]
    · rwa [hreceived]
  | idles r m acts crash request whole asked =>
    exact absurd (whole ▸ List.prefix_append _ _) hq
  | asks more r m reading acts crash request whole asked =>
    refine .asks (lines ++ more) r m (hreading reading) ?_ crash request ?_ asked
    · rw [Call.prepend_acts, acts, List.append_assoc]
    · rwa [hreceived]

/-- In the head the content stage is not reached, so it is all the same whether a file opens. -/
theorem InHead.fits {p : Put} {q : Bytes} {r : Request} (h : p.InHead q r) (ofs : Bool) :
    r.Fits ofs := by
  intro hu hf
  have hwritten := congrArg Outcome.written (h.waits.symm.trans (settle_of_content hu hf))
  rw [scanned_written] at hwritten
  cases hwritten

/-- Behind the loop a request in its head is left as it is. -/
theorem InHead.finish {p : Put} {q : Bytes} {r : Request} (h : p.InHead q r) :
    HandleRecv.finish r = (some r, []) := by
  rw [HandleRecv.finish, if_neg h.rest.live, if_neg h.rest.sound]

/-- Behind the loop a request in its body is left as it is, in `HANDLE_BODY`. -/
theorem Asked.finish {p : Put} {m : Bytes} {r : Request} (h : p.Asked m r) :
    HandleRecv.finish r = (some r, []) := by
  rw [HandleRecv.finish, h.status]
  rfl

/-- In front of the body there is nothing more to receive: the descriptor is armed for reading. -/
theorem InHead.silent {p : Put} {q : Bytes} {r : Request} (h : p.InHead q r)
    (rest : List RecvResult) : p.Receives q
      (Received.finish ⟨r, [.modifyWaitFd true true false], none, rest⟩) := by
  refine .waits [] r nofun ?_ rfl ?_ (by rw [received_nil, List.append_nil]; exact h)
  · simp [Received.finish, h.finish]
  · simp [Received.finish, h.finish]

/-- A chunk in which the head ends: the resource is handed over, and the call leaves with the part
of the body that has come along. -/
theorem InHead.leaves {p : Put} {q buf m : Bytes} {r : Request} (h : p.InHead q r)
    (hq : q ++ buf = p.head.bytes ++ m) (ofs : Bool) :
    ∃ lines r', Lines buf lines ∧ p.Asked m r' ∧ ∀ rest,
      (recvLoop (.data buf ofs :: rest) r).finish =
        ⟨some r', lines ++ [.setBodyFileName p.resource, .modifyWaitFd true true true],
          none, rest⟩ := by
  obtain ⟨r', hread, asked⟩ := p.reads_head m
  rw [← hq, drained_push, h.reads] at hread
  change (r.push buf).drained = .ok r' at hread
  have hfits : r'.Fits ofs := fun hu => absurd hu (by rw [asked.not_upload]; exact nofun)
  have hlive : r'.status ≠ .handleComplete := by rw [asked.status]; exact nofun
  have hturn := recvTurn_follows h.rest.live hread hfits
  rw [asked.settle] at hturn
  have hflow : (recvTurn buf ofs r).flow = .leave := hturn.flow
  have hrequest : (recvTurn buf ofs r).request = r' := hturn.msg hlive
  refine ⟨_, r', lines_requestLine buf (r.push buf), asked, fun rest => ?_⟩
  unfold recvLoop
  simp only [hflow, Received.finish, hrequest, asked.finish, List.append_nil]
  rw [hturn.acts]
  rfl

/-- Receiving the head, chunk by chunk, until a chunk goes beyond it or the results end. -/
theorem loop_receiving {p : Put} {results : List RecvResult} (hs : ∀ x ∈ results, x.Arrives)
    {q : Bytes} {r : Request} (h : p.InHead q r) (hq : q ++ stream results <+: p.bytes) :
    p.Receives q (recvLoop results r).finish := by
  induction results generalizing q r with
  | nil => exact h.silent []
  | cons x results ih =>
    have hs' : ∀ y ∈ results, y.Arrives := fun y hy => hs y (List.mem_cons_of_mem x hy)
    cases hs x List.mem_cons_self with
    | again => exact h.silent results
    | data buf ofs hbuf =>
      rw [stream_cons, RecvResult.bytes, ← List.append_assoc] at hq
      obtain ⟨r', hread, hr'⟩ := p.reads ((List.prefix_append _ _).trans hq)
      rw [drained_push, h.reads] at hread
      change (r.push buf).drained = .ok r' at hread
      cases hr' with
      | head hr' =>
        -- the head goes on behind this chunk
        have hturn := recvTurn_follows h.rest.live hread (hr'.fits ofs)
        rw [hr'.waits] at hturn
        have hflow : (recvTurn buf ofs r).flow = .again := hturn.flow
        have hacts := hturn.acts
        rw [show Outcome.acts ⟨r', none, none⟩ = [] from rfl, List.append_nil] at hacts
        unfold recvLoop
        simp only [hflow, Received.finish_prepend]
        rw [hacts, hturn.msg hr'.rest.live]
        exact (ih hs' hr' hq).prepend (lines_requestLine buf (r.push buf)) hr'.early
      | body m whole asked =>
        -- the chunk ends the head, and the loop leaves for the answer
        obtain ⟨lines, r'', hlines, hasked, hfinish⟩ := h.leaves whole ofs
        rw [hfinish]
        exact .asks lines r'' m hlines.reading rfl rfl rfl (by rw [hlines.received]; exact whole)
          hasked

/-- A `PUT` that arrives whole is handed over by the call that receives it, with its body in
`recvMsg`. -/
theorem process_whole (p : Put) (ofs : Bool) (rest : List RecvResult) {entry : Option Request}
    (hentry : entry.getD Request.init = Request.init) :
    ∃ lines r, Lines p.bytes lines ∧ p.Asked p.body r ∧
      HandleRecv.process (.data p.bytes ofs :: rest) entry =
        ⟨some r, lines ++ [.setBodyFileName p.resource, .modifyWaitFd true true true],
          none, rest⟩ := by
  have hhead : p.InHead [] Request.init := by
    cases p.at_start with
    | head h => exact h
    | body m whole => exact absurd (List.append_eq_nil_iff.mp whole.symm).1 p.head_ne_nil
  have hbytes : [] ++ p.bytes = p.head.bytes ++ p.body := rfl
  obtain ⟨lines, r, hlines, hasked, hfinish⟩ := hhead.leaves hbytes ofs
  refine ⟨lines, r, hlines, hasked, ?_⟩
  rw [HandleRecv.process, hentry]
  exact hfinish rest

/-- **What a call of `HandleRecv` does to a `PUT`**, however much of it has been received. -/
theorem process_receiving {p : Put} {results : List RecvResult} (hs : ∀ x ∈ results, x.Arrives)
    {q : Bytes} {entry : Option Request} (h : p.At q (entry.getD Request.init))
    (hq : q ++ stream results <+: p.bytes) : p.Receives q (HandleRecv.process results entry) := by
  cases h with
  | head h => exact loop_receiving hs h hq
  | body m whole asked =>
    cases results with
    | nil =>
      refine .idles _ m ?_ rfl ?_ whole asked
      · simp [HandleRecv.process, recvLoop, Received.finish, asked.finish]
      · simp [HandleRecv.process, recvLoop, Received.finish, asked.finish]
    | cons x results =>
      cases hs x List.mem_cons_self with
      | again =>
        refine .idles _ m ?_ rfl ?_ whole asked
        · simp [HandleRecv.process, recvLoop, Received.finish, asked.finish]
        · simp [HandleRecv.process, recvLoop, Received.finish, asked.finish]
      | data buf ofs hbuf =>
        have hprocess := asked.process buf ofs results
        change HandleRecv.process (.data buf ofs :: results) entry = _ at hprocess
        rw [hprocess]
        refine .asks [.recvd buf] _ (m ++ buf) (by simp [Reading]) rfl rfl rfl ?_ (asked.push buf)
        rw [whole, List.append_assoc]
        simp [Action.received]

end Put

end Cherokee
