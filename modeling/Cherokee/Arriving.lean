import Cherokee.FileServer
import Cherokee.Lingering
import Cherokee.Pipeline
import Cherokee.Uploading

/-!
# A message arrives

What the calls of `HandleRecv` do while one message arrives, a `GET` or an upload, however it is
cut: where the message stands (`Message.At`), what a turn of the receive loop takes of it
(`recvTurn_takes`), and what a call takes (`process_takes`). Beside the request this says what
becomes of the files and of the account of the connection.
-/

namespace Cherokee

namespace HandleRecv

open Request

/-! ### Where a message stands -/

/-- What has been stored, and then `more`. Without `more` nothing has been opened, and what was
there stays. -/
def joined (stored more : Option Bytes) : Option Bytes :=
  more.elim stored fun data => some (stored.getD [] ++ data)

@[simp] theorem joined_none (w : Option Bytes) : joined w none = w := rfl

@[simp] theorem joined_some (w : Option Bytes) (data : Bytes) :
    joined w (some data) = some (w.getD [] ++ data) := rfl

/-- Storing piece by piece is storing the pieces together. -/
theorem joined_assoc (w d e : Option Bytes) : joined (joined w d) e = joined w (joined d e) := by
  cases d <;> cases e <;> simp

namespace Message

/-- The file of an upload, under its name in `filedir`; a `GET` stores nothing. -/
def path : Message → Option Bytes
  | get _ _ => none
  | upload u => some u.path

/-- What an upload stores: the content of its part, without the delimiter behind it. -/
def content : Message → Option Bytes
  | get _ _ => none
  | upload u => some u.content

/-- The resource a response is asked for, once the message has arrived: for an upload the redirect
to the list. -/
def handed : Message → Bytes
  | get h _ => h.line.resource
  | upload _ => lit "/redirect"

/-- An upload is no longer than a string can be. -/
def Fits : Message → Prop
  | get _ _ => True
  | upload u => u.bytes.length ≤ maxSize

/-- The message has arrived up to the end of `q`, and `w` of it has been stored. The three cases are
the places in which a call can end: in a `GET`, in the head of an upload or its part header, and in
its content. -/
inductive At : Message → Bytes → Option Bytes → Request → Prop where
  | get {h : Head} {isGet : h.line.method = lit "GET"} {q : Bytes} {r : Request} {o : Outcome}
      (absorbed : Request.init.absorb q = .ok o) (pending : o.handed = none)
      (left : o.request = r) :
      At (.get h isGet) q none r
  | head {u : Upload} {q : Bytes} {r : Request} (inHead : InHead u q r) : At (.upload u) q none r
  | content {u : Upload} {q w : Bytes} {r : Request} (inContent : InContent u q w r) :
      At (.upload u) q (some w) r

/-- Nothing has arrived, and the entry is a new `Request`. -/
theorem at_start (m : Message) : m.At [] none Request.init := by
  cases m with
  | get h isGet => exact .get init_atRest.absorb_nil init_atRest.handed init_atRest.request
  | upload u =>
    rcases HandleRecv.at_start u with ⟨h, -⟩ | h
    · exact .head h
    · exact absurd h.kept (by simp [Upload.preamble, Upload.headLines, crlf])

/-- Where nothing has arrived, nothing has been read. -/
theorem At.nothing {m : Message} {w : Option Bytes} {r : Request} (h : m.At [] w r) :
    w = none ∧ r = Request.init := by
  cases h with
  | get absorbed pending left =>
    have ho := init_atRest.absorb_nil.symm.trans absorbed
    refine ⟨rfl, left.symm.trans ?_⟩
    rw [← Except.ok.inj ho]
    exact init_atRest.request
  | head inHead =>
    have hr : (Request.init.push []).drained = .ok Request.init :=
      drained_of_rest init_atRest.lines
    exact ⟨rfl, Except.ok.inj (inHead.reads.symm.trans hr)⟩
  | content inContent =>
    exact absurd inContent.kept (by simp [Upload.preamble, Upload.headLines, crlf])

/-- What has been stored is stored of an upload, since only its content stage opens a file. -/
theorem At.upload {m : Message} {q w : Bytes} {r : Request} (h : m.At q (some w) r) :
    ∃ u, m = .upload u := by
  cases h with
  | content inContent => exact ⟨_, rfl⟩

/-- A message that is arriving is received by a request that is neither complete nor in error, so
its entry stays behind a call. -/
theorem At.live {m : Message} {q : Bytes} {w : Option Bytes} {r : Request} (h : m.At q w r) :
    r.status ≠ .handleComplete ∧ r.status ≠ .handleError := by
  cases h with
  | get absorbed pending left =>
    subst left
    have hrest := absorb_atRest (by decide) absorbed pending
    exact ⟨hrest.live, hrest.sound⟩
  | head inHead => exact HandleRecv.At.live (.head inHead rfl)
  | content inContent => exact HandleRecv.At.live (.content inContent)

end Message

/-! ### What is taken -/

/-- The actions take `x` of the message, and store `d` of it: they are seen by the client as bytes
received, by the file system as bytes behind the file of the upload, and by nobody otherwise. -/
structure Takes (m : Message) (x : Bytes) (d : Option Bytes) (acts : List Action) : Prop where
  receiving : ∀ a ∈ acts, a.Receiving
  received : received acts = x
  entered : ∀ e : Exchange, acts.foldl Exchange.enter e =
    { e with got := e.got ++ x, storing := if d = none then e.storing else m.path }
  stored : ∀ path ∈ m.path, ∀ f, fileAfter path f acts = joined f d
  others : ∀ path, some path ≠ m.path → ∀ f, fileAfter path f acts = f

/-- Actions that take one piece, and behind them actions that take the next. -/
theorem Takes.append {m : Message} {x y : Bytes} {d e : Option Bytes} {as bs : List Action}
    (ha : Takes m x d as) (hb : Takes m y e bs) : Takes m (x ++ y) (joined d e) (as ++ bs) where
  receiving := List.forall_mem_append.mpr ⟨ha.receiving, hb.receiving⟩
  received := by rw [received_append, ha.received, hb.received]
  entered ex := by
    rw [List.foldl_append, ha.entered, hb.entered]
    cases d <;> cases e <;> simp
  stored path hp f := by
    rw [fileAfter_append, ha.stored path hp, hb.stored path hp, joined_assoc]
  others path hp f := by
    rw [fileAfter_append, ha.others path hp, hb.others path hp]

section Takes

variable {m : Message} {x : Bytes} {d : Option Bytes} {acts : List Action}

/-- Taking puts nothing on the connection. -/
theorem Takes.onWire (h : Takes m x d acts) : onWire acts = [] :=
  HandleSend.onWire_silent fun a ha => (h.receiving a ha).silent

/-- Taking opens no file for reading. -/
theorem Takes.opens (h : Takes m x d acts) (path : Bytes) (fd : Option ℤ) :
    .openRead path fd ∉ acts :=
  fun hm => h.receiving _ hm

/-- What is stored is stored in the file of the upload, so an action on it can be pointed to. -/
theorem Takes.touched (h : Takes m x d acts) (hd : d ≠ none) {path : Bytes} (hp : path ∈ m.path) :
    ∃ a ∈ acts, a.touched = some path := by
  by_contra hno
  have hkept : fileAfter path none acts = none := fileAfter_of_not_alters
    (fun a ha halters => hno ⟨a, ha, Action.touched_of_alters halters⟩) none
  obtain ⟨data, rfl⟩ := Option.ne_none_iff_exists'.mp hd
  rw [h.stored path hp] at hkept
  cases hkept

end Takes

/-- Reading lines alters no file. -/
theorem Reading.not_alters {a : Action} (h : Reading a) (path : Bytes) : a.alters ≠ some path := by
  cases a <;> first | exact (Option.some_ne_none path).symm | cases h

/-- Reading lines changes of an exchange only what has been got. -/
theorem Reading.enter {a : Action} (h : Reading a) (e : Exchange) :
    e.enter a = { e with got := e.got ++ a.received } := by
  cases a with
  | recvd buf => rfl
  | requestLine line => exact congrArg (fun x => { e with got := x }) (List.append_nil e.got).symm
  | _ => cases h

/-- The lines of a chunk: its bytes are taken, and nothing is stored. -/
theorem takes_lines (m : Message) {buf : Bytes} {lines : List Action} (h : Lines buf lines) :
    Takes m buf none lines where
  receiving a ha := by
    have hr := h.reading a ha
    cases a <;> trivial
  received := h.received
  entered e := by
    rw [← h.received]
    have hall := h.reading
    clear h
    induction lines generalizing e with
    | nil => simp
    | cons a lines ih =>
      rw [List.foldl_cons, ih _ fun b hb => hall b (List.mem_cons_of_mem _ hb),
        (hall a List.mem_cons_self).enter, received_cons, List.append_assoc]
  stored path _ f := fileAfter_of_not_alters (fun a ha => (h.reading a ha).not_alters path) f
  others path _ f := fileAfter_of_not_alters (fun a ha => (h.reading a ha).not_alters path) f

/-- Content is appended to the file of an upload, which is made when it is not there. The bytes
themselves have been received with the lines. -/
theorem takes_stores (u : Upload) (data : Bytes) :
    Takes (.upload u) [] (some data) [.openAppend u.path true, .append u.path data] where
  receiving := by simp [Action.Receiving]
  received := rfl
  entered e := by simp [Exchange.enter, Message.path]
  stored path hp f := by
    cases hp
    simp [Action.on, Action.alters, Action.onFile]
  others path hp f := by
    refine fileAfter_of_not_alters ?_ f
    have hne : u.path ≠ path := fun h => hp (congrArg some h.symm)
    simp [Action.alters, hne]

/-! ### A turn -/

/-- What is decided about a `GET`: its last byte completes it, and its resource is asked for. -/
theorem absorb_get {h : Head} (isGet : h.line.method = lit "GET") :
    ∃ o, Exact h.bytes o ∧ o.handed = some h.line.resource ∧
      o.request.requestMethod = lit "GET" ∧ o.request.requestResource = h.line.resource := by
  obtain ⟨o, hexact, hmethod, hresource, -⟩ := exact_head h (.inl isGet)
  refine ⟨o, hexact, ?_, hmethod.trans isGet, hresource⟩
  obtain ⟨r, hd, hstatus, hrm, hrr, -, -⟩ := reads_closing h (.inl isGet)
  have ho : o = r.settle := Except.ok.inj (hexact.absorbed.symm.trans (absorb_of_drained hd))
  rw [ho, settle_of_body hstatus, if_pos (hrm.trans isGet)]
  exact congrArg some hrr

/-- Nothing of a `GET` is stored, wherever it is cut. -/
theorem written_get {h : Head} (isGet : h.line.method = lit "GET") {q : Bytes} {o : Outcome}
    (hq : q <+: h.bytes) (ho : Request.init.absorb q = .ok o) : o.written = none := by
  obtain ⟨rest, hrest⟩ := hq
  obtain ⟨o', hexact, -, hmethod, -⟩ := absorb_get isGet
  obtain ⟨r, hd, hsettle⟩ := drained_of_absorb ho
  by_contra hw
  have hu := (settle_written (hsettle ▸ hw)).1
  obtain ⟨hbody, hpost, -⟩ := isUpload_iff.mp hu
  have hall : Request.init.absorb (q ++ rest) = .ok o' := hrest ▸ hexact.absorbed
  have hsame := (absorb_body hd hbody hall).2
  rw [hmethod, hpost] at hsame
  exact absurd hsame (by decide)

/-- What a turn takes of a message, of which `q` had arrived and `w` been stored: the message goes
on, is complete, or the process ends in the content loop. -/
inductive TurnTakes (m : Message) (q : Bytes) (w : Option Bytes) (buf : Bytes) (t : Turn) :
    Prop where
  /-- The message goes on. -/
  | goes (d : Option Bytes) (flow : t.flow = .again) (takes : Takes m buf d t.acts)
      (stands : m.At (q ++ buf) (joined w d) t.request)
  /-- The message is complete. -/
  | completes (d : Option Bytes) (before : List Action) (flow : t.flow = .leave)
      (acts : t.acts = before ++ [.setBodyFileName m.handed, .modifyWaitFd true true true])
      (takes : Takes m buf d before) (stores : m.path ≠ none → d ≠ none)
      (status : t.request.status = .handleComplete)
      (asked : (t.request.requestMethod, t.request.requestResource) = m.asked)
      (whole : q ++ buf = m.bytes) (content : joined w d = m.content)
  /-- The content loop does not return. -/
  | crashes (f : Fault) (flow : t.flow = .crash f)

/-- The request of a turn that follows a decision has the method and the resource of the
decision. -/
theorem Turn.Follows.fields {t : Turn} {before : List Action} {o : Outcome}
    (h : t.Follows before o) :
    t.request.status = o.request.status ∧ t.request.requestMethod = o.request.requestMethod ∧
      t.request.requestResource = o.request.requestResource := by
  have heq := h.request
  refine ⟨?_, ?_, ?_⟩
  · rw [← withMsg_status t.request [], heq, withMsg_status]
  · rw [← withMsg_requestMethod t.request [], heq, withMsg_requestMethod]
  · rw [← withMsg_requestResource t.request [], heq, withMsg_requestResource]

/-- A turn on a `GET`, by what absorbing its chunk decides. -/
theorem turn_get {h : Head} {isGet : h.line.method = lit "GET"} {q buf : Bytes} {r : Request}
    (hat : (Message.get h isGet).At q none r) (hq : q ++ buf <+: h.bytes) (ofs : Bool) :
    TurnTakes (.get h isGet) q none buf (recvTurn buf ofs r) := by
  have hlive := hat.live.1
  obtain ⟨o, hexact, hhanded, hmethod, hresource⟩ := absorb_get isGet
  obtain ⟨rest, hrest⟩ := hq
  obtain ⟨o₀, hpast, hpending, rfl⟩ : ∃ o₀, Request.init.absorb q = .ok o₀ ∧ o₀.handed = none ∧
      o₀.request = r := by
    cases hat with
    | get absorbed pending left => exact ⟨_, absorbed, pending, left⟩
  -- a part of a head that is accepted is accepted
  obtain ⟨o₂, hnow⟩ : ∃ o₂, Request.init.absorb (q ++ buf) = .ok o₂ := by
    cases hx : Request.init.absorb (q ++ buf) with
    | ok o₂ => exact ⟨o₂, rfl⟩
    | error f =>
      have herr := absorb_append_of_error hx rest
      rw [hrest, hexact.absorbed] at herr
      cases herr
  -- a `GET` writes nothing, so the turn fits whether or not a file opens
  have hnothing := written_get isGet ⟨rest, hrest⟩ hnow
  obtain ⟨o₁, hchunk, rfl⟩ := absorb_rest hnow hpast hpending
  have hw : o₁.written = none := Option.map_eq_none_iff.mp hnothing
  obtain ⟨r', hd, rfl⟩ := drained_of_absorb hchunk
  have hfit : r'.Fits ofs := by
    intro hu hf
    rw [settle_of_content hu hf, scanned_written] at hw
    cases hw
  -- the turn does what absorbing its chunk decides
  have hfollows := recvTurn_follows hlive hd hfit
  have hlines := lines_requestLine buf (o₀.request.push buf)
  obtain ⟨hstatus, hrm, hrr⟩ := hfollows.fields
  have hacts := hfollows.acts
  have hflow := hfollows.flow
  unfold Outcome.acts at hacts
  rw [hw, List.nil_append] at hacts
  by_cases hlast : rest = []
  · -- the chunk brings the last byte
    subst hlast
    rw [List.append_nil] at hrest
    obtain rfl : r'.settle.after (o₀.written.getD []) = o :=
      Except.ok.inj (hnow.symm.trans (hrest ▸ hexact.absorbed))
    have hh : r'.settle.handed = some h.line.resource := hhanded
    rw [hh] at hacts hflow
    refine .completes none _ hflow hacts (takes_lines _ hlines) (fun hp => absurd rfl hp)
      (hstatus.trans hexact.complete) ?_ hrest rfl
    rw [hrm, hrr]
    exact Prod.ext (hmethod.trans isGet.symm) hresource
  · have hh : r'.settle.handed = none := by
      rw [← Outcome.after_handed (o₀.written.getD [])]
      exact hexact.pending hrest hlast hnow
    rw [hh, List.append_nil] at hacts
    rw [hh, if_pos rfl] at hflow
    -- bytes are still to come, so nothing has been decided
    refine .goes none hflow (hacts ▸ takes_lines _ hlines) (.get hnow hh ?_)
    exact (hfollows.msg ((settle_status hh).1 ▸ (settle_status hh).2)).symm

/-- A turn on an upload whose file opens, by the place in which the upload was and the one it has
come to. -/
theorem turn_upload {u : Upload} (hlen : u.bytes.length ≤ maxSize) {q buf : Bytes}
    {w : Option Bytes} {r : Request} (hat : (Message.upload u).At q w r)
    (hq : q ++ buf <+: u.bytes) : TurnTakes (.upload u) q w buf (recvTurn buf true r) := by
  have hold : HandleRecv.At u q (w.getD []) r := by
    cases hat with
    | head inHead => exact .head inHead rfl
    | content inContent => exact .content inContent
  cases recvTurn_uploading hlen hold hq true with
  | reads acts flow head nothing =>
    refine .goes none flow (takes_lines _ acts) ?_
    cases hat with
    | head inHead => exact .head head
    | content inContent =>
      -- the preamble has been received
      refine absurd ?_ head.early
      rw [← inContent.kept, List.append_assoc, List.append_assoc]
      exact List.prefix_append _ _
  | refused lines hlines acts flow closed content => cases closed
  -- the lines bring the bytes of the chunk, and the two actions behind them store `data`
  | stores lines data hlines acts flow opened content withheld =>
    refine .goes (some data) flow ?_ (.content content)
    have htakes := (takes_lines (.upload u) hlines).append (takes_stores u data)
    rwa [List.append_nil, ← acts] at htakes
  | completes lines data hlines acts flow opened status method resource whole content =>
    have htakes := (takes_lines (.upload u) hlines).append (takes_stores u data)
    rw [List.append_nil] at htakes
    refine .completes (some data) _ flow ?_ htakes (fun _ => Option.some_ne_none data) status
      (Prod.ext method resource) whole (congrArg some content)
    rw [acts, List.append_assoc]
    rfl
  | crashes lines data f hlines acts flow kept => exact .crashes f flow

/-- **A turn of the receive loop on a message** that is arriving, whichever of the two it is. -/
theorem recvTurn_takes {m : Message} (hm : m.Fits) {q buf : Bytes} {w : Option Bytes} {r : Request}
    (hat : m.At q w r) (hq : q ++ buf <+: m.bytes) : TurnTakes m q w buf (recvTurn buf true r) := by
  cases m with
  | get h isGet =>
    obtain rfl : w = none := by
      cases hat with
      | get => rfl
    exact turn_get hat hq true
  | upload u => exact turn_upload hm hat hq

theorem Message.bytes_ne_nil (m : Message) : m.bytes ≠ [] := by
  cases m with
  | get h isGet =>
    obtain ⟨o, hexact, -⟩ := absorb_get isGet
    exact hexact.ne_nil
  | upload u => simp [Message.bytes, Upload.bytes, Upload.preamble, Upload.headLines, crlf]

/-! ### A call -/

/-- What a call takes of a message, of which `q` had arrived and `w` been stored. A call that waits
has armed the descriptor for reading; one that completes the message has asked for the response. -/
inductive CallTakes (m : Message) (q : Bytes) (w : Option Bytes) (c : Call) : Prop where
  /-- The rest has not arrived. -/
  | waits (x : Bytes) (d : Option Bytes) (before : List Action) (r : Request)
      (crash : c.crash = none)
      (request : c.request = some r) (acts : c.acts = before ++ [.modifyWaitFd true true false])
      (takes : Takes m x d before) (stands : m.At (q ++ x) (joined w d) r)
  /-- The message is complete, and a response is asked for. -/
  | completes (x : Bytes) (d : Option Bytes) (before : List Action) (crash : c.crash = none)
      (request : c.request = none)
      (acts : c.acts = before ++ [.setBodyFileName m.handed, .modifyWaitFd true true true,
        .processed m.asked.1 m.asked.2])
      (takes : Takes m x d before) (stores : m.path ≠ none → d ≠ none) (whole : q ++ x = m.bytes)
      (content : joined w d = m.content)
  /-- The call does not return. -/
  | crashes (f : Fault) (crash : c.crash = some f)

/-- A turn that goes on, in front of the rest of the call. -/
theorem CallTakes.prepend {m : Message} {q x : Bytes} {w d : Option Bytes} {acts : List Action}
    {c : Call} (ha : Takes m x d acts) (h : CallTakes m (q ++ x) (joined w d) c) :
    CallTakes m q w (c.prepend acts) := by
  cases h with
  | waits y e before r crash request hacts takes stands =>
    refine .waits (x ++ y) (joined d e) (acts ++ before) r crash request ?_ (ha.append takes) ?_
    · rw [Call.prepend_acts, hacts, List.append_assoc]
    · rwa [← List.append_assoc, ← joined_assoc]
  | completes y e before crash request hacts takes stores whole content =>
    refine .completes (x ++ y) (joined d e) (acts ++ before) crash request ?_
      (ha.append takes) ?_ ?_ ?_
    · rw [Call.prepend_acts, hacts, List.append_assoc]
    · intro hp
      obtain ⟨data, rfl⟩ := Option.ne_none_iff_exists'.mp (stores hp)
      exact Option.some_ne_none _
    · rwa [← List.append_assoc]
    · rwa [← joined_assoc]
  | crashes f crash => exact .crashes f crash

/-- A call that takes nothing of the message. -/
theorem takes_nothing (m : Message) : Takes m [] none [] := takes_lines m ⟨nofun, rfl⟩

/-- A call that finds nothing more to receive arms the descriptor, and the message stands where it
stood. -/
theorem takes_again {m : Message} {q : Bytes} {w : Option Bytes} {r : Request} (hat : m.At q w r)
    (rest : List RecvResult) :
    CallTakes m q w (Received.finish ⟨r, [.modifyWaitFd true true false], none, rest⟩) := by
  obtain ⟨hlive, hsound⟩ := hat.live
  have hfinish : HandleRecv.finish r = (some r, []) := by
    rw [HandleRecv.finish, if_neg hlive, if_neg hsound]
  refine .waits [] none [] r rfl ?_ ?_ (takes_nothing m) ?_
  · rw [Received.finish, hfinish]
  · rw [Received.finish, hfinish]
    rfl
  · rwa [List.append_nil]

/-- A call that completes the message in its first turn erases the entry and shows the request as
processed. -/
theorem takes_complete {m : Message} {q x : Bytes} {w d : Option Bytes} {r : Request}
    {before : List Action} (status : r.status = .handleComplete)
    (asked : (r.requestMethod, r.requestResource) = m.asked) (takes : Takes m x d before)
    (stores : m.path ≠ none → d ≠ none) (whole : q ++ x = m.bytes)
    (content : joined w d = m.content) (rest : List RecvResult) :
    CallTakes m q w (Received.finish
      ⟨r, before ++ [.setBodyFileName m.handed, .modifyWaitFd true true true], none, rest⟩) := by
  have hfinish : HandleRecv.finish r = (none, [.processed m.asked.1 m.asked.2]) := by
    rw [HandleRecv.finish, if_pos status, ← asked]
  refine .completes x d before rfl ?_ ?_ takes stores whole content
  · rw [Received.finish, hfinish]
  · rw [Received.finish, hfinish]
    exact List.append_assoc _ _ _

/-- **A call on a message** that is arriving: the bytes it receives go on with the message, and do
not go beyond it. The induction is on the results of `recv`, with what has arrived growing by
each. -/
theorem recvLoop_takes {m : Message} (hm : m.Fits) {results : List RecvResult}
    (hquiet : ∀ x ∈ results, x.Quiet) {q : Bytes} {w : Option Bytes} {r : Request}
    (hat : m.At q w r) (hq : q ++ received (recvLoop results r).finish.acts <+: m.bytes) :
    CallTakes m q w (recvLoop results r).finish := by
  induction results generalizing q w r with
  | nil => exact takes_again hat []
  | cons x rest ih =>
    cases hquiet x List.mem_cons_self with
    | again => exact takes_again hat rest
    | data buf hbuf =>
      have hbytes : q ++ buf <+: m.bytes := by
        obtain ⟨more, hmore⟩ := recvLoop_data buf true rest r
        rw [hmore, List.cons_append, received_cons, ← List.append_assoc] at hq
        exact (List.prefix_append _ _).trans hq
      cases recvTurn_takes hm hat hbytes with
      | goes d flow takes stands =>
        rw [recvLoop, flow, Received.finish_prepend] at hq ⊢
        refine (ih (fun y hy => hquiet y (List.mem_cons_of_mem _ hy)) stands ?_).prepend takes
        rwa [Call.prepend_acts, received_append, takes.received, ← List.append_assoc] at hq
      | completes d before flow acts takes stores status asked whole content =>
        rw [recvLoop, flow, acts]
        exact takes_complete status asked takes stores whole content rest
      | crashes f flow =>
        rw [recvLoop, flow]
        exact .crashes f rfl

end HandleRecv

end Cherokee
