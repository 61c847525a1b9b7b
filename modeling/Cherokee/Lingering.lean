import Cherokee.PutOnce

/-!
# What a `PUT` leaves behind

`HandleRecv` leaves the `Request` of a `PUT` in `HANDLE_BODY`, and nothing erases it: whatever the
client sends behind the response goes behind the body, the resource is handed over again, and the
next response writes all of it to the file (`Put.lingers`).

* `HandleSend.process_request`: a call of `HandleSend` that has no error keeps the `Request`.
* `Put.reachable_kept`: the `Request` of a `PUT` that arrived whole stays.
-/

open Search

namespace Cherokee

namespace HandleSend

/-! ### `HandleSend` keeps the request -/

/-- Sending keeps the `Request`, unless it fails and the status of the request is set. -/
theorem sendLoop_request {results : List SendResult} (h : .failed ∉ results)
    (request : Option Request) (r : Response) :
    (sendLoop results request r).request = request := by
  induction results generalizing r with
  | nil =>
    unfold sendLoop
    split <;> try rfl
    split <;> rfl
  | cons x results ih =>
    have hrest : .failed ∉ results := fun hm => h (List.mem_cons_of_mem x hm)
    cases x with
    -- only a failed send sets the status of the request
    | failed => exact absurd List.mem_cons_self h
    | again =>
      unfold sendLoop
      split <;> try rfl
      split <;> rfl
    -- the loop goes on with the same request, or ends with it
    | accepted n disk =>
      unfold sendLoop
      split <;> try rfl
      · exact ih hrest _
      · split
        · simp only
          split
          · rfl
          · exact ih hrest _
        · simp only
          split
          · rfl
          · exact ih hrest _
        · rfl

/-- A call that has no error keeps the `Request`, or makes an empty one that stands for none. -/
theorem process_request (w : World) {results : List SendResult} (h : .failed ∉ results)
    (request : Option Request) (response : Option Response) :
    (process w results request response).request.getD Request.init =
      request.getD Request.init := by
  cases response with
  | none => rfl
  | some r =>
    have hstage : (initStage w request r).request.getD Request.init =
        request.getD Request.init := by
      rcases initStage_request w request r with ho | ho <;> rw [ho]
      rfl
    rcases process_request_eq w results request r with ho | ho
    · rw [ho]
      exact hstage
    · rw [ho, sendLoop_request h]
      exact hstage

end HandleSend

namespace HandleRecv

/-! ### What a call does to a new request -/

/-- A call that receives a chunk begins with it, and with the request line it completes. -/
theorem recvLoop_data (buf : Bytes) (ofs : Bool) (rest : List RecvResult) (r : Request) :
    ∃ more, (recvLoop (.data buf ofs :: rest) r).finish.acts =
      .recvd buf :: (requestLineStage (r.push buf)).2 ++ more := by
  have hturn : ∃ more, (recvTurn buf ofs r).acts =
      .recvd buf :: (requestLineStage (r.push buf)).2 ++ more := by
    rw [recvTurn_eq]
    split
    · exact ⟨[], (List.append_nil _).symm⟩
    · exact ⟨_, rfl⟩
  obtain ⟨more, hmore⟩ := hturn
  have hloop : ∃ after, (recvLoop (.data buf ofs :: rest) r).finish.acts =
      (recvTurn buf ofs r).acts ++ after := by
    unfold recvLoop
    simp only
    split
    · exact ⟨_, congrArg Call.acts (Received.finish_prepend _ _)⟩
    · exact ⟨_, rfl⟩
    · exact ⟨[], (List.append_nil _).symm⟩
  obtain ⟨after, hafter⟩ := hloop
  exact ⟨more ++ after, by rw [hafter, hmore, List.append_assoc]⟩

/-- A call does not begin with a hand-over: in front of it stands the chunk that has been
received. -/
theorem recvLoop_head (results : List RecvResult) (r : Request) (name : Bytes)
    (tail : List Action) : (recvLoop results r).finish.acts ≠ .setBodyFileName name :: tail := by
  cases results with
  | nil => exact nofun
  | cons x results =>
    cases x with
    | again => exact nofun
    | closed => exact nofun
    | failed => exact nofun
    | data buf ofs =>
      obtain ⟨more, hmore⟩ := recvLoop_data buf ofs results r
      rw [hmore]
      exact nofun

/-- A new request hands nothing over before its line has been read. -/
theorem process_fresh (buf : Bytes) (ofs : Bool) (rest : List RecvResult) (name : Bytes)
    (tail : List Action) :
    (process (.data buf ofs :: rest) none).acts ≠ .recvd buf :: .setBodyFileName name :: tail := by
  have hinit : (Request.init.push buf).status = .handleInit := rfl
  cases hcut : cutLine (Request.init.push buf).recvMsg with
  | some p =>
    have hline : (requestLineStage (Request.init.push buf)).2 = [.requestLine p.1] := by
      unfold requestLineStage
      rw [if_pos hinit, hcut]
    obtain ⟨more, hmore⟩ := recvLoop_data buf ofs rest Request.init
    rw [hline] at hmore
    change (recvLoop (.data buf ofs :: rest) Request.init).finish.acts ≠ _
    rw [hmore]
    exact nofun
  | none =>
    have hline : requestLineStage (Request.init.push buf) = (Request.init.push buf, []) := by
      unfold requestLineStage
      rw [if_pos hinit, hcut]
    have hturn : recvTurn buf ofs Request.init =
        ⟨Request.init.push buf, [.recvd buf], .again⟩ := by
      rw [recvTurn_eq, hline]
      rfl
    change (recvLoop (.data buf ofs :: rest) Request.init).finish.acts ≠ _
    rw [recvLoop, hturn]
    simp only [Received.finish_prepend]
    intro h
    exact recvLoop_head rest _ name tail (List.cons.inj h).2

end HandleRecv

namespace Put

open Conn HandleSend HandleRecv

/-! ### Behind a `PUT` that arrived whole -/

/-- The first bytes of the connection are those of the `PUT`, in one result of `recv`, and sending
does not fail. -/
def Whole (p : Put) (k : Conn) : Handler → Prop
  | .recv results _ => (∀ x ∈ results, x.Arrives) ∧
      (received k.log = [] → stream results = [] ∨ stream (results.take 1) = p.bytes)
  | .send _ results => .failed ∉ results

instance (p : Put) (k : Conn) : (x : Handler) → Decidable (p.Whole k x)
  | .recv _ _ => inferInstanceAs (Decidable (_ ∧ (_ → _)))
  | .send _ _ => inferInstanceAs (Decidable (_ ∉ _))

/-- The chunk `buf` is received as on a new connection, as far as the call shows. -/
def ReceivedFresh (k : Conn) (buf : Bytes) (ofs : Bool) (rest : List RecvResult) : Prop :=
  (HandleRecv.process (.data buf ofs :: rest) k.request).acts =
    (HandleRecv.process (.data buf ofs :: rest) none).acts

/-- No byte of the chunk `buf` goes to the file of the `PUT`, whatever the response to it finds. -/
def Spared (p : Put) (k : Conn) (buf : Bytes) (ofs : Bool) (rest : List RecvResult) (u : Uninit)
    (w : World) : Prop :=
  let c := Handler.call (.recv (.data buf ofs :: rest) u) k.request k.response
  ∀ results data, .write p.path data ∈
    (HandleSend.process w results c.request c.response).acts → ¬ buf <:+ data

/-- What is known of the `Request` of a connection: nothing has been received, or the `PUT` and what
came behind it stand in its `recvMsg`. -/
inductive Lingers (p : Put) (k : Conn) : Prop where
  /-- Nothing has been received. -/
  | nothing (received : received k.log = []) (request : k.request.getD Request.init = Request.init)
  /-- Everything that has been received behind the `PUT` stands behind its body. -/
  | behind (more : Bytes) (received : received k.log = p.bytes ++ more)
      (asked : p.Asked (p.body ++ more) (k.request.getD Request.init))

/-- What a call does to the `Request`, and what it receives. -/
theorem lingers_of_call {p : Put} {k : Conn} {c : HandleSend.Call}
    (hreceived : received c.acts = [])
    (hrequest : c.request.getD Request.init = k.request.getD Request.init) (h : p.Lingers k) :
    p.Lingers (k.after c) := by
  have hlog : received (k.after c).log = received k.log := by
    change received (k.log ++ c.acts) = _
    rw [received_append, hreceived, List.append_nil]
  have hentry : (k.after c).request.getD Request.init = k.request.getD Request.init := hrequest
  cases h with
  | nothing received request =>
    exact .nothing (hlog.trans received) (hentry.trans request)
  | behind more received asked =>
    refine .behind more (hlog.trans received) ?_
    rw [hentry]
    exact asked

/-- A call that receives nothing keeps the `Request`, since it is neither complete nor in error. -/
theorem Lingers.finish {p : Put} {k : Conn} (h : p.Lingers k) :
    HandleRecv.finish (k.request.getD Request.init) = (some (k.request.getD Request.init), []) := by
  cases h with
  | nothing received request => rw [request]; rfl
  | behind more received asked => exact asked.finish

/-- Receiving behind a `PUT`: the chunk goes behind the body, and the resource is handed over
again. -/
theorem Lingers.receives {p : Put} {k : Conn} (h : p.Lingers k) {results : List RecvResult}
    (hs : ∀ x ∈ results, x.Arrives)
    (hwhole : received k.log = [] → stream results = [] ∨ stream (results.take 1) = p.bytes)
    (u : Uninit) : p.Lingers (k.after (Handler.call (.recv results u) k.request k.response)) := by
  -- a call that reads nothing leaves the connection as it was
  have hsilent {results : List RecvResult} (hprocess : HandleRecv.process results k.request =
      Received.finish ⟨k.request.getD Request.init, [.modifyWaitFd true true false], none,
        results.tail⟩) :
      p.Lingers (k.after (Handler.call (.recv results u) k.request k.response)) := by
    refine lingers_of_call ?_ ?_ h
    · change received (HandleRecv.process results k.request).acts = []
      rw [hprocess, Received.finish, h.finish]
      rfl
    · change (HandleRecv.process results k.request).request.getD _ = _
      rw [hprocess, Received.finish, h.finish]
      rfl
  cases results with
  | nil => exact hsilent rfl
  | cons x rest =>
    cases hs x List.mem_cons_self with
    | again => exact hsilent rfl
    | data buf ofs hbuf =>
      cases h with
      | nothing hreceived request =>
        -- the chunk is the whole `PUT`
        have hbytes : buf = p.bytes := by
          rcases hwhole hreceived with hnone | hfirst
          · exact absurd (List.append_eq_nil_iff.mp hnone).1 hbuf
          · simpa [RecvResult.bytes] using hfirst
        subst hbytes
        obtain ⟨lines, r, hlines, hasked, hprocess⟩ := p.process_whole ofs rest request
        refine .behind [] ?_ ?_
        · change received (k.log ++ (HandleRecv.process _ k.request).acts) = _
          rw [hprocess, received_append, hreceived, received_append, hlines.received]
          simp [Action.received]
        · change p.Asked _ ((HandleRecv.process _ k.request).request.getD _)
          rw [hprocess, List.append_nil]
          exact hasked
      | behind more hreceived asked =>
        -- the `PUT` is behind: the chunk goes to what is kept of it
        have hprocess := asked.process buf ofs rest
        change HandleRecv.process (.data buf ofs :: rest) k.request = _ at hprocess
        refine .behind (more ++ buf) ?_ ?_
        · change received (k.log ++ (HandleRecv.process _ k.request).acts) = _
          rw [hprocess, received_append, hreceived, List.append_assoc]
          simp [Action.received]
        · change p.Asked _ ((HandleRecv.process _ k.request).request.getD _)
          rw [hprocess, ← List.append_assoc]
          exact asked.push buf

/-- **The `Request` of a `PUT` that arrived whole stays**, in every run of both handlers behind
it. -/
theorem reachable_lingers {p : Put} {left : Option Response} (hleft : Idle left) {k : Conn}
    (h : (connection left).Reachable p.Whole k) : p.Lingers k := by
  refine h.invariant (.nothing rfl rfl) ?_
  intro k x k' hreach hlingers hwhole hstep
  obtain ⟨hopen, rfl⟩ := step_eq_some.mp hstep
  have hk := reachable_sound hleft hreach hopen
  cases x with
  | recv results u => exact hlingers.receives hwhole.1 hwhole.2 u
  | send w results =>
    exact lingers_of_call (received_serving (send_serving w results k.request hk.response))
      (process_request w hwhole k.request k.response) hlingers

/-- Entering the response writes what stands behind the head. -/
theorem writes_of_asked {p : Put} (hlen : p.bytes.length ≤ maxSize) {m : Bytes}
    {request : Option Request} (hasked : p.Asked m (request.getD Request.init)) {r : Response}
    (hinit : r.status = .handleInit) (hnamed : r.bodyFileName = p.resource) {w : World}
    (hw : w.openTrunc p.path = true) (results : List SendResult) :
    .write p.path m ∈ (HandleSend.process w results request (some r)).acts := by
  obtain ⟨built, hstage, hstatus, -⟩ := operaStage_put hlen hw request hnamed
  rw [hasked.recvMsg] at hstage
  have hflow := (sendLoop_sends results (some (request.getD Request.init)) (r := built)
    (.inl hstatus)).flow
  rw [process_proceed (s := ⟨some (request.getD Request.init), built,
    [.dispatch r.bodyFileName, .openTrunc p.path true, .write p.path m, .built built], .proceed⟩)
    (by rw [initStage_of_init hinit, hstage]; rfl) rfl hflow]
  simp [HandleSend.Call.prepend]

/-- **A `PUT` swallows what comes behind it.** On a connection on which a `PUT` arrived whole and
everything that is owed has been sent, no chunk is received as on a new connection, and every chunk
goes to the file of the `PUT`. -/
theorem lingers {p : Put} (hlen : p.bytes.length ≤ maxSize) {left : Option Response}
    (hleft : Idle left) {k : Conn} (h : (connection left).Reachable p.Whole k)
    (harrived : received k.log ≠ []) (hopen : k.ended = false)
    (howed : (ledger k.log).owed = false) (buf : Bytes) (ofs : Bool) (rest : List RecvResult)
    (u : Uninit) (w : World) (hw : w.openTrunc p.path = true) :
    ¬ ReceivedFresh k buf ofs rest ∧ ¬ p.Spared k buf ofs rest u w := by
  cases reachable_lingers hleft h with
  | nothing received => exact absurd received harrived
  | behind more _ asked =>
    have hprocess := asked.process buf ofs rest
    change HandleRecv.process (.data buf ofs :: rest) k.request = _ at hprocess
    constructor
    -- a call on a new `Request` would log a request line
    · intro hfresh
      unfold ReceivedFresh at hfresh
      rw [hprocess] at hfresh
      exact process_fresh buf ofs rest _ _ hfresh.symm
    · intro hspared
      have hcall : Handler.call (.recv (.data buf ofs :: rest) u) k.request k.response =
          ⟨some ((k.request.getD Request.init).push buf),
            some (Response.setBodyFileName u k.response p.resource),
            [.recvd buf, .setBodyFileName p.resource, .modifyWaitFd true true true], none⟩ := by
        unfold Handler.call
        simp only
        rw [hprocess]
        rfl
      -- the answer before has been sent, so the new one begins at its start
      have hidle := (reachable_sound hleft h hopen).idle howed
      have hinit : (Response.setBodyFileName u k.response p.resource).status = .handleInit := by
        cases hr : k.response with
        | none => rfl
        | some r => exact (hidle r hr).1
      refine hspared [] (p.body ++ more ++ buf) ?_ (List.suffix_append _ _)
      rw [hcall]
      have hasked : p.Asked (p.body ++ more ++ buf)
          ((some ((k.request.getD Request.init).push buf)).getD Request.init) := asked.push buf
      exact writes_of_asked hlen hasked hinit rfl hw []

/-- The request in one part, and its response. -/
def stored : List Handler := [receive hello.bytes, sendAll]

/-- `GET /` -/
def getRoot : Bytes := lit "GET / HTTP/1.1\r\n\r\n"

theorem lingers_sample :
    ∃ k, (connection none).run (connection none).start stored = some k ∧
      onWire k.log = putHead ∧ ¬ ReceivedFresh k getRoot true [] ∧
      ¬ hello.Spared k getRoot true [] sampleWorld.fresh sampleWorld := by
  obtain ⟨k, hk⟩ := Option.isSome_iff_exists.mp
    (show ((connection none).run (connection none).start stored).isSome by decide +kernel)
  have hstate : ((connection none).run (connection none).start stored).map
      (fun k => (received k.log, k.ended, (ledger k.log).owed, onWire k.log)) =
        some (hello.bytes, false, false, putHead) := by
    decide +kernel
  rw [hk] at hstate
  simp only [Option.map_some, Option.some.injEq, Prod.mk.injEq] at hstate
  obtain ⟨hreceived, hopen, howed, hwire⟩ := hstate
  refine ⟨k, hk, hwire, lingers (p := hello) (by decide) idle_none
    (Machine.reachable_of_run .start hk (by decide +kernel)) ?_ hopen howed getRoot true []
    sampleWorld.fresh sampleWorld rfl⟩
  rw [hreceived]
  decide +kernel

/-- A `GET` behind the response to a `PUT` is not parsed. -/
theorem swallowed_get :
    ¬ ∀ (p : Put) (left : Option Response) (k : Conn) (buf : Bytes) (ofs : Bool)
      (rest : List RecvResult) (u : Uninit) (w : World), p.bytes.length ≤ maxSize → Idle left →
      (connection left).Reachable p.Whole k → received k.log ≠ [] → k.ended = false →
      (ledger k.log).owed = false → buf ≠ [] → ReceivedFresh k buf ofs rest ∧
        p.Spared k buf ofs rest u w := by
  intro h
  obtain ⟨k, hk⟩ := Option.isSome_iff_exists.mp
    (show ((connection none).run (connection none).start stored).isSome by decide +kernel)
  have hstate : ((connection none).run (connection none).start stored).map
      (fun k => (received k.log, k.ended, (ledger k.log).owed,
        (HandleRecv.process [.data getRoot true] k.request).acts)) =
        some (hello.bytes, false, false, [.recvd getRoot, .setBodyFileName (lit "/put/a.txt"),
          .modifyWaitFd true true true]) := by
    decide +kernel
  rw [hk] at hstate
  simp only [Option.map_some, Option.some.injEq, Prod.mk.injEq] at hstate
  obtain ⟨hreceived, hopen, howed, hacts⟩ := hstate
  obtain ⟨hfresh, -⟩ := h hello none k getRoot true [] sampleWorld.fresh sampleWorld (by decide)
    idle_none (Machine.reachable_of_run .start hk (by decide +kernel))
    (by rw [hreceived]; decide +kernel) hopen howed (by decide)
  unfold ReceivedFresh at hfresh
  rw [hacts] at hfresh
  exact absurd hfresh (by decide +kernel)

end Put

end Cherokee
