import Cherokee.Paths
import Cherokee.Server

/-!
# How the handlers leave their descriptor

A client's descriptor is registered one-shot: epoll reports it once and then not again until
`modifyWaitFd` arms it. Every exit of the two handlers, as far as that goes.

* `HandleRecv.opens`, `HandleRecv.drains`: the exit behind an upload file that does not open, and
  the one behind `EAGAIN`, by the stages of the receive loop.
* `Handler.call_leaves`: what a call does to the registration of its descriptor.
-/

namespace Cherokee

/-- What epoll holds of a client's descriptor. `EPOLLIN` is always among what it waits for. -/
structure Interest where
  /-- It has not been reported since it was registered or modified last. -/
  armed : Bool
  /-- `EPOLLOUT` is among what it waits for. -/
  out : Bool
deriving DecidableEq, Repr

/-- The two handlers of a client's descriptor, of which one event makes one. -/
inductive Kind where
  /-- `HandleRecv` -/
  | recv
  /-- `HandleSend` -/
  | send
deriving DecidableEq, Repr

/-- The handler that a call is one of, without what it receives or is answered. -/
def Handler.kind : Handler → Kind
  | .recv _ _ => .recv
  | .send _ _ => .send

/-- What an action does to the registration of the client's own descriptor. `EPOLL_CTL_MOD` fails
for a descriptor that is not registered, and closing removes it. -/
def Action.register (o : Option Interest) : Action → Option Interest
  | .modifyWaitFd _ _ addEpollout => o.map fun _ => ⟨true, addEpollout⟩
  | .deleteWaitFd => none
  | .closeClient => none
  | _ => o

/-- The registration behind a list of actions, from the one in front of them. -/
def register (o : Option Interest) (acts : List Action) : Option Interest :=
  acts.foldl Action.register o

/-! ### The exits of `HandleRecv::process` -/

namespace HandleRecv

/-- Every upload file that the call tries to open opens, by the results of `recv` and of the
opening. -/
def opens : List RecvResult → Request → Bool
  | .data buf ofs :: rest, r =>
    let t := recvTurn buf ofs r
    ((uploadName (r.push buf)).isNone || ofs) && match t.flow with
      | .again => opens rest t.request
      | _ => true
  | _, _ => true

/-- The call receives until `EAGAIN` and keeps the connection: it has seen the end of what has
arrived. -/
def drains : List RecvResult → Request → Bool
  | .data buf ofs :: rest, r =>
    let t := recvTurn buf ofs r
    match t.flow with
      | .again => drains rest t.request
      | _ => false
  | .again :: _, r => r.status ≠ .handleError
  | [], r => r.status ≠ .handleError
  | _, _ => false

/-- An upload file has not opened among the actions, and the handler has returned with nothing
armed. -/
def GivesUp (acts : List Action) : Prop := ∃ path, .openAppend path false ∈ acts

/-- A list of actions gives up when one of its two parts does. -/
theorem givesUp_append {as bs : List Action} :
    GivesUp (as ++ bs) ↔ GivesUp as ∨ GivesUp bs := by
  unfold GivesUp
  simp only [List.mem_append]
  exact exists_or

/-- Receiving opens no file in vain: where one does not open the handler has returned. -/
theorem not_givesUp_receiving {acts : List Action} (h : ∀ a ∈ acts, a.Receiving) :
    ¬ GivesUp acts := by
  rintro ⟨path, hp⟩
  cases h _ hp

/-- Whatever a turn opens, it opens with the outcome `ofs`; and it leaves the receive loop when it
has completed the request. -/
structure Turn.Tells (ofs : Bool) (t : Turn) : Prop where
  opened : ∀ path ok, .openAppend path ok ∈ t.acts → ok = ofs
  leaves : t.request.status = .handleComplete → t.flow = .leave

/-- Completing a request opens nothing, and leaves the receive loop. -/
theorem tells_complete (ofs : Bool) (r : Request) (name : Bytes) : (complete r name).Tells ofs where
  opened path ok h := by simp [complete] at h
  leaves _ := rfl

/-- A turn that does nothing to a request under way has completed none. -/
theorem tells_again (ofs : Bool) {r : Request} (hlive : r.status ≠ .handleComplete) (flow : Flow) :
    Turn.Tells ofs ⟨r, [], flow⟩ where
  opened := nofun
  leaves h := absurd h hlive

/-- The content stage opens the file with the outcome it is given, and leaves the loop when the
upload is complete. -/
theorem contentStage_tells (ofs : Bool) {r : Request} (hlive : r.status ≠ .handleComplete) :
    (contentStage ofs r).Tells ofs := by
  unfold contentStage
  by_cases hc : r.fileMsgStatus = .fileContent
  · rw [if_pos hc]
    -- by whether the file opens, and then by how the content loop ends
    cases ofs with
    | false =>
      refine ⟨fun path ok h => ?_, fun h => absurd h hlive⟩
      exact (Action.openAppend.inj (List.mem_singleton.mp h)).2
    | true =>
      generalize contentLoop r.boundary? r.recvMsg = content
      obtain ⟨written, recvMsg, ended⟩ := content
      refine ⟨fun path ok h => ?_, fun h => ?_⟩
      · cases ended <;> simp_all [complete, Turn.prepend]
      · cases ended with
        | wait => exact absurd h hlive
        | complete => rfl
        | crash f => exact absurd h hlive
  · rw [if_neg hc]
    split
    · exact tells_complete ofs r _
    · exact tells_again ofs hlive _

/-- So do the stages of an upload, of which only the last one opens a file. -/
theorem postStage_tells (ofs : Bool) {r : Request} (hs : r.status = .handleBody)
    (hm : r.requestMethod = lit "POST") : (postStage ofs r).Tells ofs := by
  have hlive : r.status ≠ .handleComplete := by
    rw [hs]
    exact nofun
  unfold postStage
  by_cases hmul : r.isMultipart = true
  · rw [if_pos hmul]
    have hr : r.isUpload = true := isUpload_iff.mpr ⟨hs, hm, hmul⟩
    cases hbegin : beginStage r with
    | error f => exact tells_again ofs hlive _
    | ok o =>
      cases o with
      | none => exact tells_complete ofs r _
      | some r₁ =>
        simp only
        have hr₁ := beginStage_upload hr hbegin
        cases hpart : partStage r₁ with
        | error f => exact tells_again ofs (by rw [(isUpload_iff.mp hr₁).1]; exact nofun) _
        | ok r₂ =>
          have hs₂ := (isUpload_iff.mp (partStage_stays hr₁ hpart).1).1
          exact contentStage_tells ofs (by rw [hs₂]; exact nofun)
  · rw [if_neg hmul]
    exact tells_complete ofs r _

/-- So does the body stage, by the method: only the content of an upload opens a file. -/
theorem bodyStage_tells (ofs : Bool) {r : Request} (hlive : r.status ≠ .handleComplete) :
    (bodyStage ofs r).Tells ofs := by
  unfold bodyStage
  split_ifs with hs hget hpost hput
  · exact tells_complete ofs r _
  · exact postStage_tells ofs hs hpost
  · exact ⟨fun path ok h => by simp at h, fun h => absurd h hlive⟩
  · exact tells_again ofs hlive _
  · exact tells_again ofs hlive _

/-- So does a turn: in front of the body stage nothing is opened. -/
theorem recvTurn_tells (buf : Bytes) (ofs : Bool) {r : Request}
    (hlive : r.status ≠ .handleComplete) :
    (recvTurn buf ofs r).Tells ofs := by
  have hline {path : Bytes} {ok : Bool}
      (h : .openAppend path ok ∈ .recvd buf :: (requestLineStage (r.push buf)).2) : ok = ofs := by
    unfold requestLineStage at h
    split at h
    · split at h <;> simp at h
    · simp at h
  have hlive₁ := requestLineStage_live (r := r.push buf) hlive
  rw [recvTurn_eq]
  cases hhead : headStage (requestLineStage (r.push buf)).1 with
  | error f => exact ⟨fun path ok h => hline h, fun h => absurd h hlive₁⟩
  | ok r' =>
    have hlive' : r'.status ≠ .handleComplete := by
      rcases headStage_status hhead with h | h <;> rw [h]
      · exact hlive₁
      · exact nofun
    have hbody := bodyStage_tells ofs hlive'
    refine ⟨fun path ok h => ?_, hbody.leaves⟩
    rcases List.mem_append.mp h with h | h
    · exact hline h
    · exact hbody.opened path ok h

/-- A turn gives up exactly when the file it comes to does not open: it comes to one when its lines
have a name for it. -/
theorem recvTurn_givesUp (buf : Bytes) (ofs : Bool) {r : Request}
    (hlive : r.status ≠ .handleComplete) :
    GivesUp (recvTurn buf ofs r).acts ↔ uploadName (r.push buf) ≠ none ∧ ofs = false := by
  have hpaths := recvTurn_paths buf ofs r
  constructor
  · rintro ⟨path, hp⟩
    -- an opening has a path, and the turn has one only when it comes to the content
    refine ⟨fun hnone => ?_, ((recvTurn_tells buf ofs hlive).opened path false hp).symm⟩
    rw [hnone] at hpaths
    cases paths_eq_nil.mp hpaths _ hp
  · rintro ⟨hname, hofs⟩
    obtain ⟨name, hname⟩ := Option.ne_none_iff_exists'.mp hname
    rw [hname] at hpaths
    have hmem : filedir ++ name ∈ paths (recvTurn buf ofs r).acts := by
      rw [hpaths]
      exact List.mem_singleton_self _
    obtain ⟨a, ha, hpath⟩ := List.mem_filterMap.mp hmem
    -- among the actions of a turn only an opening for appending has a path
    obtain ⟨before, last, hacts, hbefore, hend⟩ := recvTurn_ends buf ofs hlive
    have hopen : ∃ ok, a = .openAppend (filedir ++ name) ok := by
      rw [hacts] at ha
      rcases List.mem_append.mp ha with ha | ha
      · have hr := hbefore a ha
        cases a <;> first | (cases hr; done) | (cases hpath; exact ⟨_, rfl⟩) | cases hpath
      · cases hend with
        | again => cases ha
        | crashes => cases ha
        | completes =>
          simp only [List.mem_cons, List.not_mem_nil, or_false] at ha
          rcases ha with rfl | rfl <;> cases hpath
        | puts =>
          simp only [List.mem_cons, List.not_mem_nil, or_false] at ha
          rcases ha with rfl | rfl <;> cases hpath
        | openFails path =>
          obtain rfl := List.mem_singleton.mp ha
          cases hpath
          exact ⟨_, rfl⟩
    obtain ⟨ok, rfl⟩ := hopen
    have hok := ((recvTurn_tells buf ofs hlive).opened _ ok ha).trans hofs
    exact ⟨_, hok ▸ ha⟩

/-- The receive loop gives up exactly when a file it comes to does not open. -/
theorem recvLoop_givesUp (results : List RecvResult) {r : Request}
    (hlive : r.status ≠ .handleComplete) :
    GivesUp (recvLoop results r).acts ↔ opens results r = false := by
  -- over the results of `recv`; the call goes on only behind a turn that opens its file
  induction results generalizing r with
  | nil => simp [recvLoop, opens, GivesUp]
  | cons x rest ih =>
    cases x with
    | again => simp [recvLoop, opens, GivesUp]
    | closed => simp [recvLoop, opens, GivesUp]
    | failed => simp [recvLoop, opens, GivesUp]
    | data buf ofs =>
      have hturn := recvTurn_givesUp buf ofs hlive
      obtain ⟨before, last, -, -, hend⟩ := recvTurn_ends buf ofs hlive
      unfold recvLoop opens
      simp only
      -- the turn receives again, leaves the loop, or does not return
      cases hflow : (recvTurn buf ofs r).flow with
      | again =>
        have hagain : (recvTurn buf ofs r).request.status ≠ .handleComplete := by
          intro h
          cases hflow.symm.trans ((recvTurn_tells buf ofs hlive).leaves h)
        change GivesUp (_ ++ _) ↔ _
        rw [givesUp_append, hturn, ih hagain]
        cases uploadName (r.push buf) <;> cases ofs <;> simp
      | leave =>
        rw [hturn]
        cases uploadName (r.push buf) <;> simp
      | crash f =>
        rw [hturn]
        cases uploadName (r.push buf) <;> simp

/-- Behind an `EAGAIN` that keeps the connection the call has drained what there was, since no other
exit arms the descriptor for input alone. -/
theorem recvLoop_drains (results : List RecvResult) {r : Request}
    (hlive : r.status ≠ .handleComplete)
    (hrearm : .modifyWaitFd true true false ∈ (recvLoop results r).acts)
    (hkeeps : (recvLoop results r).request.status ≠ .handleError) : drains results r = true := by
  -- over the results of `recv`: only the loop's own exit at `EAGAIN` re-arms for input alone
  induction results generalizing r with
  | nil => exact decide_eq_true hkeeps
  | cons x rest ih =>
    cases x with
    | again => exact decide_eq_true hkeeps
    | closed => cases hrearm
    | failed => cases hrearm
    | data buf ofs =>
      obtain ⟨before, last, hacts, hbefore, hend⟩ := recvTurn_ends buf ofs hlive
      -- a turn arms the descriptor for output with everything it arms for
      have hturn : .modifyWaitFd true true false ∉ (recvTurn buf ofs r).acts := by
        rw [hacts]
        intro h
        rcases List.mem_append.mp h with h | h
        · exact hbefore _ h
        · cases hend <;> simp at h
      unfold recvLoop at hrearm hkeeps
      unfold drains
      simp only at hrearm hkeeps ⊢
      cases hflow : (recvTurn buf ofs r).flow with
      | again =>
        rw [hflow] at hrearm hkeeps
        -- a request that is complete makes its turn leave
        have hagain : (recvTurn buf ofs r).request.status ≠ .handleComplete := by
          intro h
          cases hflow.symm.trans ((recvTurn_tells buf ofs hlive).leaves h)
        exact ih hagain ((List.mem_append.mp hrearm).resolve_left hturn) hkeeps
      | leave =>
        rw [hflow] at hrearm
        exact absurd hrearm hturn
      | crash f =>
        rw [hflow] at hrearm
        exact absurd hrearm hturn

/-- A call that does not return leaves a `Request` that is not complete. -/
theorem recvLoop_live (results : List RecvResult) {r : Request} (hlive : r.status ≠ .handleComplete)
    {f : Fault} (hcrash : (recvLoop results r).crash = some f) :
    (recvLoop results r).request.status ≠ .handleComplete := by
  induction results generalizing r with
  | nil => cases hcrash
  | cons x rest ih =>
    cases x with
    | again => cases hcrash
    | closed => cases hcrash
    | failed => cases hcrash
    | data buf ofs =>
      have hleaves := (recvTurn_tells buf ofs hlive).leaves
      unfold recvLoop at hcrash ⊢
      simp only at hcrash ⊢
      -- only a turn that receives again or crashes is followed by a crash of the call
      cases hflow : (recvTurn buf ofs r).flow with
      | again =>
        rw [hflow] at hcrash
        refine ih (fun h => ?_) hcrash
        cases hflow.symm.trans (hleaves h)
      | leave =>
        rw [hflow] at hcrash
        cases hcrash
      | crash g =>
        intro h
        cases hflow.symm.trans (hleaves h)

end HandleRecv

/-! ### What a call does to the registration -/

@[simp] theorem register_nil (o : Option Interest) : register o [] = o := rfl

/-- The registration behind two lists is that behind the second, from that behind the first. -/
theorem register_append (o : Option Interest) (as bs : List Action) :
    register o (as ++ bs) = register (register o as) bs := List.foldl_append

/-- The action leaves the registration as it is: it neither arms nor removes the descriptor. -/
def Action.Plain : Action → Prop
  | .modifyWaitFd _ _ _ => False
  | .deleteWaitFd => False
  | .closeClient => False
  | _ => True

/-- Receiving leaves the registration as it is, and the connection open. -/
theorem Action.Receiving.plain {a : Action} (h : a.Receiving) : a.Plain := by
  cases a <;> trivial

/-- So does writing to the connection. -/
theorem Action.Writing.plain {a : Action} (h : a.Writing) : a.Plain := by
  cases a <;> trivial

/-- So does preparing a response. -/
theorem Action.Preparing.plain {a : Action} (h : a.Preparing) : a.Plain := by
  cases a <;> trivial

/-- The actions that construct a response and send it leave the registration as it is. -/
theorem plain_opens (name : Bytes) (built : Response) {before writes : List Action}
    (hbefore : ∀ a ∈ before, a.Preparing) (hwrites : ∀ a ∈ writes, a.Writing) :
    ∀ a ∈ .dispatch name :: before ++ [.built built] ++ writes, a.Plain := by
  intro a ha
  simp only [List.cons_append, List.mem_cons, List.mem_append, List.not_mem_nil, or_false] at ha
  rcases ha with rfl | (ha | rfl) | ha
  · trivial
  · exact (hbefore a ha).plain
  · trivial
  · exact (hwrites a ha).plain

/-- So do the actions of a response that is left for re-entry, in front of arming its descriptor. -/
theorem plain_dispatch (name : Bytes) {before : List Action} (h : ∀ a ∈ before, a.Preparing) :
    ∀ a ∈ .dispatch name :: before, a.Plain :=
  List.forall_mem_cons.mpr ⟨trivial, fun a ha => (h a ha).plain⟩

/-- Plain actions leave the registration as it is, however many there are. -/
theorem register_plain {acts : List Action} (h : ∀ a ∈ acts, a.Plain) (o : Option Interest) :
    register o acts = o := by
  induction acts with
  | nil => rfl
  | cons a acts ih =>
    have hstep : Action.register o a = o := by
      have ha := h a List.mem_cons_self
      cases a <;> first | rfl | cases ha
    change register (Action.register o a) acts = o
    rw [hstep]
    exact ih fun b hb => h b (List.mem_cons_of_mem a hb)

/-- Plain actions do not close the connection, so it is there behind them. -/
theorem closes_plain {acts : List Action} (h : ∀ a ∈ acts, a.Plain) : closes acts = false :=
  Conn.closes_eq_false.mpr fun hc => h _ hc

/-- Plain actions in front do not count: the registration is what the last ones make of it. -/
theorem register_behind {before : List Action} (h : ∀ a ∈ before, a.Plain) (last : List Action)
    (o : Option Interest) : register o (before ++ last) = register o last := by
  rw [register_append, register_plain h]

/-- What holds of the entries of a descriptor between two calls, whatever connections have used
them: no request is complete, and a response is new or being sent. -/
structure Fit (request : Option Request) (response : Option Response) : Prop where
  request : ∀ q ∈ request, q.status ≠ .handleComplete
  response : ∀ r ∈ response, r.status = .handleInit ∨ HandleSend.Sending r

namespace Handler

/-- Every upload file that the call tries to open opens; a call of `HandleSend` opens none for an
upload. -/
def opens (request : Option Request) : Handler → Bool
  | .recv results _ => HandleRecv.opens results (request.getD Request.init)
  | .send _ _ => true

/-- The call is one of `HandleRecv` that receives until `EAGAIN` and keeps the connection. -/
def drains (request : Option Request) : Handler → Bool
  | .recv results _ => HandleRecv.drains results (request.getD Request.init)
  | .send _ _ => false

/-- **How a call leaves its descriptor.** -/
inductive Leaves (h : Handler) (request : Option Request) (response : Option Response)
    (x : HandleSend.Call) : Prop where
  /-- `HandleRecv` waits for more. -/
  | waits (crash : x.crash = none) (opened : h.opens request = true) (kept : closes x.acts = false)
      (registered : ∀ o, register o x.acts = o.map fun _ => ⟨true, false⟩)
      (account : ∀ l, x.acts.foldl Ledger.enter l = l) (drained : h.drains request = true)
  /-- A response is to be sent. -/
  | arms (crash : x.crash = none) (opened : h.opens request = true) (kept : closes x.acts = false)
      (registered : ∀ o, register o x.acts = o.map fun _ => ⟨true, true⟩)
      (held : x.response ≠ none)
  /-- `HandleSend` has sent the response. -/
  | settles (crash : x.crash = none) (opened : h.opens request = true)
      (kept : closes x.acts = false)
      (registered : ∀ o, register o x.acts = o.map fun _ => ⟨true, false⟩)
      (account : ∀ l, (x.acts.foldl Ledger.enter l).owed = false)
  /-- The connection is closed. -/
  | closes (crash : x.crash = none) (opened : h.opens request = true)
      (removed : .deleteWaitFd ∈ x.acts) (closed : .closeClient ∈ x.acts)
      (registered : ∀ o, register o x.acts = none)
  /-- The upload file does not open. -/
  | givesUp (crash : x.crash = none) (fails : h.opens request = false)
      (plain : ∀ a ∈ x.acts, a.Plain) (account : ∀ l, x.acts.foldl Ledger.enter l = l)
  /-- There is no response to send. -/
  | idles (kind : h.kind = .send) (vacant : response = none)
      (call : x = ⟨request, none, [], none⟩)
  /-- The call does not return. -/
  | crashes (f : Fault) (crash : x.crash = some f) (plain : ∀ a ∈ x.acts, a.Plain)

end Handler

/-! ### The calls of `HandleRecv` -/

section Recv

variable (results : List HandleRecv.RecvResult) (fresh : Uninit) {request : Option Request}
  (response : Option Response)

/-- Behind the receive loop nothing is opened and nothing armed for input: the request is logged, or
the connection is closed. -/
theorem finish_acts (r : Request) (a : Action) (ha : a ∈ (HandleRecv.finish r).2) :
    a.path = none ∧ a ≠ .modifyWaitFd true true false := by
  unfold HandleRecv.finish at ha
  split_ifs at ha
  · rw [List.mem_singleton.mp ha]
    exact ⟨rfl, nofun⟩
  · simp only [List.mem_cons, List.not_mem_nil, or_false] at ha
    rcases ha with rfl | rfl | rfl <;> exact ⟨rfl, nofun⟩
  · cases ha

/-- A call gives up exactly when an upload file it comes to does not open. -/
theorem process_givesUp (hlive : ∀ q ∈ request, q.status ≠ .handleComplete) :
    HandleRecv.GivesUp (HandleRecv.process results request).acts ↔
      (Handler.recv results fresh).opens request = false := by
  have hloop := HandleRecv.recvLoop_givesUp results (live_getD hlive)
  rw [show (Handler.recv results fresh).opens request =
    HandleRecv.opens results (request.getD Request.init) from rfl, ← hloop]
  unfold HandleRecv.process HandleRecv.Received.finish
  cases (HandleRecv.recvLoop results (request.getD Request.init)).crash with
  | some f => rfl
  | none =>
    simp only
    rw [HandleRecv.givesUp_append, or_iff_left]
    rintro ⟨path, hp⟩
    cases (finish_acts _ _ hp).1

/-- A call that re-arms behind `EAGAIN` and keeps its `Request` has drained what there was. -/
theorem process_drains (hlive : ∀ q ∈ request, q.status ≠ .handleComplete)
    (hcrash : (HandleRecv.process results request).crash = none)
    (hrearm : .modifyWaitFd true true false ∈ (HandleRecv.process results request).acts)
    (hkept : (HandleRecv.process results request).request ≠ none) :
    (Handler.recv results fresh).drains request = true := by
  refine HandleRecv.recvLoop_drains results (live_getD hlive) ?_ ?_
  -- both facts about the loop are read off how the call ends
  all_goals
    unfold HandleRecv.process HandleRecv.Received.finish at hcrash hrearm hkept
    cases hloop : (HandleRecv.recvLoop results (request.getD Request.init)).crash with
    | some f => simp [hloop] at hcrash
    | none =>
      simp only [hloop] at hrearm hkept
      first
      | exact (List.mem_append.mp hrearm).resolve_right fun h => (finish_acts _ _ h).2 rfl
      | intro herror
        unfold HandleRecv.finish at hkept
        simp [herror] at hkept

/-- A call that does not return leaves no complete request behind. -/
theorem process_live (hlive : ∀ q ∈ request, q.status ≠ .handleComplete) {f : Fault}
    (hcrash : (HandleRecv.process results request).crash = some f) :
    ∀ q ∈ (HandleRecv.process results request).request, q.status ≠ .handleComplete := by
  unfold HandleRecv.process HandleRecv.Received.finish at hcrash ⊢
  cases hloop : (HandleRecv.recvLoop results (request.getD Request.init)).crash with
  | none => simp [hloop] at hcrash
  | some g =>
    rintro q ⟨⟩
    exact HandleRecv.recvLoop_live results (live_getD hlive) hloop

/-- **How a call of `HandleRecv::process` leaves its descriptor**, by the exit that the receive loop
and what is behind it come to. -/
theorem recv_leaves (hlive : ∀ q ∈ request, q.status ≠ .handleComplete) :
    let h := Handler.recv results fresh
    h.Leaves request response (h.call request response) := by
  intro h
  obtain ⟨before, last, hacts, hbefore, hend⟩ := Conn.recv_receives results fresh response hlive
  have hplain : ∀ a ∈ before, a.Plain := fun a ha => (hbefore a ha).plain
  -- receiving in front of the end registers nothing and closes nothing
  have hregister (o : Option Interest) :
      register o (h.call request response).acts = register o last := by
    rw [show (h.call request response).acts = _ from hacts]
    exact register_behind hplain last o
  have hkept (hlast : closes last = false) : closes (h.call request response).acts = false := by
    rw [show (h.call request response).acts = _ from hacts, Conn.closes_append,
      Conn.closes_receiving hbefore, hlast]
    rfl
  -- an upload file that does not open shows at the end of the call only
  have hopened (hlast : ¬ HandleRecv.GivesUp last) : h.opens request = true := by
    refine Bool.of_not_eq_false fun hfails => ?_
    have hgives := (process_givesUp results fresh hlive).mpr hfails
    rw [show (HandleRecv.process results request).acts = _ from hacts,
      HandleRecv.givesUp_append] at hgives
    exact hgives.elim (HandleRecv.not_givesUp_receiving hbefore) hlast
  -- one case for each exit of `HandleRecv::process`
  cases hend with
  | waits r crash stays live kept =>
    refine .waits crash (hopened ?_) (hkept rfl) hregister (fun l => ?_) ?_
    · simp [HandleRecv.GivesUp]
    · rw [show (h.call request response).acts = _ from hacts]
      refine Ledger.enters_quiet (fun a ha => ?_) l
      rcases List.mem_append.mp ha with ha | ha
      · exact (hbefore a ha).quiet
      · rw [List.mem_singleton.mp ha]
        trivial
    · refine process_drains results fresh hlive crash ?_ ?_
      · rw [show (HandleRecv.process results request).acts = _ from hacts]
        simp
      · rw [show (HandleRecv.process results request).request = _ from stays]
        exact nofun
  -- the connection is closed, and whatever was registered before is taken out
  | closes rearmed crash erased arm kept =>
    have hmem {a : Action} (ha : a ∈ [Action.deleteWaitFd, .shutdown, .closeClient]) :
        a ∈ (h.call request response).acts := by
      rw [show (h.call request response).acts = _ from hacts]
      exact List.mem_append_right _ (List.mem_append_right _ ha)
    refine .closes crash (hopened ?_) (hmem (by simp)) (hmem (by simp)) fun o => ?_
    · rcases arm with rfl | rfl <;> simp [HandleRecv.GivesUp]
    · rw [hregister, register_append]
      rfl
  | asks name logged crash live handed completes =>
    refine .arms crash (hopened ?_) (hkept ?_) (fun o => ?_) ?_
    · rcases completes with rfl | ⟨method, resource, -, -, rfl⟩ <;> simp [HandleRecv.GivesUp]
    · rcases completes with rfl | ⟨method, resource, -, -, rfl⟩ <;> rfl
    · rw [hregister]
      rcases completes with rfl | ⟨method, resource, -, -, rfl⟩ <;> rfl
    · rw [show (h.call request response).response = _ from handed]
      exact nofun
  -- nothing has been registered and nothing handed over: the descriptor is left unarmed
  | openFails path r crash stays live kept =>
    have hlast {P : Action → Prop} (hp : ∀ a ∈ before, P a) (h' : P (.openAppend path false)) :
        ∀ a ∈ (h.call request response).acts, P a := by
      rw [show (h.call request response).acts = _ from hacts]
      exact List.forall_mem_append.mpr ⟨hp, List.forall_mem_singleton.mpr h'⟩
    refine .givesUp crash ((process_givesUp results fresh hlive).mp ⟨path, ?_⟩)
      (hlast hplain trivial)
      (Ledger.enters_quiet (hlast (fun a ha => (hbefore a ha).quiet) trivial))
    rw [show (HandleRecv.process results request).acts = _ from hacts]
    simp
  | crashes f crash kept =>
    refine .crashes f crash ?_
    rw [show (h.call request response).acts = _ from hacts, List.append_nil]
    exact hplain

end Recv

/-! ### The calls of `HandleSend` -/

section Send

variable (w : HandleSend.World) (results : List HandleSend.SendResult) (request : Option Request)
  {response : Option Response}

/-- Closing a stray descriptor leaves the registration of the client's own as it is. -/
theorem closeStray_plain : ∀ a ∈ HandleSend.closeStray w, a.Plain :=
  HandleSend.forall_mem_closeStray w fun _ => trivial

/-- Behind the send loop the descriptor is armed: for more room, or for the next request. -/
theorem leaves_of_sendEnd {x : HandleSend.Call} {before last : List Action}
    (hacts : x.acts = before ++ last) (hbefore : ∀ a ∈ before, a.Plain)
    (hclosed : closes x.acts = false) (hend : HandleSend.SendEnd w x last) :
    (Handler.send w results).Leaves request response x := by
  have hregister (o : Option Interest) : register o x.acts = register o last := by
    rw [hacts]
    exact register_behind hbefore last o
  cases hend with
  | waits r crash stays sending =>
    refine .arms crash rfl hclosed hregister ?_
    rw [stays]
    exact nofun
  | finishes crash stays =>
    refine .settles crash rfl hclosed (fun o => ?_) fun l => ?_
    · rw [hregister, register_append, register_plain (closeStray_plain w)]
      rfl
    · rw [hacts, List.foldl_append, Ledger.enters_finished]
      rfl

/-- **How a call of `HandleSend::process` leaves its descriptor**, by the four ways in which the
call ends, and by whether there is a response. -/
theorem send_leaves (hr : ∀ r ∈ response, r.status = .handleInit ∨ HandleSend.Sending r) :
    let h := Handler.send w results
    h.Leaves request response (h.call request response) := by
  intro h
  have hclosed : closes (h.call request response).acts = false :=
    Conn.closes_send w results request hr
  cases response with
  | none => exact .idles rfl rfl rfl
  | some r =>
    cases HandleSend.process_ends w results request (hr r rfl) with
    | resumes writes last sending acts writing ends =>
      exact leaves_of_sendEnd w results request acts (fun a ha => (writing a ha).plain) hclosed ends
    | opens before writes last built status acts preparing writing ends =>
      exact leaves_of_sendEnd w results request acts (plain_opens _ built preparing writing) hclosed
        ends
    | reenters before next status crash stays init acts preparing =>
      refine .arms crash rfl hclosed (fun o => ?_) ?_
      · rw [show (h.call request (some r)).acts = _ from acts]
        exact register_behind (plain_dispatch _ preparing) _ o
      · rw [show (h.call request (some r)).response = _ from stays]
        exact nofun
    | crashes f before next status crash stays init acts preparing =>
      refine .crashes f crash ?_
      rw [show (h.call request (some r)).acts = _ from acts]
      exact plain_dispatch _ preparing

end Send

/-! ### The calls of both handlers -/

/-- **How a call leaves its descriptor**, of either handler and whatever it finds that is fit. -/
theorem Handler.call_leaves {request : Option Request} {response : Option Response}
    (hfit : Fit request response) (h : Handler) :
    h.Leaves request response (h.call request response) := by
  cases h with
  | recv results fresh => exact recv_leaves results fresh response hfit.request
  | send w results => exact send_leaves w results request hfit.response

/-- No call takes the response entry away: a complete response is followed by a fresh one in its
place. -/
theorem Handler.call_held {request : Option Request} {response : Option Response}
    (hfit : Fit request response) (h : Handler) (hheld : response ≠ none) :
    (h.call request response).response ≠ none := by
  cases h with
  | recv results fresh =>
    obtain ⟨before, last, -, -, hend⟩ := Conn.recv_receives results fresh response hfit.request
    generalize Handler.call (.recv results fresh) request response = x at hend
    cases hend with
    | asks name logged crash live handed completes =>
      rw [handed]
      exact nofun
    | waits r crash stays live kept => exact kept ▸ hheld
    | closes rearmed crash erased arm kept => exact kept ▸ hheld
    | openFails path r crash stays live kept => exact kept ▸ hheld
    | crashes f crash kept => exact kept ▸ hheld
  | send w results =>
    obtain ⟨r, rfl⟩ := Option.ne_none_iff_exists'.mp hheld
    change (HandleSend.process w results request (some r)).response ≠ none
    unfold HandleSend.process HandleSend.finish
    simp only
    split
    · exact nofun
    · exact nofun
    · split
      · exact nofun
      · split_ifs <;> exact nofun

/-- A call leaves entries as the next one finds them, whether it returns or not. -/
theorem Fit.call {request : Option Request} {response : Option Response}
    (hfit : Fit request response) (h : Handler) :
    Fit (h.call request response).request (h.call request response).response := by
  -- a call of either handler, exit by exit
  cases h with
  | recv results fresh =>
    obtain ⟨before, last, -, -, hend⟩ := Conn.recv_receives results fresh response hfit.request
    generalize hx : Handler.call (.recv results fresh) request response = x at hend
    cases hend with
    | waits r crash stays live kept =>
      refine ⟨?_, kept ▸ hfit.response⟩
      rw [stays]
      rintro q ⟨⟩
      exact live
    | closes rearmed crash erased arm kept =>
      refine ⟨?_, kept ▸ hfit.response⟩
      rw [erased]
      exact nofun
    | asks name logged crash live handed completes =>
      refine ⟨live, ?_⟩
      rw [handed]
      rintro r ⟨⟩
      exact Conn.setBodyFileName_status fresh name hfit.response
    | openFails path r crash stays live kept =>
      refine ⟨?_, kept ▸ hfit.response⟩
      rw [stays]
      rintro q ⟨⟩
      exact live
    | crashes f crash kept =>
      refine ⟨?_, kept ▸ hfit.response⟩
      rw [← hx] at crash ⊢
      exact process_live results hfit.request crash
  | send w results =>
    refine ⟨HandleSend.process_request_live w results hfit.request _, ?_⟩
    cases response with
    | none => exact nofun
    | some r =>
      -- behind the send loop the response is on its way, or a new one stands there
      have hsent {x : HandleSend.Call} {last : List Action} (hend : HandleSend.SendEnd w x last) :
          ∀ r ∈ x.response, r.status = .handleInit ∨ HandleSend.Sending r := by
        cases hend with
        | waits r crash stays sending =>
          rw [stays]
          rintro r ⟨⟩
          exact .inr sending
        | finishes crash stays =>
          rw [stays]
          rintro r ⟨⟩
          exact .inl rfl
      -- a response left for re-entry has still to be constructed
      have hnext {x : HandleSend.Call} {next : Response} (stays : x.response = some next)
          (init : next.status = .handleInit) :
          ∀ r ∈ x.response, r.status = .handleInit ∨ HandleSend.Sending r := by
        rw [stays]
        rintro r ⟨⟩
        exact .inl init
      cases HandleSend.process_ends w results request (hfit.response r rfl) with
      | resumes writes last sending acts writing ends => exact hsent ends
      | opens before writes last built status acts preparing writing ends => exact hsent ends
      | reenters before next status crash stays init => exact hnext stays init
      | crashes f before next status crash stays init => exact hnext stays init

end Cherokee
