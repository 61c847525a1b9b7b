import Cherokee.Calls
import Cherokee.Lib.Transition

/-!
# One connection

`connection` is the system of the calls of the two handlers for one connection, in any order. What
the handlers have done is the connection's log; its `Ledger` is the account of the resources handed
over and of the responses to them.

* `Conn.Sound`: what holds of the entries of a connection between two calls, and
  `Conn.Sound.call`: every call keeps it.
* `Conn.reachable_sound`: it holds in every run.
-/

namespace Cherokee

/-- A call of one of the two handlers, with what the environment decides in it. -/
inductive Handler where
  /-- `HandleRecv::process`; an entry of `responseStatus` made in the call holds `fresh`. -/
  | recv (results : List HandleRecv.RecvResult) (fresh : Uninit)
  /-- `HandleSend::process` -/
  | send (w : HandleSend.World) (results : List HandleSend.SendResult)

/-- The response entry behind the hand-overs of a call of `HandleRecv::process`. -/
def handOver (fresh : Uninit) (entry : Option Response) (acts : List Action) : Option Response :=
  (handedOver acts).foldl (fun entry name => some (Response.setBodyFileName fresh entry name)) entry

/-- The call, on the entries of its descriptor. A `HandleRecv` touches the response entry only where
it hands a resource over. -/
def Handler.call : Handler → Option Request → Option Response → HandleSend.Call
  | .recv results fresh, request, response =>
    let c := HandleRecv.process results request
    ⟨c.request, handOver fresh response c.acts, c.acts, c.crash⟩
  | .send w results, request, response => HandleSend.process w results request response

/-! ### The account -/

/-- The account of a connection, in the resources that its requests are for. -/
structure Ledger where
  /-- The resources handed over, in order. -/
  asked : List Bytes
  /-- The resource the response in the making is for. -/
  current : Option Bytes
  /-- The resources of the responses that have been constructed. -/
  built : List Bytes
  /-- The resources of the responses that have been sent completely. -/
  sent : List Bytes
  /-- A resource has been handed over for which no response has been sent completely yet. -/
  owed : Bool
deriving DecidableEq

namespace Ledger

/-- The account of a new connection, on which nothing has been asked for. -/
def empty : Ledger := ⟨[], none, [], [], false⟩

/-- One action. A response that is entered again is still for the resource it was entered for
first. -/
def enter (l : Ledger) : Action → Ledger
  | .setBodyFileName name => { l with asked := l.asked ++ [name], owed := true }
  | .dispatch name => { l with current := l.current.or (some name) }
  | .built _ => { l with built := l.built ++ [l.current.getD []] }
  | .finished => { l with sent := l.sent ++ l.current.toList, current := none, owed := false }
  | _ => l

end Ledger

/-- The account behind a list of actions, which are entered in order. -/
def ledger (acts : List Action) : Ledger := acts.foldl Ledger.enter .empty

/-- The action is not entered into the account: it neither hands over, constructs nor finishes a
response. -/
def Action.Quiet : Action → Prop
  | .setBodyFileName _ => False
  | .dispatch _ => False
  | .built _ => False
  | .finished => False
  | _ => True

theorem Action.Receiving.quiet {a : Action} (h : a.Receiving) : a.Quiet := by
  cases a <;> trivial

theorem Action.Receiving.silent {a : Action} (h : a.Receiving) : a.Silent := by
  cases a <;> trivial

theorem Action.Preparing.quiet {a : Action} (h : a.Preparing) : a.Quiet := by
  cases a <;> trivial

theorem Action.Writing.quiet {a : Action} (h : a.Writing) : a.Quiet := by
  cases a <;> trivial

/-- The action is one of `HandleSend`; together they receive nothing and complete no request. -/
def Action.Serving : Action → Prop
  | .modifyWaitFd _ _ _ => True
  | .dispatch _ => True
  | .openRead _ _ => True
  | .remove _ _ => True
  | .openTrunc _ _ => True
  | .write _ _ => True
  | .built _ => True
  | .sent _ => True
  | .sentFile _ => True
  | .finished => True
  | .closeFile _ => True
  | _ => False

theorem Action.Preparing.serving {a : Action} (h : a.Preparing) : a.Serving := by
  cases a <;> trivial

theorem Action.Writing.serving {a : Action} (h : a.Writing) : a.Serving := by
  cases a <;> trivial

namespace Ledger

theorem enter_quiet {a : Action} (h : a.Quiet) (l : Ledger) : l.enter a = l := by
  cases a <;> first | rfl | cases h

/-- Actions that are not entered leave the account as it is, one after the other. -/
theorem enters_quiet {acts : List Action} (h : ∀ a ∈ acts, a.Quiet) (l : Ledger) :
    acts.foldl enter l = l := by
  induction acts with
  | nil => rfl
  | cons a acts ih =>
    rw [List.foldl_cons, enter_quiet (h a List.mem_cons_self)]
    exact ih fun x hx => h x (List.mem_cons_of_mem a hx)

end Ledger

@[simp] theorem ledger_nil : ledger [] = .empty := rfl

/-- The account of one list of actions behind another goes on where the first has stopped. -/
theorem ledger_append (xs ys : List Action) :
    ledger (xs ++ ys) = ys.foldl Ledger.enter (ledger xs) := List.foldl_append

/-- Actions that are not entered leave the account as it is. -/
theorem ledger_quiet (xs : List Action) {ys : List Action} (h : ∀ a ∈ ys, a.Quiet) :
    ledger (xs ++ ys) = ledger xs := by
  rw [ledger_append, Ledger.enters_quiet h]

namespace Ledger

variable (l : Ledger)

/-- The resource `name` has been handed over, and from now on something is owed. -/
def asks (name : Bytes) : Ledger := { l with asked := l.asked ++ [name], owed := true }

/-- The response for `name` has been entered, unless one was entered before it and has been
replaced. -/
def entered (name : Bytes) : Ledger := { l with current := l.current.or (some name) }

/-- A response for `name`, or for what was asked before its re-entry, has been constructed. -/
def opened (name : Bytes) : Ledger :=
  { l with current := l.current.or (some name), built := l.built ++ [l.current.getD name] }

/-- The response has been sent completely: it goes to what is sent, and nothing is owed until the
next hand-over. -/
def settled : Ledger :=
  { l with sent := l.sent ++ l.current.toList, current := none, owed := false }

/-- The account of a call that constructs a response and sends of it, up to what comes last. -/
theorem enters_opens (name : Bytes) {before writes : List Action} (built : Response)
    (hbefore : ∀ a ∈ before, a.Preparing) (hwrites : ∀ a ∈ writes, a.Writing)
    (last : List Action) :
    List.foldl enter l (.dispatch name :: before ++ [.built built] ++ writes ++ last) =
      last.foldl enter (l.opened name) := by
  rw [List.foldl_append, List.foldl_append, List.foldl_append,
    enters_quiet fun a ha => (hwrites a ha).quiet]
  congr 1
  change enter (List.foldl enter (l.enter (.dispatch name)) before) (.built built) = _
  rw [enters_quiet fun a ha => (hbefore a ha).quiet]
  obtain ⟨asked, current, built, sent, owed⟩ := l
  cases current <;> rfl

/-- The account of a call that enters a response and comes no further. -/
theorem enters_dispatch (name : Bytes) {acts : List Action} (h : ∀ a ∈ acts, a.Quiet) :
    List.foldl enter l (.dispatch name :: acts) = l.entered name := by
  rw [List.foldl_cons, enters_quiet h]
  rfl

theorem closeStray_quiet (w : HandleSend.World) : ∀ a ∈ HandleSend.closeStray w, a.Quiet :=
  HandleSend.forall_mem_closeStray w fun _ => trivial

/-- The account of the end of a response: it is sent, and nothing is owed. -/
theorem enters_finished (w : HandleSend.World) :
    List.foldl enter l ([.finished, .modifyWaitFd true true false] ++ HandleSend.closeStray w) =
      l.settled := by
  rw [List.foldl_append, enters_quiet (closeStray_quiet w)]
  rfl

end Ledger

/-! ### The system -/

/-- A connection between two calls: its entries of the two tables, and everything that has been done
for it. -/
structure Conn where
  /-- Its entry of `requestStatus`. -/
  request : Option Request
  /-- Its entry of `responseStatus`. -/
  response : Option Response
  /-- What the handlers have done for it. -/
  log : List Action
  /-- The connection is closed, or a handler working for it does not return. -/
  ended : Bool

/-- The handler closes the client's descriptor, so that there is no next call for this
connection. -/
def closes (acts : List Action) : Bool := acts.contains .closeClient

namespace Conn

/-- Behind a call: its entries are what the call leaves, and its actions are in the log. -/
def after (k : Conn) (c : HandleSend.Call) : Conn where
  request := c.request
  response := c.response
  log := k.log ++ c.acts
  ended := c.crash.isSome || closes c.acts

/-- One step: a call of either handler, while the connection is open. Behind its end there is
none. -/
def step (k : Conn) (h : Handler) : Option Conn :=
  if k.ended then none else some (k.after (h.call k.request k.response))

/-- The response table holds nothing that has been asked for. -/
def Idle (response : Option Response) : Prop :=
  ∀ r ∈ response, r.status = .handleInit ∧ r.bodyFileName = []

theorem idle_none : Idle none := nofun

instance (response : Option Response) : Decidable (Idle response) :=
  inferInstanceAs (Decidable (∀ r ∈ response, _))

end Conn

/-- A connection that finds the entry `left` in `responseStatus`, as an earlier client of its
descriptor may have left it. -/
def connection (left : Option Response) : Machine Conn Handler where
  start := ⟨none, left, [], false⟩
  step := Conn.step

namespace Conn

theorem step_eq_some {k k' : Conn} {h : Handler} :
    k.step h = some k' ↔ k.ended = false ∧ k.after (h.call k.request k.response) = k' := by
  unfold step
  cases k.ended <;> simp

/-! ### What a call does -/

/-- What is done before the last decision of a call hands nothing over. -/
theorem handedOver_receiving {acts : List Action} (h : ∀ a ∈ acts, a.Receiving) :
    handedOver acts = [] := by
  refine List.filterMap_eq_nil_iff.mpr fun a ha => ?_
  have hr := h a ha
  cases a <;> first | rfl | cases hr

/-- What is done before the last decision of a call completes no request. -/
theorem completed_receiving {acts : List Action} (h : ∀ a ∈ acts, a.Receiving) :
    completed acts = [] := by
  refine List.filterMap_eq_nil_iff.mpr fun a ha => ?_
  have hr := h a ha
  cases a <;> first | rfl | cases hr

/-- What is handed over in a call is handed over at its end. -/
theorem handOver_append (fresh : Uninit) (entry : Option Response) {before : List Action}
    (h : ∀ a ∈ before, a.Receiving) (last : List Action) :
    handOver fresh entry (before ++ last) = handOver fresh entry last := by
  rw [handOver, handedOver_append, handedOver_receiving h]
  rfl

/-- How a call of `HandleRecv::process` ends, as far as the two tables go. -/
inductive Receives (fresh : Uninit) (response : Option Response) (c : HandleSend.Call) :
    List Action → Prop where
  /-- There is nothing more to receive. -/
  | waits (r : Request) (crash : c.crash = none) (request : c.request = some r)
      (live : r.status ≠ .handleComplete) (kept : c.response = response) :
      Receives fresh response c [.modifyWaitFd true true false]
  /-- The connection is closed. -/
  | closes (rearmed : List Action) (crash : c.crash = none) (request : c.request = none)
      (arm : rearmed = [] ∨ rearmed = [.modifyWaitFd true true false])
      (kept : c.response = response) :
      Receives fresh response c (rearmed ++ [.deleteWaitFd, .shutdown, .closeClient])
  /-- A resource is handed over: that of a complete request, or of a `PUT`. -/
  | asks (name : Bytes) (logged : List Action) (crash : c.crash = none)
      (live : ∀ r ∈ c.request, r.status ≠ .handleComplete)
      (handed : c.response = some (Response.setBodyFileName fresh response name))
      (completes : logged = [] ∨ ∃ method resource,
        (method = lit "GET" ∨ method = lit "POST") ∧ name = askedFor method resource ∧
        logged = [.processed method resource]) :
      Receives fresh response c ([.setBodyFileName name, .modifyWaitFd true true true] ++ logged)
  /-- The upload file does not open. -/
  | openFails (path : Bytes) (r : Request) (crash : c.crash = none) (request : c.request = some r)
      (live : r.status ≠ .handleComplete) (kept : c.response = response) :
      Receives fresh response c [.openAppend path false]
  /-- The call does not return. -/
  | crashes (f : Fault) (crash : c.crash = some f) (kept : c.response = response) :
      Receives fresh response c []

/-- **Every exit of `HandleRecv::process`**, on both tables: behind actions that touch neither, what
the last ones leave in each. -/
theorem recv_receives (results : List HandleRecv.RecvResult) (fresh : Uninit)
    {request : Option Request} (response : Option Response)
    (hlive : ∀ r ∈ request, r.status ≠ .handleComplete) :
    let c := Handler.call (.recv results fresh) request response
    ∃ before last, c.acts = before ++ last ∧ (∀ a ∈ before, a.Receiving) ∧
      Receives fresh response c last := by
  obtain ⟨before, last, hacts, hbefore, hend⟩ := HandleRecv.process_ends results hlive
  refine ⟨before, last, hacts, hbefore, ?_⟩
  have hresponse : (Handler.call (.recv results fresh) request response).response =
      handOver fresh response last := by
    change handOver fresh response (HandleRecv.process results request).acts = _
    rw [hacts, handOver_append fresh response hbefore]
  -- the ends of a call, with what each leaves in the response table
  cases hend with
  | waits r crash request live => exact .waits r crash request live hresponse
  | closes rearmed crash request arm =>
    -- closing erases no entry of the response table
    refine .closes rearmed crash request arm (hresponse.trans ?_)
    rcases arm with rfl | rfl <;> rfl
  | completes method resource crash request asks =>
    refine .asks _ [.processed method resource] crash ?_ hresponse
      (.inr ⟨method, resource, asks, rfl, rfl⟩)
    change ∀ r ∈ (HandleRecv.process results _).request, _
    rw [request]
    exact nofun
  | puts r crash request live =>
    refine .asks r.requestResource [] crash ?_ hresponse (.inl rfl)
    -- the request of a `PUT` stays in the table, in its body
    change ∀ r ∈ (HandleRecv.process results _).request, _
    rw [request]
    rintro q ⟨⟩
    exact live
  | openFails path r crash request live => exact .openFails path r crash request live hresponse
  | crashes f crash => exact .crashes f crash hresponse

/-! ### What holds between two calls -/

/-- What holds of the entries of an open connection in every run, with the account of what has been
done for it. -/
structure Sound (k : Conn) : Prop where
  request : ∀ q ∈ k.request, q.status ≠ .handleComplete
  response : ∀ r ∈ k.response, r.status = .handleInit ∨ HandleSend.Sending r
  idle : (ledger k.log).owed = false → Idle k.response
  held : (ledger k.log).owed = true → k.response ≠ none

/-- What the send loop and what is behind it do to the account. -/
inductive Sends (c : HandleSend.Call) (l : Ledger) : Ledger → Prop where
  /-- The response is still being sent. -/
  | waits (r : Response) (crash : c.crash = none) (response : c.response = some r)
      (sending : HandleSend.Sending r) : Sends c l l
  /-- The response has been sent completely. -/
  | finishes (fresh : Uninit) (crash : c.crash = none)
      (response : c.response = some (Response.init fresh)) : Sends c l l.settled

/-- The send loop does not crash: all it does is send and count. -/
theorem Sends.crash {c : HandleSend.Call} {l l' : Ledger} (h : Sends c l l') : c.crash = none := by
  cases h with
  | waits _ crash => exact crash
  | finishes _ crash => exact crash

/-- What a call does to the response entry and to the account. -/
inductive Moves (k : Conn) (c : HandleSend.Call) : Ledger → Prop where
  /-- Nothing. -/
  | keeps (response : c.response = k.response) : Moves k c (ledger k.log)
  /-- A resource is handed over. -/
  | asks (name : Bytes) (fresh : Uninit) (crash : c.crash = none)
      (response : c.response = some (Response.setBodyFileName fresh k.response name)) :
      Moves k c ((ledger k.log).asks name)
  /-- The response is sent on. -/
  | resumes (r : Response) (entry : k.response = some r) (sending : HandleSend.Sending r)
      {l : Ledger} (sends : Sends c (ledger k.log) l) : Moves k c l
  /-- The response is constructed and sent. -/
  | opens (r : Response) (entry : k.response = some r) (status : r.status = .handleInit)
      (named : r.bodyFileName ≠ []) {l : Ledger}
      (sends : Sends c ((ledger k.log).opened r.bodyFileName) l) : Moves k c l
  /-- The response is replaced by another one for the same request. -/
  | reenters (r next : Response) (entry : k.response = some r) (status : r.status = .handleInit)
      (named : r.bodyFileName ≠ []) (crash : c.crash = none) (response : c.response = some next)
      (init : next.status = .handleInit) : Moves k c ((ledger k.log).entered r.bodyFileName)
  /-- The call does not return from preparing the response. -/
  | crashes (f : Fault) (r next : Response) (crash : c.crash = some f)
      (response : c.response = some next) (init : next.status = .handleInit) :
      Moves k c ((ledger k.log).entered r.bodyFileName)

/-- A call for a response that nothing has asked for does not return: `substr(1, …)` of an empty
resource is out of range. -/
theorem send_nameless (w : HandleSend.World) (results : List HandleSend.SendResult)
    (request : Option Request) {r : Response} (hi : r.status = .handleInit)
    (hn : r.bodyFileName = []) :
    (HandleSend.process w results request (some r)).crash = some .outOfRange := by
  have hsplit : HandleSend.operaStage w request r = ⟨request, r, [], .crash .outOfRange⟩ := by
    unfold HandleSend.operaStage
    rw [hn]
    rfl
  rw [HandleSend.process_crash (HandleSend.initStage_of_init hi) (f := .outOfRange)
    (by rw [hsplit]; rfl)]

/-- The two ends of a call that sends, in terms of the account. -/
theorem sends_of_sendEnd {w : HandleSend.World} {c : HandleSend.Call} {last : List Action}
    (h : HandleSend.SendEnd w c last) (l : Ledger) :
    Sends c l (last.foldl Ledger.enter l) := by
  cases h with
  | finishes crash response =>
    rw [Ledger.enters_finished]
    exact .finishes w.fresh crash response
  | waits r crash response sending => exact .waits r crash response sending

/-- What a call of `HandleRecv` does to the account: it hands a resource over, or leaves the account
as it is. -/
theorem recv_moves {k : Conn} (hk : k.Sound) (results : List HandleRecv.RecvResult)
    (fresh : Uninit) :
    let c := Handler.call (.recv results fresh) k.request k.response
    Moves k c (ledger (k.log ++ c.acts)) := by
  intro c
  obtain ⟨before, last, hacts, hbefore, hend⟩ :=
    recv_receives results fresh k.response hk.request
  have hquiet : ∀ a ∈ before, a.Quiet := fun a ha => (hbefore a ha).quiet
  rw [show c.acts = _ from hacts, ledger_append, List.foldl_append, Ledger.enters_quiet hquiet]
  -- where nothing is handed over, the response entry and its account stay
  have hkeeps (hlast : ∀ a ∈ last, a.Quiet) (hresponse : c.response = k.response) :
      Moves k c (last.foldl Ledger.enter (ledger k.log)) := by
    rw [Ledger.enters_quiet hlast]
    exact .keeps hresponse
  cases hend with
  | waits r crash request live kept => exact hkeeps (by simp [Action.Quiet]) kept
  | closes rearmed crash request arm kept =>
    refine hkeeps ?_ kept
    rcases arm with rfl | rfl <;> simp [Action.Quiet]
  | openFails path r crash request live kept => exact hkeeps (by simp [Action.Quiet]) kept
  | crashes f crash kept => exact hkeeps nofun kept
  | asks name logged crash live handed completes =>
    have hlogged : ∀ a ∈ .modifyWaitFd true true true :: logged, a.Quiet := by
      rcases completes with rfl | ⟨method, resource, -, -, rfl⟩ <;> simp [Action.Quiet]
    change Moves k c ((.modifyWaitFd true true true :: logged).foldl Ledger.enter
      ((ledger k.log).asks name))
    rw [Ledger.enters_quiet hlogged]
    exact .asks name fresh crash handed

/-- What a call of `HandleSend` does to the account, by the state its response is in. -/
theorem send_moves {k : Conn} (hk : k.Sound) (w : HandleSend.World)
    (results : List HandleSend.SendResult) :
    let c := HandleSend.process w results k.request k.response
    Moves k c (ledger (k.log ++ c.acts)) := by
  intro c
  cases hentry : k.response with
  | none =>
    have hc : c = ⟨k.request, none, [], none⟩ := by
      change HandleSend.process w results k.request k.response = _
      rw [hentry]
      rfl
    rw [hc, List.append_nil]
    exact .keeps hentry.symm
  | some r =>
    have hend := HandleSend.process_ends w results k.request (hk.response r hentry)
    rw [← hentry] at hend
    -- a call that returns has found a resource to dispatch
    have hnamed (hi : r.status = .handleInit) (hcrash : c.crash = none) : r.bodyFileName ≠ [] := by
      intro hn
      have hf := send_nameless w results k.request hi hn
      rw [← hentry] at hf
      cases hcrash.symm.trans hf
    rw [ledger_append]
    -- the ends of a call on a response: sent on, constructed, replaced, or not come back from
    cases hend with
    | resumes writes last sending acts writing ends =>
      rw [show c.acts = _ from acts, List.foldl_append,
        Ledger.enters_quiet fun a ha => (writing a ha).quiet]
      exact .resumes r hentry sending (sends_of_sendEnd ends _)
    | opens before writes last built status acts preparing writing ends =>
      rw [show c.acts = _ from acts, Ledger.enters_opens _ _ built preparing writing]
      have hsends := sends_of_sendEnd ends ((ledger k.log).opened r.bodyFileName)
      exact .opens r hentry status (hnamed status hsends.crash) hsends
    | reenters before next status crash response init acts preparing =>
      rw [show c.acts = _ from acts, List.cons_append, Ledger.enters_dispatch]
      · exact .reenters r next hentry status (hnamed status crash) crash response init
      · intro a ha
        rcases List.mem_append.mp ha with ha | ha
        · exact (preparing a ha).quiet
        · rw [List.mem_singleton.mp ha]
          trivial
    | crashes f before next status crash response init acts preparing =>
      rw [show c.acts = _ from acts, Ledger.enters_dispatch _ _ fun a ha => (preparing a ha).quiet]
      exact .crashes f r next crash response init

/-- **What a call does to the response entry and to the account.** -/
theorem call_moves {k : Conn} (hk : k.Sound) (h : Handler) :
    Moves k (h.call k.request k.response)
      (ledger (k.log ++ (h.call k.request k.response).acts)) := by
  cases h with
  | recv results fresh => exact recv_moves hk results fresh
  | send w results => exact send_moves hk w results

/-- No call that returns leaves a `Request` that is complete. -/
theorem call_live {k : Conn} (hk : k.Sound) (h : Handler)
    (hcrash : (h.call k.request k.response).crash = none) :
    ∀ q ∈ (h.call k.request k.response).request, q.status ≠ .handleComplete := by
  cases h with
  | send w results => exact HandleSend.process_request_live w results hk.request k.response
  | recv results fresh =>
    obtain ⟨before, last, -, -, hend⟩ := recv_receives results fresh k.response hk.request
    generalize Handler.call (.recv results fresh) k.request k.response = c at hend hcrash
    cases hend with
    | asks name logged crash live handed completes => exact live
    | crashes f crash kept => cases hcrash.symm.trans crash
    | closes rearmed crash request =>
      rw [request]
      exact nofun
    | waits r crash request live =>
      rw [request]
      rintro q ⟨⟩
      exact live
    | openFails path r crash request live =>
      rw [request]
      rintro q ⟨⟩
      exact live

/-- A response that is being sent has been asked for. -/
theorem not_idle_of_sending {r : Response} (h : HandleSend.Sending r) : ¬ Idle (some r) := by
  intro hidle
  have hi := (hidle r rfl).1
  rcases h with h | h <;> cases hi.symm.trans h

/-- A response that is named or being sent is owed. -/
theorem Sound.owed_of_entered {k : Conn} (hk : k.Sound) {r : Response} (hr : k.response = some r)
    (h : HandleSend.Sending r ∨ r.bodyFileName ≠ []) : (ledger k.log).owed = true := by
  by_contra howed
  have hidle := hk.idle (Bool.eq_false_iff.mpr howed)
  rw [hr] at hidle
  rcases h with h | h
  · exact not_idle_of_sending h hidle
  · exact h (hidle r rfl).2

/-- A resource that is handed over leaves the status of the entry as it is. -/
theorem setBodyFileName_status (fresh : Uninit) {response : Option Response} (name : Bytes)
    (h : ∀ r ∈ response, r.status = .handleInit ∨ HandleSend.Sending r) :
    (Response.setBodyFileName fresh response name).status = .handleInit ∨
      HandleSend.Sending (Response.setBodyFileName fresh response name) := by
  cases response with
  | none => exact .inl rfl
  | some r => exact h r rfl

/-- A response that is owed keeps the entries sound, whether it waits to be constructed or is on its
way. -/
theorem sound_owed {c : HandleSend.Call} {log : List Action} {r : Response} (ended : Bool)
    (hlive : ∀ q ∈ c.request, q.status ≠ .handleComplete) (hr : c.response = some r)
    (hstatus : r.status = .handleInit ∨ HandleSend.Sending r) (howed : (ledger log).owed = true) :
    Sound ⟨c.request, c.response, log, ended⟩ where
  request := hlive
  response q hq := by
    obtain rfl := Option.some.inj (hr.symm.trans hq)
    exact hstatus
  idle h := absurd howed (Bool.eq_false_iff.mp h)
  held _ := by
    change c.response ≠ none
    rw [hr]
    exact nofun

/-- A call that sends leaves the entries sound, whether the response is complete behind it or
not. -/
theorem sound_of_sends {c : HandleSend.Call} {log : List Action} {l : Ledger} (ended : Bool)
    (hlive : ∀ q ∈ c.request, q.status ≠ .handleComplete) (h : Sends c l (ledger log))
    (howed : l.owed = true) : Sound ⟨c.request, c.response, log, ended⟩ := by
  generalize hlog : ledger log = l' at h
  cases h with
  | waits r crash response sending =>
    exact sound_owed ended hlive response (.inr sending) (hlog ▸ howed)
  | finishes fresh crash response =>
    have hidle : Idle c.response := by
      rw [response]
      rintro r ⟨⟩
      exact ⟨rfl, rfl⟩
    refine ⟨hlive, fun r hr => .inl (hidle r hr).1, fun _ => hidle, fun h => ?_⟩
    rw [hlog] at h
    cases h

/-- **A call that returns keeps the entries sound**, whichever handler it is and whatever it
receives or sends. -/
theorem Sound.call {k : Conn} (hk : k.Sound) (h : Handler)
    (hcrash : (h.call k.request k.response).crash = none) :
    (k.after (h.call k.request k.response)).Sound := by
  have hlive := call_live hk h hcrash
  have hmoves := call_moves hk h
  generalize h.call k.request k.response = c at hcrash hlive hmoves
  unfold after
  generalize hlog : ledger (k.log ++ c.acts) = l at hmoves
  -- what a call does to the account, and whether anything is owed behind it
  cases hmoves with
  | keeps response =>
    refine ⟨hlive, ?_, ?_, ?_⟩ <;> simp only [hlog, response]
    · exact hk.response
    · exact hk.idle
    · exact hk.held
  -- what is asked for is owed, and has an entry
  | asks name fresh crash response =>
    refine sound_owed _ hlive response (setBodyFileName_status fresh name hk.response) ?_
    rw [hlog]
    rfl
  | resumes r entry sending sends =>
    exact sound_of_sends _ hlive (hlog ▸ sends) (hk.owed_of_entered entry (.inl sending))
  | opens r entry status named sends =>
    exact sound_of_sends (l := (ledger k.log).opened r.bodyFileName) _ hlive (hlog ▸ sends)
      (hk.owed_of_entered entry (.inr named))
  | reenters r next entry status named crash response init =>
    refine sound_owed _ hlive response (.inl init) ?_
    rw [hlog]
    exact hk.owed_of_entered entry (.inr named)
  -- the call returns
  | crashes f r next crash => cases hcrash.symm.trans crash

/-- A connection that is open behind a call is one whose handler has returned. -/
theorem crash_of_open {k : Conn} {c : HandleSend.Call} (h : (k.after c).ended = false) :
    c.crash = none :=
  Option.isNone_iff_eq_none.mp (Option.isSome_eq_false_iff.mp (Bool.or_eq_false_iff.mp h).1)

/-- A new connection is sound, if nothing that has been asked for is left under its descriptor. -/
theorem sound_start {left : Option Response} (h : Idle left) : Sound (connection left).start :=
  ⟨nofun, fun r hr => .inl (h r hr).1, fun _ => h, nofun⟩

/-- In every run the entries of an open connection are sound. -/
theorem reachable_sound {left : Option Response} (hleft : Idle left)
    {G : Conn → Handler → Prop} {k : Conn} (h : (connection left).Reachable G k)
    (hopen : k.ended = false) : k.Sound := by
  refine h.invariant (I := fun k => k.ended = false → k.Sound) (fun _ => sound_start hleft) ?_ hopen
  intro k h k' _ hk _ hstep hover
  obtain ⟨hopen, rfl⟩ := step_eq_some.mp hstep
  exact (hk hopen).call h (crash_of_open hover)

/-! ### Closing -/

/-- A connection is closed in a list of actions just if it is in one of its parts. -/
theorem closes_append (xs ys : List Action) : closes (xs ++ ys) = (closes xs || closes ys) := by
  simp [closes]

theorem closes_eq_false {acts : List Action} : closes acts = false ↔ .closeClient ∉ acts := by
  simp [closes]

/-- What is done before the last decision of a call closes nothing. -/
theorem closes_receiving {acts : List Action} (h : ∀ a ∈ acts, a.Receiving) :
    closes acts = false :=
  closes_eq_false.mpr fun hc => h _ hc

/-- The actions of `HandleSend::process` are its own: it receives nothing. -/
theorem send_serving (w : HandleSend.World) (results : List HandleSend.SendResult)
    (request : Option Request) {response : Option Response}
    (h : ∀ r ∈ response, r.status = .handleInit ∨ HandleSend.Sending r) :
    ∀ a ∈ (HandleSend.process w results request response).acts, a.Serving := by
  -- what stands at the end of a call, whichever way it went
  have hlast {c : HandleSend.Call} {last : List Action} (hend : HandleSend.SendEnd w c last) :
      ∀ a ∈ last, a.Serving := by
    cases hend with
    | waits => simp [Action.Serving]
    | finishes =>
      unfold HandleSend.closeStray
      split <;> simp [Action.Serving]
  cases response with
  | none => exact nofun
  | some r =>
    intro a ha
    -- on each way through a call the actions are listed, and none of them is one of `HandleRecv`
    cases HandleSend.process_ends w results request (h r rfl) with
    | resumes writes last sending acts writing ends =>
      rw [acts] at ha
      rcases List.mem_append.mp ha with ha | ha
      · exact (writing a ha).serving
      · exact hlast ends a ha
    | opens before writes last built status acts preparing writing ends =>
      rw [acts] at ha
      simp only [List.cons_append, List.mem_cons, List.mem_append, List.not_mem_nil,
        or_false] at ha
      rcases ha with rfl | ((ha | rfl) | ha) | ha
      · trivial
      · exact (preparing a ha).serving
      · trivial
      · exact (writing a ha).serving
      · exact hlast ends a ha
    | reenters before next status crash response init acts preparing =>
      rw [acts] at ha
      simp only [List.cons_append, List.mem_cons, List.mem_append, List.not_mem_nil,
        or_false] at ha
      rcases ha with rfl | ha | rfl
      · trivial
      · exact (preparing a ha).serving
      · trivial
    | crashes f before next status crash response init acts preparing =>
      rw [acts] at ha
      rcases List.mem_cons.mp ha with rfl | ha
      · trivial
      · exact (preparing a ha).serving

/-- `HandleSend` closes no connection, since no exit of it finds its response in error. -/
theorem closes_send (w : HandleSend.World) (results : List HandleSend.SendResult)
    (request : Option Request) {response : Option Response}
    (h : ∀ r ∈ response, r.status = .handleInit ∨ HandleSend.Sending r) :
    closes (HandleSend.process w results request response).acts = false :=
  closes_eq_false.mpr fun hc => send_serving w results request h _ hc

/-- A call that closes the connection is one of `HandleRecv`: it erases the `Request` and leaves the
response entry as it is. -/
theorem Sound.closing_call {k : Conn} (hk : k.Sound) {h : Handler}
    (hc : closes (h.call k.request k.response).acts = true) :
    (h.call k.request k.response).request = none ∧
      (h.call k.request k.response).response = k.response := by
  cases h with
  | send w results =>
    exact absurd hc (Bool.eq_false_iff.mp (closes_send w results k.request hk.response))
  | recv results fresh =>
    obtain ⟨before, last, hacts, hbefore, hend⟩ :=
      recv_receives results fresh k.response hk.request
    rw [hacts, closes_append, closes_receiving hbefore, Bool.false_or] at hc
    -- of the ends of a `HandleRecv` one closes the connection
    cases hend with
    | closes rearmed crash request arm kept => exact ⟨request, kept⟩
    | waits => cases hc
    | asks name logged crash live handed completes =>
      rcases completes with rfl | ⟨method, resource, -, -, rfl⟩ <;> cases hc
    | openFails => cases hc
    | crashes => cases hc

end Conn

end Cherokee
