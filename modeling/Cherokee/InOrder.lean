import Cherokee.Progress

/-!
# One response for each request, in order

A connection has one `Response`: a resource that is handed over while another one is still owed
takes its place. In a run in which that does not happen, every request that `HandleRecv` completes
gets one response, for its own resource, and the responses are sent in the order of the requests.

* `Conn.Place`: where the one `Response` of a connection stands.
* `Conn.reachable_answered`: a connection that is alone.
* `Server.answered_of_orderly`: every connection of the server.
* `Server.lost_response`: two requests completed before the first response is entered.
-/

namespace Cherokee

open HandleSend

/-- The requests that have been completed have been handed over right before, each with the resource
that its method asks for. -/
def HandsOver (acts : List Action) : Prop :=
  ∀ before method resource after, acts = before ++ .processed method resource :: after →
    ∃ earlier, before = earlier ++
      [.setBodyFileName (askedFor method resource), .modifyWaitFd true true true]

/-- One response for each request, in order. The four lists are what has been asked for,
constructed, sent, and put on the wire. -/
structure Answered (acts : List Action) : Prop where
  /-- Every completed request hands its own resource over. -/
  handsOver : HandsOver acts
  /-- Responses are constructed in the order of the requests, each once. -/
  built : (ledger acts).built <+: (ledger acts).asked
  /-- They are sent in that order. -/
  sent : (ledger acts).sent <+: (ledger acts).built
  /-- At most one of them is not sent yet. -/
  pending : (ledger acts).asked.length ≤ (ledger acts).sent.length + 1
  /-- When nothing is owed every request has its response, and all of them are on the wire. -/
  complete : (ledger acts).owed = false →
    (ledger acts).sent = (ledger acts).asked ∧ onWire acts = flatten (responses acts)

/-! ### Hand-overs -/

/-- Actions that complete no request. -/
theorem handsOver_of_not_processed {acts : List Action}
    (h : ∀ a ∈ acts, ∀ method resource, a ≠ .processed method resource) : HandsOver acts := by
  intro before method resource after hacts
  refine absurd rfl (h (.processed method resource) ?_ method resource)
  rw [hacts]
  simp

/-- Two lists of actions, one behind the other: the hand-over and the completion are in the same
one. -/
theorem HandsOver.append {xs ys : List Action} (hx : HandsOver xs) (hy : HandsOver ys) :
    HandsOver (xs ++ ys) := by
  intro before method resource after hacts
  rcases List.append_eq_append_iff.mp hacts with ⟨mid, hbefore, hys⟩ | ⟨mid, hxs, hafter⟩
  · obtain ⟨earlier, hmid⟩ := hy mid method resource after hys
    exact ⟨xs ++ earlier, by rw [hbefore, hmid, List.append_assoc]⟩
  · cases mid with
    | nil =>
      rw [List.append_nil] at hxs
      rw [List.nil_append] at hafter
      obtain ⟨earlier, hnil⟩ := hy [] method resource after hafter.symm
      simp at hnil
    | cons a mid =>
      rw [List.cons_append, List.cons.injEq] at hafter
      rw [← hafter.1] at hxs
      exact hx before method resource mid hxs

/-- The end of a call that completes its request. -/
theorem handsOver_completed (method resource : Bytes) :
    HandsOver ([.setBodyFileName (askedFor method resource), .modifyWaitFd true true true] ++
      [.processed method resource]) := by
  intro before method' resource' after hacts
  match before, hacts with
  | [], hacts => simp at hacts
  | [_], hacts => simp at hacts
  | [_, _], hacts =>
    simp only [List.cons_append, List.nil_append, List.cons.injEq, Action.processed.injEq] at hacts
    obtain ⟨rfl, rfl, ⟨rfl, rfl⟩, -⟩ := hacts
    exact ⟨[], rfl⟩
  | _ :: _ :: _ :: _, hacts =>
    have hlength := congrArg List.length hacts
    simp only [List.length_append, List.length_cons, List.length_nil] at hlength
    omega

/-- The account has the resources handed over, in order, whatever else has been done. -/
theorem ledger_asked (acts : List Action) : (ledger acts).asked = handedOver acts := by
  have hstep (l : Ledger) (a : Action) :
      (l.enter a).asked = l.asked ++ a.handedOver.toList := by
    cases a <;> first | rfl | exact (List.append_nil _).symm
  suffices hall : ∀ l : Ledger, (acts.foldl Ledger.enter l).asked = l.asked ++ handedOver acts from
    hall .empty
  induction acts with
  | nil => exact fun l => (List.append_nil _).symm
  | cons a acts ih =>
    intro l
    rw [List.foldl_cons, ih, hstep, handedOver_cons, List.append_assoc]

namespace Conn

/-- The requests that a call completes have been handed over right before, in the same call. -/
theorem call_handsOver {k : Conn} (hk : k.Sound) (h : Handler) :
    HandsOver (h.call k.request k.response).acts := by
  cases h with
  | send w results =>
    refine handsOver_of_not_processed fun a ha method resource h => ?_
    have hserving := send_serving w results k.request hk.response a ha
    rw [h] at hserving
    exact hserving
  | recv results fresh =>
    obtain ⟨before, last, hacts, hbefore, hend⟩ :=
      recv_receives results fresh k.response hk.request
    rw [hacts]
    refine HandsOver.append ?_ ?_
    · refine handsOver_of_not_processed fun a ha method resource h => ?_
      have hreceiving := hbefore a ha
      rw [h] at hreceiving
      exact hreceiving
    · cases hend with
      | asks name logged crash live handed completes =>
        rcases completes with rfl | ⟨method, resource, -, rfl, rfl⟩
        · exact handsOver_of_not_processed (by simp)
        · exact handsOver_completed method resource
      | waits => exact handsOver_of_not_processed (by simp)
      | openFails => exact handsOver_of_not_processed (by simp)
      | crashes => exact handsOver_of_not_processed nofun
      | closes rearmed crash request arm =>
        rcases arm with rfl | rfl <;> exact handsOver_of_not_processed (by simp)

/-- A resource is handed over only when nothing is owed: the client waits for a response before the
request behind it is completed. -/
def Turns (k : Conn) (h : Handler) : Prop :=
  handedOver (h.call k.request k.response).acts ≠ [] → (ledger k.log).owed = false

/-- Where the one `Response` of a connection stands: there is nothing to be sent, a resource waits
to be answered, or its response is on its way. -/
inductive Place (l : Ledger) (response : Option Response) : Prop where
  /-- Nothing is owed. -/
  | settled (owed : l.owed = false) (current : l.current = none) (built : l.built = l.sent)
      (asked : l.asked = l.sent)
  /-- A response is to be constructed. -/
  | asked (name : Bytes) (r : Response) (entry : response = some r)
      (status : r.status = .handleInit)
      (owed : l.owed = true) (current : l.current.getD r.bodyFileName = name)
      (built : l.built = l.sent) (asked : l.asked = l.sent ++ [name])
  /-- A response is being sent. -/
  | sending (name : Bytes) (r : Response) (entry : response = some r) (sending : Sending r)
      (owed : l.owed = true) (current : l.current = some name) (built : l.built = l.sent ++ [name])
      (asked : l.asked = l.sent ++ [name])

/-- A call that sends for the response under way leaves it on its way or settles it. -/
theorem place_of_sends {c : Call} {l l' : Ledger} (h : Sends c l l') {name : Bytes}
    (owed : l.owed = true) (current : l.current = some name) (built : l.built = l.sent ++ [name])
    (asked : l.asked = l.sent ++ [name]) : Place l' c.response := by
  cases h with
  | waits r crash response sending =>
    exact .sending name r response sending owed current built asked
  | finishes fresh crash response =>
    refine .settled rfl rfl ?_ ?_
    · rw [Ledger.settled, current]
      exact built
    · rw [Ledger.settled, current]
      exact asked

/-- **A call that takes its turn keeps the place**: handing over begins from nothing owed,
construction from a resource, and the end of a response leads back. -/
theorem Place.moves {k : Conn} (hk : k.Sound) {c : Call} {l : Ledger} (h : Moves k c l)
    (hcrash : c.crash = none) (hturn : l.asked ≠ (ledger k.log).asked → (ledger k.log).owed = false)
    (hp : Place (ledger k.log) k.response) : Place l c.response := by
  -- what a call does to the account, by where the resource handed over last stands
  cases h with
  | keeps response => rwa [response]
  -- handing over is allowed when nothing is owed, so the account is settled
  | asks name fresh crash response =>
    have howed := hturn (by simp [Ledger.asks])
    have hidle := hk.idle howed
    cases hp with
    | asked _ _ _ _ owed => cases howed.symm.trans owed
    | sending _ _ _ _ owed => cases howed.symm.trans owed
    | settled owed current built asked =>
      refine .asked name _ response ?_ rfl ?_ built ?_
      · cases hr : k.response with
        | none => rfl
        | some r =>
          rw [hr] at hidle
          exact (hidle r rfl).1
      · change (ledger k.log).current.getD _ = name
        rw [current]
        rfl
      · change (ledger k.log).asked ++ [name] = _
        rw [asked]
        rfl
  -- the response is being sent, and sends on
  | resumes r entry sending sends =>
    have howed := hk.owed_of_entered entry (.inl sending)
    cases hp with
    | settled owed => cases howed.symm.trans owed
    | asked name q hq status =>
      obtain rfl := Option.some.inj (entry.symm.trans hq)
      rcases sending with h | h <;> cases status.symm.trans h
    | sending name q hq _ owed current built asked =>
      exact place_of_sends sends owed current built asked
  -- the resource waited, and its response is constructed and sent
  | opens r entry status named sends =>
    have howed := hk.owed_of_entered entry (.inr named)
    cases hp with
    | settled owed => cases howed.symm.trans owed
    | sending name q hq sending =>
      obtain rfl := Option.some.inj (entry.symm.trans hq)
      rcases sending with h | h <;> cases status.symm.trans h
    | asked name q hq _ owed current built asked =>
      obtain rfl := Option.some.inj (entry.symm.trans hq)
      have hcurrent : ((ledger k.log).opened r.bodyFileName).current = some name := by
        rw [Ledger.opened, Option.or_some, current]
      refine place_of_sends sends owed hcurrent ?_ asked
      rw [Ledger.opened, current, built]
  -- the resource waited, and another response waits in its place
  | reenters r next entry status named crash response init =>
    have howed := hk.owed_of_entered entry (.inr named)
    cases hp with
    | settled owed => cases howed.symm.trans owed
    | sending name q hq sending =>
      obtain rfl := Option.some.inj (entry.symm.trans hq)
      rcases sending with h | h <;> cases status.symm.trans h
    | asked name q hq _ owed current built asked =>
      obtain rfl := Option.some.inj (entry.symm.trans hq)
      refine .asked name next response init owed ?_ built asked
      rw [Ledger.entered, Option.or_some, current]
      rfl
  | crashes f r next crash => cases hcrash.symm.trans crash

/-- What holds of a connection that is alone, and on which resources take their turns, behind every
call of its run. -/
structure Served (k : Conn) : Prop where
  answered : Answered k.log
  place : k.ended = false → Place (ledger k.log) k.response

/-- The account of a connection in its place is in order. -/
theorem answered_of_place {acts : List Action} {response : Option Response}
    (hands : HandsOver acts)
    (delivered : (ledger acts).owed = false → onWire acts = flatten (responses acts))
    (h : Place (ledger acts) response) : Answered acts := by
  cases h with
  | settled owed current built asked =>
    refine ⟨hands, ?_, ?_, ?_, fun h => ⟨asked.symm, delivered h⟩⟩
    · rw [built, asked]
    · rw [built]
    · rw [asked]
      exact Nat.le_succ _
  | asked name r entry status owed current built asked =>
    refine ⟨hands, ?_, ?_, ?_, fun h => absurd owed (Bool.eq_false_iff.mp h)⟩
    · rw [built, asked]
      exact List.prefix_append _ _
    · rw [built]
    · rw [asked, List.length_append]
      rfl
  | sending name r entry sending owed current built asked =>
    refine ⟨hands, ?_, ?_, ?_, fun h => absurd owed (Bool.eq_false_iff.mp h)⟩
    · rw [built, asked]
    · rw [built]
      exact List.prefix_append _ _
    · rw [asked, List.length_append]
      rfl

/-- A call that does not return leaves the account: it has asked for nothing, constructed nothing,
and sent nothing. -/
theorem Moves.of_crash {k : Conn} {c : Call} {l : Ledger} (h : Moves k c l) {f : Fault}
    (hf : c.crash = some f) :
    (l.asked = (ledger k.log).asked ∧ l.built = (ledger k.log).built ∧
      l.sent = (ledger k.log).sent ∧ l.owed = (ledger k.log).owed) ∧
    (c.response = k.response ∨ ∀ r ∈ c.response, r.status = .handleInit) := by
  cases h with
  | keeps response => exact ⟨⟨rfl, rfl, rfl, rfl⟩, .inl response⟩
  | asks name fresh crash => cases hf.symm.trans crash
  | resumes r entry sending sends => cases hf.symm.trans sends.crash
  | opens r entry status named sends => cases hf.symm.trans sends.crash
  | reenters r next entry status named crash => cases hf.symm.trans crash
  | crashes _ r next crash response init =>
    refine ⟨⟨rfl, rfl, rfl, rfl⟩, .inr ?_⟩
    rw [response]
    rintro q ⟨⟩
    exact init

/-- A connection begins with nothing asked for. -/
theorem served_start (left : Option Response) : Served (connection left).start where
  answered := ⟨handsOver_of_not_processed nofun, List.prefix_rfl, List.prefix_rfl, Nat.zero_le _,
    fun _ => ⟨rfl, rfl⟩⟩
  place _ := .settled rfl rfl rfl rfl

/-- **A connection that is alone**, and on which every resource takes its turn, by induction on its
calls. -/
theorem reachable_served {left : Option Response} (hleft : Idle left) {k : Conn}
    (h : (connection left).Reachable Turns k) : k.Served := by
  refine h.invariant (served_start left) ?_
  intro k h k' hreach hserved hturn hstep
  obtain ⟨hopen, rfl⟩ := step_eq_some.mp hstep
  have hk := reachable_sound hleft hreach hopen
  have hmoves := call_moves hk h
  have hhands := hserved.answered.handsOver.append (call_handsOver hk h)
  have htracks := call_tracks hk h (reachable_own hleft hreach).tracks
  -- a call that returns moves the place; one that does not is the last
  cases hcrash : (h.call k.request k.response).crash with
  | none =>
    have hsound := hk.call h hcrash
    have hplace : Place (ledger (k.log ++ (h.call k.request k.response).acts))
        (h.call k.request k.response).response := by
      refine (hserved.place hopen).moves hk hmoves hcrash fun hasked => hturn fun hnone => hasked ?_
      rw [ledger_asked, ledger_asked, handedOver_append, hnone, List.append_nil]
    refine ⟨answered_of_place hhands (fun howed => ?_) hplace, fun _ => hplace⟩
    exact delivered_of_init htracks fun r hr => (hsound.idle howed r hr).1
  | some f =>
    obtain ⟨⟨hasked, hbuilt, hsent, howed⟩, hresponse⟩ := hmoves.of_crash hcrash
    have ha := hserved.answered
    -- the account stays, and nothing more is on the wire when nothing is owed
    refine ⟨⟨hhands, ?_, ?_, ?_, fun h => ?_⟩, fun hover => ?_⟩
    · rw [after, hbuilt, hasked]
      exact ha.built
    · rw [after, hbuilt, hsent]
      exact ha.sent
    · rw [after, hasked, hsent]
      exact ha.pending
    · rw [after, howed] at h
      rw [after, hasked, hsent]
      refine ⟨(ha.complete h).1, delivered_of_init htracks ?_⟩
      rcases hresponse with hkept | hinit
      · rw [hkept]
        exact fun r hr => (hk.idle h r hr).1
      · exact hinit
    · cases (crash_of_open hover).symm.trans hcrash

end Conn

/-! ### The server -/

namespace Server

/-- A resource is handed over only when nothing is owed on the connection, and calls leave nothing
behind for the next client of their descriptor. -/
def Orderly (s : Server) (l : Label) : Prop :=
  s.Clean l ∧ match l with
    | .accept _ => True
    | .call fd h => handedOver (s.call fd h).acts ≠ [] → s.owed fd = false

instance (s : Server) : (l : Label) → Decidable (s.Orderly l)
  | .accept fd => inferInstanceAs (Decidable (s.Clean (.accept fd) ∧ True))
  | .call fd h => inferInstanceAs (Decidable
      (s.Clean (.call fd h) ∧ (handedOver (s.call fd h).acts ≠ [] → s.owed fd = false)))

/-- **One response for each request, in order.** In every run in which a resource is handed over
only when nothing is owed on its connection, every completed request gets one response, for its own
resource, and they are sent in the order of the requests. What is owed on a connection that can be
worked for is sent by two calls that find room. -/
theorem answered_of_orderly {s : Server} (h : server.Reachable Orderly s) :
    (∀ c, Answered (s.log c)) ∧
      ∀ fd c, s.ready fd = some c → s.owed fd = true → (s.view fd c).SettlesInTwo := by
  have hsplits : s.Splits Conn.Turns := by
    refine splits_of_reachable (fun _ _ h => h.1) ?_ h
    intro s fd x c hl hr hhanded
    change (ledger (s.log c)).owed = false
    rw [← owed_of_conn (ready_eq_some.mp hr).2.1]
    exact hl.2 hhanded
  constructor
  · intro c
    obtain ⟨left, hleft, k, hk, hlog, -⟩ := hsplits.alone c
    rw [← hlog]
    exact (Conn.reachable_served hleft hk).answered
  · intro fd c hr howed
    obtain ⟨hdown, hconn, hstuck⟩ := ready_eq_some.mp hr
    obtain ⟨left, hleft, k, hk, -, hview⟩ := hsplits.alone c
    have hown := Conn.reachable_own hleft hk
    rw [hview fd hconn hstuck hdown] at hown
    rw [owed_of_conn hconn] at howed
    exact Conn.settles_in_two (hsplits.sound hr) hown.tracks howed

/-- A `GET` of a file in one result of `recv`. -/
def getFile : Handler :=
  .recv [.data (lit "GET /downl/a.txt HTTP/1.1\r\n\r\n") true] sampleWorld.fresh

/-- The whole response, and a file of five bytes. -/
def sendAll : Handler :=
  .send sampleWorld [.accepted 4096 [], .accepted 4096 (lit "hello")]

/-- The page and then the file, each sent before the next request, and a request that waits. -/
def inTurn : List Label :=
  [.accept 5, .call 5 getPage, .call 5 sendAll, .call 5 getFile, .call 5 sendAll, .call 5 getPage]

theorem answered_of_orderly_sample :
    ∃ s, server.run server.start inTurn = some s ∧ Answered (s.log 0) ∧
      (ledger (s.log 0)).sent = [lit "/", lit "/downl/a.txt"] ∧ (s.view 5 0).SettlesInTwo := by
  obtain ⟨s, hs⟩ := Option.isSome_iff_exists.mp
    (show (server.run server.start inTurn).isSome by decide +kernel)
  have hstate : (server.run server.start inTurn).map
      (fun s => ((ledger (s.log 0)).sent, s.ready 5, s.owed 5)) =
        some ([lit "/", lit "/downl/a.txt"], some 0, true) := by
    decide +kernel
  rw [hs] at hstate
  simp only [Option.map_some, Option.some.injEq, Prod.mk.injEq] at hstate
  obtain ⟨hsent, hready, howed⟩ := hstate
  obtain ⟨hanswered, hsettles⟩ := answered_of_orderly
    (Machine.reachable_of_run .start hs (show server.Along Orderly server.start inTurn by
      decide +kernel))
  exact ⟨s, hs, hanswered 0, hsent, hsettles 5 0 hready howed⟩

/-- Two requests, the second before the first response is entered. -/
def overtaken : List Label := [.accept 5, .call 5 getFile, .call 5 getPage, .call 5 sendAll]

/-- The first request gets no response: its resource is overwritten in the entry before `HandleSend`
comes to it. -/
theorem lost_response : ¬ ∀ s, server.Reachable Machine.anyStep s → ∀ c, Answered (s.log c) := by
  intro h
  obtain ⟨s, hs⟩ := Option.isSome_iff_exists.mp
    (show (server.run server.start overtaken).isSome by decide +kernel)
  have hledger : (server.run server.start overtaken).map (fun s =>
      ((ledger (s.log 0)).asked, (ledger (s.log 0)).built)) =
        some ([lit "/downl/a.txt", lit "/"], [lit "/"]) := by
    decide +kernel
  rw [hs] at hledger
  obtain ⟨hasked, hbuilt⟩ := Prod.mk.inj (Option.some.inj hledger)
  have hprefix := (h s (Machine.reachable_of_run .start hs (Machine.along_anyStep _ _)) 0).built
  rw [hasked, hbuilt] at hprefix
  exact absurd hprefix (by decide)

end Server

end Cherokee
