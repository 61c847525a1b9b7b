import Cherokee.Dispatch
import Cherokee.ResourceSplit

/-!
# What a `GET` does to the files

`HandleRecv` writes files for a `POST` only: while a request is received, either nothing has been
touched and handed over yet, or its method is not `GET` (`HandleRecv.Spares`). `HandleSend` is not
told the method. It takes the operation from the resource, and `put` and `del` change files for a
`GET` as they do for any other request. By then the `Request` of a `GET` is erased, so that a `put`
writes the empty message of the one that `operator[]` makes in its place.

* `HandleSend.get_leaves_files_iff`: the files are unchanged unless the resource says `put` or
  `del`.
* `HandleSend.delete_reports_iff`: the answer to a removal is the list page, with the status `200`,
  whatever `remove` has returned.
-/

namespace Cherokee

namespace HandleRecv

open Request

/-! ### Receiving a `GET` -/

/-- The calls of `HandleRecv::process` for one request: one after another, each on the entry the one
before it has left, until the entry is erased or a call does not return. -/
def receives : List (List RecvResult) → Option Request → Call
  | [], entry => ⟨entry, [], none, []⟩
  | results :: rest, entry =>
    let c := process results entry
    match c.crash, c.request with
    | none, some q => (receives rest (some q)).prepend c.acts
    | _, _ => c

/-- The action changes no file and hands nothing over, so that a request of which only such actions
are known may still be a `GET`. -/
structure Spare (a : Action) : Prop where
  alters : a.alters = none
  handedOver : a.handedOver = none

/-- The request line has been read, and its method is not `GET`. No stage behind the request line
changes the method again. -/
structure Foreign (r : Request) : Prop where
  read : r.status ≠ .handleInit
  method : r.requestMethod ≠ lit "GET"

/-- Either nothing has been touched and handed over yet, or the request is of another method, which
may do both. -/
def Spares (acts : List Action) (r : Request) : Prop := (∀ a ∈ acts, Spare a) ∨ Foreign r

/-- What has been done for a request when the loop comes to `r`. -/
inductive Reads (acts : List Action) (r : Request) : Prop where
  /-- A `GET` is complete, and its resource has been handed over. -/
  | get (before : List Action) (status : r.status = .handleComplete)
      (method : r.requestMethod = lit "GET")
      (acts : acts = before ++ [.setBodyFileName r.requestResource, .modifyWaitFd true true true])
      (spare : ∀ a ∈ before, Spare a)
  | other (spares : Spares acts r) (foreign : r.status = .handleComplete → Foreign r)

/-- What has been done before, in front of what the loop does: before a complete `GET` nothing has
been touched, and otherwise the two are of one kind. -/
theorem Reads.prepend {acts before : List Action} {r : Request} (h : Reads acts r)
    (hbefore : Spares before r) : Reads (before ++ acts) r := by
  cases h with
  | get middle status method acts spare =>
    -- what comes before a complete `GET` has touched nothing
    have hspare := hbefore.resolve_right fun hforeign => hforeign.method method
    refine .get (before ++ middle) status method (by rw [acts, List.append_assoc]) fun a ha => ?_
    exact (List.mem_append.mp ha).elim (hspare a) (spare a)
  | other spares foreign =>
    refine .other ?_ foreign
    -- what belongs to another method on either side does so for both
    rcases hbefore with hspare | hforeign
    · rcases spares with hspares | hforeign
      · exact .inl fun a ha => (List.mem_append.mp ha).elim (hspare a) (hspares a)
      · exact .inr hforeign
    · exact .inr hforeign

/-- A request of another method stays one, in whatever way the stages advance it. -/
theorem Advances.foreign {r r' : Request} (h : Advances r r') (hr : Foreign r) : Foreign r' := by
  refine ⟨?_, h.method ▸ hr.method⟩
  rcases h.status with hs | ⟨-, hs⟩
  · rw [hs]
    exact hr.read
  · rcases hs with hs | hs <;> rw [hs] <;> exact nofun

/-- The stage of the request line leaves alone a request whose line has been read. -/
theorem requestLineStage_foreign {r : Request} (hr : Foreign r) :
    Foreign (requestLineStage r).1 := by
  unfold requestLineStage
  rw [if_neg hr.read]
  exact hr

/-- The stage of the request line does nothing but arm the descriptor for more input. -/
theorem requestLineStage_spare (r : Request) : ∀ a ∈ (requestLineStage r).2, Spare a := by
  unfold requestLineStage
  split
  · split
    · exact List.forall_mem_singleton.mpr ⟨rfl, rfl⟩
    · exact nofun
  · exact nofun

/-- The body of a request: a `GET` is complete, and what another method does is its own. -/
theorem bodyStage_reads (ofs : Bool) {r : Request} (hlive : r.status ≠ .handleComplete) :
    Reads (bodyStage ofs r).acts (bodyStage ofs r).request := by
  have hbehind := (bodyStage_behind ofs r).advances
  -- in the body the method decides, and in front of it the stage does nothing
  by_cases hs : r.status = .handleBody
  · by_cases hget : r.requestMethod = lit "GET"
    · have hstage : bodyStage ofs r = complete r r.requestResource := by
        unfold bodyStage
        rw [if_pos hs, if_pos hget]
      rw [hstage]
      exact .get [] rfl hget rfl nofun
    · have hforeign := hbehind.foreign ⟨by rw [hs]; exact nofun, hget⟩
      exact .other (.inr hforeign) fun _ => hforeign
  · have hstage : bodyStage ofs r = ⟨r, [], .again⟩ := if_neg hs
    rw [hstage]
    exact .other (.inl nofun) fun hc => absurd hc hlive

/-- **A turn of the receive loop** keeps to it: behind the lines of the head, the body stage decides
by the method. -/
theorem recvTurn_reads (buf : Bytes) (ofs : Bool) {r : Request}
    (hlive : r.status ≠ .handleComplete) :
    Reads (recvTurn buf ofs r).acts (recvTurn buf ofs r).request := by
  have hspare : ∀ a ∈ .recvd buf :: (requestLineStage (r.push buf)).2, Spare a :=
    List.forall_mem_cons.mpr ⟨⟨rfl, rfl⟩, requestLineStage_spare _⟩
  have hlive₁ := requestLineStage_live (r := r.push buf) hlive
  rw [recvTurn_eq]
  generalize requestLineStage (r.push buf) = p at hspare hlive₁
  -- a header that is refused ends the turn, and nothing has been touched in it
  cases hhead : headStage p.1 with
  | error f => exact .other (.inl hspare) fun hc => absurd hc hlive₁
  | ok q =>
    have hlive₂ : q.status ≠ .handleComplete := by
      rcases headStage_status hhead with h | h <;> rw [h]
      · exact hlive₁
      · decide
    exact (bodyStage_reads ofs hlive₂).prepend (.inl hspare)

/-- A turn leaves a request of another method one of another method, also when it does not
return. -/
theorem recvTurn_foreign (buf : Bytes) (ofs : Bool) {r : Request} (hr : Foreign r) :
    Foreign (recvTurn buf ofs r).request := by
  have hline := requestLineStage_foreign (r := r.push buf) ⟨hr.read, hr.method⟩
  rw [recvTurn_eq]
  cases hhead : headStage (requestLineStage (r.push buf)).1 with
  | error f => exact hline
  | ok q =>
    exact (bodyStage_behind ofs q).advances.foreign ((headStage_advances hhead).foreign hline)

/-- So does the receive loop, whatever the results of `recv` are. -/
theorem recvLoop_foreign (results : List RecvResult) {r : Request} (hr : Foreign r) :
    Foreign (recvLoop results r).request := by
  induction results generalizing r with
  | nil => exact hr
  | cons x rest ih =>
    cases x with
    | again => exact hr
    | closed => exact ⟨nofun, hr.method⟩
    | failed => exact ⟨nofun, hr.method⟩
    | data buf ofs =>
      have hturn := recvTurn_foreign buf ofs hr
      unfold recvLoop
      simp only
      cases (recvTurn buf ofs r).flow with
      | again => exact ih hturn
      | leave => exact hturn
      | crash f => exact hturn

/-- **The receive loop** either completes a `GET` for which it has touched nothing, or has a request
of another method, or has not touched anything yet. By induction on the results of `recv`. -/
theorem recvLoop_reads (results : List RecvResult) {r : Request}
    (hlive : r.status ≠ .handleComplete) :
    Reads (recvLoop results r).acts (recvLoop results r).request := by
  have hwaits : Reads [.modifyWaitFd true true false] r :=
    .other (.inl (List.forall_mem_singleton.mpr ⟨rfl, rfl⟩)) fun hc => absurd hc hlive
  have hfails : Reads [] ({ r with status := .handleError } : Request) := .other (.inl nofun) nofun
  induction results generalizing r with
  | nil => exact hwaits
  | cons x rest ih =>
    cases x with
    | again => exact hwaits
    | closed => exact hfails
    | failed => exact hfails
    | data buf ofs =>
      have hturn := recvTurn_reads buf ofs hlive
      unfold recvLoop
      simp only
      cases hflow : (recvTurn buf ofs r).flow with
      | leave => exact hturn
      | crash f => exact hturn
      | again =>
        -- the loop goes on, so the turn has not completed the request
        have hlive' := (recvTurn_ends buf ofs hlive).live hflow
        -- what the turn has touched belongs to another method for good
        have hspares : Spares (recvTurn buf ofs r).acts
            (recvLoop rest (recvTurn buf ofs r).request).request := by
          cases hturn with
          | get _ status => exact absurd status hlive'
          | other spares => exact spares.imp_right (recvLoop_foreign rest)
        refine Reads.prepend (ih hlive' ?_ ?_) hspares
        · exact .other (.inl (List.forall_mem_singleton.mpr ⟨rfl, rfl⟩)) fun hc => absurd hc hlive'
        · exact .other (.inl nofun) nofun

/-- A call that completes a request has logged it last, behind handing its resource over and arming
its descriptor. -/
theorem completes_of_processed {results : List RecvResult} {entry : Option Request}
    (hlive : ∀ q ∈ entry, q.status ≠ .handleComplete) {method resource : Bytes}
    (h : .processed method resource ∈ (process results entry).acts) :
    (process results entry).crash = none ∧ (process results entry).request = none ∧
      ∃ before, (process results entry).acts = before ++ [.processed method resource] := by
  obtain ⟨before, last, hacts, hbefore, hend⟩ := process_ends results hlive
  rw [hacts] at h ⊢
  have hlast : .processed method resource ∈ last :=
    (List.mem_append.mp h).resolve_left fun hm => hbefore _ hm
  -- of the ways in which a call ends, one logs a request
  cases hend with
  | waits => simp at hlast
  | closes rearmed crash request arm => rcases arm with rfl | rfl <;> simp at hlast
  | puts => simp at hlast
  | openFails => simp at hlast
  | crashes => simp at hlast
  | completes m r crash request =>
    simp only [List.mem_cons, reduceCtorEq, Action.processed.injEq, List.not_mem_nil, or_false,
      false_or] at hlast
    obtain ⟨rfl, rfl⟩ := hlast
    exact ⟨crash, request,
      before ++ [.setBodyFileName (askedFor method resource),
        .modifyWaitFd true true true], by simp⟩

/-- Only behind a complete request is it logged: with its method and its resource, and as the last
action. -/
theorem complete_of_finish {x : Received} {front : List Action} {method resource : Bytes}
    (hrequest : x.finish.request = none)
    (hacts : x.finish.acts = front ++ [.processed method resource]) :
    x.request.status = .handleComplete ∧ x.request.requestMethod = method ∧
      x.request.requestResource = resource ∧ x.acts = front := by
  unfold Received.finish at hrequest hacts
  cases hcrash : x.crash with
  | some f => simp [hcrash] at hrequest
  | none =>
    simp only [hcrash] at hrequest hacts
    unfold finish at hrequest hacts
    split at hacts
    · next hs =>
      obtain ⟨rfl, hlast⟩ := List.append_inj' hacts rfl
      simp only [List.cons.injEq, Action.processed.injEq, and_true] at hlast
      exact ⟨hs, hlast.1, hlast.2, rfl⟩
    · split at hacts
      · -- a connection is closed last
        have hlast := congrArg List.getLast? hacts
        simp at hlast
      · next hc he =>
        rw [if_neg hc, if_neg he] at hrequest
        cases hrequest

/-- What a call does that completes a `GET`: it touches nothing before it hands the resource over,
erases the entry, and has not been about another method. -/
theorem process_get {results : List RecvResult} {entry : Option Request}
    (hlive : ∀ q ∈ entry, q.status ≠ .handleComplete) {resource : Bytes}
    (h : .processed (lit "GET") resource ∈ (process results entry).acts) :
    (∃ before, (process results entry).acts = before ++ [.setBodyFileName resource,
        .modifyWaitFd true true true, .processed (lit "GET") resource] ∧ ∀ a ∈ before, Spare a) ∧
      (process results entry).request = none ∧ ∀ q ∈ entry, ¬ Foreign q := by
  obtain ⟨-, hrequest, front, hfront⟩ := completes_of_processed hlive h
  have hstart := live_getD hlive
  obtain ⟨hstatus, hmethod, hresource, rfl⟩ := complete_of_finish hrequest hfront
  refine ⟨?_, hrequest, ?_⟩
  -- a complete `GET` is the first of the two cases
  · cases recvLoop_reads results hstart with
    | get before status method acts spare =>
      refine ⟨before, ?_, spare⟩
      rw [hfront, acts, hresource, List.append_assoc]
      rfl
    | other _ foreign => exact absurd hmethod (foreign hstatus).method
  · rintro q rfl hforeign
    exact (recvLoop_foreign results hforeign).method hmethod

/-- What a call does that leaves its request open: it has touched nothing, or it is about another
method and was so before. -/
theorem process_open {results : List RecvResult} {entry : Option Request} {q : Request}
    (hlive : ∀ q ∈ entry, q.status ≠ .handleComplete)
    (hcrash : (process results entry).crash = none)
    (hrequest : (process results entry).request = some q) :
    q.status ≠ .handleComplete ∧ Spares (process results entry).acts q ∧
      ∀ p ∈ entry, Foreign p → Foreign q := by
  have hstart := live_getD hlive
  -- what the loop has done, and that a request of another method stays one
  have hreads := recvLoop_reads results hstart
  have hkeeps := recvLoop_foreign results (r := entry.getD Request.init)
  have hkept : ∀ p ∈ entry, Foreign p →
    Foreign (recvLoop results (entry.getD Request.init)).request := by
    rintro p rfl
    exact hkeeps
  unfold process Received.finish at hcrash hrequest ⊢
  generalize recvLoop results (entry.getD Request.init) = x at hreads hkept hcrash hrequest ⊢
  cases hx : x.crash with
  | some f => simp [hx] at hcrash
  | none =>
    simp only [hx] at hrequest ⊢
    unfold finish at hrequest ⊢
    split at hrequest
    · cases hrequest
    · next hc =>
      split at hrequest
      · cases hrequest
      · next he =>
        -- the entry is kept, so the request is neither complete nor in error
        obtain rfl := Option.some.inj hrequest
        rw [if_neg hc, if_neg he, List.append_nil]
        refine ⟨hc, ?_, hkept⟩
        cases hreads with
        | get _ status => exact absurd status hc
        | other spares => exact spares

/-- **The calls for a `GET`** change no file, and hand its resource over at their end. By induction
on the calls: those that leave the request open have touched nothing. -/
theorem receives_get {recvs : List (List RecvResult)} {entry : Option Request}
    (hlive : ∀ q ∈ entry, q.status ≠ .handleComplete) {resource : Bytes}
    (h : .processed (lit "GET") resource ∈ (receives recvs entry).acts) :
    (∃ before, (receives recvs entry).acts = before ++ [.setBodyFileName resource,
        .modifyWaitFd true true true, .processed (lit "GET") resource] ∧ ∀ a ∈ before, Spare a) ∧
      (receives recvs entry).request = none ∧ ∀ q ∈ entry, ¬ Foreign q := by
  induction recvs generalizing entry with
  | nil => cases h
  | cons results rest ih =>
    unfold receives at h ⊢
    simp only at h ⊢
    cases hcrash : (process results entry).crash with
    | some f =>
      simp only [hcrash] at h ⊢
      exact process_get hlive h
    | none =>
      -- the request is complete in this call, or goes on
      cases hrequest : (process results entry).request with
      | none =>
        simp only [hcrash, hrequest] at h ⊢
        obtain ⟨hacts, -, hget⟩ := process_get hlive h
        exact ⟨hacts, trivial, hget⟩
      | some q =>
        -- the request stays open: a later call completes it
        simp only [hcrash, hrequest, Call.prepend_acts, Call.prepend_request] at h ⊢
        obtain ⟨hopen, hspares, hkeeps⟩ := process_open hlive hcrash hrequest
        have hlater : .processed (lit "GET") resource ∈ (receives rest (some q)).acts := by
          refine (List.mem_append.mp h).resolve_left fun hm => ?_
          obtain ⟨-, hnone, -⟩ := completes_of_processed hlive hm
          cases hrequest.symm.trans hnone
        obtain ⟨⟨before, hacts, hbefore⟩, hgone, hget⟩ :=
          ih (by rintro p ⟨⟩; exact hopen) hlater
        have hspare := hspares.resolve_right (hget q rfl)
        refine ⟨⟨(process results entry).acts ++ before, ?_, fun a ha => ?_⟩, hgone, ?_⟩
        · rw [hacts, List.append_assoc]
        · exact (List.mem_append.mp ha).elim (hspare a) (hbefore a)
        · exact fun p hp hforeign => hget q rfl (hkeeps p hp hforeign)

end HandleRecv

/-! ### The changes of a list of actions -/

/-- The actions that make or change a file, in their order. -/
def alterations (acts : List Action) : List Action := acts.filter fun a => a.alters.isSome

@[simp] theorem alterations_append (xs ys : List Action) :
    alterations (xs ++ ys) = alterations xs ++ alterations ys := List.filter_append _ _

/-- There are none exactly when no action alters a file. -/
theorem alterations_eq_nil {acts : List Action} :
    alterations acts = [] ↔ ∀ a ∈ acts, a.alters = none := by
  rw [alterations, List.filter_eq_nil_iff]
  simp

/-- Only these actions count for the files: dropping the others leaves every file with the same
content. -/
theorem fileAfter_alterations (path : Bytes) (f : File) (acts : List Action) :
    fileAfter path f (alterations acts) = fileAfter path f acts := by
  rw [← fileAfter_actsOn path f acts, ← fileAfter_actsOn path f (alterations acts)]
  congr 1
  unfold actsOn alterations
  rw [List.filter_filter]
  refine List.filter_congr fun a _ => ?_
  cases a.alters <;> simp

/-- What a call does behind preparing its response alters no file. -/
theorem Action.Later.alters {a : Action} (h : a.Later) : a.alters = none := by
  have honFiles := h.onFiles
  cases a <;> simp [Action.onFiles, Action.alters] at honFiles ⊢

namespace HandleSend

/-- What a call does to the files for a new response: the operation of its resource, on the path
that the source puts together. A `put` writes what the `Request` holds at that moment. -/
def changes (w : World) (request : Option Request) (name : Bytes) : List Action :=
  match splitResource name with
  | .error _ => []
  | .ok (opera, filename) =>
    let path := cStr (lit "filedir/" ++ filename)
    if opera = lit "del" then [.remove path (w.remove path)]
    else if opera = lit "put" then
      if w.openTrunc path then
        [.openTrunc path true, .write path (request.getD Request.init).recvMsg]
      else [.openTrunc path false]
    else []

/-- The entry has nothing in store for the files: it is empty, or being sent, or the resource it has
is one of the two that the program gives itself. -/
def Harmless (response : Option Response) : Prop :=
  Settled response ∨ ∃ r, response = some r ∧ r.status = .handleInit ∧
    (r.bodyFileName = lit "/" ∨ r.bodyFileName = lit "/redirect")

/-- What a call does for a new response: its changes are those of the resource, and the entry that
it leaves has nothing more in store. -/
structure Alters (w : World) (request : Option Request) (name : Bytes) (c : Call) : Prop where
  changes : alterations c.acts = changes w request name
  harmless : c.crash = none → Harmless c.response

section Branches

variable {w : World} {request q : Option Request} {r : Response} (results : List SendResult)
  (init : r.status = .handleInit) {files : List Action}

include init

/-- A branch that constructs a response: the files change in front of it, and nothing behind it
changes one. -/
theorem alters_of_built {r' : Response} (hstage : operaStage w request r = built q r' files)
    (hstatus : r'.status = .handleHead)
    (hfiles : alterations files = changes w request r.bodyFileName) :
    Alters w request r.bodyFileName (process w results request (some r)) := by
  obtain ⟨later, hacts, hlater, -, hsettled⟩ := process_built results init hstage hstatus
  refine ⟨?_, fun _ => .inl hsettled⟩
  have hnone : alterations later = [] := alterations_eq_nil.mpr fun a ha => (hlater a ha).alters
  rw [hacts, List.cons_append]
  change alterations (files ++ ([.built r'] ++ later)) = _
  rw [alterations_append, alterations_append, hnone, List.append_nil, hfiles]
  exact List.append_nil _

/-- A branch that leaves for re-entry: the files change in it, and the resource it has put in is one
of the program's own. -/
theorem alters_of_reenter {name : Bytes} (hstage : operaStage w request r = reenter w q name files)
    (hname : name = lit "/" ∨ name = lit "/redirect")
    (hfiles : alterations files = changes w request r.bodyFileName) :
    Alters w request r.bodyFileName (process w results request (some r)) := by
  have hinit : initStage w request r =
      (reenter w q name files).prepend [.dispatch r.bodyFileName] := by
    rw [initStage_of_init init, hstage]
  rw [process_leave hinit rfl]
  refine ⟨?_, fun _ => .inr ⟨_, rfl, rfl, hname⟩⟩
  change alterations (files ++ [.modifyWaitFd true true true]) = _
  rw [alterations_append, hfiles]
  exact List.append_nil _

/-- A branch that does not return has changed nothing. -/
theorem alters_of_crash {p : Option Request} {r' : Response} {f : Fault}
    (hstage : operaStage w request r = ⟨p, r', [], .crash f⟩)
    (hfiles : changes w request r.bodyFileName = []) :
    Alters w request r.bodyFileName (process w results request (some r)) := by
  have hinit : initStage w request r =
      (⟨p, r', [], .crash f⟩ : Stage).prepend [.dispatch r.bodyFileName] := by
    rw [initStage_of_init init, hstage]
  rw [process_crash hinit rfl]
  exact ⟨hfiles.symm, nofun⟩

/-- **The first call for a resource** does to the files what the operation says, in each of the
branches, and leaves an entry with nothing in store. -/
theorem process_alters :
    Alters w request r.bodyFileName (process w results request (some r)) := by
  -- a resource that cannot be taken apart ends the process
  cases hsplit : splitResource r.bodyFileName with
  | error f =>
    exact alters_of_crash results init (operaStage_of_error hsplit w request)
      (by unfold changes; rw [hsplit])
  | ok p =>
    obtain ⟨opera, filename⟩ := p
    have hend := operaStage_ends hsplit w request
    have hchanges : changes w request r.bodyFileName =
        let path := cStr (lit "filedir/" ++ filename)
        if opera = lit "del" then [.remove path (w.remove path)]
        else if opera = lit "put" then
          if w.openTrunc path then
            [.openTrunc path true, .write path (request.getD Request.init).recvMsg]
          else [.openTrunc path false]
        else [] := by
      unfold changes
      rw [hsplit]
    simp only at hchanges
    -- an operation that only reads
    have hreads (hdel : opera ≠ lit "del") (hput : opera ≠ lit "put") :
        changes w request r.bodyFileName = [] := by
      rw [hchanges, if_neg hdel, if_neg hput]
    generalize hstage : operaStage w request r = stage at hend
    cases hend with
    | unlisted root r' f =>
      subst root
      exact alters_of_crash results init hstage (hreads (by decide) (by decide))
    | page root page r' reply =>
      subst root
      exact alters_of_built results init hstage reply.status (hreads (by decide) (by decide)).symm
    | file downl fd size r' reply =>
      subst downl
      exact alters_of_built results init hstage reply.status (hreads (by decide) (by decide)).symm
    | missing downl =>
      subst downl
      exact alters_of_reenter results init hstage (.inr rfl) (hreads (by decide) (by decide)).symm
    -- a deletion removes its file, and answers in the next call
    | removes del =>
      rw [if_pos del] at hchanges
      exact alters_of_reenter results init hstage (.inl rfl) (by rw [hchanges]; rfl)
    -- the file is emptied, and `recvMsg` written to it
    | stores put opens r' reply =>
      subst put
      rw [if_neg (by decide), if_pos rfl, opens, if_pos rfl] at hchanges
      exact alters_of_built results init hstage reply.status (by rw [hchanges]; rfl)
    | unstored put fails =>
      subst put
      rw [if_neg (by decide), if_pos rfl, fails, if_neg Bool.false_ne_true] at hchanges
      exact alters_of_reenter results init hstage (.inr rfl) (by rw [hchanges]; rfl)
    | redirects other r' reply =>
      simp only [List.mem_cons, List.not_mem_nil, or_false, not_or] at other
      obtain ⟨-, -, hdel, hput⟩ := other
      exact alters_of_built results init hstage reply.status (hreads hdel hput).symm

end Branches

/-- The resources that the program gives itself change nothing: they only list, or redirect. -/
theorem changes_own {w : World} {request : Option Request} {name : Bytes}
    (h : name = lit "/" ∨ name = lit "/redirect") : changes w request name = [] := by
  rcases h with rfl | rfl
  · rfl
  · rfl

/-- Calls for an entry that has nothing in store change nothing. By induction on the calls, each of
which leaves such an entry again. -/
theorem sends_harmless (calls : List (World × List SendResult)) (request : Option Request)
    {response : Option Response} (h : Harmless response) :
    alterations (sends calls request response).acts = [] := by
  induction calls generalizing request response with
  | nil => rfl
  | cons x calls ih =>
    have hcall : alterations (process x.1 x.2 request response).acts = [] ∧
        ((process x.1 x.2 request response).crash = none →
          Harmless (process x.1 x.2 request response).response) := by
      -- the entry is empty or being sent, or new with a resource of the program's own
      rcases h with hsettled | ⟨r, rfl, hinit, hname⟩
      · obtain ⟨hlater, hsettled'⟩ := process_settled x.1 x.2 request hsettled
        exact ⟨alterations_eq_nil.mpr fun a ha => (hlater a ha).alters, fun _ => .inl hsettled'⟩
      · have halters : Alters x.1 request r.bodyFileName (process x.1 x.2 request (some r)) :=
          process_alters x.2 hinit
        exact ⟨halters.changes.trans (changes_own hname), halters.harmless⟩
    rw [sends_cons]
    cases hcrash : (process x.1 x.2 request response).crash with
    | some f => exact hcall.1
    | none =>
      change alterations (_ ++ _) = _
      rw [alterations_append, hcall.1, ih _ (hcall.2 hcrash)]
      rfl

/-- **What any number of calls does to the files** is what the first call does for the resource, as
the others find nothing in store. -/
theorem sends_alterations {w : World} {request : Option Request} {r : Response}
    (init : r.status = .handleInit) (results : List SendResult)
    (rest : List (World × List SendResult)) :
    alterations (sends ((w, results) :: rest) request (some r)).acts =
      changes w request r.bodyFileName := by
  have halters : Alters w request r.bodyFileName (process w results request (some r)) :=
    process_alters results init
  rw [sends_cons]
  cases hcrash : (process w results request (some r)).crash with
  | some f => exact halters.changes
  | none =>
    change alterations (_ ++ _) = _
    rw [alterations_append, sends_harmless _ _ (halters.harmless hcrash), List.append_nil,
      halters.changes]

/-! ### The files behind a `GET` -/

/-- What the operation of a resource makes of a file, when the `Request` is gone: a `del` removes
it, a `put` leaves it empty, and every other file stays. -/
theorem fileAfter_changes {w : World} {name opera filename : Bytes}
    (hsplit : splitResource name = .ok (opera, filename)) (path : Bytes) (f : File) :
    fileAfter path f (changes w none name) =
      if path = cStr (lit "filedir/" ++ filename) then
        if opera = lit "del" ∧ w.remove path then none
        else if opera = lit "put" ∧ w.openTrunc path then some []
        else f
      else f := by
  unfold changes
  rw [hsplit]
  simp only
  generalize cStr (lit "filedir/" ++ filename) = target
  by_cases hpath : path = target
  · subst hpath
    rw [if_pos rfl]
    -- the file of the resource, by its operation
    by_cases hdel : opera = lit "del"
    · have hput : opera ≠ lit "put" := by
        rw [hdel]
        decide
      rw [if_pos hdel]
      simp [Action.on, Action.alters, Action.onFile, hdel, show lit "del" ≠ lit "put" by decide]
    · rw [if_neg hdel, if_neg (c := opera = lit "del" ∧ _) fun h => hdel h.1]
      by_cases hput : opera = lit "put"
      · rw [if_pos hput]
        -- without a `Request` nothing is written behind the emptying
        cases hopen : w.openTrunc path <;>
          simp [Action.on, Action.alters, Action.onFile, hput, Request.init]
      · rw [if_neg hput, if_neg (c := opera = lit "put" ∧ _) fun h => hput h.1]
        rfl
  · -- another file
    rw [if_neg hpath]
    refine fileAfter_of_not_alters (fun a ha halters => ?_) f
    -- every action is about the file of the resource
    have hother : target ≠ path := fun h => hpath h.symm
    split at ha
    · obtain rfl := List.mem_singleton.mp ha
      exact hother (Option.some.inj halters)
    · split at ha
      · split at ha
        · simp only [List.mem_cons, List.not_mem_nil, or_false] at ha
          rcases ha with rfl | rfl
          · exact hother (Option.some.inj halters)
          · exact hother (Option.some.inj halters)
        · obtain rfl := List.mem_singleton.mp ha
          exact hother (Option.some.inj halters)
      · cases ha

/-- The operation of a resource changes a file: it is a `put` that opens one which is not empty, or
a `del` that removes one which is there. -/
def ChangesFile (w : World) (dir : Bytes → File) (name : Bytes) : Prop :=
  ∃ opera filename, splitResource name = .ok (opera, filename) ∧
    let path := cStr (lit "filedir/" ++ filename)
    (opera = lit "put" ∧ w.openTrunc path = true ∧ dir path ≠ some []) ∨
      (opera = lit "del" ∧ w.remove path = true ∧ dir path ≠ none)

/-- All files are what they were exactly when the operation of the resource changes none. -/
theorem unchanged_iff (w : World) (dir : Bytes → File) (name : Bytes) :
    (∀ path, fileAfter path (dir path) (changes w none name) = dir path) ↔
      ¬ ChangesFile w dir name := by
  cases hsplit : splitResource name with
  | error f =>
    have hnone : changes w none name = [] := by
      unfold changes
      rw [hsplit]
    refine iff_of_true (fun path => by rw [hnone]; rfl) ?_
    rintro ⟨opera, filename, h, -⟩
    cases hsplit.symm.trans h
  | ok p =>
    obtain ⟨opera, filename⟩ := p
    have hafter := fileAfter_changes (w := w) hsplit
    constructor
    · rintro hall ⟨opera', filename', h, hchange⟩
      obtain ⟨rfl, rfl⟩ := Prod.mk.inj (Except.ok.inj (hsplit.symm.trans h))
      have hsame := hall (cStr (lit "filedir/" ++ filename))
      rw [hafter, if_pos rfl] at hsame
      -- a `put` leaves the file empty, and a `del` leaves none
      rcases hchange with ⟨rfl, hopen, hdir⟩ | ⟨rfl, hremove, hdir⟩
      · rw [if_neg (fun h => absurd h.1 (by decide)), if_pos ⟨rfl, hopen⟩] at hsame
        exact hdir hsame.symm
      · rw [if_pos ⟨rfl, hremove⟩] at hsame
        exact hdir hsame.symm
    · intro hkeeps path
      rw [hafter]
      -- only the file of the resource can have changed
      by_cases hpath : path = cStr (lit "filedir/" ++ filename)
      · subst hpath
        rw [if_pos rfl]
        split
        · next hdel =>
          by_contra hdir
          exact hkeeps ⟨opera, filename, hsplit, .inr ⟨hdel.1, hdel.2, fun h => hdir h.symm⟩⟩
        · split
          · next hput =>
            by_contra hdir
            exact hkeeps ⟨opera, filename, hsplit, .inl ⟨hput.1, hput.2, fun h => hdir h.symm⟩⟩
          · rfl
      · rw [if_neg hpath]

/-- **The files behind a `GET`.** Take any calls of `HandleRecv` that receive and complete a `GET`
for `resource`, however it is cut, and any number of calls of `HandleSend` behind them. Every file
is what it was exactly when the operation of the resource changes none: no `put` opens a file that
is not empty already, and no `del` removes one. -/
theorem get_leaves_files_iff {recvs : List (List HandleRecv.RecvResult)} {resource : Bytes}
    (hget : .processed (lit "GET") resource ∈ (HandleRecv.receives recvs none).acts)
    (fresh : Uninit) {left : Option Response} (hleft : Conn.Idle left) (w : World)
    (results : List SendResult) (rest : List (World × List SendResult)) (dir : Bytes → File) :
    let c := HandleRecv.receives recvs none
    let entry := handOver fresh left c.acts
    let acts := c.acts ++ (sends ((w, results) :: rest) c.request entry).acts
    (∀ path, fileAfter path (dir path) acts = dir path) ↔ ¬ ChangesFile w dir resource := by
  intro c entry acts
  obtain ⟨⟨before, hacts, hspare⟩, hgone, -⟩ :=
    @HandleRecv.receives_get recvs none nofun resource hget
  -- receiving has changed nothing
  have hcalm : ∀ a ∈ c.acts, a.alters = none := by
    intro a ha
    rw [show c.acts = _ from hacts] at ha
    rcases List.mem_append.mp ha with ha | ha
    · exact (hspare a ha).alters
    · simp only [List.mem_cons, List.not_mem_nil, or_false] at ha
      rcases ha with rfl | rfl | rfl <;> rfl
  -- the resource is all that is handed over
  have hhanded : handedOver c.acts = [resource] := by
    rw [show c.acts = _ from hacts, handedOver_append,
      show handedOver before = [] from
        List.filterMap_eq_nil_iff.mpr fun a ha => (hspare a ha).handedOver]
    rfl
  have hentry : entry = some (Response.setBodyFileName fresh left resource) := by
    change (handedOver c.acts).foldl _ left = _
    rw [hhanded]
    rfl
  have hinit : (Response.setBodyFileName fresh left resource).status = .handleInit := by
    cases left with
    | none => rfl
    | some r => exact (hleft r rfl).1
  -- the entry is new, so that the first call does what the resource says
  have hsends := @sends_alterations w c.request _ hinit results rest
  rw [show c.request = none from hgone] at hsends
  rw [← unchanged_iff w dir resource]
  refine forall_congr' fun path => ?_
  change fileAfter path (dir path) (c.acts ++ _) = _ ↔ _
  have hkept : fileAfter path (dir path) c.acts = dir path := by
    refine fileAfter_of_not_alters (fun a ha => ?_) _
    rw [hcalm a ha]
    exact nofun
  rw [fileAfter_append, hkept, hentry, show c.request =
    none from hgone, ← fileAfter_alterations, hsends]
  rfl

/-- A `GET` that is cut behind its method. -/
def cutGet (resource : Bytes) : List (List HandleRecv.RecvResult) :=
  [[.data (lit "GET") true, .again],
    [.data (lit " " ++ resource ++ lit " HTTP/1.1\r\n\r\n") true]]

/-- A directory in which the file `a` holds one byte, and no other file exists. -/
def oneFile (path : Bytes) : File := if path = lit "filedir/a" then some (lit "x") else none

theorem get_leaves_files_download :
    let c := HandleRecv.receives (cutGet (lit "/downl/a")) none
    let entry := handOver sampleWorld.fresh none c.acts
    fileAfter (lit "filedir/a") (oneFile (lit "filedir/a")) (c.acts ++
      (sends [(sampleWorld, [.accepted 4096 []])] c.request entry).acts) =
        oneFile (lit "filedir/a") :=
  (@get_leaves_files_iff (cutGet (lit "/downl/a")) (lit "/downl/a") (by decide +kernel)
    sampleWorld.fresh none Conn.idle_none sampleWorld [.accepted 4096 []] [] oneFile).mpr (by
      rintro ⟨opera, filename, hsplit, hchange⟩
      obtain ⟨rfl, rfl⟩ := Prod.mk.inj (Except.ok.inj
        ((show splitResource (lit "/downl/a") = .ok (lit "downl", lit "a") by decide).symm.trans
          hsplit))
      rcases hchange with ⟨h, -⟩ | ⟨h, -⟩ <;> exact absurd h (by decide)) (lit "filedir/a")

/-- A `GET` that empties a file, although its resource is not for a deletion. -/
theorem get_truncates :
    ¬ ∀ (recvs : List (List HandleRecv.RecvResult)) (resource : Bytes)
      (_ : .processed (lit "GET") resource ∈ (HandleRecv.receives recvs none).acts)
      (_ : ∀ name, resource ≠ lit "/del/" ++ name) (fresh : Uninit)
      (calls : List (World × List SendResult)) (dir : Bytes → File) (path : Bytes),
      let c := HandleRecv.receives recvs none
      fileAfter path (dir path)
        (c.acts ++ (sends calls c.request (handOver fresh none c.acts)).acts) = dir path := by
  intro h
  have hsame := h (cutGet (lit "/put/a")) (lit "/put/a") (by decide +kernel)
    (fun name heq => absurd (congrArg (List.take 5) heq)
      (show lit "/put/" ≠ lit "/del/" by decide))
    sampleWorld.fresh [(sampleWorld, [.accepted 4096 []])] oneFile (lit "filedir/a")
  revert hsame
  decide +kernel

/-! ### The answer to a removal -/

/-- The response constructed last, if there is one: the answer that a client gets. -/
def finalResponse (acts : List Action) : Option Response :=
  (acts.filterMap Action.constructed).getLast?

/-- The final response, if there is one, has the status `200` exactly when the file has been removed
by one of the actions. -/
def ReportsRemoval (acts : List Action) (path : Bytes) : Prop :=
  ∀ q, finalResponse acts = some q →
    (lit "HTTP/1.1 200 " <+: q.beforeBodyMsg ↔ .remove path true ∈ acts)

/-- The page is built exactly when the directory can be listed, the template has its label, and a
string can hold the page. -/
theorem getFileListPage_isOk_iff (w : World) :
    (∃ page, getFileListPage w [] = .ok page) ↔ w.Lists := by
  refine ⟨?_, fun h => ⟨_, getFileListPage_lists h⟩⟩
  rintro ⟨page, hpage⟩
  unfold getFileListPage getFileVec at hpage
  -- neither a directory that does not open nor a template without a label makes a page
  cases hdir : w.filedir with
  | none =>
    rw [hdir] at hpage
    cases hpage
  | some names =>
    rw [hdir] at hpage
    simp only [bind, Except.bind, List.span_eq_takeWhile_dropWhile, List.nil_append] at hpage
    cases hbehind : (linesOf (w.page.getD [])).dropWhile (· ≠ filelistLabel) with
    | nil =>
      simp only [hbehind] at hpage
      cases hpage
    | cons label after =>
      simp only [hbehind] at hpage
      -- the first line that is not in front of the label is the label
      have hlabel : ¬ (decide (label ≠ filelistLabel)) = true := by
        have hhead := List.head_dropWhile_not (p := (· ≠ filelistLabel))
          (l := linesOf (w.page.getD [])) (by rw [hbehind]; exact nofun)
        simp only [hbehind, List.head_cons] at hhead
        rw [hhead]
        exact Bool.false_ne_true
      have hmem : label ∈ linesOf (w.page.getD []) := by
        have hin : label ∈ (linesOf (w.page.getD [])).dropWhile (· ≠ filelistLabel) := by
          rw [hbehind]
          exact List.mem_cons_self
        exact (List.dropWhile_sublist _).mem hin
      refine ⟨by simp at hlabel; exact hlabel ▸ hmem, by rw [hdir]; rfl, ?_⟩
      split at hpage
      · next hroom =>
        unfold listPage
        rw [hdir, Option.getD_some]
        simp only [hbehind, List.tail_cons]
        exact hroom
      · cases hpage

/-- Calls that serve a request without an answer construct no final response. -/
theorem Serves.no_final {acts : List Action} {names : List Bytes} {files : List Action}
    (h : Serves acts names files none) : finalResponse acts = none := by
  rw [finalResponse, List.forall₂_nil_left_iff.mp h.reply]
  rfl

/-- The one response there is is the final one, and it is in the answer. -/
theorem Serves.final {acts : List Action} {names : List Bytes} {files : List Action} {a : Reply}
    (h : Serves acts names files (some a)) : ∃ q, finalResponse acts = some q ∧ a.In q := by
  obtain ⟨q, rest, hin, hrest, hcons⟩ := List.forall₂_cons_left_iff.mp h.reply
  obtain rfl := List.forall₂_nil_left_iff.mp hrest
  exact ⟨q, by rw [finalResponse, hcons]; rfl, hin⟩

/-- What has become of the only file there is: it has been removed by the actions exactly when
`remove` has succeeded. -/
theorem Serves.removed_iff {acts : List Action} {names : List Bytes} {path : Bytes} {ok : Bool}
    {reply : Option Reply} (h : Serves acts names [.remove path ok] reply) :
    .remove path true ∈ acts ↔ ok = true := by
  have hfilter : .remove path true ∈ acts ↔ .remove path true ∈ acts.filter Action.onFiles := by
    rw [List.mem_filter]
    exact ⟨fun h => ⟨h, rfl⟩, fun h => h.1⟩
  rw [hfilter, h.files, List.mem_singleton, Action.remove.injEq]
  exact ⟨fun h => h.2.symm, fun h => ⟨rfl, h.symm⟩⟩

/-- A resource for a deletion falls into its operation and the name of the file. -/
theorem splitResource_del {name : Bytes} (hname : name ≠ [])
    (hlong : (lit "/del/" ++ name).length ≤ maxSize) :
    splitResource (lit "/del/" ++ name) = .ok (lit "del", name) := by
  have hslash := @splitResource_slash 47 (lit "del") (by decide) name (by decide) hlong
  rw [if_neg hname] at hslash
  exact hslash

/-- Without a page there is no answer: the second call does not come back from listing the
directory. -/
theorem sends_unlisted {w w' : World} {results results' : List SendResult}
    {rest : List (World × List SendResult)} {request : Option Request} {r : Response}
    (init : r.status = .handleInit) {name : Bytes}
    (hsplit : splitResource r.bodyFileName = .ok (lit "del", name)) (hlists : ¬ w'.Lists) :
    finalResponse (sends ((w, results) :: (w', results') :: rest) request (some r)).acts =
      none := by
  have hstage : operaStage w request r = delStage w request name :=
    operaStage_of_split hsplit w request
  have hfirst : process w results request (some r) = _ :=
    process_leave (initStage_of_init init) (by rw [hstage]; rfl)
  -- the second call does not come back from the page
  obtain ⟨f, hpage⟩ : ∃ f, getFileListPage w' [] = .error f := by
    cases hpage : getFileListPage w' [] with
    | error f => exact ⟨f, rfl⟩
    | ok page => exact absurd ((getFileListPage_isOk_iff w').mp ⟨page, hpage⟩) hlists
  let r' : Response := { Response.init w.fresh with bodyFileName := lit "/" }
  have hcrash : operaStage w' request r' =
      ⟨request, (getStatusLine r' (lit "HTTP/1.1") (lit "200") (lit "OK")).1, [], .crash f⟩ := by
    change filelistStage w' request r' = _
    unfold filelistStage getStatusLine
    simp only [show r'.msgBody = [] from rfl, hpage]
  have hsecond : process w' results' request (some r') = _ :=
    process_crash (initStage_of_init rfl) (by rw [hcrash]; rfl)
  rw [sends_cons, hfirst, hstage]
  change finalResponse ([.dispatch _, .remove _ _, .modifyWaitFd true true true] ++
    (sends ((w', results') :: rest) request (some r')).acts) = none
  rw [sends_cons, hsecond, hcrash]
  rfl

/-- **A removal reports `200`, whatever has become of it.** Take a new entry for `/del/<name>`, and
any number of calls. The final response has the status `200` exactly when the file has been removed
if and only if `remove` succeeds, or there is no final response, as no second call comes or the
directory cannot be listed in it. -/
theorem delete_reports_iff {r : Response} (init : r.status = .handleInit) {name : Bytes}
    (hname : name ≠ []) (hlong : (lit "/del/" ++ name).length ≤ maxSize)
    (hr : r.bodyFileName = lit "/del/" ++ name) (request : Option Request) (w : World)
    (results : List SendResult) (rest : List (World × List SendResult)) :
    let path := cStr (lit "filedir/" ++ name)
    ReportsRemoval (sends ((w, results) :: rest) request (some r)).acts path ↔
      ∀ x ∈ rest.head?, x.1.Lists → w.remove path = true := by
  intro path
  have hsplit : splitResource r.bodyFileName = .ok (lit "del", name) := by
    rw [hr]
    exact splitResource_del hname hlong
  have hnamed : r.bodyFileName ≠ [] := by
    rw [hr]
    exact nofun
  cases rest with
  | nil =>
    have hserves := @serves_del request r name w results [] init hnamed hsplit nofun
    refine iff_of_true (fun q hq => ?_) nofun
    rw [hserves.no_final] at hq
    cases hq
  | cons x rest =>
    obtain ⟨w', results'⟩ := x
    -- the page can be made in the second call, or that call does not return
    by_cases hlists : w'.Lists
    · have hserves := @serves_del request r name w results ((w', results') :: rest) init hnamed
        hsplit (by rintro x ⟨⟩; exact hlists)
      have hremoved := hserves.removed_iff
      -- the page is the answer, and it says `200`
      obtain ⟨q, hq, hin⟩ := hserves.final
      have hstatus : lit "HTTP/1.1 200 " <+: q.beforeBodyMsg := by
        rw [hin.head]
        exact ⟨_, rfl⟩
      constructor
      · intro h x hx _
        exact hremoved.mp ((h q hq).mp hstatus)
      · intro h p hp
        obtain rfl := Option.some.inj (hq.symm.trans hp)
        exact iff_of_true hstatus (hremoved.mpr (h _ rfl hlists))
    · refine iff_of_true (fun q hq => ?_) ?_
      · rw [sends_unlisted init hsplit hlists] at hq
        cases hq
      · rintro x ⟨⟩ h
        exact absurd h hlists

theorem delete_reports_iff_removal :
    ReportsRemoval (sends removal none
        (some { Response.init sampleWorld.fresh with bodyFileName := lit "/del/a.txt" })).acts
      (lit "filedir/a.txt") :=
  (@delete_reports_iff { Response.init sampleWorld.fresh with bodyFileName := lit "/del/a.txt" }
    rfl (lit "a.txt") (by decide) (by decide) rfl none sampleWorld [] removal.tail).mpr
      fun _ _ _ => rfl

/-- A directory from which nothing can be removed: `remove` always fails. -/
def undeletable : World := { sampleWorld with remove := fun _ => false }

/-- The answer to a removal that has failed is the page all the same, with the status `200`. -/
theorem removal_reported :
    ¬ ∀ (r : Response) (name : Bytes), r.status = .handleInit → name ≠ [] →
      r.bodyFileName = lit "/del/" ++ name → ∀ calls : List (World × List SendResult),
        ReportsRemoval (sends calls none (some r)).acts (cStr (lit "filedir/" ++ name)) := by
  intro h
  let r : Response := { Response.init sampleWorld.fresh with bodyFileName := lit "/del/a.txt" }
  let calls : List (World × List SendResult) := [(undeletable, []), (undeletable, [])]
  have hreports := h r (lit "a.txt") rfl (by decide) rfl calls
  obtain ⟨q, hq⟩ := Option.isSome_iff_exists.mp
    (show (finalResponse (sends calls none (some r)).acts).isSome by decide +kernel)
  have hstatus : (finalResponse (sends calls none (some r)).acts).all
      (fun q => lit "HTTP/1.1 200 " <+: q.beforeBodyMsg) = true := by decide +kernel
  have hkept : .remove (lit "filedir/a.txt") true ∉ (sends calls none (some r)).acts := by
    decide +kernel
  rw [hq] at hstatus
  exact hkept ((hreports q hq).mp (of_decide_eq_true hstatus))

end HandleSend

end Cherokee
