import Cherokee.Isolation

/-!
# Descriptors and table entries behind a response

`HandleSend` opens a directory stream for every list page and a descriptor for every download.
Behind a complete response it erases the entry first and then asks the erased entry, through
`operator[]`, for its body type and its descriptor: the entry is there again, and what is closed is
what its members, which nothing sets, happen to name.

* `HandleSend.process_holds`: what the response in the making has opened, call by call.
* `Conn.never_released`: no finished response is released.
-/

namespace Cherokee

/-- What `HandleSend` opens for a response. -/
inductive Descriptor where
  /-- `open(path, O_RDONLY)` -/
  | file (fd : ℤ)
  /-- `opendir("filedir")` -/
  | dir
deriving DecidableEq, Repr

/-- What an action opens. A page has been constructed from one directory stream, which `opendir` has
opened and nothing closes. -/
def Action.opens : Action → List Descriptor
  | .openRead _ (some fd) => [.file fd]
  | .built r => if r.bodyType = .htmlType then [.dir] else []
  | _ => []

/-- What an action closes. The file a response is sent from is closed in one place only, behind a
finished response. -/
def Action.shuts : Action → List Descriptor
  | .closeFile fd => [.file fd]
  | _ => []

/-- What the actions close, in order. -/
def closedBy (acts : List Action) : List Descriptor := acts.flatMap Action.shuts

/-- One action on what has been opened for the response in the making: a finished response takes its
descriptors with it, closed or not. -/
def hold (ds : List Descriptor) : Action → List Descriptor
  | .finished => []
  | a => ds ++ a.opens

/-- What has been opened for the response in the making, behind a list of actions. -/
def held (acts : List Action) : List Descriptor := acts.foldl hold []

/-- What is held for a response between its construction and its end: the file it is sent from, or
the directory stream of its page. -/
def Response.descriptors (r : Response) : List Descriptor :=
  match r.bodyType with
  | .htmlType => [.dir]
  | .fileType => [.file r.fileMsgFd]
  | .emptyType => []

/-- What is held for the response of an entry. Before it is constructed nothing has been opened for
it. -/
def Response.held (r : Response) : List Descriptor :=
  if r.status = .handleInit then [] else r.descriptors

/-! ### Readings of a list of actions -/

/-- Where no response is finished, what is held only grows, by what the actions open. -/
theorem holds_append {ds : List Descriptor} {acts : List Action} (h : .finished ∉ acts) :
    acts.foldl hold ds = ds ++ acts.flatMap Action.opens := by
  induction acts generalizing ds with
  | nil => exact (List.append_nil ds).symm
  | cons a acts ih =>
    obtain ⟨ha, hacts⟩ := List.ne_and_not_mem_of_not_mem_cons h
    have hhold : hold ds a = ds ++ a.opens := by
      cases a <;> first | rfl | exact absurd rfl ha
    rw [List.foldl_cons, hhold, ih hacts, List.flatMap_cons, List.append_assoc]

/-- Sending opens nothing. -/
theorem opens_writing {acts : List Action} (h : ∀ a ∈ acts, a.Writing) :
    acts.flatMap Action.opens = [] := by
  refine List.flatMap_eq_nil_iff.mpr fun a ha => ?_
  have hw := h a ha
  cases a <;> first | rfl | cases hw

/-- The construction of a response closes nothing. -/
theorem closedBy_preparing {acts : List Action} (h : ∀ a ∈ acts, a.Preparing) :
    closedBy acts = [] := by
  refine List.flatMap_eq_nil_iff.mpr fun a ha => ?_
  have hp := h a ha
  cases a <;> first | rfl | cases hp

/-- Sending closes nothing. -/
theorem closedBy_writing {acts : List Action} (h : ∀ a ∈ acts, a.Writing) : closedBy acts = [] := by
  refine List.flatMap_eq_nil_iff.mpr fun a ha => ?_
  have hw := h a ha
  cases a <;> first | rfl | cases hw

namespace HandleSend

/-! ### The response in the making -/

/-- Sending from the head keeps the type and the file of the response. -/
theorem sendHead_descriptors (r : Response) (n : ℕ) :
    (sendHead r n).1.descriptors = r.descriptors := by
  unfold sendHead
  simp only
  split <;> rfl

/-- Sending from the body keeps them too. -/
theorem sendBody_descriptors (r : Response) (msg : Bytes) (n : ℕ) :
    (sendBody r msg n).1.descriptors = r.descriptors := by
  unfold sendBody
  simp only
  split <;> rfl

/-- Sending leaves what is held, however many bytes are taken and whether or not it fails. -/
theorem sendLoop_descriptors (results : List SendResult) (request : Option Request) {r : Response}
    (hr : Sending r) : (sendLoop results request r).response.descriptors = r.descriptors := by
  refine sendLoop_induction (P := fun r s => s.response.descriptors = r.descriptors)
    ?_ ?_ ?_ ?_ ?_ results hr
  · exact fun _ _ _ _ => rfl
  · exact fun r n s _ h => h.trans (sendHead_descriptors r n)
  · exact fun r n s _ _ h => h.trans (sendBody_descriptors r _ n)
  · exact fun r n disk s _ _ h => h.trans (sendBody_descriptors r disk n)
  · exact fun _ _ _ _ h => h

/-- The stage has opened what the response it has constructed holds, and nothing where it has
constructed none. -/
structure Stage.Opens (s : Stage) : Prop where
  proceed : s.flow = .proceed → s.acts.flatMap Action.opens = s.response.descriptors
  left : s.flow ≠ .proceed → s.acts.flatMap Action.opens = []

/-- A stage that constructs a response with what it has opened. -/
theorem opens_built {request : Option Request} {r : Response} {acts : List Action}
    (h : List.flatMap Action.opens (acts ++ [.built r]) = r.descriptors) :
    (built request r acts).Opens :=
  ⟨fun _ => h, fun h => absurd rfl h⟩

/-- A stage that leaves without a response, and has opened nothing for one. -/
theorem opens_left {s : Stage} (hflow : s.flow ≠ .proceed)
    (h : s.acts.flatMap Action.opens = []) : s.Opens :=
  ⟨fun hf => absurd hf hflow, fun _ => h⟩

/-- The construction of a response opens what the response holds: one file for a download, one
directory stream for the list, and nothing for an empty body. -/
theorem operaStage_descriptors (w : World) (request : Option Request) (r : Response) :
    (operaStage w request r).Opens := by
  unfold operaStage
  split
  · exact opens_left nofun rfl
  · split_ifs
    · unfold filelistStage
      simp only
      split
      · exact opens_left nofun rfl
      · exact opens_built rfl
    · unfold downlStage
      simp only
      split
      · exact opens_left nofun rfl
      · exact opens_built rfl
    · exact opens_left nofun rfl
    · unfold putStage
      simp only
      split
      · exact opens_built rfl
      · exact opens_left nofun rfl
    · exact opens_built rfl

/-- What a call does to what is held for the response in the making: the call finishes it, with what
the response holds still open, or keeps it. -/
inductive Holds (w : World) (ds : List Descriptor) (c : Call) : Prop where
  /-- The response is complete. -/
  | finishes (before : List Action) (b : Response)
      (acts : c.acts = before ++ .finished :: .modifyWaitFd true true false :: closeStray w)
      (unfinished : .finished ∉ before) (unclosed : closedBy before = [])
      (opened : before.foldl hold ds = b.descriptors)
      (response : c.response = some (Response.init w.fresh))
  /-- The response is still there, or another one in its place. -/
  | keeps (r : Response) (unfinished : .finished ∉ c.acts) (response : c.response = some r)
      (opened : c.acts.foldl hold ds = r.held)

/-- Behind the send loop, when no response has been finished before and nothing has been closed. -/
theorem finish_holds (w : World) (request : Option Request) {r : Response} {ds : List Descriptor}
    {acts : List Action} (hr : Sending r ∨ r.status = .handleComplete) (hacts : .finished ∉ acts)
    (hclosed : closedBy acts = []) (hopened : acts.foldl hold ds = r.descriptors) :
    Holds w ds ((finish w request r).prepend acts) := by
  unfold finish
  by_cases hc : r.status = .handleComplete
  · rw [if_pos hc]
    exact .finishes acts r rfl hacts hclosed hopened rfl
  · have hs := hr.resolve_right hc
    have hi := hs.not_init
    rw [if_neg hc, if_neg hs.not_error]
    refine .keeps r ?_ rfl ?_
    · change Action.finished ∉ acts ++ [.modifyWaitFd true true true]
      simpa using hacts
    · change List.foldl hold ds (acts ++ [.modifyWaitFd true true true]) = _
      rw [List.foldl_append, hopened, Response.held, if_neg hi]
      exact List.append_nil _

section Process

variable (w : World) (results : List SendResult) (request : Option Request) {r : Response}

/-- A call that constructs its response holds what the response is sent from, from this call on. -/
theorem opens_holds (hi : r.status = .handleInit) (ho : Opened (operaStage w request r)) :
    Holds w r.held (process w results request (some r)) := by
  have hdescriptors := operaStage_descriptors w request r
  have hs : Sending (operaStage w request r).response := .inl ho.status
  have hloop := sendLoop_sends results (operaStage w request r).request hs
  obtain ⟨before, hacts, hbefore⟩ := ho.acts
  rw [Response.held, if_pos hi, process_proceed (initStage_of_init hi) ho.flow hloop.flow]
  -- neither the branch nor the loop makes the response complete
  have hstage : .finished ∉ (operaStage w request r).acts := by
    rw [hacts]
    intro hf
    rcases List.mem_append.mp hf with hf | hf
    · exact hbefore _ hf
    · cases List.mem_singleton.mp hf
  have hsent : .finished ∉ (sendLoop results (operaStage w request r).request
      (operaStage w request r).response).acts := fun hf => hloop.writes _ hf
  refine @finish_holds w _ _ _ (.dispatch r.bodyFileName :: (operaStage w request r).acts ++
    (sendLoop results (operaStage w request r).request (operaStage w request r).response).acts)
    hloop.status ?_ ?_ ?_
  · simp [hstage, hsent]
  · -- neither the branch nor the send loop closes anything
    change [] ++ closedBy ((operaStage w request r).acts ++ _) = []
    rw [hacts, List.nil_append, closedBy, List.flatMap_append, List.flatMap_append]
    change closedBy before ++ [] ++ closedBy _ = []
    rw [closedBy_preparing hbefore, closedBy_writing hloop.writes]
    rfl
  · -- the branch has opened what the response is sent from, and the send loop opens nothing
    change List.foldl hold [] _ =
      (sendLoop results _ (operaStage w request r).response).response.descriptors
    rw [List.foldl_append, List.foldl_cons, holds_append hstage, holds_append hsent,
      opens_writing hloop.writes, List.append_nil, hdescriptors.proceed ho.flow,
      sendLoop_descriptors _ _ hs]
    rfl

/-- A call that leaves without a response holds nothing: the one in its place has not been
constructed. -/
theorem leaves_holds (hi : r.status = .handleInit) (hl : Left (operaStage w request r)) :
    Holds w r.held (process w results request (some r)) := by
  rw [Response.held, if_pos hi]
  have hflow : (operaStage w request r).flow ≠ .proceed := by
    rcases hl.exit with ⟨hflow, -⟩ | ⟨f, hflow, -⟩ <;> rw [hflow] <;> exact nofun
  have hstage : .finished ∉ .dispatch r.bodyFileName :: (operaStage w request r).acts := by
    intro hf
    rcases List.mem_cons.mp hf with hf | hf
    · cases hf
    · rcases hl.exit with ⟨-, before, hacts, hbefore⟩ | ⟨f, -, hbefore⟩
      · rw [hacts] at hf
        rcases List.mem_append.mp hf with hf | hf
        · exact hbefore _ hf
        · cases List.mem_singleton.mp hf
      · exact hbefore _ hf
  have hopened : List.foldl hold [] (.dispatch r.bodyFileName :: (operaStage w request r).acts) =
      (operaStage w request r).response.held := by
    rw [holds_append hstage, List.flatMap_cons, (operaStage_descriptors w request r).left hflow,
      Response.held, if_pos hl.status]
    rfl
  rcases hl.exit with ⟨hflow, -⟩ | ⟨f, hflow, -⟩
  · rw [process_leave (initStage_of_init hi) hflow]
    exact .keeps _ hstage rfl hopened
  · rw [process_crash (initStage_of_init hi) hflow]
    exact .keeps _ hstage rfl hopened

/-- A call for a response that is being sent finds open what an earlier call has opened. -/
theorem resumes_holds (hs : Sending r) : Holds w r.held (process w results request (some r)) := by
  have hloop := sendLoop_sends results request hs
  have hsent : .finished ∉ (sendLoop results request r).acts := fun hf => hloop.writes _ hf
  rw [process_proceed (initStage_of_not_init hs.not_init) rfl hloop.flow, Response.held,
    if_neg hs.not_init]
  refine finish_holds w _ hloop.status hsent (closedBy_writing hloop.writes) ?_
  change (sendLoop results request r).acts.foldl hold _ = _
  rw [holds_append hsent, opens_writing hloop.writes, List.append_nil,
    sendLoop_descriptors _ _ hs]

/-- **A call, on what is held for the response in the making.** -/
theorem process_holds (hr : r.status = .handleInit ∨ Sending r) :
    Holds w r.held (process w results request (some r)) := by
  rcases hr with hi | hs
  · rcases operaStage_opens w request hi with ho | hl
    · exact opens_holds w results request hi ho
    · exact leaves_holds w results request hi hl
  · exact resumes_holds w results request hs

end Process

end HandleSend

namespace Conn

open HandleSend

/-! ### Finished responses -/

/-- What is held for the response of an entry, if there is one, and nothing otherwise. -/
def heldFor (response : Option Response) : List Descriptor := (response.map Response.held).getD []

/-- Handing a resource over changes the name in the entry, and nothing that is open. -/
theorem setBodyFileName_held (fresh : Uninit) (response : Option Response) (name : Bytes) :
    (Response.setBodyFileName fresh response name).held = heldFor response := by
  cases response <;> rfl

/-- `HandleRecv` opens nothing for a response and finishes none, so the log holds behind it what it
held before. -/
theorem recv_held {k : Conn} (hk : k.Sound) (results : List HandleRecv.RecvResult) (fresh : Uninit)
    (h : held k.log = heldFor k.response) :
    let c := Handler.call (.recv results fresh) k.request k.response
    held (k.log ++ c.acts) = heldFor c.response := by
  intro c
  obtain ⟨before, last, hacts, hbefore, hend⟩ := recv_receives results fresh k.response hk.request
  -- `HandleRecv` opens and closes no file that is sent
  have hfold (hfinished : .finished ∉ last) (hopens : last.flatMap Action.opens = [])
      (hresponse : heldFor c.response = heldFor k.response) :
      held (k.log ++ c.acts) = heldFor c.response := by
    have hnone : before.flatMap Action.opens = [] := by
      refine List.flatMap_eq_nil_iff.mpr fun a ha => ?_
      have hr := hbefore a ha
      cases a <;> first | rfl | cases hr
    have hbefore' : .finished ∉ before := fun hf => hbefore _ hf
    rw [held, List.foldl_append, show c.acts = _ from hacts, List.foldl_append,
      holds_append hbefore', holds_append hfinished, hnone, hopens, List.append_nil,
      List.append_nil, hresponse]
    exact h
  -- only the exit that hands a resource over touches the response table
  have hkept (h : c.response = k.response) : heldFor c.response = heldFor k.response := by rw [h]
  cases hend with
  | waits r crash request live kept => exact hfold (by simp) rfl (hkept kept)
  | openFails path r crash request live kept => exact hfold (by simp) rfl (hkept kept)
  | crashes f crash kept => exact hfold nofun rfl (hkept kept)
  | closes rearmed crash request arm kept =>
    rcases arm with rfl | rfl <;> exact hfold (by simp) rfl (hkept kept)
  | asks name logged crash live handed completes =>
    -- an entry that is handed a resource is constructed later, so what it holds stays
    have hset : heldFor c.response = heldFor k.response := by
      rw [show c.response = _ from handed]
      exact setBodyFileName_held fresh k.response name
    rcases completes with rfl | ⟨method, resource, -, -, rfl⟩ <;> exact hfold (by simp) rfl hset

/-- A call of `HandleSend`, on what is held for the response in the making: the log and the entry
agree again behind it. -/
theorem send_held {k : Conn} (hk : k.Sound) (w : World) (results : List SendResult)
    (h : held k.log = heldFor k.response) :
    let c := process w results k.request k.response
    held (k.log ++ c.acts) = heldFor c.response := by
  intro c
  rw [held, List.foldl_append]
  change c.acts.foldl hold (held k.log) = _
  -- without an entry the call returns at once
  cases hr : k.response with
  | none =>
    have hc : c = ⟨k.request, none, [], none⟩ := by
      change process w results k.request k.response = _
      rw [hr]
      rfl
    rw [hc, h, hr]
    rfl
  | some r =>
    have hholds := process_holds w results k.request (hk.response r hr)
    rw [← hr] at hholds
    rw [h, hr]
    change c.acts.foldl hold r.held = _
    cases hholds with
    | keeps r' unfinished response opened =>
      rw [show c.response = _ from response, opened]
      rfl
    | finishes before b acts unfinished unclosed opened response =>
      -- behind the end nothing is held, and what is closed there is not opened
      have hstray : (closeStray w).foldl hold [] = [] := by
        unfold closeStray
        split <;> rfl
      rw [show c.response = _ from response, show c.acts = _ from acts, List.foldl_append]
      exact hstray

/-- In every run the log knows what is held for the response of the entry: what has been opened
since the last response was finished is what the entry is sent from. -/
theorem reachable_held {left : Option Response} (hleft : Idle left) {G : Conn → Handler → Prop}
    {k : Conn} (h : (connection left).Reachable G k) : held k.log = heldFor k.response := by
  refine h.invariant (I := fun k => held k.log = heldFor k.response) ?_ ?_
  · change [] = heldFor left
    cases left with
    | none => rfl
    | some r =>
      change [] = r.held
      rw [Response.held, if_pos (hleft r rfl).1]
  · intro k h k' hreach hk _ hstep
    obtain ⟨hopen, rfl⟩ := step_eq_some.mp hstep
    have hsound := reachable_sound hleft hreach hopen
    cases h with
    | recv results fresh => exact recv_held hsound results fresh hk
    | send w results => exact send_held hsound w results hk

/-- A finished response is released: what has been opened for it is closed, once, nothing else is
closed, and its entry is gone. -/
structure Released (opened : List Descriptor) (c : Call) : Prop where
  closed : (closedBy c.acts).Perm opened
  entry : c.response = none

/-- What the members of an erased `Response` name. They are read from the entry that `operator[]`
has just made, and so they are whatever the memory held. -/
def garbage (u : Uninit) : List Descriptor :=
  if u.bodyType = .fileType then [.file u.fileMsgFd] else []

/-- At most one descriptor is named so, and a permutation of at most one is the same list. -/
theorem garbage_perm {u : Uninit} {ds : List Descriptor} (h : (garbage u).Perm ds) :
    garbage u = ds := by
  unfold garbage at *
  split at h
  · next hf => exact (if_pos hf).symm ▸ (List.singleton_perm.mp h)
  · next hf => exact (if_neg hf).symm ▸ (List.nil_perm.mp h).symm

/-- Behind a finished response the descriptor that those members name is closed, and nothing
else. -/
theorem closedBy_closeStray (w : World) : closedBy (closeStray w) = garbage w.fresh := by
  unfold closeStray garbage
  split <;> rfl

/-- **No finished response is released.** In every run, the call that finishes a response leaves an
entry for the descriptor, closes what the members of the erased `Response` happen to name and
nothing else, and never closes the directory stream of a page. -/
theorem never_released {left : Option Response} (hleft : Idle left) {G : Conn → Handler → Prop}
    {k : Conn} (hreach : (connection left).Reachable G k) (hopen : k.ended = false) (w : World)
    (results : List SendResult) {before after : List Action}
    (hacts : (process w results k.request k.response).acts = before ++ .finished :: after) :
    ¬ Released (held (k.log ++ before)) (process w results k.request k.response) ∧
      ((closedBy (process w results k.request k.response).acts).Perm (held (k.log ++ before)) ↔
        held (k.log ++ before) = garbage w.fresh) ∧
      ∃ b : Response, held (k.log ++ before) = b.descriptors := by
  have hk := reachable_sound hleft hreach hopen
  -- what the log holds is what is held for the entry, in every run
  have hheld := reachable_held hleft hreach
  cases hr : k.response with
  | none =>
    rw [hr] at hacts
    exact absurd hacts.symm (List.append_ne_nil_of_right_ne_nil _ nofun)
  | some r =>
    have hholds := process_holds w results k.request (hk.response r hr)
    rw [← hr] at hholds ⊢
    rw [hr] at hheld
    generalize process w results k.request k.response = c at hacts hholds ⊢
    cases hholds with
    | keeps r' unfinished =>
      exact absurd (hacts ▸ List.mem_append_right _ List.mem_cons_self) unfinished
    | finishes first b acts unfinished unclosed opened response =>
      -- the call finishes one response only
      have hrest : .finished ∉ .modifyWaitFd true true false :: closeStray w := by
        intro hf
        rcases List.mem_cons.mp hf with hf | hf
        · cases hf
        · exact Ledger.closeStray_quiet w _ hf
      obtain ⟨hfirst, -, -⟩ :=
        (List.append_cons_inj_of_notMem unfinished hrest).mp (acts.symm.trans hacts)
      -- all the call closes is what the members of the erased `Response` name
      have hclosed : closedBy c.acts = garbage w.fresh := by
        rw [acts, closedBy, List.flatMap_append]
        change closedBy first ++ closedBy (closeStray w) = _
        rw [unclosed, closedBy_closeStray]
        rfl
      have hopened : held (k.log ++ before) = b.descriptors := by
        rw [held, List.foldl_append, ← hfirst]
        change first.foldl hold (held k.log) = _
        rw [hheld]
        exact opened
      refine ⟨fun h => ?_, ?_, b, hopened⟩
      · cases response.symm.trans h.entry
      · rw [hclosed]
        exact ⟨fun h => (garbage_perm h).symm, fun h => by rw [h]⟩

/-- A `GET` of the file list in one result of `recv`. -/
def listRequest : Handler := .recv [.data (lit "GET / HTTP/1.1\r\n\r\n") true] sampleWorld.fresh

/-- The answers of a system with room. -/
def roomy : List SendResult := [.accepted 4096 [], .accepted 4096 []]

/-- The list page is asked for, and the next call of `HandleSend` finishes it. -/
theorem listRequest_finishes :
    ∃ k, (connection none).Reachable Machine.anyStep k ∧ k.ended = false ∧
      ∃ before after, (process sampleWorld roomy k.request k.response).acts =
        before ++ .finished :: after := by
  obtain ⟨k, hk⟩ := Option.isSome_iff_exists.mp
    (show ((connection none).run (connection none).start [listRequest]).isSome by decide +kernel)
  have hstate : ((connection none).run (connection none).start [listRequest]).map (fun k =>
      (k.ended, decide (.finished ∈ (process sampleWorld roomy k.request k.response).acts))) =
        some (false, true) := by
    decide +kernel
  rw [hk] at hstate
  obtain ⟨hopen, hmem⟩ := Prod.mk.inj (Option.some.inj hstate)
  exact ⟨k, Machine.reachable_of_run .start hk (Machine.along_anyStep _ _), hopen,
    List.append_of_mem (of_decide_eq_true hmem)⟩

theorem never_released_sample :
    ∃ (k : Conn) (before after : List Action),
      (process sampleWorld roomy k.request k.response).acts = before ++ .finished :: after ∧
        ¬ Released (held (k.log ++ before)) (process sampleWorld roomy k.request k.response) := by
  obtain ⟨k, hk, hopen, before, after, hacts⟩ := listRequest_finishes
  exact ⟨k, before, after, hacts, (never_released idle_none hk hopen sampleWorld roomy hacts).1⟩

/-- The list page is sent, and its entry is still there. -/
theorem page_not_released :
    ¬ ∀ (k : Conn) (w : World) (results : List SendResult) (before after : List Action),
      (connection none).Reachable Machine.anyStep k → k.ended = false →
      (process w results k.request k.response).acts = before ++ .finished :: after →
      Released (held (k.log ++ before)) (process w results k.request k.response) := by
  intro h
  obtain ⟨k, hk, hopen, before, after, hacts⟩ := listRequest_finishes
  have hentry := (h k sampleWorld roomy before after hk hopen hacts).entry
  have hk' := reachable_sound idle_none hk hopen
  cases hr : k.response with
  | none =>
    rw [hr] at hacts
    exact absurd hacts.symm (List.append_ne_nil_of_right_ne_nil _ nofun)
  | some r =>
    have hholds := process_holds sampleWorld roomy k.request (hk'.response r hr)
    rw [hr] at hentry
    cases hholds with
    | keeps r' _ response => cases hentry.symm.trans response
    | finishes _ _ _ _ _ _ response => cases hentry.symm.trans response

end Conn

end Cherokee
