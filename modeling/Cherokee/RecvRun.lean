import Cherokee.Absorb

/-!
# Runs of `HandleRecv` calls

`HandleRecv.run` makes calls until the results of `recv` are used up. Here it is taken apart result
by result: the calls on a list of chunks and `EAGAIN` returns do together what absorbing their
bytes decides.

* `HandleRecv.run_absorb`: while no response is asked for, the calls leave the request absorbed.
* `HandleRecv.run_absorb_complete`: the chunk that completes the request ends a call, and what it
  holds beyond the request is gone.
* `HandleRecv.run_absorb_error`: a line that is refused ends the process.
-/

open DelimScan

namespace Cherokee

namespace HandleRecv

open Request

/-! ### Calls with actions before -/

@[simp] theorem Call.prepend_request (acts : List Action) (x : Call) :
    (x.prepend acts).request = x.request := rfl

@[simp] theorem Call.prepend_acts (acts : List Action) (x : Call) :
    (x.prepend acts).acts = acts ++ x.acts := rfl

@[simp] theorem Call.prepend_crash (acts : List Action) (x : Call) :
    (x.prepend acts).crash = x.crash := rfl

@[simp] theorem Call.prepend_rest (acts : List Action) (x : Call) :
    (x.prepend acts).rest = x.rest := rfl

@[simp] theorem Call.prepend_nil (x : Call) : x.prepend [] = x := rfl

/-- The actions of one call stand before those of the calls behind it, and so on. -/
theorem Call.prepend_prepend (as bs : List Action) (x : Call) :
    (x.prepend bs).prepend as = x.prepend (as ++ bs) := by
  simp [Call.prepend]

/-- What stands behind the receive loop does not look at the actions of the loop, so they can be put
in front afterwards. -/
theorem Received.finish_prepend (acts : List Action) (x : Received) :
    (x.prepend acts).finish = x.finish.prepend acts := by
  unfold Received.finish
  cases hcrash : x.crash with
  | some f => simp [Call.prepend, Received.prepend, hcrash]
  | none => simp [Call.prepend, Received.prepend, hcrash]

/-! ### A run, result by result -/

/-- A call asks for results from the front, and takes one at least: what it leaves is shorter than
what it has found. -/
theorem recvLoop_rest_length (results : List RecvResult) (r : Request) :
    (recvLoop results r).rest.length ≤ results.length - 1 := by
  induction results generalizing r with
  | nil => exact le_refl 0
  | cons x rest ih =>
    cases x with
    | data buf ofs =>
      unfold recvLoop
      simp only
      split
      · exact (ih _).trans (Nat.sub_le _ _)
      · exact le_refl _
      · exact le_refl _
    | again => exact le_refl _
    | closed => exact le_refl _
    | failed => exact le_refl _

theorem finish_rest (x : Received) : x.finish.rest = x.rest := by
  unfold Received.finish
  split <;> rfl

/-- More calls than results make no difference, since a call without results is never made; so `run`
may count its calls by the length of the list. -/
theorem calls_eq_run {n : ℕ} {results : List RecvResult} (h : results.length ≤ n)
    (entry : Option Request) : calls n results entry = run results entry := by
  suffices hcalls : ∀ m n (results : List RecvResult) entry, results.length ≤ m →
      results.length ≤ n → calls m results entry = calls n results entry from
    hcalls n results.length results entry h le_rfl
  intro m
  induction m with
  | zero =>
    intro n results entry hm _
    obtain rfl := List.eq_nil_of_length_eq_zero (Nat.le_zero.mp hm)
    cases n <;> rfl
  | succ m ih =>
    intro n results entry hm hn
    cases results with
    | nil => cases n <;> rfl
    | cons x rest =>
      obtain ⟨n, rfl⟩ : ∃ k, n = k + 1 := ⟨n - 1, by simp only [List.length_cons] at hn; omega⟩
      unfold calls
      -- every call takes a result, so both counts stay enough for what is left
      have hlen : (process (x :: rest) entry).rest.length ≤ rest.length := by
        rw [process, finish_rest]
        exact recvLoop_rest_length _ _
      simp only [List.length_cons] at hm hn
      simp only [ih n _ _ (by omega : (process (x :: rest) entry).rest.length ≤ m) (by omega)]

/-- What is left to do from within the receive loop of a call, and in the calls behind it. A run can
then be followed result by result, wherever the calls end. -/
def resume (results : List RecvResult) (r : Request) : Call :=
  let c := (recvLoop results r).finish
  match c.crash with
  | some _ => c
  | none => (run c.rest c.request).prepend c.acts

@[simp] theorem run_nil (entry : Option Request) : run [] entry = ⟨entry, [], none, []⟩ := rfl

/-- A run begins inside its first call, on the entry of the descriptor or on a new `Request`. -/
theorem run_cons (x : RecvResult) (rest : List RecvResult) (entry : Option Request) :
    run (x :: rest) entry = resume (x :: rest) (entry.getD Request.init) := by
  have hlen : (process (x :: rest) entry).rest.length ≤ rest.length := by
    rw [process, finish_rest]
    exact recvLoop_rest_length _ _
  unfold run resume
  rw [List.length_cons, calls, calls_eq_run hlen]
  rfl

/-- `EAGAIN` ends the call: the descriptor is re-armed for reading, and the next call finds the
request as it is. -/
theorem resume_again (rest : List RecvResult) {r : Request} (hc : r.status ≠ .handleComplete)
    (he : r.status ≠ .handleError) :
    resume (.again :: rest) r = (run rest (some r)).prepend [.modifyWaitFd true true false] := by
  unfold resume recvLoop
  simp [Received.finish, finish, hc, he]

/-- Within a call or between calls: with results left it makes no difference. Without any, the call
that is under way has still to end with `EAGAIN` and to re-arm. -/
theorem resume_eq_run (results : List RecvResult) {r : Request} (hc : r.status ≠ .handleComplete)
    (he : r.status ≠ .handleError) :
    resume results r = (run results (some r)).prepend
      (if results = [] then [.modifyWaitFd true true false] else []) := by
  cases results with
  | nil =>
    unfold resume recvLoop
    simp [Received.finish, finish, hc, he, Call.prepend]
  | cons x rest =>
    rw [run_cons, if_neg (List.cons_ne_nil _ _), Call.prepend_nil]
    rfl

/-- A turn that goes on stays in the same call. -/
theorem resume_data_again {buf : Bytes} {ofs : Bool} {rest : List RecvResult} {r : Request}
    (h : (recvTurn buf ofs r).flow = .again) :
    resume (.data buf ofs :: rest) r =
      (resume rest (recvTurn buf ofs r).request).prepend (recvTurn buf ofs r).acts := by
  rw [resume, recvLoop]
  simp only [h, Received.finish_prepend, Call.prepend_crash]
  rw [resume]
  cases (recvLoop rest (recvTurn buf ofs r).request).finish.crash with
  | some f => rfl
  | none => simp [Call.prepend_prepend]

/-- A turn that leaves ends the call, and what `finish` makes of the request is the entry of the
next one. -/
theorem resume_data_leave {buf : Bytes} {ofs : Bool} {rest : List RecvResult} {r : Request}
    (h : (recvTurn buf ofs r).flow = .leave) :
    resume (.data buf ofs :: rest) r =
      (run rest (finish (recvTurn buf ofs r).request).1).prepend
        ((recvTurn buf ofs r).acts ++ (finish (recvTurn buf ofs r).request).2) := by
  rw [resume, recvLoop]
  simp only [h]
  rfl

/-- A turn that ends the process ends the run, with the results behind it unread. -/
theorem resume_data_crash {buf : Bytes} {ofs : Bool} {rest : List RecvResult} {r : Request}
    {f : Fault} (h : (recvTurn buf ofs r).flow = .crash f) :
    resume (.data buf ofs :: rest) r =
      ⟨some (recvTurn buf ofs r).request, (recvTurn buf ofs r).acts, some f, rest⟩ := by
  rw [resume, recvLoop]
  simp only [h]
  rfl

end HandleRecv

/-! ### Requests at rest -/

namespace Request

open HandleRecv

/-- Everything that can be decided about the request has been decided, and it is still received. A
request is at rest between two results of `recv`: receiving nothing changes nothing, so that where
the bytes are cut has no effect. -/
structure AtRest (r : Request) : Prop where
  lines : r.wantsLine = false ∨ cutLine r.recvMsg = none
  handed : r.settle.handed = none
  request : r.settle.request = r
  written : r.settle.written.getD [] = []
  sound : r.status ≠ .handleError

/-- A request at rest is not complete, so that its entry is not erased. -/
theorem AtRest.live {r : Request} (h : r.AtRest) : r.status ≠ .handleComplete :=
  (settle_status h.handed).2

/-- A request at rest that absorbs nothing is settled as it was before. -/
theorem AtRest.absorb_nil {r : Request} (h : r.AtRest) : r.absorb [] = .ok r.settle := by
  unfold absorb push
  rw [List.append_nil, withMsg_self, drained_of_rest h.lines]
  rfl

/-- A new `Request` is at rest: it has no line to read. -/
theorem init_atRest : Request.init.AtRest where
  lines := .inr rfl
  handed := rfl
  request := rfl
  written := rfl
  sound := nofun

/-- No line sets `HANDLE_ERROR`: the status comes from a failed `recv` or `send` only, and a line
that is refused ends the process instead. -/
theorem readLine_sound {r r' : Request} {line : Bytes} (hs : r.status ≠ .handleError)
    (h : r.readLine line = .ok r') : r'.status ≠ .handleError := by
  cases readLine_cases h with
  | requestLine => exact nofun
  | blank =>
    unfold endHead
    split <;> exact nofun
  | header head added =>
    rw [addHeaderOpt_status added, head]
    exact nofun
  | begins => exact hs
  | mismatch => exact nofun
  | partBlank => exact hs
  | partLine => exact hs
  | nothing => exact hs

/-- What every line keeps, reading the lines of `recvMsg` keeps. This is the induction on the lines,
for the request with the rest of the buffer behind each of them. -/
theorem drained_induction {P : Request → Prop}
    (hline : ∀ r r' line rest, P r → r.wantsLine = true → cutLine r.recvMsg = some (line, rest) →
      r.readLine line = .ok r' → P (r'.withMsg rest))
    {r r' : Request} (hr : P r) (h : r.drained = .ok r') : P r' := by
  unfold drained at h
  cases hd : requestReader.drain (r.withMsg []) r.recvMsg with
  | error f => rw [hd] at h; cases h
  | ok p =>
    rw [hd] at h
    cases h
    refine LineMachine.drain_induction (M := requestReader)
      (P := fun r buf o => P (r.withMsg buf) → ∀ p, o = .ok p → P (p.1.withMsg p.2))
      ?_ ?_ ?_ (r.withMsg []) r.recvMsg hr _ hd
    · rintro r buf - hr p ⟨⟩
      exact hr
    · intro r buf line rest r' hw hc ho ih hr p hp
      refine ih (hline _ (r'.withMsg buf) line rest hr hw hc ?_) p hp
      rw [readLine_withMsg, show r.readLine line = .ok r' from ho]
      rfl
    · rintro r buf line rest f - - - - p ⟨⟩

/-- A settled request is at rest, unless a response is asked for. In the content of a part, what is
kept back is kept back again; everywhere else there was no line left to read. -/
theorem absorb_atRest {r : Request} {x : Bytes} {o : Outcome} (hs : r.status ≠ .handleError)
    (h : r.absorb x = .ok o) (hn : o.handed = none) : o.request.AtRest := by
  obtain ⟨r', hd, rfl⟩ := drained_of_absorb h
  have hrest := drained_rest hd
  have hsound : r'.status ≠ .handleError :=
    drained_induction (P := fun r => r.status ≠ .handleError)
      (fun r r' _ _ h _ _ ho => show r'.status ≠ _ from readLine_sound h ho) (r := r.push x) hs hd
  -- the content of a part is scanned and cut; everything else waits for a line or is decided
  by_cases hc : r'.isUpload = true ∧ r'.fileMsgStatus = .fileContent
  · obtain ⟨hu, hf⟩ := hc
    have hset := settle_of_content hu hf
    generalize hscan : scan (delimiter (r'.boundary?.getD [])) r'.recvMsg = s at hset
    -- the final delimiter has been found, or `s.held` may be the beginning of it
    cases hfound : s.found with
    | true =>
      rw [hset, scanned, if_pos hfound] at hn
      cases hn
    | false =>
      have hheld := scan_held (D := delimiter (r'.boundary?.getD [])) r'.recvMsg
        (by rw [hscan, hfound])
      rw [hscan] at hheld
      rw [hset, scanned, if_neg (by simp [hfound])]
      have hagain : (r'.withMsg s.held).settle = ⟨r'.withMsg s.held, some [], none⟩ := by
        have h := settle_of_content (r := r'.withMsg s.held) hu hf
        rw [withMsg_boundary?, withMsg_recvMsg, hheld] at h
        exact h
      refine ⟨.inl ?_, ?_, ?_, ?_, hsound⟩
      · rw [withMsg_wantsLine, wantsLine_of_upload hu, hf]
        rfl
      · rw [hagain]
      · rw [hagain]
      · rw [hagain]
        rfl
  · have hwait := settle_of_waiting hc hn
    rw [hwait]
    exact ⟨hrest, hn, by rw [hwait], by rw [hwait]; rfl, hsound⟩

end Request

/-! ### Scripts -/

namespace HandleRecv

open Request

/-- The bytes a result of `recv` brings. -/
def RecvResult.bytes : RecvResult → Bytes
  | .data buf _ => buf
  | _ => []

/-- The bytes a list of results brings. -/
def stream (results : List RecvResult) : Bytes := results.flatMap RecvResult.bytes

@[simp] theorem stream_nil : stream [] = [] := rfl

@[simp] theorem stream_cons (x : RecvResult) (rest : List RecvResult) :
    stream (x :: rest) = x.bytes ++ stream rest := rfl

@[simp] theorem stream_append (xs ys : List RecvResult) :
    stream (xs ++ ys) = stream xs ++ stream ys := List.flatMap_append

/-- The result is `EAGAIN` or a chunk, so that the connection is neither closed nor in error. -/
inductive RecvResult.Arrives : RecvResult → Prop where
  | again : Arrives .again
  | data (buf : Bytes) (ofs : Bool) (h : buf ≠ []) : Arrives (.data buf ofs)

instance : (x : RecvResult) → Decidable x.Arrives
  | .again => .isTrue .again
  | .data buf ofs => decidable_of_iff (buf ≠ []) ⟨.data buf ofs, fun | .data _ _ h => h⟩
  | .closed => .isFalse nofun
  | .failed => .isFalse nofun

/-- The result is `EAGAIN`, or a chunk with the opening of the upload file succeeding. This is what
a script for an upload is made of. -/
inductive RecvResult.Quiet : RecvResult → Prop where
  | again : Quiet .again
  | data (buf : Bytes) (h : buf ≠ []) : Quiet (.data buf true)

/-- Such a result brings bytes or nothing. -/
theorem RecvResult.Quiet.arrives {x : RecvResult} (h : x.Quiet) : x.Arrives := by
  cases h with
  | again => exact .again
  | data buf h => exact .data buf true h

/-- Every turn on these results that comes to the content stage runs it. -/
def Passes : List RecvResult → Request → Prop
  | [], _ => True
  | .data buf ofs :: rest, r => ∀ r', (r.push buf).drained = .ok r' →
      r'.Fits ofs ∧ (r'.settle.handed = none → Passes rest r'.settle.request)
  | _ :: rest, r => Passes rest r

/-- What a list of actions shows: the bytes received, the requests completed, the resources handed
over, and the bytes appended to files. -/
structure Shows (acts : List Action) (bytes : Bytes) (requests : List (Bytes × Bytes))
    (names : List Bytes) (files : Bytes → Bytes) : Prop where
  received : received acts = bytes
  completed : completed acts = requests
  handedOver : handedOver acts = names
  appendedTo : ∀ path, appendedTo path acts = files path

theorem Shows.append {as bs : List Action} {x y : Bytes} {ps qs : List (Bytes × Bytes)}
    {ms ns : List Bytes} {f g : Bytes → Bytes} (ha : Shows as x ps ms f) (hb : Shows bs y qs ns g) :
    Shows (as ++ bs) (x ++ y) (ps ++ qs) (ms ++ ns) fun path => f path ++ g path where
  received := by rw [received_append, ha.received, hb.received]
  completed := by rw [completed_append, ha.completed, hb.completed]
  handedOver := by rw [handedOver_append, ha.handedOver, hb.handedOver]
  appendedTo path := by rw [appendedTo_append, ha.appendedTo, hb.appendedTo]

/-- Reading the request line is seen by nobody outside: it neither completes a request nor writes to
a file. -/
theorem shows_requestLine (r : Request) :
    Shows (requestLineStage r).2 [] [] [] fun _ => [] := by
  unfold requestLineStage
  split
  · split <;> exact ⟨rfl, rfl, rfl, fun _ => rfl⟩
  · exact ⟨rfl, rfl, rfl, fun _ => rfl⟩

/-- A completed request is shown with its method and its resource. -/
theorem shows_processed (method resource : Bytes) :
    Shows [.processed method resource] [] [(method, resource)] [] fun _ => [] :=
  ⟨rfl, rfl, rfl, fun _ => rfl⟩

/-- What a turn that follows a decision shows: the chunk, the resource handed over, if any, and the
bytes written to the upload file. -/
theorem shows_turn (r : Request) (buf : Bytes) (o : Outcome) :
    Shows (.recvd buf :: (requestLineStage r).2 ++ o.acts) buf [] o.handed.toList o.writtenTo := by
  have hrecvd : Shows [.recvd buf] buf [] [] fun _ => [] :=
    ⟨by simp [Action.received], rfl, rfl, fun _ => rfl⟩
  have hacts : Shows o.acts [] [] o.handed.toList o.writtenTo :=
    ⟨by simp, by simp, by simp, by simp⟩
  have h := (hrecvd.append (shows_requestLine r)).append hacts
  simpa using h

/-! ### Runs absorb -/

/-- Running on a chunk that asks for no response: the request has absorbed it, and the run goes on
with the rest of the script. The actions of this chunk are found apart from those behind it. -/
theorem run_data_pending {buf : Bytes} {ofs : Bool} {r : Request} (hr : r.AtRest) {o : Outcome}
    (hfit : ∀ r', (r.push buf).drained = .ok r' → r'.Fits ofs) (ho : r.absorb buf = .ok o)
    (hn : o.handed = none) (tail : List RecvResult) :
    ∃ acts, run (.data buf ofs :: tail) (some r) = (run tail (some o.request)).prepend acts ∧
      Shows acts buf [] [] o.writtenTo := by
  have hrest := absorb_atRest hr.sound ho hn
  obtain ⟨r', hd, rfl⟩ := drained_of_absorb ho
  have hturn := recvTurn_follows hr.live hd (hfit r' hd)
  have hflow := hturn.flow
  rw [if_pos hn] at hflow
  have hreq := hturn.msg hrest.live
  have hshows := shows_turn (r.push buf) buf r'.settle
  rw [← hturn.acts, hn] at hshows
  refine ⟨(recvTurn buf ofs r).acts ++
    (if tail = [] then [.modifyWaitFd true true false] else []), ?_, ?_⟩
  · rw [run_cons, Option.getD_some, resume_data_again hflow, hreq,
      resume_eq_run tail hrest.live hrest.sound, Call.prepend_prepend]
  · have hmod : Shows (if tail = [] then [.modifyWaitFd true true false] else []) [] [] []
        fun _ => [] := by
      split <;> exact ⟨rfl, rfl, rfl, fun _ => rfl⟩
    simpa using hshows.append hmod

/-- The first chunk of a script passes, and the rest of the script passes behind it. -/
theorem passes_data {buf : Bytes} {ofs : Bool} {rest : List RecvResult} {r : Request} {o : Outcome}
    (ho : r.absorb buf = .ok o) (hp : Passes (.data buf ofs :: rest) r) :
    (∀ r', (r.push buf).drained = .ok r' → r'.Fits ofs) ∧
      (o.handed = none → Passes rest o.request) := by
  refine ⟨fun r' hd => (hp r' hd).1, fun hn => ?_⟩
  obtain ⟨r', hd, rfl⟩ := drained_of_absorb ho
  exact (hp r' hd).2 hn

/-- The passes of a script, part by part: the second part begins with what the first has left. -/
theorem passes_append {s t : List RecvResult} (hq : ∀ x ∈ s, x.Arrives) {r : Request}
    (hr : r.AtRest) (hp : Passes (s ++ t) r) {o : Outcome} (ho : r.absorb (stream s) = .ok o)
    (hn : o.handed = none) : Passes s r ∧ Passes t o.request := by
  induction s generalizing r o with
  | nil =>
    rw [stream_nil, hr.absorb_nil] at ho
    obtain rfl : r.settle = o := Except.ok.inj ho
    rw [hr.request]
    exact ⟨trivial, hp⟩
  | cons x s ih =>
    have hqs : ∀ y ∈ s, y.Arrives := fun y hy => hq y (List.mem_cons_of_mem x hy)
    cases hq x List.mem_cons_self with
    | again => exact ih hqs hr hp ho hn
    | data buf ofs hbuf =>
      obtain ⟨o₁, o₂, ho₁, hn₁, ho₂, hn₂, rfl⟩ :=
        absorb_split (show r.absorb (buf ++ stream s) = .ok o from ho) hn
      obtain ⟨hfit, hpass⟩ := passes_data ho₁ hp
      obtain ⟨hs, ht⟩ := ih hqs (absorb_atRest hr.sound ho₁ hn₁) (hpass hn₁) ho₂ hn₂
      refine ⟨fun r' hd => ⟨hfit r' hd, fun hn' => ?_⟩, ht⟩
      obtain rfl : r'.settle = o₁ := Except.ok.inj ((absorb_of_drained hd).symm.trans ho₁)
      exact hs

/-- **Calls absorb what they receive**, as long as no response is asked for. -/
theorem run_absorb {s : List RecvResult} (hq : ∀ x ∈ s, x.Arrives) {r : Request} (hr : r.AtRest)
    (hp : Passes s r) {o : Outcome} (ho : r.absorb (stream s) = .ok o) (hn : o.handed = none)
    (tail : List RecvResult) :
    ∃ acts, run (s ++ tail) (some r) = (run tail (some o.request)).prepend acts ∧
      Shows acts (stream s) [] [] o.writtenTo := by
  induction s generalizing r o with
  | nil =>
    rw [stream_nil, hr.absorb_nil] at ho
    obtain rfl : r.settle = o := Except.ok.inj ho
    refine ⟨[], ?_, rfl, rfl, rfl, fun path => ?_⟩
    · rw [hr.request]
      rfl
    · simp [Outcome.writtenTo, hr.written]
  | cons x s ih =>
    have hqs : ∀ y ∈ s, y.Arrives := fun y hy => hq y (List.mem_cons_of_mem x hy)
    cases hq x List.mem_cons_self with
    | again =>
      obtain ⟨acts, hrun, hshows⟩ := ih hqs hr hp ho hn
      refine ⟨.modifyWaitFd true true false :: acts, ?_, ?_⟩
      · rw [List.cons_append, run_cons, Option.getD_some, resume_again _ hr.live hr.sound, hrun,
          Call.prepend_prepend]
        rfl
      · exact ⟨hshows.received, hshows.completed, hshows.handedOver, hshows.appendedTo⟩
    | data buf ofs hbuf =>
      -- the chunk asks for nothing, and the rest goes on from where it leaves
      obtain ⟨o₁, o₂, ho₁, hn₁, ho₂, hn₂, rfl⟩ :=
        absorb_split (show r.absorb (buf ++ stream s) = .ok o from ho) hn
      obtain ⟨hfit, hpass⟩ := passes_data ho₁ hp
      obtain ⟨acts₁, hrun₁, hshows₁⟩ := run_data_pending hr hfit ho₁ hn₁ (s ++ tail)
      obtain ⟨acts₂, hrun₂, hshows₂⟩ :=
        ih hqs (absorb_atRest hr.sound ho₁ hn₁) (hpass hn₁) ho₂ hn₂
      refine ⟨acts₁ ++ acts₂, ?_, ?_⟩
      · rw [List.cons_append, hrun₁, hrun₂, Call.prepend_prepend]
        rfl
      · have h := hshows₁.append hshows₂
        refine ⟨h.received, h.completed, h.handedOver, fun path => ?_⟩
        rw [h.appendedTo, writtenTo_after ho₁ hn₁ ho₂]

/-- Running on the chunk that completes the request: the entry is erased, so the run goes on with
none. -/
theorem run_data_complete {buf : Bytes} {ofs : Bool} {r : Request} (hr : r.AtRest) {o : Outcome}
    (hfit : ∀ r', (r.push buf).drained = .ok r' → r'.Fits ofs) (ho : r.absorb buf = .ok o)
    (hc : o.request.status = .handleComplete) (tail : List RecvResult) :
    ∃ acts, run (.data buf ofs :: tail) (some r) =
        (run tail none).prepend
          (acts ++ [.processed o.request.requestMethod o.request.requestResource]) ∧
      Shows acts buf [] o.handed.toList o.writtenTo := by
  have hh : o.handed ≠ none := fun hn => (absorb_atRest hr.sound ho hn).live hc
  obtain ⟨r', hd, rfl⟩ := drained_of_absorb ho
  have hturn := recvTurn_follows hr.live hd (hfit r' hd)
  have hflow := hturn.flow
  rw [if_neg hh] at hflow
  have hshows := shows_turn (r.push buf) buf r'.settle
  rw [← hturn.acts] at hshows
  have hfinish : finish (recvTurn buf ofs r).request =
      (none, [.processed r'.settle.request.requestMethod r'.settle.request.requestResource]) := by
    have hs : (recvTurn buf ofs r).request.status = .handleComplete :=
      (congrArg Request.status hturn.request).trans hc
    have hm : (recvTurn buf ofs r).request.requestMethod = r'.settle.request.requestMethod := by
      simpa using congrArg Request.requestMethod hturn.request
    have hn : (recvTurn buf ofs r).request.requestResource = r'.settle.request.requestResource := by
      simpa using congrArg Request.requestResource hturn.request
    rw [finish, if_pos hs, hm, hn]
  exact ⟨_, by rw [run_cons, Option.getD_some, resume_data_leave hflow, hfinish], hshows⟩

/-- **The chunk that completes the request ends the call.** The request is erased with what it has
not consumed, and the next call begins with a new one. -/
theorem run_absorb_complete {s : List RecvResult} (hq : ∀ x ∈ s, x.Arrives) {r : Request}
    (hr : r.AtRest) {buf : Bytes} {ofs : Bool} (hp : Passes (s ++ [.data buf ofs]) r)
    {o₁ o : Outcome}
    (ho₁ : r.absorb (stream s) = .ok o₁) (hn₁ : o₁.handed = none)
    (ho : r.absorb (stream s ++ buf) = .ok o) (hc : o.request.status = .handleComplete)
    (tail : List RecvResult) :
    ∃ acts, run (s ++ .data buf ofs :: tail) (some r) =
        (run tail none).prepend
          (acts ++ [.processed o.request.requestMethod o.request.requestResource]) ∧
      Shows acts (stream s ++ buf) [] o.handed.toList o.writtenTo := by
  obtain ⟨hps, hpbuf⟩ := passes_append hq hr hp ho₁ hn₁
  obtain ⟨acts₁, hrun₁, hshows₁⟩ := run_absorb hq hr hps ho₁ hn₁ (.data buf ofs :: tail)
  have hsplit := absorb_append ho₁ hn₁ buf
  rw [ho] at hsplit
  cases ho₂ : o₁.request.absorb buf with
  | error f => rw [ho₂] at hsplit; cases hsplit
  | ok o₂ =>
    rw [ho₂] at hsplit
    obtain rfl : o = o₂.after (o₁.written.getD []) := Except.ok.inj hsplit
    obtain ⟨hfit, -⟩ := passes_data ho₂ hpbuf
    obtain ⟨acts₂, hrun₂, hshows₂⟩ :=
      run_data_complete (absorb_atRest hr.sound ho₁ hn₁) hfit ho₂ hc tail
    refine ⟨acts₁ ++ acts₂, by
      rw [hrun₁, hrun₂, Call.prepend_prepend, ← List.append_assoc]
      rfl, ?_⟩
    have h := hshows₁.append hshows₂
    refine ⟨h.received, h.completed, h.handedOver, fun path => ?_⟩
    rw [h.appendedTo, writtenTo_after ho₁ hn₁ ho₂]

/-- **A line that is refused ends the process**, wherever it is completed. -/
theorem run_absorb_error {s : List RecvResult} (hq : ∀ x ∈ s, x.Arrives) {r : Request}
    (hr : r.AtRest) (hp : Passes s r) {f : Fault} (ho : r.absorb (stream s) = .error f)
    (tail : List RecvResult) : (run (s ++ tail) (some r)).crash = some f := by
  induction s generalizing r with
  | nil =>
    rw [stream_nil, hr.absorb_nil] at ho
    cases ho
  | cons x s ih =>
    have hqs : ∀ y ∈ s, y.Arrives := fun y hy => hq y (List.mem_cons_of_mem x hy)
    cases hq x List.mem_cons_self with
    | again =>
      rw [List.cons_append, run_cons, Option.getD_some, resume_again _ hr.live hr.sound]
      exact ih hqs hr hp ho
    | data buf ofs hbuf =>
      rw [List.cons_append, run_cons, Option.getD_some]
      cases hd : (r.push buf).drained with
      | error f' =>
        have herr : r.absorb buf = .error f' := absorb_of_refused hd
        rw [stream_cons, show RecvResult.bytes (.data buf ofs) = buf from rfl,
          absorb_append_of_error herr] at ho
        cases ho
        have hflow : (recvTurn buf ofs r).flow = .crash f := by rw [recvTurn_of_error ofs hd]
        rw [resume_data_crash hflow]
      | ok r' =>
        have ho₁ : r.absorb buf = .ok r'.settle := absorb_of_drained hd
        -- a part that asks for a response is not refused later
        have hn₁ : r'.settle.handed = none := by
          by_contra hh
          obtain ⟨o', ho', -⟩ := absorb_append_handed ho₁ hh (stream s)
          rw [show r.absorb (buf ++ stream s) = .error f from ho] at ho'
          cases ho'
        obtain ⟨hfit, hpass⟩ := passes_data ho₁ hp
        obtain ⟨acts, hrun, -⟩ := run_data_pending hr hfit ho₁ hn₁ (s ++ tail)
        rw [run_cons, Option.getD_some] at hrun
        rw [hrun, Call.prepend_crash]
        refine ih hqs (absorb_atRest hr.sound ho₁ hn₁) (hpass hn₁) ?_
        have hsplit := absorb_append ho₁ hn₁ (stream s)
        rw [show r.absorb (buf ++ stream s) = .error f from ho] at hsplit
        cases ho₂ : r'.settle.request.absorb (stream s) with
        | error f' =>
          rw [ho₂] at hsplit
          exact hsplit.symm
        | ok o₂ => rw [ho₂] at hsplit; cases hsplit

end HandleRecv

end Cherokee
