import Cherokee.Simulated

/-!
# A call of `HandleRecv` and the store

A call that receives a part of a request is answered by the store: nothing happens there before the
content of an upload is stored for the first time, which makes its file, and before the request is
complete.

* `Simulated.recv`: a call of `HandleRecv` in an orderly run.
-/

namespace Cherokee

open HandleSend HandleRecv

/-- A response that is asked for is still to be constructed, and nothing is written into it. -/
theorem Blank.setBodyFileName {response : Option Response} (h : Blank response) (fresh : Uninit)
    (name : Bytes) : (Response.setBodyFileName fresh response name).status = .handleInit ∧
      (Response.setBodyFileName fresh response name).msgBody = [] := by
  cases response with
  | none => exact ⟨rfl, rfl⟩
  | some r => exact ⟨(h r rfl).1, (h r rfl).2.2⟩

/-- The call, on the response entry of its descriptor. -/
def HandleRecv.Call.on (fresh : Uninit) (response : Option Response) (p : HandleRecv.Call) :
    HandleSend.Call :=
  ⟨p.request, handOver fresh response p.acts, p.acts, p.crash⟩

namespace HandleRecv

variable {p : Call} {m : Message} {y : Bytes} {d : Option Bytes} {before : List Action}

/-- A call that leaves the message unfinished, on both accounts. -/
theorem Takes.waits (takes : Takes m y d before) (fresh : Uninit) (response : Option Response)
    (hacts : p.acts = before ++ [.modifyWaitFd true true false]) (e : Exchange) :
    (p.on fresh response).response = response ∧ (p.on fresh response).acts.foldl Exchange.enter e =
      { e with got := e.got ++ y, storing := if d = none then e.storing else m.path } := by
  refine ⟨?_, ?_⟩
  · rw [Call.on, hacts, Conn.handOver_append _ _ takes.receiving]
    rfl
  · rw [Call.on, hacts, List.foldl_append, takes.entered]
    rfl

/-- A call that completes the message. -/
theorem Takes.completes (takes : Takes m y d before) (fresh : Uninit) (response : Option Response)
    (hacts : p.acts = before ++
      [.setBodyFileName m.handed, .modifyWaitFd true true true, .processed m.asked.1 m.asked.2])
    (e : Exchange) : (p.on fresh response).response =
        some (Response.setBodyFileName fresh response m.handed) ∧
      (p.on fresh response).acts.foldl Exchange.enter e =
        { e with got := e.got ++ y, asked := true, storing := none } := by
  refine ⟨?_, ?_⟩
  · rw [Call.on, hacts, Conn.handOver_append _ _ takes.receiving]
    rfl
  · rw [Call.on, hacts, List.foldl_append, takes.entered]
    rfl

/-- What is done behind the message touches no file and puts nothing on the connection. -/
theorem plain_waits : ∀ act ∈ [Action.modifyWaitFd true true false],
    act.touched = none ∧ act.onWire = [] ∧ act ≠ .closeClient := by
  simp [Action.touched, Action.onWire]

/-- What hands a complete request over touches no file either. -/
theorem plain_completes (name method resource : Bytes) : ∀ act ∈ [Action.setBodyFileName name,
      .modifyWaitFd true true true, .processed method resource],
    act.touched = none ∧ act.onWire = [] ∧ act ≠ .closeClient := by
  simp [Action.touched, Action.onWire]

end HandleRecv

namespace Simulated

open FileServer

variable {s : FileServer} {a b : FileStore} {script : ℕ → ℕ → Message} {files : Bytes → File}
  {fd : ℤ} {c : ℕ} {x : HandleSend.Call}

/-! ### Receiving -/

section Recv

variable {page : Bytes} {before last : List Action} {y : Bytes} {d : Option Bytes}

/-- A call that has taken `y` of the message and stored `d` of it. What is done behind touches no
file and puts nothing on the connection. -/
theorem recv_goes (h : Simulated script files s a) (hfd : s.base.conn fd = some c)
    (hapart : s.Apart c x.acts) (hreturns : s.Returns c x) {m : Message}
    (hacts : x.acts = before ++ last) (htakes : Takes m y d before)
    (hlast : ∀ act ∈ last, act.touched = none ∧ act.onWire = [] ∧ act ≠ .closeClient)
    {e : Exchange} (hentered : x.acts.foldl Exchange.enter (s.exchange c) = e)
    (hanswered : e.answered = (s.exchange c).answered)
    (hstoring : ∀ path, e.storing = some path → some path = m.path)
    (hown : ∀ path, (s.exchange c).storing = some path → some path = m.path)
    {es : List StoreOp} {next : Session}
    (hgoes : Goes page (script c) (a.files files) (a.session c) es next)
    (hwire : (a.session c).wire = next.wire) (hserved : (a.session c).served = next.served)
    (hnone : d = none → es = [] ∧ e.storing = (s.exchange c).storing)
    (hops : ∀ path, some path ≠ m.path → filesAfter (a.files files) es path = a.files files path)
    (hpath : ∀ path, some path = m.path → e.storing ≠ some path → d ≠ none →
      joined (s.disk.file path) d = filesAfter (a.files files) es path)
    (hm : m = script c next.served)
    (hstage : Stage m (s.disk.afterAll x.acts) (filesAfter (a.files files) es) e
      x.request x.response next.phase) :
    ∃ ms b, (fileStore files page script).run a ms = some b ∧
      Simulated script files (s.behind fd c x) b := by
  -- if anything has been stored, the file of the upload is among what the call touches
  have htouched (path : Bytes) (hp : some path = m.path) (hd : d ≠ none) :
      ∃ act ∈ x.acts, act.touched = some path := by
    obtain ⟨act, hact, ht⟩ := htakes.touched hd hp.symm
    exact ⟨act, hacts ▸ List.mem_append_left last hact, ht⟩
  -- the file of the message has what has been stored behind what it held, and any other file is as
  -- it was
  have hfile (path : Bytes) (f : File) :
      fileAfter path f x.acts = if some path = m.path then joined f d else f := by
    have hbehind : fileAfter path (fileAfter path f before) last = fileAfter path f before := by
      refine fileAfter_of_not_alters (fun act hact ha => ?_) _
      have ht := (hlast act hact).1
      rw [Action.touched_of_alters ha] at ht
      exact Option.some_ne_none path ht
    rw [hacts, fileAfter_append, hbehind]
    split
    · next hp => exact htakes.stored path hp.symm f
    · next hp => exact htakes.others path hp f
  -- neither what is received nor what is done behind closes the connection
  have hcloses : closes x.acts = false := by
    rw [hacts, Conn.closes_append, Conn.closes_receiving htakes.receiving, Bool.false_or]
    exact Conn.closes_eq_false.mpr fun hc => (hlast _ hc).2.2 rfl
  -- what the answer says of a call, one part after the other
  refine h.goes hfd hapart hreturns ?_ hgoes (.of_goes ?_ ?_ ?_ ?_ ?_ ?_ ?_)
  · intro path d' hopen
    rw [hacts] at hopen
    rcases List.mem_append.mp hopen with hopen | hopen
    · exact (htakes.opens path _ hopen).elim
    · cases (hlast _ hopen).1
  · intro path huntouched
    by_cases hp : some path = m.path
    · by_cases hd : d = none
      · rw [(hnone hd).1, filesAfter_nil]
      · obtain ⟨act, hact, ht⟩ := htouched path hp hd
        exact absurd ht (huntouched act hact)
    · exact hops path hp
  · rw [← hwire, hacts, onWire_append, htakes.onWire, List.nil_append]
    have hsilent : onWire last = [] := List.flatMap_eq_nil_iff.mpr fun act hact =>
      (hlast act hact).2.1
    rw [hsilent, List.append_nil]
  · rw [hentered, hanswered, h.served, hserved]
  · intro path hp
    rw [hentered] at hp
    by_cases hd : d = none
    · exact .inl ((hnone hd).2 ▸ hp)
    · exact .inr (htouched path (hstoring path hp) hd)
  · intro _
    rw [hentered, ← hm]
    exact hstage
  · intro hc
    rw [hcloses] at hc
    cases hc
  · intro path hp hothers
    rw [hentered] at hp
    rw [hfile]
    -- the file of the message, which has something new, or has not been touched
    by_cases hpm : some path = m.path
    · rw [if_pos hpm]
      by_cases hd : d = none
      · rw [(hnone hd).2] at hp
        rw [hd, (hnone hd).1]
        refine h.settled path fun c' => ?_
        by_cases hc : c' = c
        · exact hc ▸ hp
        · exact hothers c' hc
      · exact hpath path hpm hp hd
    · rw [if_neg hpm, hops path hpm]
      refine h.settled path fun c' => ?_
      by_cases hc : c' = c
      · exact fun hs => hpm (hown path (hc ▸ hs))
      · exact hothers c' hc

/-! A call that finds its connection waiting for the next request. It takes a part of the request,
and the store answers as soon as something has been stored, or the request is complete. -/

section Waiting

variable {p : HandleRecv.Call} {fresh : Uninit} {m : Message}

/-- **What is touched is the file of the store.** A call that stores a part of an upload may do so
only where no other connection is uploading to the file, and then the server and the store have the
same content for it. -/
theorem file_of_takes (h : Simulated script files s a) (hapart : s.Apart c x.acts)
    (unstored : (s.exchange c).storing = none) (hacts : x.acts = before ++ last)
    (takes : Takes m y d before) (hd : d ≠ none) {path : Bytes} (hp : some path = m.path) :
    s.disk.file path = a.files files path := by
  refine h.file_of_touched hapart (by rw [unstored]; exact (Option.some_ne_none path).symm) ?_
  obtain ⟨act, hact, ht⟩ := takes.touched hd hp.symm
  exact ⟨act, hacts ▸ List.mem_append_left last hact, ht⟩

variable (h : Simulated script files s a) (hfd : s.base.conn fd = some c)
  (hm : m = script c (a.session c).served) (hphase : (a.session c).phase = .waiting)
  (hx : x = p.on fresh (s.base.responseStatus fd)) (hapart : s.Apart c x.acts)
  (hreturns : s.Returns c x) (unasked : (s.exchange c).asked = false)
  (unstored : (s.exchange c).storing = none) (unsent : (s.exchange c).sending = none)
  (blank : Blank (s.base.responseStatus fd))

include h hfd hm hphase hx hapart hreturns unasked unstored unsent blank

/-- A part of the request has arrived and nothing has been stored: in the store nothing happens, and
the connection still waits. -/
theorem recv_part {r : Request} (request : p.request = some r)
    (hacts : p.acts = before ++ [.modifyWaitFd true true false]) (takes : Takes m y none before)
    (stands : m.At ((s.exchange c).got ++ y) none r) :
    ∃ ms b, (fileStore files page script).run a ms = some b ∧
      Simulated script files (s.behind fd c x) b := by
  obtain ⟨hresponse, hentered⟩ := takes.waits fresh
    (s.base.responseStatus fd) hacts (s.exchange c)
  rw [← hx] at hresponse hentered
  have hxacts : x.acts = before ++ [.modifyWaitFd true true false] := by rw [hx]; exact hacts
  have hrequest : x.request.getD Request.init = r := by
    rw [hx]
    exact congrArg (Option.getD · _) request
  have hown (path : Bytes) (hp : (s.exchange c).storing = some path) : some path = m.path := by
    rw [unstored] at hp
    cases hp
  refine h.recv_goes hfd hapart hreturns hxacts takes plain_waits hentered rfl hown hown .refl rfl
    rfl (fun _ => ⟨rfl, rfl⟩) (fun _ _ => rfl) (fun _ _ _ hd => absurd rfl hd) hm ?_
  rw [hphase, hresponse]
  exact .waiting (hrequest ▸ stands) unasked unstored unsent blank

/-- An upload has begun, and its first bytes have been stored: the store makes the file. -/
theorem recv_begins {content : Bytes} {r : Request} (request : p.request = some r)
    (hacts : p.acts = before ++ [.modifyWaitFd true true false])
    (takes : Takes m y (some content) before)
    (stands : m.At ((s.exchange c).got ++ y) (some content) r) :
    ∃ ms b, (fileStore files page script).run a ms = some b ∧
      Simulated script files (s.behind fd c x) b := by
  obtain ⟨hresponse, hentered⟩ := takes.waits fresh
    (s.base.responseStatus fd) hacts (s.exchange c)
  rw [← hx] at hresponse hentered
  have hxacts : x.acts = before ++ [.modifyWaitFd true true false] := by rw [hx]; exact hacts
  have hrequest : x.request.getD Request.init = r := by
    rw [hx]
    exact congrArg (Option.getD · _) request
  have hown (path : Bytes) (hp : (s.exchange c).storing = some path) : some path = m.path := by
    rw [unstored] at hp
    cases hp
  -- the file is the one of the store, as nobody else is uploading to it
  have hsettled {path : Bytes} (hp : some path = m.path) : s.disk.file path = a.files files path :=
    h.file_of_takes hapart unstored hxacts takes (Option.some_ne_none content) hp
  -- only of an upload is anything stored
  obtain ⟨u, rfl⟩ := stands.upload
  have hmoves : Moves page (a.files files) (script c (a.session c).served) (a.session c)
      (some (.made u.path)) ((a.session c).enter .storing) := .makes hm.symm hphase
  refine h.recv_goes hfd hapart hreturns hxacts takes plain_waits hentered rfl
    (fun path hp => hp.symm) hown hmoves.goes rfl rfl
    (fun hd => absurd hd (Option.some_ne_none content))
    ?_ (fun path hp hne _ => absurd hp.symm hne) hm ?_
  · intro path hp
    exact if_neg fun hpath => hp (congrArg some hpath.symm)
  · rw [hresponse]
    refine .storing rfl (hrequest ▸ stands) unasked rfl unsent blank (if_pos rfl) ?_
    rw [file_behind hapart, hxacts, fileAfter_append, takes.stored u.path rfl, hsettled rfl]
    rfl

omit unasked in
/-- The request is complete: the store has come to where its response is asked for, by a move for a
`GET`, and by making and storing the file of an upload that has arrived in one call. -/
theorem recv_whole (request : p.request = none)
    (hacts : p.acts = before ++ [.setBodyFileName m.handed, .modifyWaitFd true true true,
      .processed m.asked.1 m.asked.2])
    (takes : Takes m y d before) (stores : m.path ≠ none → d ≠ none)
    (whole : (s.exchange c).got ++ y = m.bytes) (content : joined none d = m.content) :
    ∃ ms b, (fileStore files page script).run a ms = some b ∧
      Simulated script files (s.behind fd c x) b := by
  obtain ⟨hresponse, hentered⟩ := takes.completes fresh
    (s.base.responseStatus fd) hacts (s.exchange c)
  rw [← hx] at hresponse hentered
  have hxacts : x.acts = before ++ [.setBodyFileName m.handed, .modifyWaitFd true true true,
      .processed m.asked.1 m.asked.2] := by
    rw [hx]
    exact hacts
  have hrequest : x.request.getD Request.init = Request.init := by
    rw [hx]
    exact congrArg (Option.getD · _) request
  have hown (path : Bytes) (hp : (s.exchange c).storing = some path) : some path = m.path := by
    rw [unstored] at hp
    cases hp
  have hstage (es : List StoreOp) :
      Stage m (s.disk.afterAll x.acts) (filesAfter (a.files files) es)
        { s.exchange c with got := (s.exchange c).got ++ y, asked := true, storing := none }
        x.request x.response (.asked m.handed) :=
    .asked whole hrequest rfl rfl unsent hresponse (blank.setBodyFileName fresh m.handed).1 rfl
      (blank.setBodyFileName fresh m.handed).2
  have hplain := plain_completes m.handed m.asked.1 m.asked.2
  have hnew (path : Bytes) (hp : none = some path) : some path = m.path := by cases hp
  -- a request with a body is an upload, and has been stored in this one call
  cases m with
  | get g isGet =>
    have hd : d = none := by
      cases d with
      | none => rfl
      | some d => cases content
    have hmoves : Moves page (a.files files) (script c (a.session c).served) (a.session c) none
        ((a.session c).enter (.asked g.line.resource)) := .asks hm.symm hphase
    exact h.recv_goes hfd hapart hreturns hxacts takes hplain hentered rfl hnew hown
      hmoves.goes rfl rfl (fun _ => ⟨rfl, unstored.symm⟩) (fun _ _ => rfl)
      (fun _ _ _ hne => absurd hd hne) hm (hstage [])
  | upload u =>
    obtain ⟨d, rfl⟩ := Option.ne_none_iff_exists'.mp (stores (Option.some_ne_none u.path))
    obtain rfl : d = u.content := Option.some.inj content
    -- the session makes the file, stores the content and asks, all in this call
    have hgoes : Goes page (script c) (a.files files) (a.session c)
        [.made u.path, .stored u.path u.content]
        ((a.session c).enter (.asked (lit "/redirect"))) := by
      have hmakes : Moves page (a.files files) (script c (a.session c).served) (a.session c)
          (some (.made u.path)) ((a.session c).enter .storing) := .makes hm.symm hphase
      exact .step hmakes.goes (.stores hm.symm rfl)
    refine h.recv_goes hfd hapart hreturns hxacts takes hplain hentered rfl hnew hown
      hgoes rfl rfl (fun hd => absurd hd (Option.some_ne_none _)) ?_ ?_ hm (hstage _)
    · intro path hp
      have hne : ¬ u.path = path := fun hpath => hp (congrArg some hpath.symm)
      exact (if_neg hne).trans (if_neg hne)
    · intro path hp _ hd
      rw [h.file_of_takes hapart unstored hxacts takes hd hp]
      cases hp
      simp [StoreOp.apply, StoreOp.on]

/-- A call that takes a part of the next request, of which nothing has been stored yet. -/
theorem recv_waiting (htakes : CallTakes m (s.exchange c).got none p) :
    ∃ ms b, (fileStore files page script).run a ms = some b ∧
      Simulated script files (s.behind fd c x) b := by
  cases htakes with
  | waits y d before r crash request hacts takes stands =>
    cases d with
    | none =>
      exact h.recv_part hfd hm hphase hx hapart hreturns unasked unstored unsent blank request hacts
        takes stands
    | some content =>
      exact h.recv_begins hfd hm hphase hx hapart hreturns unasked unstored unsent blank request
        hacts takes stands
  | completes y d before crash request hacts takes stores whole content =>
    exact h.recv_whole hfd hm hphase hx hapart hreturns unstored unsent blank request hacts takes
      stores whole content
  -- the call returns
  | crashes f crash =>
    have hcrash := hreturns.crash
    rw [hx] at hcrash
    exact absurd (crash.symm.trans hcrash) (Option.some_ne_none f)

end Waiting

/-! A call that finds an upload arriving, of which a part has been stored. Its file has been made in
the store, where it stays as it is until the upload is complete. -/

section Storing

variable {p : HandleRecv.Call} {fresh : Uninit} {u : Upload} {w old : Bytes}
  (h : Simulated script files s a) (hfd : s.base.conn fd = some c)
  (hm : .upload u = script c (a.session c).served) (hphase : (a.session c).phase = .storing)
  (hx : x = p.on fresh (s.base.responseStatus fd)) (hapart : s.Apart c x.acts)
  (hreturns : s.Returns c x) (unasked : (s.exchange c).asked = false)
  (stored : (s.exchange c).storing = some u.path) (unsent : (s.exchange c).sending = none)
  (blank : Blank (s.base.responseStatus fd)) (made : a.files files u.path = some old)
  (held : s.disk.file u.path = some (old ++ w))

include h hfd hm hphase hx hapart hreturns unasked stored unsent blank made held

/-- More of the upload has arrived: what is appended to the file is behind what has been stored of
it before, and in the store nothing happens. -/
theorem recv_more {r : Request} (request : p.request = some r)
    (hacts : p.acts = before ++ [.modifyWaitFd true true false])
    (takes : Takes (.upload u) y d before)
    (stands : (Message.upload u).At ((s.exchange c).got ++ y) (joined (some w) d) r) :
    ∃ ms b, (fileStore files page script).run a ms = some b ∧
      Simulated script files (s.behind fd c x) b := by
  obtain ⟨hresponse, hentered⟩ := takes.waits fresh
    (s.base.responseStatus fd) hacts (s.exchange c)
  -- the file that is being stored is still the same
  have hsame : (if d = none then (s.exchange c).storing else (Message.upload u).path) =
      (s.exchange c).storing := by
    rw [stored]
    exact ite_self _
  rw [← hx, hsame] at hentered
  rw [← hx] at hresponse
  have hxacts : x.acts = before ++ [.modifyWaitFd true true false] := by rw [hx]; exact hacts
  have hrequest : x.request.getD Request.init = r := by
    rw [hx]
    exact congrArg (Option.getD · _) request
  have hown (path : Bytes) (hp : (s.exchange c).storing = some path) :
      some path = (Message.upload u).path := hp.symm.trans stored
  refine h.recv_goes hfd hapart hreturns hxacts takes plain_waits hentered rfl hown hown
    .refl rfl rfl (fun _ => ⟨rfl, rfl⟩) (fun _ _ => rfl) ?_ hm ?_
  · intro path hp hne _
    exact absurd (stored.trans hp.symm) hne
  · rw [hphase, hresponse]
    -- what is appended stands behind what was stored before
    have hfile : (s.disk.afterAll x.acts).file u.path = joined (some (old ++ w)) d := by
      rw [file_behind hapart, hxacts, fileAfter_append, takes.stored u.path rfl, held]
      rfl
    cases d with
    | none => exact .storing rfl (hrequest ▸ stands) unasked stored unsent blank made hfile
    | some d =>
      refine .storing rfl (hrequest ▸ stands) unasked stored unsent blank made ?_
      rw [hfile, ← List.append_assoc]
      rfl

omit unasked in
/-- The upload is complete: what has been appended to its file since it was made is its content, and
the store takes all of it at this moment. -/
theorem recv_last {content : Bytes} (request : p.request = none)
    (hacts : p.acts = before ++ [.setBodyFileName (lit "/redirect"), .modifyWaitFd true true true,
      .processed (lit "POST") u.resource])
    (takes : Takes (.upload u) y (some content) before)
    (whole : (s.exchange c).got ++ y = (Message.upload u).bytes)
    (hcontent : w ++ content = u.content) :
    ∃ ms b, (fileStore files page script).run a ms = some b ∧
      Simulated script files (s.behind fd c x) b := by
  obtain ⟨hresponse, hentered⟩ := takes.completes fresh
    (s.base.responseStatus fd) hacts (s.exchange c)
  rw [← hx] at hresponse hentered
  have hxacts : x.acts = before ++ [.setBodyFileName (lit "/redirect"),
      .modifyWaitFd true true true, .processed (lit "POST") u.resource] := by
    rw [hx]
    exact hacts
  have hrequest : x.request.getD Request.init = Request.init := by
    rw [hx]
    exact congrArg (Option.getD · _) request
  have hown (path : Bytes) (hp : (s.exchange c).storing = some path) :
      some path = (Message.upload u).path := hp.symm.trans stored
  -- the store takes the whole content, at the moment at which the response is asked for
  have hmoves : Moves page (a.files files) (script c (a.session c).served) (a.session c)
      (some (.stored u.path u.content)) ((a.session c).enter (.asked (lit "/redirect"))) :=
    .stores hm.symm hphase
  refine h.recv_goes hfd hapart hreturns hxacts takes (plain_completes _ _ _) hentered rfl
    (fun path hp => absurd hp.symm (Option.some_ne_none path)) hown hmoves.goes rfl rfl
    (fun hd => absurd hd (Option.some_ne_none _)) ?_ ?_ hm ?_
  · intro path hp
    exact if_neg fun hpath => hp (congrArg some hpath.symm)
  -- on both sides the file holds the old content and the upload behind it
  · intro path hp _ _
    cases hp
    rw [held, ← hcontent]
    simp [StoreOp.apply, StoreOp.on, made]
  · exact .asked whole hrequest rfl rfl unsent hresponse (blank.setBodyFileName fresh _).1 rfl
      (blank.setBodyFileName fresh _).2

/-- A call that takes a part of an upload, of which `w` has been stored. -/
theorem recv_storing (htakes : CallTakes (.upload u) (s.exchange c).got (some w) p) :
    ∃ ms b, (fileStore files page script).run a ms = some b ∧
      Simulated script files (s.behind fd c x) b := by
  cases htakes with
  | waits y d before r crash request hacts takes stands =>
    exact h.recv_more hfd hm hphase hx hapart hreturns unasked stored unsent blank made held
      request hacts takes stands
  | completes y d before crash request hacts takes stores whole content =>
    obtain ⟨d, rfl⟩ := Option.ne_none_iff_exists'.mp (stores (Option.some_ne_none u.path))
    exact h.recv_last hfd hm hphase hx hapart hreturns stored unsent blank made held request hacts
      takes whole (Option.some.inj content)
  | crashes f crash =>
    have hcrash := hreturns.crash
    rw [hx] at hcrash
    exact absurd (crash.symm.trans hcrash) (Option.some_ne_none f)

end Storing

/-- **Nothing is taken while a response is owed.** A call that receives nothing reads no further in
the erased request, and leaves the connection where it is. -/
theorem takes_nothing {m : Message} {p : HandleRecv.Call} (hnothing : received p.acts = [])
    (htakes : CallTakes m [] none p) (hcrash : p.crash = none) :
    ∃ before, p.acts = before ++ [.modifyWaitFd true true false] ∧ Takes m [] none before ∧
      p.request = some Request.init := by
  cases htakes with
  | waits y d before r crash request hacts takes stands =>
    -- a call that takes a part of the message has received it
    have hy : y = [] := by
      rw [hacts, received_append, takes.received] at hnothing
      exact (List.append_eq_nil_iff.mp hnothing).1
    subst hy
    obtain ⟨hnone, rfl⟩ := stands.nothing
    cases d with
    | none => exact ⟨before, hacts, takes, request⟩
    | some d => cases hnone
  | completes y d before crash request hacts takes stores whole content =>
    have hy : y = [] := by
      rw [hacts, received_append, takes.received] at hnothing
      exact (List.append_eq_nil_iff.mp hnothing).1
    rw [hy] at whole
    exact absurd whole.symm (Message.bytes_ne_nil _)
  | crashes f crash => exact absurd (crash.symm.trans hcrash) (Option.some_ne_none f)

/-- Behind a whole request nothing is taken while its response is owed: the next request does not
come before the answer, so the call finds nothing to receive. -/
theorem recv_owed (h : Simulated script files s a) (hfd : s.base.conn fd = some c)
    {p : HandleRecv.Call} {fresh : Uninit} (hx : x = p.on fresh (s.base.responseStatus fd))
    (hapart : s.Apart c x.acts) (hreturns : s.Returns c x)
    (hstage : Stage (script c (a.session c).served) s.disk (a.files files) (s.exchange c)
      (s.base.requestStatus fd) (s.base.responseStatus fd) (a.session c).phase)
    (unstored : (s.exchange c).storing = none)
    (erased : (s.base.requestStatus fd).getD Request.init = Request.init)
    (hnothing : received p.acts = [])
    (htakes : CallTakes (script c (a.session c).served) [] none p) :
    ∃ ms b, (fileStore files page script).run a ms = some b ∧
      Simulated script files (s.behind fd c x) b := by
  have hcrash : p.crash = none := by
    have hcrash := hreturns.crash
    rwa [hx] at hcrash
  obtain ⟨before, hacts, takes, request⟩ := takes_nothing hnothing htakes hcrash
  obtain ⟨hresponse, hentered⟩ :=
    takes.waits fresh (s.base.responseStatus fd) hacts (s.exchange c)
  have hxacts : x.acts = before ++ [.modifyWaitFd true true false] := by rw [hx]; exact hacts
  have hrequest : x.request.getD Request.init = (s.base.requestStatus fd).getD Request.init := by
    rw [hx, erased]
    exact congrArg (Option.getD · _) request
  have hsame : x.acts.foldl Exchange.enter (s.exchange c) = s.exchange c := by
    rw [hx, hentered, List.append_nil]
    rfl
  -- what the call does neither opens, closes nor writes over anything
  have hquiet : ∀ act ∈ x.acts, (∀ fd, ¬ act.Renews fd) ∧ act.overwritten = none := by
    intro act hact
    rw [hxacts] at hact
    rcases List.mem_append.mp hact with hact | hact
    · have hreceiving := takes.receiving act hact
      cases act <;> first | exact ⟨fun _ h => h, rfl⟩ | cases hreceiving
    · obtain rfl := List.mem_singleton.mp hact
      exact ⟨fun _ h => h, rfl⟩
  -- so what the connection is being sent is still there
  have hframed : Stage (script c (a.session c).served) (s.disk.afterAll x.acts) (a.files files)
      (s.exchange c) x.request (s.base.responseStatus fd) (a.session c).phase := by
    refine (hstage.frame (fun path hp => ?_) fun d body _ hreads => ?_).congr_request hrequest
    · rw [unstored] at hp
      cases hp
    · refine hreads.afterAll (fun act hact => (hquiet act hact).1 d) fun act hact path hover => ?_
      rw [(hquiet act hact).2] at hover
      cases hover
  have hown (path : Bytes) (hp : (s.exchange c).storing = some path) :
      some path = (script c (a.session c).served).path := by
    rw [unstored] at hp
    cases hp
  refine h.recv_goes hfd hapart hreturns hxacts takes plain_waits hsame rfl hown hown .refl rfl rfl
    (fun _ => ⟨rfl, rfl⟩) (fun _ _ => rfl) (fun _ _ _ hd => absurd rfl hd) rfl ?_
  rw [hx, hresponse, ← hx]
  exact hframed

/-- The client has closed its connection, on which nothing has been asked for. -/
theorem recv_closed (h : Simulated script files s a) (hfd : s.base.conn fd = some c)
    (hx : x = ⟨none, s.base.responseStatus fd, [.deleteWaitFd, .shutdown, .closeClient], none⟩)
    (hapart : s.Apart c x.acts) (hreturns : s.Returns c x) :
    ∃ ms b, (fileStore files page script).run a ms = some b ∧
      Simulated script files (s.behind fd c x) b := by
  have hcloses : closes x.acts = true := by
    rw [hx]
    rfl
  obtain ⟨hasked, hstoring⟩ := hreturns.closes hcloses
  -- a connection on which something is owed is not closed in an orderly run
  have hblank : Blank (s.base.responseStatus fd) := by
    have hstage := h.stage fd c hfd
    generalize hphase : (a.session c).phase = phase at hstage
    cases hstage with
    | waiting arrived unasked unstored unsent blank => exact blank
    | storing message arrived unasked stored unsent blank made held => exact blank
    | asked whole erased asked unstored unsent entry init named blank =>
      rw [asked] at hasked; cases hasked
    | answering whole erased asked unstored file entry sending stands left reads =>
      rw [asked] at hasked
      cases hasked
  have hsame : x.acts.foldl Exchange.enter (s.exchange c) = s.exchange c := by
    rw [hx]
    rfl
  -- the session takes no step, and what the call says of it is read off its three actions
  have hgoes : Goes page (script c) (a.files files) (a.session c) [] (a.session c) := .refl
  refine h.goes hfd hapart hreturns ?_ hgoes
    (.of_goes (fun _ _ => rfl) ?_ ?_ ?_ ?_ ?_ ?_)
  · intro path d hopen
    rw [hx] at hopen
    simp at hopen
  · rw [hx]
    exact List.append_nil _
  · rw [hsame]
    exact h.served c
  · intro path hp
    exact .inl (hsame ▸ hp)
  · intro hopen
    rw [hcloses] at hopen
    cases hopen
  · intro _
    rw [hsame, hx]
    exact ⟨rfl, hblank, h.arrived c, hstoring⟩
  · intro path hp hothers
    rw [hx]
    refine h.settled path fun c' => ?_
    by_cases hc : c' = c
    · rw [hc, hstoring]
      exact (Option.some_ne_none path).symm
    · exact hothers c' hc

/-- **A call of `HandleRecv`** is answered by the store. -/
theorem recv (h : Simulated script files s a) (hfits : ∀ c n, (script c n).Fits)
    (hfd : s.base.conn fd = some c) {results : List RecvResult} {fresh : Uninit}
    (hx : x = s.base.call fd (.recv results fresh)) (hapart : s.Apart c x.acts)
    (hreturns : s.Returns c x)
    (hbrings : s.Brings (script c (s.exchange c).answered) c x (.recv fd results fresh)) :
    ∃ ms b, (fileStore files page script).run a ms = some b ∧
      Simulated script files (s.behind fd c x) b := by
  -- the client has closed, or has sent a part of its request
  rcases hbrings with rfl | ⟨hquiet, hbytes⟩
  · exact h.recv_closed hfd hx hapart hreturns
  · have hp : x = (HandleRecv.process results (s.base.requestStatus fd)).on fresh
      (s.base.responseStatus fd) := hx
    rw [h.served c] at hbytes
    have hbytes' : (s.exchange c).got ++
        received (HandleRecv.process results (s.base.requestStatus fd)).acts <+:
          (script c (a.session c).served).bytes := by
      rw [hp] at hbytes
      exact hbytes
    -- behind a whole request nothing arrives
    have hnothing (whole : (s.exchange c).got = (script c (a.session c).served).bytes) :
        received (HandleRecv.process results (s.base.requestStatus fd)).acts = [] := by
      rw [whole] at hbytes'
      have hlen := hbytes'.length_le
      rw [List.length_append] at hlen
      exact List.eq_nil_of_length_eq_zero (by omega)
    have howed (erased : (s.base.requestStatus fd).getD Request.init = Request.init)
        (whole : (s.exchange c).got = (script c (a.session c).served).bytes) :
        CallTakes (script c (a.session c).served) [] none
          (HandleRecv.process results (s.base.requestStatus fd)) := by
      have hat : (script c (a.session c).served).At [] none
          ((s.base.requestStatus fd).getD Request.init) := by
        rw [erased]
        exact Message.at_start _
      refine recvLoop_takes (hfits _ _) hquiet hat ?_
      change [] ++ received (HandleRecv.process results (s.base.requestStatus fd)).acts <+: _
      rw [hnothing whole]
      exact List.nil_prefix
    have hstage := h.stage fd c hfd
    have hkept := hstage
    generalize hphase : (a.session c).phase = phase at hstage
    -- where the connection is decides what may arrive
    cases hstage with
    | waiting arrived unasked unstored unsent blank =>
      exact h.recv_waiting hfd rfl hphase hp hapart hreturns unasked unstored unsent blank
        (recvLoop_takes (hfits _ _) hquiet arrived hbytes')
    | storing message arrived unasked stored unsent blank made held =>
      rw [message] at arrived hbytes'
      exact h.recv_storing hfd message.symm hphase hp hapart hreturns unasked stored
        unsent blank made held (recvLoop_takes (message ▸ hfits _ _) hquiet arrived hbytes')
    | asked whole erased asked unstored unsent entry init named blank =>
      exact h.recv_owed hfd hp hapart hreturns hkept unstored erased (hnothing whole)
        (howed erased whole)
    | answering whole erased asked unstored file entry sending stands left reads =>
      exact h.recv_owed hfd hp hapart hreturns hkept unstored erased (hnothing whole)
        (howed erased whole)

end Recv

end Simulated

end Cherokee
