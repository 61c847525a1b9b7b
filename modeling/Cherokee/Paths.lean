import Cherokee.Lib.LexicalPath
import Cherokee.Server
import Cherokee.Wire

/-!
# The files a request names

Every path a handler opens or removes for a request is `filedir/` followed by a name taken from the
request: what stands behind the second slash of the resource of a download, a deletion or a put, or
the file name of an upload. Nothing is asked of the name.

* `Handler.call_paths`: the paths of a call are the names it takes from the request, behind
  `filedir/`.
* `Server.confined_of_tame`: the paths stay in `filedir` exactly where the names do.
-/

open LexicalPath

namespace Cherokee

/-- The path an action opens or removes. -/
def Action.path : Action → Option Bytes
  | .openAppend path _ => some path
  | .openRead path _ => some path
  | .remove path _ => some path
  | .openTrunc path _ => some path
  | _ => none

/-- The paths opened or removed, in order. -/
def paths (acts : List Action) : List Bytes := acts.filterMap Action.path

/-- The directory of the files. -/
def filedir : Bytes := lit "filedir/"

/-- A name that never leaves the directory: `/` is `47` and `.` is `46`. -/
abbrev Stays (name : Bytes) : Prop := Inside 47 46 name

/-- **A path that never leaves `filedir`.** -/
def Confined (path : Bytes) : Prop := ∃ name, path = filedir ++ name ∧ Stays name

theorem confined_filedir {name : Bytes} : Confined (filedir ++ name) ↔ Stays name := by
  constructor
  · rintro ⟨name', heq, hstays⟩
    rwa [List.append_cancel_left heq]
  · intro hstays
    exact ⟨name, rfl, hstays⟩

@[simp] theorem paths_append (as bs : List Action) : paths (as ++ bs) = paths as ++ paths bs :=
  List.filterMap_append

theorem paths_eq_nil {acts : List Action} : paths acts = [] ↔ ∀ a ∈ acts, a.path = none :=
  List.filterMap_eq_nil_iff

/-- The name is read up to its first zero byte, as the whole path is. -/
theorem cStr_filedir (name : Bytes) : cStr (lit "filedir/" ++ name) = filedir ++ cStr name :=
  List.takeWhile_append_of_pos (List.all_eq_true.mp rfl)

/-! ### Names taken from the resource -/

namespace HandleSend

/-- The file a new response is about, when it is a download, a deletion or a put. -/
def target (r : Response) : Option Bytes :=
  match splitResource r.bodyFileName with
  | .ok (opera, filename) =>
    if opera = lit "downl" ∨ opera = lit "del" ∨ opera = lit "put" then some (cStr filename)
    else none
  | .error _ => none

/-- The names a call of `HandleSend` takes from the response it finds. -/
def targets (response : Option Response) : List Bytes :=
  ((response.filter fun r => r.status = .handleInit).bind target).toList

theorem operaStage_paths (w : World) (request : Option Request) (r : Response) :
    paths (operaStage w request r).acts = (target r).toList.map (filedir ++ ·) := by
  unfold operaStage target
  cases splitResource r.bodyFileName with
  | error f => rfl
  | ok x =>
    obtain ⟨opera, filename⟩ := x
    simp only
    by_cases hpage : opera = lit "/"
    · rw [if_pos hpage, if_neg (by rw [hpage]; decide)]
      -- the page is made from the directory, and no file is opened for it
      unfold filelistStage
      simp only
      split <;> rfl
    rw [if_neg hpage]
    by_cases hdownl : opera = lit "downl"
    · rw [if_pos hdownl, if_pos (.inl hdownl)]
      -- a download, a deletion and a `PUT` work on one path, under `filedir`
      unfold downlStage
      simp only [cStr_filedir]
      split <;> rfl
    rw [if_neg hdownl]
    by_cases hdel : opera = lit "del"
    · rw [if_pos hdel, if_pos (.inr (.inl hdel))]
      unfold delStage
      simp only [cStr_filedir]
      rfl
    rw [if_neg hdel]
    by_cases hput : opera = lit "put"
    · rw [if_pos hput, if_pos (.inr (.inr hput))]
      unfold putStage
      simp only [cStr_filedir]
      split <;> rfl
    -- a redirect opens nothing
    · rw [if_neg hput, if_neg (by simp [hdownl, hdel, hput])]
      rfl

/-- The send loop opens nothing. -/
theorem sendLoop_paths (results : List SendResult) (request : Option Request) (r : Response) :
    paths (sendLoop results request r).acts = [] := by
  by_cases hr : Sending r
  · refine paths_eq_nil.mpr fun a ha => ?_
    have hw := (sendLoop_sends results request hr).writes a ha
    cases a <;> first | rfl | cases hw
  · unfold sendLoop
    unfold Sending at hr
    cases hs : r.status <;> simp_all <;> rfl

theorem finish_paths (w : World) (request : Option Request) (r : Response) :
    paths (finish w request r).acts = [] := by
  unfold finish closeStray
  split
  · split <;> rfl
  · split
    · split <;> rfl
    · rfl

/-- **The files of a call of `HandleSend`.** -/
theorem process_paths (w : World) (results : List SendResult) (request : Option Request)
    (response : Option Response) :
    paths (process w results request response).acts =
      (targets response).map (filedir ++ ·) := by
  cases response with
  | none => rfl
  | some r =>
    have hinit : paths (initStage w request r).acts = (targets (some r)).map (filedir ++ ·) := by
      unfold targets
      by_cases hi : r.status = .handleInit
      · rw [initStage_of_init hi, Option.filter_some_pos (by simpa using hi)]
        exact operaStage_paths w request r
      · rw [initStage_of_not_init hi, Option.filter_some_neg (by simpa using hi)]
        rfl
    unfold process
    simp only
    split
    · exact hinit
    · exact hinit
    · split
      · change paths (_ ++ _) = _
        rw [paths_append, sendLoop_paths, List.append_nil, hinit]
      · change paths (_ ++ _) = _
        rw [paths_append, paths_append, sendLoop_paths, finish_paths, List.append_nil,
          List.append_nil, hinit]

end HandleSend

/-! ### Names taken from the header of a part -/

namespace HandleRecv

/-- The file name an upload has given when its content begins; `r` is at the body. -/
def partName (r : Request) : Option Bytes :=
  match beginStage r with
  | .ok (some r) =>
    match partStage r with
    | .ok r => if r.fileMsgStatus = .fileContent then some (cStr r.recvFileName) else none
    | .error _ => none
  | _ => none

/-- The file name an upload has given when its content begins; `r` holds the chunk just received
behind `recvMsg`. -/
def uploadName (r : Request) : Option Bytes :=
  match headStage (requestLineStage r).1 with
  | .ok r =>
    if r.status = .handleBody ∧ r.requestMethod = lit "POST" ∧ r.isMultipart then partName r
    else none
  | .error _ => none

/-- The names a call of `HandleRecv` takes from what it receives. -/
def uploadNames : List RecvResult → Request → List Bytes
  | .data buf ofs :: rest, r =>
    let t := recvTurn buf ofs r
    (uploadName (r.push buf)).toList ++ match t.flow with
      | .again => uploadNames rest t.request
      | _ => []
  | _, _ => []

theorem paths_openAppend (path written : Bytes) (acts : List Action) :
    paths (.openAppend path true :: .append path written :: acts) = path :: paths acts := rfl

theorem contentStage_paths (ofs : Bool) (r : Request) :
    paths (contentStage ofs r).acts =
      (if r.fileMsgStatus = .fileContent then some (cStr r.recvFileName) else none).toList.map
        (filedir ++ ·) := by
  have hpath : r.uploadPath = filedir ++ cStr r.recvFileName := cStr_filedir r.recvFileName
  unfold contentStage
  rw [hpath]
  by_cases hc : r.fileMsgStatus = .fileContent
  · rw [if_pos hc, if_pos hc]
    by_cases ho : ofs = true
    · rw [if_pos ho]
      generalize contentLoop r.boundary? r.recvMsg = content
      obtain ⟨written, recvMsg, ended⟩ := content
      cases ended <;> exact paths_openAppend _ _ _
    · rw [if_neg ho]
      rfl
  · rw [if_neg hc, if_neg hc]
    split <;> rfl

theorem postStage_paths (ofs : Bool) {r : Request} (hm : r.isMultipart = true) :
    paths (postStage ofs r).acts = (partName r).toList.map (filedir ++ ·) := by
  unfold postStage partName
  rw [if_pos hm]
  cases beginStage r with
  | error f => rfl
  | ok begun =>
    cases begun with
    | none => rfl
    | some r =>
      simp only
      cases partStage r with
      | error f => rfl
      | ok r => exact contentStage_paths ofs r

theorem bodyStage_paths (ofs : Bool) (r : Request) :
    paths (bodyStage ofs r).acts =
      (if r.status = .handleBody ∧ r.requestMethod = lit "POST" ∧ r.isMultipart then partName r
        else none).toList.map (filedir ++ ·) := by
  unfold bodyStage
  by_cases hs : r.status = .handleBody
  · rw [if_pos hs]
    by_cases hget : r.requestMethod = lit "GET"
    · have hpost : ¬ r.requestMethod = lit "POST" := by
        rw [hget]
        decide
      rw [if_pos hget, if_neg fun h => hpost h.2.1]
      rfl
    rw [if_neg hget]
    by_cases hpost : r.requestMethod = lit "POST"
    · rw [if_pos hpost]
      by_cases hm : r.isMultipart = true
      · rw [if_pos ⟨hs, hpost, hm⟩]
        exact postStage_paths ofs hm
      · rw [if_neg fun h => hm h.2.2]
        unfold postStage
        rw [if_neg hm]
        rfl
    have hno : ¬ (r.status = .handleBody ∧ r.requestMethod = lit "POST" ∧ r.isMultipart = true) :=
      fun h => hpost h.2.1
    rw [if_neg hpost, if_neg hno]
    split <;> rfl
  · rw [if_neg hs, if_neg fun h => hs h.1]
    rfl

/-- **The file of a turn of the receive loop.** -/
theorem recvTurn_paths (buf : Bytes) (ofs : Bool) (r : Request) :
    paths (recvTurn buf ofs r).acts = (uploadName (r.push buf)).toList.map (filedir ++ ·) := by
  have hline : paths (.recvd buf :: (requestLineStage (r.push buf)).2) = [] := by
    unfold requestLineStage
    split
    · split <;> rfl
    · rfl
  rw [recvTurn_eq, uploadName]
  cases headStage (requestLineStage (r.push buf)).1 with
  | error f => exact hline
  | ok r =>
    change paths (_ ++ _) = _
    rw [paths_append, hline, List.nil_append, bodyStage_paths]

theorem recvLoop_paths (results : List RecvResult) (r : Request) :
    paths (recvLoop results r).acts = (uploadNames results r).map (filedir ++ ·) := by
  induction results generalizing r with
  | nil => rfl
  | cons x rest ih =>
    cases x with
    | again => rfl
    | closed => rfl
    | failed => rfl
    | data buf ofs =>
      have hturn := recvTurn_paths buf ofs r
      unfold recvLoop uploadNames
      simp only
      cases (recvTurn buf ofs r).flow with
      | again =>
        change paths (_ ++ _) = _
        rw [paths_append, hturn, ih, List.map_append]
      | leave => rw [hturn, List.append_nil]
      | crash f => rw [hturn, List.append_nil]

/-- **The files of a call of `HandleRecv`.** -/
theorem process_paths (results : List RecvResult) (entry : Option Request) :
    paths (process results entry).acts =
      (uploadNames results (entry.getD Request.init)).map (filedir ++ ·) := by
  rw [← recvLoop_paths]
  unfold process Received.finish
  cases (recvLoop results (entry.getD Request.init)).crash with
  | some f => rfl
  | none =>
    simp only
    rw [paths_append]
    unfold finish
    split
    · exact List.append_nil _
    · split <;> exact List.append_nil _

end HandleRecv

/-! ### The calls of both handlers -/

/-- The names a call takes from the request. -/
def Handler.targets (request : Option Request) (response : Option Response) : Handler → List Bytes
  | .recv results _ => HandleRecv.uploadNames results (request.getD Request.init)
  | .send _ _ => HandleSend.targets response

/-- **The paths of a call are the names it takes from the request, behind `filedir/`.** -/
theorem Handler.call_paths (h : Handler) (request : Option Request) (response : Option Response) :
    paths (h.call request response).acts = (h.targets request response).map (filedir ++ ·) := by
  cases h with
  | recv results fresh => exact HandleRecv.process_paths results request
  | send w results => exact HandleSend.process_paths w results request response

namespace Server

/-- Every name a call takes from the request stays in the directory. -/
def Tame (s : Server) : Label → Prop
  | .accept _ => True
  | .call fd h => ∀ name ∈ h.targets (s.requestStatus fd) (s.responseStatus fd), Stays name

instance (s : Server) : (l : Label) → Decidable (s.Tame l)
  | .accept _ => .isTrue trivial
  | .call fd h => inferInstanceAs
      (Decidable (∀ name ∈ h.targets (s.requestStatus fd) (s.responseStatus fd), Stays name))

/-- A call stays in the directory when the names it takes from the request do. -/
theorem confined_call {s : Server} {fd : ℤ} {h : Handler} :
    (∀ path ∈ paths (s.call fd h).acts, Confined path) ↔ s.Tame (.call fd h) := by
  rw [call, Handler.call_paths, List.forall_mem_map]
  exact forall₂_congr fun name _ => confined_filedir

/-- **Path confinement.** What a call opens and removes stays in `filedir` exactly when the names it
takes from the request do; and in every run whose requests name no other files, everything the
server has opened and removed is in `filedir`. -/
theorem confined_of_tame (s : Server) :
    (∀ (fd : ℤ) (h : Handler),
      (∀ path ∈ paths (s.call fd h).acts, Confined path) ↔ s.Tame (.call fd h)) ∧
    (server.Reachable Tame s → ∀ c, ∀ path ∈ paths (s.log c), Confined path) := by
  refine ⟨fun fd h => confined_call, fun hs => ?_⟩
  refine hs.invariant (I := fun s => ∀ c, ∀ path ∈ paths (s.log c), Confined path) nofun ?_
  intro s l t _ ih htame hstep c
  cases l with
  | accept fd =>
    obtain ⟨-, rfl⟩ := accept_eq_some.mp hstep
    exact ih c
  | call fd x =>
    obtain ⟨c', -, rfl⟩ := call_eq_some.mp hstep
    by_cases hc : c = c'
    · subst hc
      rw [after_log_self, paths_append, List.forall_mem_append]
      exact ⟨ih c, confined_call.mpr htame⟩
    · rw [after_log_of_ne hc]
      exact ih c

/-- A `GET` of `resource` in one result of `recv`. -/
def getOf (resource : Bytes) : Handler :=
  .recv [.data (lit "GET " ++ resource ++ lit " HTTP/1.1\r\n\r\n") true]
    HandleSend.sampleWorld.fresh

/-- A download of `resource`. -/
def download (resource : Bytes) : List Label :=
  [.accept 5, .call 5 (getOf resource), .call 5 (.send HandleSend.sampleWorld [])]

theorem confined_of_tame_sample :
    ∃ s, server.run server.start (download (lit "/downl/a.txt")) = some s ∧
      paths (s.log 0) = [lit "filedir/a.txt"] ∧ ∀ path ∈ paths (s.log 0), Confined path := by
  obtain ⟨s, hs⟩ := Option.isSome_iff_exists.mp
    (show (server.run server.start (download (lit "/downl/a.txt"))).isSome by decide +kernel)
  have hpaths : (server.run server.start (download (lit "/downl/a.txt"))).map
      (fun s => paths (s.log 0)) = some [lit "filedir/a.txt"] := by
    decide +kernel
  rw [hs] at hpaths
  have htame : server.Reachable Tame s := Machine.reachable_of_run .start hs (by decide +kernel)
  exact ⟨s, hs, Option.some.inj hpaths, (confined_of_tame s).2 htame 0⟩

/-- A download of `/downl/../main` opens a file outside the directory. -/
theorem escaping_download :
    ¬ ∀ s, server.Reachable Machine.anyStep s → ∀ c, ∀ path ∈ paths (s.log c), Confined path := by
  intro h
  obtain ⟨s, hs⟩ := Option.isSome_iff_exists.mp
    (show (server.run server.start (download (lit "/downl/../main"))).isSome by decide +kernel)
  have hpaths : (server.run server.start (download (lit "/downl/../main"))).map
      (fun s => paths (s.log 0)) = some [filedir ++ lit "../main"] := by
    decide +kernel
  rw [hs] at hpaths
  have hpaths : paths (s.log 0) = [filedir ++ lit "../main"] := Option.some.inj hpaths
  have hconfined := h s (Machine.reachable_of_run .start hs (Machine.along_anyStep _ _)) 0
    (filedir ++ lit "../main") (hpaths ▸ List.mem_singleton_self _)
  exact absurd (confined_filedir.mp hconfined) (by decide +kernel)

end Server

end Cherokee
