import Cherokee.Answering
import Cherokee.RequestFormat
import Cherokee.ResourceSplit

/-!
# White space in names

The resource of a request is a word of its request line, so there is no white space in it, and
`removeSpaces` takes it out of the file name of an upload. Whatever the clients send, and in
whatever order the handlers are called, the server never comes to a file whose name has white space
in it.

* `Request.Words`, `Response.Words`: the names in the entries of the tables.
* `Handler.call_words`: a call keeps white space out of the entries of its descriptor, and out of
  the paths it opens and removes.
* `Server.isWord_of_reachable`: so it is in every run.
-/

namespace Cherokee

theorem isWord_nil : IsWord [] := List.forall_mem_nil _

/-- A string is a word when its parts are, which is how the paths and the lists of actions are taken
apart below. -/
theorem isWord_append {s t : Bytes} : IsWord (s ++ t) ↔ IsWord s ∧ IsWord t :=
  List.forall_mem_append

/-- A part of a word is a word: what `substr` cuts out of a resource, or the part of a path in front
of a zero byte. -/
theorem IsWord.of_subset {s t : Bytes} (h : IsWord t) (hs : s ⊆ t) : IsWord s :=
  fun c hc => h c (hs hc)

theorem isWord_filedir : IsWord filedir := by decide

/-- The path of a file whose name is a word: `filedir/` has no white space, and `c_str()` only makes
it shorter. -/
theorem isWord_path {name : Bytes} (h : IsWord name) : IsWord (cStr (lit "filedir/" ++ name)) := by
  rw [cStr_filedir]
  exact isWord_append.mpr ⟨isWord_filedir, h.of_subset (List.takeWhile_subset _)⟩

/-- The name an action is about: the path of its file, or the resource it hands over. -/
def Action.name : Action → Option Bytes
  | .setBodyFileName name => some name
  | a => a.touched

/-- No action is about a name with white space, be it the path of a file or a resource that is
handed over. -/
def Words (acts : List Action) : Prop := ∀ a ∈ acts, ∀ name ∈ a.name, IsWord name

theorem words_append {xs ys : List Action} : Words (xs ++ ys) ↔ Words xs ∧ Words ys :=
  List.forall_mem_append

/-- The paths of such actions, which are the names that reach the file system. -/
theorem Words.paths {acts : List Action} (h : Words acts) : ∀ path ∈ paths acts, IsWord path := by
  intro path hpath
  obtain ⟨a, ha, hp⟩ := List.mem_filterMap.mp hpath
  refine h a ha path ?_
  cases a <;> first | exact hp | cases hp

/-- Actions that name nothing: what is received, what is sent, and what re-arms or closes the
descriptor. -/
theorem words_of_none {acts : List Action} (h : ∀ a ∈ acts, a.name = none) : Words acts := by
  intro a ha name hname
  rw [h a ha] at hname
  cases hname

/-- An action on a file or for a resource, in front of the others. -/
theorem words_cons {a : Action} {path : Bytes} {acts : List Action} (ha : a.name = some path)
    (hpath : IsWord path) (hacts : Words acts) : Words (a :: acts) := by
  refine List.forall_mem_cons.mpr ⟨fun name hname => ?_, hacts⟩
  rw [ha] at hname
  rw [← Option.some.inj hname]
  exact hpath

/-- The names in an entry of `requestStatus`: the resource that its request line has set, and the
file name of the part that is being received. -/
structure Request.Words (r : Request) : Prop where
  resource : IsWord r.requestResource
  fileName : IsWord r.recvFileName

/-- The name in an entry of `responseStatus`, which `HandleRecv` has handed over and `HandleSend`
splits. -/
def Response.Words (r : Response) : Prop := IsWord r.bodyFileName

/-! ### What is read -/

/-- Extraction with `>>` reads a word, since it stops at white space, or leaves what was there. -/
theorem IStringStream.extract_isWord (stream : IStringStream) {str : Bytes} (h : IsWord str) :
    IsWord (stream.extract str).1 := by
  unfold extract
  split
  · simp only
    split
    · exact h
    · intro c hc
      simpa using List.mem_takeWhile_imp hc
  · exact h

/-- What `removeSpaces` leaves has no white space in it, whatever it has been given. -/
theorem removeSpaces_isWord (str : Bytes) : IsWord (removeSpaces str) := by
  intro c hc
  simpa using (List.mem_filter.mp hc).2

namespace HandleRecv

open Request

/-- The request line sets the resource by extraction, and names no file. -/
theorem requestLineStage_words {r : Request} (h : r.Words) :
    (requestLineStage r).1.Words ∧ Words (requestLineStage r).2 := by
  unfold requestLineStage
  split
  · split
    · -- `requestResource` is the second word that is read; the method and the version name nothing
      exact ⟨⟨IStringStream.extract_isWord _ h.resource, h.fileName⟩,
        words_of_none (by simp [Action.name, Action.touched])⟩
    -- the line is not complete yet
    · exact ⟨h, List.forall_mem_nil _⟩
  · exact ⟨h, List.forall_mem_nil _⟩

/-- The header lines are kept as options, so the loop on them leaves both names as they are. -/
theorem headStage_words {r r' : Request} (hr : r.Words) (h : headStage r = .ok r') : r'.Words := by
  unfold headStage at h
  split at h
  · refine lineLoop_leaves (P := Request.Words) (fun _ h => h) ?_ ?_ headTurn_decreasing hr h
    · intro r₁ m h₁
      unfold endHead
      split <;> exact ⟨h₁.resource, h₁.fileName⟩
    · intro r₁ r₂ m line h₁ ho
      obtain ⟨_, _, rfl⟩ := addHeaderOpt_fields ho
      exact ⟨h₁.resource, h₁.fileName⟩
  · cases h
    exact hr

/-- The first boundary line of an upload is compared and dropped. -/
theorem beginStage_words {r r' : Request} (hr : r.Words) (h : beginStage r = .ok (some r')) :
    r'.Words := by
  unfold beginStage at h
  split at h
  · split at h
    · split at h
      · cases h
      · split at h
        · cases h
          exact ⟨hr.resource, hr.fileName⟩
        · cases h
    · cases h
      exact hr
  · cases h
    exact hr

/-- White space is taken out of a file name as often as one is read, so what a part header leaves is
a word even when several of its lines hold the text `filename`. -/
theorem addPartLine_words {r r' : Request} {line : Bytes} (hr : r.Words)
    (h : r.addPartLine line = .ok r') : r'.Words := by
  unfold addPartLine at h
  split at h
  · split at h
    · cases h
      -- the line holds the text `filename`, and the name is stripped after it has grown
      exact ⟨hr.resource, removeSpaces_isWord _⟩
    · cases h
  · cases h
    exact hr

/-- The loop on a part header keeps the name a word from line to line. -/
theorem partStage_words {r r' : Request} (hr : r.Words) (h : partStage r = .ok r') : r'.Words := by
  unfold partStage at h
  split at h
  · refine lineLoop_leaves (P := Request.Words) (fun _ h => h) ?_ ?_ partTurn_decreasing hr h
    · exact fun r₁ m h₁ => ⟨h₁.resource, h₁.fileName⟩
    · intro r₁ r₂ m line h₁ ho
      have hm : (r₁.withMsg m).Words := ⟨h₁.resource, h₁.fileName⟩
      exact addPartLine_words hm ho
  · cases h
    exact hr

/-- What a turn leaves of the request, and what its actions name, in a form that the stages pass on
to each other. -/
structure Turn.Words (t : Turn) : Prop where
  request : t.request.Words
  acts : Cherokee.Words t.acts

/-- A stage that has acted before another one. -/
theorem Turn.Words.prepend {t : Turn} {acts : List Action} (h : t.Words)
    (hacts : Cherokee.Words acts) :
    (t.prepend acts).Words :=
  ⟨h.request, words_append.mpr ⟨hacts, h.acts⟩⟩

/-- A request that is answered for a name: only the name handed over is new. -/
theorem complete_words {r : Request} (hr : r.Words) {name : Bytes} (hname : IsWord name) :
    (complete r name).Words := by
  refine ⟨⟨hr.resource, hr.fileName⟩, ?_⟩
  intro a ha name' hname'
  rcases List.mem_cons.mp ha with rfl | ha
  · cases hname'
    exact hname
  · rw [List.mem_singleton.mp ha] at hname'
    cases hname'

theorem isWord_redirect : IsWord (lit "/redirect") := by decide

/-- The content stage works on the one file of its part, and hands `/redirect` over when the final
delimiter has come. -/
theorem contentStage_words (ofs : Bool) {r : Request} (hr : r.Words) :
    (contentStage ofs r).Words := by
  unfold contentStage
  by_cases hc : r.fileMsgStatus = .fileContent
  · rw [if_pos hc]
    -- whether the file opens or not, its path is the only name
    cases ofs with
    | false => exact ⟨hr, words_cons rfl (isWord_path hr.fileName) (List.forall_mem_nil _)⟩
    | true =>
      rw [if_pos rfl]
      generalize contentLoop r.boundary? r.recvMsg = content
      obtain ⟨written, recvMsg, ended⟩ := content
      have hacts : Cherokee.Words [.openAppend r.uploadPath true, .append r.uploadPath written] :=
        words_cons rfl (isWord_path hr.fileName)
          (words_cons rfl (isWord_path hr.fileName) (List.forall_mem_nil _))
      cases ended with
      | wait => exact ⟨⟨hr.resource, hr.fileName⟩, hacts⟩
      | complete =>
        have hleft : Request.Words { r with recvMsg, fileMsgStatus := .fileComplete } :=
          ⟨hr.resource, hr.fileName⟩
        exact (complete_words hleft isWord_redirect).prepend hacts
      | crash f => exact ⟨⟨hr.resource, hr.fileName⟩, hacts⟩
  · rw [if_neg hc]
    split
    · exact complete_words hr isWord_redirect
    · exact ⟨hr, List.forall_mem_nil _⟩

/-- The stages of a `POST`, one behind the other, where each of them may leave the turn. -/
theorem postStage_words (ofs : Bool) {r : Request} (hr : r.Words) : (postStage ofs r).Words := by
  unfold postStage
  split
  · split
    · exact ⟨hr, List.forall_mem_nil _⟩
    · exact complete_words hr isWord_redirect
    · next r' hbegin =>
      have hr' := beginStage_words hr hbegin
      split
      · exact ⟨hr', List.forall_mem_nil _⟩
      · next r'' hpart => exact contentStage_words ofs (partStage_words hr' hpart)
  · exact complete_words hr isWord_redirect

/-- The stage behind the head, for each of the three methods it knows. -/
theorem bodyStage_words (ofs : Bool) {r : Request} (hr : r.Words) : (bodyStage ofs r).Words := by
  unfold bodyStage
  split_ifs
  · exact complete_words hr hr.resource
  · exact postStage_words ofs hr
  · exact ⟨hr, (complete_words hr hr.resource).acts⟩
  · exact ⟨hr, List.forall_mem_nil _⟩
  · exact ⟨hr, List.forall_mem_nil _⟩

/-- **A turn of the receive loop keeps white space out**, whatever bytes it has received and whether
or not the upload file opens. -/
theorem recvTurn_words (buf : Bytes) (ofs : Bool) {r : Request} (hr : r.Words) :
    (recvTurn buf ofs r).Words := by
  have hpush : (r.push buf).Words := ⟨hr.resource, hr.fileName⟩
  obtain ⟨hline, hacts⟩ := requestLineStage_words hpush
  have hrecvd : Cherokee.Words (.recvd buf :: (requestLineStage (r.push buf)).2) :=
    List.forall_mem_cons.mpr ⟨fun name hname => absurd hname (Option.not_mem_none name), hacts⟩
  rw [recvTurn_eq]
  cases hhead : headStage (requestLineStage (r.push buf)).1 with
  | error f => exact ⟨hline, hrecvd⟩
  | ok r' => exact (bodyStage_words ofs (headStage_words hline hhead)).prepend hrecvd

/-- The receive loop, by induction on the results of `recv`. -/
theorem recvLoop_words (results : List RecvResult) {r : Request} (hr : r.Words) :
    (recvLoop results r).request.Words ∧ Cherokee.Words (recvLoop results r).acts := by
  induction results generalizing r with
  | nil => exact ⟨hr, words_of_none (List.forall_mem_singleton.mpr rfl)⟩
  | cons result results ih =>
    cases result with
    | again => exact ⟨hr, words_of_none (List.forall_mem_singleton.mpr rfl)⟩
    | closed => exact ⟨⟨hr.resource, hr.fileName⟩, List.forall_mem_nil _⟩
    | failed => exact ⟨⟨hr.resource, hr.fileName⟩, List.forall_mem_nil _⟩
    | data buf ofs =>
      have hturn := recvTurn_words buf ofs hr
      unfold recvLoop
      simp only
      split
      · obtain ⟨hrest, hacts⟩ := ih hturn.request
        exact ⟨hrest, words_append.mpr ⟨hturn.acts, hacts⟩⟩
      · exact ⟨hturn.request, hturn.acts⟩
      · exact ⟨hturn.request, hturn.acts⟩

/-- **A call of `HandleRecv` keeps white space out.** -/
theorem process_words (results : List RecvResult) {entry : Option Request}
    (h : ∀ q ∈ entry, q.Words) :
    (∀ q ∈ (process results entry).request, q.Words) ∧
      Cherokee.Words (process results entry).acts := by
  have hstart : (entry.getD Request.init).Words := by
    cases entry with
    | none => exact ⟨isWord_nil, isWord_nil⟩
    | some q => exact h q rfl
  obtain ⟨hrequest, hacts⟩ := recvLoop_words results hstart
  unfold process Received.finish
  split
  · refine ⟨fun q hq => ?_, hacts⟩
    rw [← Option.some.inj hq]
    exact hrequest
  · have hfinish (r : Request) (hr : r.Words) :
        (∀ q ∈ (finish r).1, q.Words) ∧ Cherokee.Words (finish r).2 := by
      unfold finish
      split_ifs
      · exact ⟨fun q hq => absurd hq (Option.not_mem_none q),
          words_of_none (List.forall_mem_singleton.mpr rfl)⟩
      · exact ⟨fun q hq => absurd hq (Option.not_mem_none q),
          words_of_none (by simp [Action.name, Action.touched])⟩
      · refine ⟨fun q hq => ?_, List.forall_mem_nil _⟩
        rw [← Option.some.inj hq]
        exact hr
    obtain ⟨hleft, hbehind⟩ := hfinish _ hrequest
    exact ⟨hleft, words_append.mpr ⟨hacts, hbehind⟩⟩

end HandleRecv

/-! ### What is answered -/

namespace HandleSend

/-- The file name is a part of the resource, since both `substr` calls only cut; so it has no white
space when the resource has none. -/
theorem splitResource_subset {resource opera filename : Bytes}
    (h : splitResource resource = .ok (opera, filename)) : filename ⊆ resource := by
  unfold splitResource at h
  split at h
  · cases h
    exact List.nil_subset _
  · simp only at h
    split at h
    · cases h
    · split at h
      · simp only [bind, Except.bind, pure, Except.pure] at h
        split at h
        · cases h
        · split at h
          · cases h
          · next part hpart =>
            cases h
            unfold substr at hpart
            split at hpart
            · cases hpart
              exact fun c hc => List.drop_subset _ _ (List.take_subset _ _ hc)
            · cases hpart
      · cases h
        exact List.nil_subset _

/-- What a stage of `HandleSend` leaves of the response, and what it names. -/
structure Stage.Words (x : Stage) : Prop where
  response : x.response.Words
  acts : Cherokee.Words x.acts

/-- A stage that has acted before another one. -/
theorem Stage.Words.prepend {x : Stage} {acts : List Action} (h : x.Words)
    (hacts : Cherokee.Words acts) : (x.prepend acts).Words :=
  ⟨h.response, words_append.mpr ⟨hacts, h.acts⟩⟩

/-- The response is replaced by one for a name, `/` or `/redirect` in the source. -/
theorem reenter_words (w : World) (request : Option Request) {name : Bytes} (hname : IsWord name)
    {acts : List Action} (hacts : Cherokee.Words acts) : (reenter w request name acts).Words :=
  ⟨hname, words_append.mpr ⟨hacts, words_of_none (List.forall_mem_singleton.mpr rfl)⟩⟩

/-- A response that has been constructed keeps its resource. -/
theorem built_words (request : Option Request) {r : Response} (hr : r.Words) {acts : List Action}
    (hacts : Cherokee.Words acts) : (built request r acts).Words :=
  ⟨hr, words_append.mpr ⟨hacts, words_of_none (List.forall_mem_singleton.mpr rfl)⟩⟩

/-- **The construction of a response** works on a file that the resource names: it opens it, removes
it, or empties it, under a path without white space. -/
theorem operaStage_words (w : World) (request : Option Request) {r : Response} (hr : r.Words) :
    (operaStage w request r).Words := by
  have hnil : Cherokee.Words [] := List.forall_mem_nil _
  unfold operaStage
  split
  · exact ⟨hr, hnil⟩
  · next opera filename hsplit =>
    have hpath : IsWord (cStr (lit "filedir/" ++ filename)) :=
      isWord_path (IsWord.of_subset hr (splitResource_subset hsplit))
    split_ifs
    -- the list of files: its page is in the response, and names nothing that is opened
    · unfold filelistStage
      simp only
      split
      · exact ⟨hr, hnil⟩
      · refine built_words request ?_ hnil
        exact hr
    -- a download opens its file, or is redirected
    · unfold downlStage
      simp only
      split
      · exact reenter_words w request HandleRecv.isWord_redirect (words_cons rfl hpath hnil)
      · refine built_words request ?_ ?_
        · exact hr
        · exact words_cons rfl hpath hnil
    · exact reenter_words w request (by decide) (words_cons rfl hpath hnil)
    -- a `PUT` opens its file and writes it, or is redirected
    · unfold putStage
      simp only
      split
      · refine built_words _ ?_ ?_
        · exact hr
        · exact words_cons rfl hpath (words_cons rfl hpath hnil)
      · exact reenter_words w request HandleRecv.isWord_redirect (words_cons rfl hpath hnil)
    · unfold redirectStage
      refine built_words request ?_ hnil
      exact hr

/-- Sending from the head moves the count only. -/
theorem sendHead_words {r : Response} (hr : r.Words) (n : ℕ) : (sendHead r n).1.Words := by
  unfold sendHead
  simp only
  split <;> exact hr

/-- Sending from the body moves the count only. -/
theorem sendBody_words {r : Response} (hr : r.Words) (msg : Bytes) (n : ℕ) :
    (sendBody r msg n).1.Words := by
  unfold sendBody
  simp only
  split <;> exact hr

/-- Sending names nothing: its actions carry bytes, and the resource of the response stays. -/
theorem sendLoop_words (results : List SendResult) (request : Option Request) {r : Response}
    (hr : r.Words) : (sendLoop results request r).Words := by
  have hsent {x : Stage} {a : Action} (ha : a.name = none) (h : x.Words) : (x.prepend [a]).Words :=
    h.prepend (words_of_none (List.forall_mem_singleton.mpr ha))
  -- a response that is not being sent is left alone, whatever the loop is given
  by_cases hs : Sending r
  · refine sendLoop_induction (P := fun r x => r.Words → x.Words) ?_ ?_ ?_ ?_ ?_ results hs hr
    · exact fun q r _ _ hr => ⟨hr, List.forall_mem_nil _⟩
    · exact fun r n x _ ih hr => hsent rfl (ih (sendHead_words hr n))
    · exact fun r n x _ _ ih hr => hsent rfl (ih (sendBody_words hr _ n))
    · exact fun r n disk x _ _ ih hr => hsent rfl (ih (sendBody_words hr _ n))
    · exact fun r x _ _ ih hr => ih hr
  · obtain ⟨hstill, hnone⟩ := sendLoop_still results request hs
    exact ⟨by rw [hstill]; exact hr, by rw [hnone]; exact List.forall_mem_nil _⟩

/-- Behind the send loop the entry is kept, or a new `Response` with an empty name stands in its
place. -/
theorem finish_words (w : World) (request : Option Request) {r : Response} (hr : r.Words) :
    (∀ q ∈ (finish w request r).response, q.Words) ∧ Cherokee.Words (finish w request r).acts := by
  -- behind an answer the entry is erased, and `operator[]` makes an empty one at once
  have hfresh : ∀ q ∈ some (Response.init w.fresh), q.Words :=
    fun q hq => Option.some.inj hq ▸ isWord_nil
  have hstray : Cherokee.Words (closeStray w) :=
    words_of_none (forall_mem_closeStray w fun _ => rfl)
  unfold finish
  split_ifs
  · exact ⟨hfresh, words_append.mpr ⟨words_of_none (by simp [Action.name, Action.touched]), hstray⟩⟩
  · exact ⟨hfresh, words_append.mpr ⟨words_of_none (by simp [Action.name, Action.touched]), hstray⟩⟩
  · exact ⟨fun q hq => Option.some.inj hq ▸ hr, words_of_none (List.forall_mem_singleton.mpr rfl)⟩

/-- **A call of `HandleSend` keeps white space out** of both entries of its descriptor, and of every
path it opens or removes. -/
theorem process_words (w : World) (results : List SendResult) {request : Option Request}
    {response : Option Response} (hrequest : ∀ q ∈ request, q.Words)
    (hresponse : ∀ r ∈ response, r.Words) :
    (∀ q ∈ (process w results request response).request, q.Words) ∧
      (∀ r ∈ (process w results request response).response, r.Words) ∧
      Cherokee.Words (process w results request response).acts := by
  refine ⟨fun q hq => ?_, ?_⟩
  -- the entry of `requestStatus` is the one found, or an empty one
  · have hfound : (request.getD Request.init).Words := by
      cases request with
      | none => exact ⟨isWord_nil, isWord_nil⟩
      | some q => exact hrequest q rfl
    rcases process_request_cases w results request response q hq with rfl | rfl
    · exact hfound
    · exact ⟨hfound.resource, hfound.fileName⟩
  · cases response with
    | none => exact ⟨fun r hr => absurd hr (Option.not_mem_none r), List.forall_mem_nil _⟩
    | some r =>
      have hr : r.Words := hresponse r rfl
      -- the stages one behind the other: construction, sending, and the end of the response
      have hinit : (initStage w request r).Words := by
        unfold initStage
        split
        · exact (operaStage_words w request hr).prepend
            (words_of_none (List.forall_mem_singleton.mpr rfl))
        · exact ⟨hr, List.forall_mem_nil _⟩
      have hloop := sendLoop_words results (initStage w request r).request hinit.response
      unfold process
      simp only
      split
      · exact ⟨fun r' hr' => Option.some.inj hr' ▸ hinit.response, hinit.acts⟩
      · exact ⟨fun r' hr' => Option.some.inj hr' ▸ hinit.response, hinit.acts⟩
      · split
        · exact ⟨fun r' hr' => Option.some.inj hr' ▸ hloop.response,
            words_append.mpr ⟨hinit.acts, hloop.acts⟩⟩
        · obtain ⟨hleft, hbehind⟩ := finish_words w
            (sendLoop results (initStage w request r).request
              (initStage w request r).response).request
            hloop.response
          exact ⟨hleft, words_append.mpr ⟨words_append.mpr ⟨hinit.acts, hloop.acts⟩, hbehind⟩⟩

end HandleSend

/-! ### The runs -/

/-- What is handed over to the response table by `setBodyFileName` is the name in the action. -/
theorem handOver_words (fresh : Uninit) {entry : Option Response} (hentry : ∀ r ∈ entry, r.Words)
    {acts : List Action} (hacts : Words acts) : ∀ r ∈ handOver fresh entry acts, r.Words := by
  have hnames : ∀ name ∈ handedOver acts, IsWord name := by
    intro name hname
    obtain ⟨a, ha, hover⟩ := List.mem_filterMap.mp hname
    refine hacts a ha name ?_
    cases a <;> first | exact hover | cases hover
  unfold handOver
  generalize handedOver acts = names at hnames
  induction names generalizing entry with
  | nil => exact hentry
  | cons name names ih =>
    refine ih (fun r hr => ?_) fun name' hname' => hnames name' (List.mem_cons_of_mem _ hname')
    rw [← Option.some.inj hr]
    exact hnames name List.mem_cons_self

/-- **A call keeps white space out** of the entries of its descriptor, and out of what it names,
whichever of the two handlers it is. -/
theorem Handler.call_words (h : Handler) {request : Option Request} {response : Option Response}
    (hrequest : ∀ q ∈ request, q.Words) (hresponse : ∀ r ∈ response, r.Words) :
    (∀ q ∈ (h.call request response).request, q.Words) ∧
      (∀ r ∈ (h.call request response).response, r.Words) ∧
        Words (h.call request response).acts := by
  cases h with
  | recv results fresh =>
    obtain ⟨hleft, hacts⟩ := HandleRecv.process_words results hrequest
    exact ⟨hleft, handOver_words fresh hresponse hacts, hacts⟩
  | send w results => exact HandleSend.process_words w results hrequest hresponse

namespace Server

/-- What the entries of the tables and the actions so far name. -/
structure Words (s : Server) : Prop where
  request : ∀ d, ∀ q ∈ s.requestStatus d, q.Words
  response : ∀ d, ∀ r ∈ s.responseStatus d, r.Words
  log : ∀ c, Cherokee.Words (s.log c)

/-- Empty tables and empty logs name nothing. -/
theorem words_init : Words init where
  request _ q hq := absurd hq (Option.not_mem_none q)
  response _ r hr := absurd hr (Option.not_mem_none r)
  log _ := List.forall_mem_nil _

/-- A step of the server touches the entries of one descriptor and the log of one client, by one
call. -/
theorem Words.step {s t : Server} {l : Label} (hs : s.Words) (hstep : s.step l = some t) :
    t.Words := by
  cases l with
  | accept fd =>
    obtain ⟨-, rfl⟩ := accept_eq_some.mp hstep
    exact ⟨hs.request, hs.response, hs.log⟩
  | call fd x =>
    obtain ⟨c, -, rfl⟩ := call_eq_some.mp hstep
    obtain ⟨hrequest, hresponse, hacts⟩ := x.call_words (hs.request fd) (hs.response fd)
    refine ⟨fun d => ?_, fun d => ?_, fun c' => ?_⟩
    · by_cases hd : d = fd
      · subst hd
        rw [after_requestStatus_self]
        exact hrequest
      · rw [after_requestStatus_of_ne hd]
        exact hs.request d
    · by_cases hd : d = fd
      · subst hd
        rw [after_responseStatus_self]
        exact hresponse
      · rw [after_responseStatus_of_ne hd]
        exact hs.response d
    · by_cases hc : c' = c
      · subst hc
        rw [after_log_self]
        exact words_append.mpr ⟨hs.log c', hacts⟩
      · rw [after_log_of_ne hc]
        exact hs.log c'

/-- In every run the server has named no file with white space, and none waits in its tables. -/
theorem words_of_reachable {G : Server → Label → Prop} {s : Server} (h : server.Reachable G s) :
    s.Words :=
  h.invariant words_init fun _ _ _ _ hs _ hstep => hs.step hstep

/-- **The server comes to no file whose name has white space**, in any run: not in a path that it
opens or removes, and not in a name that waits in a table. -/
theorem isWord_of_reachable {s : Server} (h : server.Reachable Machine.anyStep s) :
    (∀ c, ∀ path ∈ paths (s.log c), IsWord path) ∧
      (∀ d, ∀ q ∈ s.requestStatus d, IsWord q.requestResource ∧ IsWord q.recvFileName) ∧
      ∀ d, ∀ r ∈ s.responseStatus d, IsWord r.bodyFileName :=
  have hs := words_of_reachable h
  ⟨fun c => (hs.log c).paths, fun d q hq =>
    ⟨(hs.request d q hq).resource, (hs.request d q hq).fileName⟩, hs.response⟩

/-- A download of a name with a blank comes to the part in front of it. -/
theorem isWord_of_reachable_sample :
    ∃ s, server.run server.start (download (lit "/downl/a b.txt")) = some s ∧
      paths (s.log 0) = [lit "filedir/a"] ∧ ∀ path ∈ paths (s.log 0), IsWord path := by
  have hrun : (server.run server.start (download (lit "/downl/a b.txt"))).map
    (fun s => paths (s.log 0)) =
      some [lit "filedir/a"] := by
    decide +kernel
  obtain ⟨s, hs, hpaths⟩ := Option.map_eq_some_iff.mp hrun
  have hreachable := Machine.reachable_of_run .start hs (Machine.along_anyStep _ _)
  exact ⟨s, hs, hpaths, (isWord_of_reachable hreachable).1 0⟩

end Server

end Cherokee
