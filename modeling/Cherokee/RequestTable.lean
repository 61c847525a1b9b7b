import Cherokee.Connection
import Cherokee.HeaderLines

/-!
# The entries of `requestStatus`

Between two calls an entry of `requestStatus` is a request that has been read as far as its data go
(`Request.Tabled`): no complete line is left where one is expected, an upload that has begun has a
boundary, and what is kept back of its content may begin the final delimiter.

That is not kept by a line on its own. What every line keeps is `Request.Carried`: the boundary is
short enough for the lengths of the content loop, and only an upload has begun its parts. With it a
turn of the receive loop absorbs its chunk, and what absorbing leaves is tabled
(`HandleRecv.recvTurn_entry`). `HandleSend::process` writes the table too: it makes an entry for a
`put`, and sets the status when sending fails (`HandleSend.process_request_cases`).

* `Conn.requests_tabled`: in every run every entry is tabled.
-/

open Search DelimScan

namespace Cherokee

namespace Request

open HandleRecv

/-! ### What holds of an entry -/

/-- What holds of an entry of `requestStatus` while no handler runs: how far the request is agrees
with what is in its buffer, and nothing that could be decided is waiting. -/
structure Tabled (q : Request) : Prop where
  /-- A request that is complete is erased. -/
  incomplete : q.status ≠ .handleComplete
  /-- No line of the head is waiting. -/
  head : q.status = .handleInit ∨ q.status = .handleHead → ¬ crlf <:+: q.recvMsg
  /-- Only an upload has begun its parts, and it has a boundary. -/
  begun : q.fileMsgStatus ≠ .fileBeginFlag →
    q.requestMethod = lit "POST" ∧ q.isMultipart = true ∧ q.boundary? ≠ none ∧
      (q.status = .handleBody ∨ q.status = .handleError)
  /-- No line of an upload is waiting. -/
  lines : q.isUpload = true → q.fileMsgStatus = .fileBeginFlag ∨ q.fileMsgStatus = .fileHead →
    ¬ crlf <:+: q.recvMsg
  /-- What is kept back of the content may begin the final delimiter. -/
  content : q.isUpload = true → q.fileMsgStatus = .fileContent →
    ∃ b, q.boundary? = some b ∧
      (q.recvMsg = [] ∨ (q.recvMsg.head? = some cr ∧ q.recvMsg.length < b.length + 8))
  /-- An upload that is complete is erased. -/
  going : q.isUpload = true → q.fileMsgStatus ≠ .fileComplete

/-- What every line keeps: the length of the final delimiter is an `int`, and only an upload has
begun its parts. It is carried from line to line, also where a line is still waiting. -/
structure Carried (q : Request) : Prop where
  short : q.boundaryLength + 8 < 2 ^ 31
  begun : q.fileMsgStatus ≠ .fileBeginFlag →
    q.requestMethod = lit "POST" ∧ q.isMultipart = true ∧ q.boundary? ≠ none ∧
      q.status ≠ .handleInit ∧ q.status ≠ .handleHead

/-- An entry, with what makes it last: the first part is what is promised between two calls, and the
second what the next call needs for it. -/
structure Entry (q : Request) : Prop where
  tabled : q.Tabled
  carried : q.Carried

/-- A new `Request` is an entry. -/
theorem init_entry : Request.init.Entry where
  tabled := ⟨nofun, fun _ => by decide, fun h => absurd rfl h, nofun, nofun, nofun⟩
  carried := ⟨by decide, fun h => absurd rfl h⟩

/-- Sending has failed, and `HandleSend` has set the status of the request; the next `HandleRecv`
closes the connection. -/
theorem Entry.failed {q : Request} (h : q.Entry) :
    ({ q with status := .handleError } : Request).Entry where
  tabled := by
    refine ⟨nofun, (by rintro (h | h) <;> cases h), fun hf => ?_, nofun, nofun, nofun⟩
    obtain ⟨hm, hc, hb, -⟩ := h.tabled.begun hf
    exact ⟨hm, hc, hb, .inr rfl⟩
  carried := by
    refine ⟨h.carried.short, fun hf => ?_⟩
    obtain ⟨hm, hc, hb, -⟩ := h.carried.begun hf
    exact ⟨hm, hc, hb, nofun, nofun⟩

/-! ### Lines keep what is carried -/

/-- The boundary a header line sets is shorter than the line, so that it is bounded by what has been
received. -/
theorem addHeaderOpt_boundary_short {r r' : Request} {line : Bytes} (hend : crlf <:+ line)
    (h : r.addHeaderOpt line = .ok r') :
    r'.boundaryLength ≤ max r.boundaryLength (line.length - 10) := by
  rw [addHeaderOpt_line hend] at h
  by_cases hword : firstWord line = []
  · rw [if_pos hword] at h
    cases h
  rw [if_neg hword] at h
  -- key, colon, space and value stand side by side in the line
  have hsize : (lineKey line).length + 2 + (lineValue line).length ≤ line.length := by
    have hsplit := congrArg List.length (firstWord_append_behindWord line)
    have hbehind := List.length_pos_of_ne_nil (behindWord_ne_nil hend hword)
    have hpos := List.length_pos_of_ne_nil hword
    have hkey : (lineKey line).length = (firstWord line).length - 1 := List.length_dropLast
    have hvalue : (lineValue line).length ≤ (behindWord line).length - 1 := by
      have htail := (List.takeWhile_prefix (l := (behindWord line).tail)
        fun c => decide (c ≠ lf)).length_le
      rw [List.length_tail] at htail
      unfold lineValue
      dsimp only
      split
      · rw [List.length_dropLast]
        omega
      · exact htail
    simp only [List.length_append] at hsplit
    omega
  by_cases hlen : lineKey line = lit "Content-Length"
  · rw [if_pos hlen] at h
    -- `Content-Length` sets no boundary
    cases hstoll : stoll (lineValue line) with
    | error f => rw [hstoll] at h; cases h
    | ok n =>
      rw [hstoll] at h
      cases h
      exact le_max_left _ _
  rw [if_neg hlen] at h
  by_cases htype : lineKey line = lit "Content-Type"
  · rw [if_pos htype] at h
    -- the key takes twelve bytes of the line
    have hbound := addContentType_boundaryLength h
    have hkey : (lineKey line).length = 12 := by rw [htype]; rfl
    omega
  · rw [if_neg htype] at h
    cases h
    by_cases hkey : lineKey line = lit "boundary"
    · have hbound := setHeader_boundaryLength r (lineKey line) (lineValue line)
      have hkeylen : (lineKey line).length = 8 := by rw [hkey]; rfl
      omega
    · -- a field of another name leaves the boundary alone
      have hsame : (r.setHeader (lineKey line) (lineValue line)).boundary? = r.boundary? :=
        Function.update_of_ne (Ne.symm hkey) _ _
      rw [boundaryLength, hsame]
      exact le_max_left _ _

section Line

variable {r r' : Request} {line rest : Bytes}

/-- **A line keeps what is carried**, when it stands in a buffer shorter than `2 ^ 31`. -/
theorem readLine_carried (h : r.Carried) (hw : r.wantsLine = true)
    (hc : cutLine r.recvMsg = some (line, rest)) (hlen : r.recvMsg.length < 2 ^ 31)
    (ho : r.readLine line = .ok r') : r'.Carried := by
  -- before the body no part has begun
  have hfresh (hs : r.status = .handleInit ∨ r.status = .handleHead) :
      r.fileMsgStatus = .fileBeginFlag := by
    by_contra hf
    obtain ⟨-, -, -, hi, hh⟩ := h.begun hf
    exact hs.elim hi hh
  cases readLine_cases ho with
  | requestLine init => exact ⟨h.short, fun hf => absurd (hfresh (.inl init)) hf⟩
  | blank head =>
    have hf := hfresh (.inr head)
    unfold endHead
    split
    · exact ⟨h.short, fun hne => absurd rfl hne⟩
    · exact ⟨h.short, fun hne => absurd hf hne⟩
  | header head added =>
    have hbound := addHeaderOpt_boundary_short (cutAfter_isSuffix hc) added
    have hline := congrArg List.length (cutAfter_append hc)
    have hshort := h.short
    obtain ⟨msgHeader, contentLength, hr'⟩ := addHeaderOpt_fields added
    rw [List.length_append] at hline
    refine ⟨by omega, fun hf => absurd ?_ hf⟩
    rw [hr']
    exact hfresh (.inr head)
  | begins body begin boundary =>
    -- the parts of the upload begin
    have hup : r.isUpload = true := by
      simpa [wantsLine, body, begin] using hw
    obtain ⟨-, hm, hmul⟩ := isUpload_iff.mp hup
    refine ⟨h.short, fun _ => ⟨hm, hmul, ?_, ?_, ?_⟩⟩
    · change r.boundary? ≠ none
      rw [boundary]
      exact Option.some_ne_none _
    · exact fun hi => by cases body.symm.trans hi
    · exact fun hi => by cases body.symm.trans hi
  | mismatch body begin => exact ⟨h.short, fun hne => absurd begin hne⟩
  | partBlank body part =>
    exact ⟨h.short, fun _ => h.begun (by rw [part]; decide)⟩
  | partLine => exact ⟨h.short, h.begun⟩
  | nothing => exact h

end Line

/-- A request whose lines have been read is carried on, and its buffer has not become longer. -/
theorem drained_carried {r r' : Request} (h : r.Carried) (hlen : r.recvMsg.length < 2 ^ 31)
    (hd : r.drained = .ok r') : r'.Carried ∧ r'.recvMsg.length < 2 ^ 31 := by
  refine drained_induction (P := fun r => r.Carried ∧ r.recvMsg.length < 2 ^ 31) ?_ ⟨h, hlen⟩ hd
  rintro r r' line rest ⟨h, hlen⟩ hw hc ho
  have hrest := cutLine_rest_lt hc
  have hline := readLine_carried h hw hc hlen ho
  exact ⟨⟨hline.short, hline.begun⟩, by rw [withMsg_recvMsg]; omega⟩

/-- The content stage of a request that is carried on runs: the boundary is there, the file opens,
and the length of the delimiter does not overflow. -/
theorem Carried.fits {r : Request} (h : r.Carried) (hlen : r.recvMsg.length < 2 ^ 31) :
    r.Fits true := by
  intro hu hf
  obtain ⟨-, -, hb, -⟩ := h.begun (by rw [hf]; exact nofun)
  obtain ⟨b, hb⟩ := Option.ne_none_iff_exists'.mp hb
  have hshort := h.short
  rw [boundaryLength, hb, Option.getD_some] at hshort
  exact ⟨rfl, b, hb, .inr ⟨hshort, hlen⟩⟩

/-! ### Absorbing leaves an entry -/

/-- Deciding about a request keeps what is carried, as long as no response is asked for. -/
theorem settle_carried {r : Request} (h : r.Carried) (hn : r.settle.handed = none) :
    r.settle.request.Carried := by
  by_cases hc : r.isUpload = true ∧ r.fileMsgStatus = .fileContent
  · rw [settle_of_content hc.1 hc.2] at hn ⊢
    unfold scanned at hn ⊢
    split at hn
    · cases hn
    · next hfound =>
      rw [if_neg hfound]
      exact ⟨h.short, h.begun⟩
  · rwa [settle_of_waiting hc hn]

/-- Where no line is waiting, no CR LF is: the loop would have cut one off. -/
theorem not_crlf_of_rest {r : Request} (hrest : r.wantsLine = false ∨ cutLine r.recvMsg = none)
    (hw : r.wantsLine = true) : ¬ crlf <:+: r.recvMsg := by
  rcases hrest with hrest | hrest
  · rw [hw] at hrest
    cases hrest
  · exact cutAfter_eq_none_iff.mp hrest

/-- A request whose lines have been read is tabled when nothing more can be decided about it. -/
theorem tabled_of_rest {r : Request} (hcomp : r.status ≠ .handleComplete) (h : r.Carried)
    (hrest : r.wantsLine = false ∨ cutLine r.recvMsg = none)
    (hcontent : r.isUpload = true → r.fileMsgStatus = .fileContent →
      ∃ b, r.boundary? = some b ∧
        (r.recvMsg = [] ∨ (r.recvMsg.head? = some cr ∧ r.recvMsg.length < b.length + 8)))
    (hgoing : r.isUpload = true → r.fileMsgStatus ≠ .fileComplete) : r.Tabled where
  incomplete := hcomp
  head hs := not_crlf_of_rest hrest (hs.elim wantsLine_of_init wantsLine_of_head)
  begun hf := by
    obtain ⟨hm, hc, hb, hi, hh⟩ := h.begun hf
    refine ⟨hm, hc, hb, ?_⟩
    cases hs : r.status with
    | handleInit => exact absurd hs hi
    | handleHead => exact absurd hs hh
    | handleBody => exact .inl rfl
    | handleComplete => exact absurd hs hcomp
    | handleError => exact .inr rfl
  -- the stages of the part take whole lines
  lines hu hf := by
    refine not_crlf_of_rest hrest ?_
    rw [wantsLine_of_upload hu]
    rcases hf with hf | hf <;> rw [hf] <;> rfl
  content := hcontent
  going := hgoing

/-- **A request that has been absorbed and is still received is an entry.** -/
theorem settle_entry {r : Request} (h : r.Carried)
    (hrest : r.wantsLine = false ∨ cutLine r.recvMsg = none) (hn : r.settle.handed = none) :
    r.settle.request.Entry := by
  refine ⟨?_, settle_carried h hn⟩
  have hlive := settle_status hn
  by_cases hc : r.isUpload = true ∧ r.fileMsgStatus = .fileContent
  · -- the scan has not found the delimiter, and keeps back what may begin it
    obtain ⟨hu, hf⟩ := hc
    obtain ⟨-, -, hb, -⟩ := h.begun (by rw [hf]; exact nofun)
    -- a content that has begun has its boundary
    obtain ⟨b, hb⟩ := Option.ne_none_iff_exists'.mp hb
    have hcar := settle_carried h hn
    rw [settle_of_content hu hf, hb, Option.getD_some] at hn hlive hcar ⊢
    have hheld := scan_held_of_not_found (D := delimiter b) (s := r.recvMsg)
    unfold scanned at hn hlive hcar ⊢
    generalize scan (delimiter b) r.recvMsg = s at hn hlive hcar hheld ⊢
    split at hn
    · cases hn
    · next hfound =>
      rw [if_neg hfound] at hlive hcar ⊢
      refine tabled_of_rest (r := r.withMsg s.held) hlive.2 hcar (.inl ?_) (fun _ _ => ⟨b, hb, ?_⟩)
        fun _ => by rw [withMsg_fileMsgStatus, hf]; exact nofun
      · rw [withMsg_wantsLine, wantsLine_of_upload hu, hf]
        rfl
      · have hkept := hheld (by simpa using hfound)
        rwa [delimiter_head?, delimiter_length] at hkept
  · have hwait := settle_of_waiting hc hn
    rw [hwait] at hlive ⊢
    -- outside the content nothing has changed, and a part that is complete would be handed over
    refine tabled_of_rest hlive.2 h hrest (fun hu hf => absurd ⟨hu, hf⟩ hc) fun hu hf => ?_
    rw [settle_of_upload hu, hf] at hn
    cases hn

end Request

/-- The action opens an upload file, if it wants to. An upload file that does not open makes the
handler return with lines unread. -/
def Action.Opens : Action → Prop
  | .openAppend _ ofs => ofs = true
  | _ => True

instance : DecidablePred Action.Opens := fun a => by
  cases a <;> unfold Action.Opens <;> infer_instance

namespace HandleRecv

open Request

/-! ### Calls of `HandleRecv` -/

/-- Along the receive loop the buffer stays shorter than `2 ^ 31` bytes. -/
def Bounded : List RecvResult → Request → Prop
  | .data buf ofs :: rest, r =>
    r.recvMsg.length + buf.length < 2 ^ 31 ∧
      ((recvTurn buf ofs r).flow = .again → Bounded rest (recvTurn buf ofs r).request)
  | _, _ => True

instance decidableBounded : (results : List RecvResult) → (r : Request) →
    Decidable (Bounded results r)
  | [], _ => .isTrue trivial
  | .data buf ofs :: rest, r =>
    have := decidableBounded rest (recvTurn buf ofs r).request
    inferInstanceAs (Decidable (_ ∧ (_ → _)))
  | .again :: _, _ => .isTrue trivial
  | .closed :: _, _ => .isTrue trivial
  | .failed :: _, _ => .isTrue trivial

/-- A turn that fails to open no file fits: the content stage either has its file or has not been
reached. -/
theorem fits_of_opens {r r' : Request} {buf : Bytes} {ofs : Bool}
    (hd : (r.push buf).drained = .ok r')
    (hopen : ∀ a ∈ (recvTurn buf ofs r).acts, a.Opens) (hfits : r'.Fits true) :
    r'.Fits ofs := by
  cases ofs with
  | true => exact hfits
  | false =>
    intro hu hf
    have hfails : Action.openAppend r'.uploadPath false ∈ (recvTurn buf false r).acts := by
      rw [recvTurn_of_upload false hd hu, contentStage, if_pos hf, if_neg Bool.false_ne_true]
      exact List.mem_append_right _ List.mem_cons_self
    cases hopen _ hfails

/-- Reading the lines of a chunk keeps an entry within its bounds, when the chunk fits behind the
buffer. -/
theorem pushed_carried {r r' : Request} {buf : Bytes} (h : r.Entry)
    (hlen : r.recvMsg.length + buf.length < 2 ^ 31) (hd : (r.push buf).drained = .ok r') :
    r'.Carried ∧ r'.recvMsg.length < 2 ^ 31 := by
  have hpush : (r.push buf).Carried := ⟨h.carried.short, h.carried.begun⟩
  refine drained_carried hpush ?_ hd
  change (r.recvMsg ++ buf).length < _
  rwa [List.length_append]

/-- A turn on an entry does what absorbing its chunk decides. -/
theorem entry_follows {r r' : Request} {buf : Bytes} {ofs : Bool} (h : r.Entry)
    (hlen : r.recvMsg.length + buf.length < 2 ^ 31)
    (hopen : ∀ a ∈ (recvTurn buf ofs r).acts, a.Opens) (hd : (r.push buf).drained = .ok r') :
    (recvTurn buf ofs r).Follows (.recvd buf :: (requestLineStage (r.push buf)).2) r'.settle := by
  obtain ⟨hcar, hlen'⟩ := pushed_carried h hlen hd
  exact recvTurn_follows h.tabled.incomplete hd (fits_of_opens hd hopen (hcar.fits hlen'))

/-- **A turn of the receive loop leaves an entry**, or a request that is complete. -/
theorem recvTurn_entry {r : Request} {buf : Bytes} {ofs : Bool} (h : r.Entry)
    (hlen : r.recvMsg.length + buf.length < 2 ^ 31)
    (hopen : ∀ a ∈ (recvTurn buf ofs r).acts, a.Opens) :
    ((recvTurn buf ofs r).flow = .again → (recvTurn buf ofs r).request.Entry) ∧
      ((recvTurn buf ofs r).flow = .leave →
        (recvTurn buf ofs r).request.status = .handleComplete ∨
          (recvTurn buf ofs r).request.Entry) := by
  cases hd : (r.push buf).drained with
  | error f =>
    -- a line that is refused ends the process, so the turn neither goes on nor leaves
    rw [recvTurn_of_error ofs hd]
    exact ⟨nofun, nofun⟩
  | ok r' =>
    obtain ⟨hcar, -⟩ := pushed_carried h hlen hd
    have hrest := drained_rest hd
    have hfollows := entry_follows h hlen hopen hd
    rw [hfollows.flow]
    by_cases hn : r'.settle.handed = none
    · rw [if_pos hn]
      refine ⟨fun _ => ?_, nofun⟩
      -- nothing is asked for, and the loop goes on with the entry
      have hentry := settle_entry hcar hrest hn
      rwa [hfollows.msg hentry.tabled.incomplete]
    · rw [if_neg hn]
      refine ⟨nofun, fun _ => ?_⟩
      rcases settle_handed hn with hcomp | ⟨hput, hsame, hs⟩
      · exact .inl ((congrArg Request.status hfollows.request).trans hcomp)
      · -- a `PUT` stays in its body
        have hlive : r'.status ≠ .handleComplete := by rw [hs]; exact nofun
        have hno : r'.isUpload ≠ true := by
          intro hu
          cases hput.symm.trans (isUpload_iff.mp hu).2.1
        rw [hfollows.msg (by rwa [hsame]), hsame]
        exact .inr ⟨tabled_of_rest hlive hcar hrest (fun hu => absurd hu hno)
          fun hu => absurd hu hno, hcar⟩

/-- The receive loop leaves an entry, or a request that is complete or in error, by induction on the
results of `recv`. -/
theorem recvLoop_entry (results : List RecvResult) {r : Request} (h : r.Entry)
    (hb : Bounded results r) (hcrash : (recvLoop results r).crash = none)
    (hopen : ∀ a ∈ (recvLoop results r).acts, a.Opens) :
    (recvLoop results r).request.status = .handleComplete ∨
      (recvLoop results r).request.status = .handleError ∨
      (recvLoop results r).request.Entry := by
  induction results generalizing r with
  | nil => exact .inr (.inr h)
  | cons x rest ih =>
    cases x with
    | again => exact .inr (.inr h)
    | closed => exact .inr (.inl rfl)
    | failed => exact .inr (.inl rfl)
    | data buf ofs =>
      obtain ⟨hlen, hrest⟩ := hb
      unfold recvLoop at hcrash hopen ⊢
      simp only at hcrash hopen ⊢
      cases hflow : (recvTurn buf ofs r).flow with
      | again =>
        simp only [hflow] at hcrash hopen ⊢
        -- the turn leaves the entry the next one needs
        have hturn :=
          (recvTurn_entry h hlen fun a ha => hopen a (List.mem_append_left _ ha)).1 hflow
        exact ih hturn (hrest hflow) hcrash fun a ha => hopen a (List.mem_append_right _ ha)
      | leave =>
        simp only [hflow] at hcrash hopen ⊢
        -- the loop leaves with what its last turn has left
        exact ((recvTurn_entry h hlen hopen).2 hflow).imp_right .inr
      | crash f =>
        simp only [hflow] at hcrash
        cases hcrash

/-- **A call of `HandleRecv` leaves an entry or none.** A request that is complete or in error is
erased behind the loop. -/
theorem process_entry (results : List RecvResult) {entry : Option Request}
    (h : ∀ q ∈ entry, q.Entry) (hb : Bounded results (entry.getD Request.init))
    (hcrash : (process results entry).crash = none)
    (hopen : ∀ a ∈ (process results entry).acts, a.Opens) :
    ∀ q ∈ (process results entry).request, q.Entry := by
  have hr : (entry.getD Request.init).Entry := by
    cases entry with
    | none => exact init_entry
    | some q => exact h q rfl
  unfold process Received.finish at hcrash hopen ⊢
  cases hloop : (recvLoop results (entry.getD Request.init)).crash with
  | some f =>
    rw [hloop] at hcrash
    cases hcrash
  | none =>
    simp only [hloop] at hopen ⊢
    -- a complete request and one in error are erased, any other stays
    have hend := recvLoop_entry results hr hb hloop fun a ha => hopen a (List.mem_append_left _ ha)
    unfold finish
    rcases hend with hs | hs | hentry
    · rw [if_pos hs]
      exact nofun
    · rw [if_neg (by rw [hs]; exact nofun), if_pos hs]
      exact nofun
    · split_ifs
      · exact nofun
      · exact nofun
      · rintro q ⟨⟩
        exact hentry

end HandleRecv

namespace HandleSend

/-! ### Calls of `HandleSend` -/

/-- **A call of `HandleSend` leaves an entry or none.** -/
theorem process_entry (w : World) (results : List SendResult) {request : Option Request}
    (h : ∀ q ∈ request, q.Entry) (response : Option Response) :
    ∀ q ∈ (process w results request response).request, q.Entry := by
  have hq : (request.getD Request.init).Entry := by
    cases request with
    | none => exact Request.init_entry
    | some q => exact h q rfl
  intro q hmem
  rcases process_request_cases w results request response q hmem with rfl | rfl
  · exact hq
  · exact hq.failed

end HandleSend

/-! ### Runs -/

namespace Conn

/-- The buffer of a call stays shorter than `2 ^ 31` bytes; `HandleSend` has no such buffer. -/
def Bounded (request : Option Request) : Handler → Prop
  | .recv results _ => HandleRecv.Bounded results (request.getD Request.init)
  | .send _ _ => True

instance (request : Option Request) : DecidablePred (Bounded request) := fun h => by
  cases h <;> unfold Bounded <;> infer_instance

/-- A call that returns, opens every upload file it wants to open, and keeps its buffer short. The
table is kept in order by such calls. -/
structure Regular (k : Conn) (h : Handler) : Prop where
  returns : (h.call k.request k.response).crash = none
  opens : ∀ a ∈ (h.call k.request k.response).acts, a.Opens
  bounded : Bounded k.request h

instance (k : Conn) (h : Handler) : Decidable (Regular k h) :=
  decidable_of_iff (((h.call k.request k.response).crash = none) ∧
    (∀ a ∈ (h.call k.request k.response).acts, a.Opens) ∧ Bounded k.request h)
    ⟨fun ⟨h₁, h₂, h₃⟩ => ⟨h₁, h₂, h₃⟩, fun ⟨h₁, h₂, h₃⟩ => ⟨h₁, h₂, h₃⟩⟩

/-- A regular call of either handler leaves an entry or none. -/
theorem Regular.entry {k : Conn} {h : Handler} (hreg : k.Regular h)
    (hk : ∀ q ∈ k.request, q.Entry) : ∀ q ∈ (h.call k.request k.response).request, q.Entry := by
  cases h with
  | recv results fresh =>
    exact HandleRecv.process_entry results hk hreg.bounded hreg.returns hreg.opens
  | send w results => exact HandleSend.process_entry w results hk k.response

/-- In every run the entry of an open connection is one, with what makes it last. -/
theorem requests_entries {left : Option Response} {k : Conn}
    (h : (connection left).Reachable Regular k) : ∀ q ∈ k.request, q.Entry := by
  refine h.invariant (I := fun k => ∀ q ∈ k.request, q.Entry) nofun ?_
  intro k h k' _ hk hreg hstep
  obtain ⟨-, rfl⟩ := step_eq_some.mp hstep
  exact hreg.entry hk

/-- **The request table.** Whatever a connection finds in `responseStatus`, in every run of calls of
the two handlers its entry of `requestStatus` is tabled between two calls. -/
theorem requests_tabled {left : Option Response} {k : Conn}
    (h : (connection left).Reachable Regular k) : ∀ q ∈ k.request, q.Tabled :=
  fun q hq => (requests_entries h q hq).tabled

/-- An upload that is cut inside what may be the final delimiter, so that three bytes are kept
back. -/
def cutUpload : List Handler :=
  [.recv
    [.data (lit "POST / HTTP/1.1\r\nContent-Type: multipart/form-data; boundary=z\r\n\r\n") true]
      HandleSend.sampleWorld.fresh,
    .recv [.data (lit "--z\r\nfilename=\"n\"\r\n\r\nab\r\n-") true] HandleSend.sampleWorld.fresh]

theorem requests_tabled_sample :
    ∃ k, (connection none).run (connection none).start cutUpload = some k ∧
      k.request.map Request.recvMsg = some (lit "\r\n-") ∧ ∀ q ∈ k.request, q.Tabled := by
  obtain ⟨k, hk⟩ := Option.isSome_iff_exists.mp
    (show ((connection none).run (connection none).start cutUpload).isSome by decide +kernel)
  have hstate : ((connection none).run (connection none).start cutUpload).map
      (fun k => k.request.map Request.recvMsg) = some (some (lit "\r\n-")) := by
    decide +kernel
  rw [hk] at hstate
  exact ⟨k, hk, Option.some.inj hstate,
    requests_tabled (Machine.reachable_of_run .start hk (by decide +kernel))⟩

end Conn

end Cherokee
