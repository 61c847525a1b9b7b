import Cherokee.Exits
import Cherokee.ResourceSplit

/-!
# What becomes of a request whose head is complete

A call of `HandleRecv::process` goes on receiving until nothing is there. In between the
`HANDLE_BODY` stage compares the method with `GET`, with `POST` and with `PUT`, and has no branch
for another one.

The bytes of a request are taken apart here without its stages: the head ends with the first blank
line (`behindBlank`), and so does the header of an upload's part. `Request.StandsAt` says where in
these bytes a request is that reads its lines, and a request that is still received reads what all
the bytes together decide (`Request.Reading`), however they were cut.

* `Request.Reading.undecided`: what a request that is still received waits for.
* `HandleRecv.call_reads`: what a call makes of a request that is still received.
* `Conn.reachable_tallies`: in every run the entry of an open connection is what the bytes received
  for it decide.
* `Conn.resolved_iff_known`: a request with a complete head is answered, or an upload whose final
  delimiter is missing, exactly when its method is one of the three.
-/

open Search DelimScan

namespace Cherokee

/-! ### Blank lines -/

/-- The bytes behind the first blank line that follows a line: behind two terminators in a row.
There are none while that has not arrived. -/
def behindBlank (s : Bytes) : Option Bytes := (cutAfter (crlf ++ crlf) s).map Prod.snd

/-- The bytes behind the next blank line, where a line begins: the blank line may be the one that
stands there. -/
def behindNext (s : Bytes) : Option Bytes :=
  if crlf <+: s then some (s.drop 2) else behindBlank s

/-- A terminator in front of a blank line makes it one that follows a line, and what is behind it is
behind both. -/
theorem behindBlank_of_isPrefix {s : Bytes} (h : crlf <+: s) :
    behindBlank (crlf ++ s) = some (s.drop 2) := by
  obtain ⟨t, rfl⟩ := h
  have hfirst : firstAt (crlf ++ crlf) (crlf ++ (crlf ++ t)) = some 0 :=
    firstAt_of_isPrefix ⟨t, List.append_assoc _ _ _⟩
  rw [behindBlank, cutAfter, hfirst]
  rfl

/-- A byte in front of which no blank line begins leaves the first blank line where it is. -/
theorem behindBlank_cons {c : UInt8} {s : Bytes} (h : ¬ crlf ++ crlf <+: c :: s) :
    behindBlank (c :: s) = behindBlank s := by
  unfold behindBlank cutAfter
  rw [firstAt_cons_of_not_isPrefix h]
  -- either side has none, or both have it, one further on
  cases firstAt (crlf ++ crlf) s with
  | none => rfl
  | some i =>
    simp only [Option.map_some, Option.some.injEq]
    rw [Nat.add_right_comm, List.drop_succ_cons]

/-- A terminator in front of a line: the next blank line of what begins there is the first one that
follows a line. -/
theorem behindBlank_crlf (s : Bytes) : behindBlank (crlf ++ s) = behindNext s := by
  unfold behindNext
  split
  · next h => exact behindBlank_of_isPrefix h
  · next h =>
    -- without a blank line at once, neither byte of the terminator begins one
    have hcr : ¬ crlf ++ crlf <+: cr :: lf :: s := by
      rintro ⟨t, ht⟩
      have ht : cr :: lf :: (crlf ++ t) = cr :: lf :: s := ht
      obtain ⟨-, ht⟩ := List.cons.inj ht
      exact h ⟨t, (List.cons.inj ht).2⟩
    have hlf : ¬ crlf ++ crlf <+: lf :: s := by
      intro hpre
      exact absurd (List.cons_prefix_cons.mp hpre).1 (by decide)
    exact (behindBlank_cons hcr).trans (behindBlank_cons hlf)

/-- **A line in front leaves the first blank line where it is.** Cutting a line off, as the stages
do, changes nothing in where the head ends. -/
theorem behindBlank_line {s line rest : Bytes} (hc : cutLine s = some (line, rest)) :
    behindBlank s = behindNext rest := by
  obtain ⟨i, hfirst, hi⟩ := Option.map_eq_some_iff.mp hc
  obtain ⟨rfl, rfl⟩ := Prod.mk.inj hi
  rw [← behindBlank_crlf]
  clear hc hi
  -- by induction on what stands in front of the terminator
  induction i generalizing s with
  | zero =>
    obtain ⟨t, rfl⟩ := (firstAt_spec hfirst).1
    rfl
  | succ i ih =>
    cases s with
    | nil => cases hfirst
    | cons c s =>
      have hno : ¬ crlf <+: c :: s := (firstAt_spec hfirst).2 0 (Nat.succ_pos i)
      rw [firstAt_cons_of_not_isPrefix hno] at hfirst
      obtain ⟨j, hj, hij⟩ := Option.map_eq_some_iff.mp hfirst
      obtain rfl : j = i := Nat.succ.inj hij
      have hcons : ¬ crlf ++ crlf <+: c :: s :=
        fun hpre => hno ((List.prefix_append _ _).trans hpre)
      rw [behindBlank_cons hcons, ih hj, Nat.add_right_comm, List.drop_succ_cons]

/-- When the next line is the blank one, what is behind it is what is left when it has been cut
off. -/
theorem behindNext_blank {s rest : Bytes} (hc : cutLine s = some (crlf, rest)) :
    behindNext s = some rest := by
  have hs : s = crlf ++ rest := (cutAfter_append hc).symm
  rw [hs, behindNext, if_pos (List.prefix_append _ _)]
  rfl

/-- Any other line in front leaves the next blank line where it is. -/
theorem behindNext_line {s line rest : Bytes} (hc : cutLine s = some (line, rest))
    (hne : line ≠ crlf) :
    behindNext s = behindNext rest := by
  have hno : ¬ crlf <+: s := by
    rintro ⟨t, rfl⟩
    rw [cutLine_crlf] at hc
    exact hne (Prod.mk.inj (Option.some.inj hc)).1.symm
  rw [behindNext, if_neg hno, behindBlank_line hc]

/-- Without a terminator there is no blank line behind a line. -/
theorem behindBlank_eq_none {s : Bytes} (h : ¬ crlf <:+: s) : behindBlank s = none := by
  have hno : ¬ crlf ++ crlf <:+: s := fun hin => h ((List.prefix_append _ _).isInfix.trans hin)
  rw [behindBlank, cutAfter_eq_none_iff.mpr hno]
  rfl

/-- Without a terminator there is no next blank line. -/
theorem behindNext_eq_none {s : Bytes} (h : ¬ crlf <:+: s) : behindNext s = none := by
  rw [behindNext, if_neg fun hpre => h hpre.isInfix, behindBlank_eq_none h]

namespace Request

open HandleRecv

/-! ### Where a request stands in its bytes -/

/-- Where a request that reads lines stands in the bytes received for it: in the head, what is left
of it has the same blank line next; in the body, what is left begins behind it. Before the body no
part has begun, and the part of an upload is followed in the same way. -/
def StandsAt (bytes : Bytes) (r : Request) : Prop :=
  match r.status with
  | .handleInit => r.recvMsg = bytes ∧ r.fileMsgStatus = .fileBeginFlag
  | .handleHead => behindBlank bytes = behindNext r.recvMsg ∧ r.fileMsgStatus = .fileBeginFlag
  | _ => ∃ body, behindBlank bytes = some body ∧ (r.isUpload = true →
    match r.fileMsgStatus with
    | .fileBeginFlag => r.recvMsg = body
    | .fileHead => behindBlank body = behindNext r.recvMsg
    | _ => behindBlank body = some r.recvMsg)

section Line

variable {bytes : Bytes} {r r' : Request} {line rest : Bytes}

/-- A line of the head leaves the request at its place: the blank line begins the body, and any
other one is a header. -/
theorem standsAt_head (h : r.StandsAt bytes) (hs : r.status = .handleHead)
    (hc : cutLine r.recvMsg = some (line, rest))
    (ho : r.readLine line = .ok r') : (r'.withMsg rest).StandsAt bytes := by
  obtain ⟨hbytes, hfresh⟩ : behindBlank bytes = behindNext r.recvMsg ∧
      r.fileMsgStatus = .fileBeginFlag := by
    unfold StandsAt at h
    rwa [hs] at h
  rw [readLine_of_head hs] at ho
  split at ho
  · next hline =>
    -- the blank line: the body begins
    subst hline
    cases ho
    rw [behindNext_blank hc] at hbytes
    have hstatus : (r.endHead.withMsg rest).status = .handleBody := by
      unfold endHead
      split <;> rfl
    have hbegin : (r.endHead.withMsg rest).fileMsgStatus = .fileBeginFlag := by
      unfold endHead
      split
      · rfl
      · exact hfresh
    unfold StandsAt
    rw [hstatus, hbegin]
    exact ⟨rest, hbytes, fun _ => rfl⟩
  · next hline =>
    -- a header moves on by its line, and the stage stays
    have hstatus : (r'.withMsg rest).status = .handleHead := (addHeaderOpt_status ho).trans hs
    obtain ⟨msgHeader, contentLength, rfl⟩ := addHeaderOpt_fields ho
    unfold StandsAt
    rw [hstatus]
    exact ⟨hbytes.trans (behindNext_line hc hline), hfresh⟩

/-- A line of the part of an upload leaves the request at its place: the blank line begins the
content, and any other one belongs to the header of the part. -/
theorem standsAt_part (h : r.StandsAt bytes) (hu : r.isUpload = true)
    (hf : r.fileMsgStatus = .fileHead) (hc : cutLine r.recvMsg = some (line, rest))
    (ho : r.readLine line = .ok r') : (r'.withMsg rest).StandsAt bytes := by
  have hs := (isUpload_iff.mp hu).1
  obtain ⟨body, hbytes, hpart⟩ : ∃ body, behindBlank bytes = some body ∧
      behindBlank body = behindNext r.recvMsg := by
    unfold StandsAt at h
    rw [hs] at h
    obtain ⟨body, hbytes, hpart⟩ := h
    have hpart := hpart hu
    rw [hf] at hpart
    exact ⟨body, hbytes, hpart⟩
  rw [readLine_of_part hs hf] at ho
  split at ho
  · next hline =>
    -- the blank line: the content begins
    subst hline
    cases ho
    unfold StandsAt
    rw [show (({ r with fileMsgStatus := .fileContent } : Request).withMsg rest).status = _ from hs]
    exact ⟨body, hbytes, fun _ => hpart.trans (behindNext_blank hc)⟩
  · next hline =>
    -- a line of the header may name the file, and moves on by itself
    obtain ⟨name, rfl⟩ := addPartLine_fields ho
    unfold StandsAt
    rw [show (({ r with recvFileName := name } : Request).withMsg rest).status = _ from hs]
    refine ⟨body, hbytes, fun _ => ?_⟩
    rw [show (({ r with recvFileName := name } : Request).withMsg rest).fileMsgStatus = _ from hf]
    exact hpart.trans (behindNext_line hc hline)

/-- The line where the start boundary is expected: with it the part begins, and without it the
request is in error. -/
theorem standsAt_begin (h : r.StandsAt bytes) (hu : r.isUpload = true)
    (hf : r.fileMsgStatus = .fileBeginFlag) (hc : cutLine r.recvMsg = some (line, rest))
    (ho : r.readLine line = .ok r') : (r'.withMsg rest).StandsAt bytes := by
  have hs := (isUpload_iff.mp hu).1
  obtain ⟨body, hbytes, hbegin⟩ : ∃ body, behindBlank bytes = some body ∧ r.recvMsg = body := by
    unfold StandsAt at h
    rw [hs] at h
    obtain ⟨body, hbytes, hbegin⟩ := h
    have hbegin := hbegin hu
    rw [hf] at hbegin
    exact ⟨body, hbytes, hbegin⟩
  rw [readLine_of_begin hs hf] at ho
  -- of the lines there are, only these two are read at this place
  cases readBegin_cases hs hf ho with
  | begins _ _ boundary eq =>
    unfold StandsAt
    rw [show (({ r with fileMsgStatus := .fileHead } : Request).withMsg rest).status = _ from hs]
    refine ⟨body, hbytes, fun _ => ?_⟩
    rw [hbegin] at hc
    exact behindBlank_line hc
  | mismatch => exact ⟨body, hbytes, fun hu => absurd (isUpload_iff.mp hu).1 nofun⟩
  | requestLine init => cases init.symm.trans hs
  | blank head => cases head.symm.trans hs
  | header head => cases head.symm.trans hs
  | partBlank _ part => cases part.symm.trans hf
  | partLine _ part => cases part.symm.trans hf
  | nothing _ _ begin => exact absurd hf (begin hs)

/-- **A line moves the place on.** Whatever stage it is read in, what the place says of all the
bytes holds behind the line as it held in front of it. -/
theorem readLine_standsAt (h : r.StandsAt bytes) (hw : r.wantsLine = true)
    (hc : cutLine r.recvMsg = some (line, rest)) (ho : r.readLine line = .ok r') :
    (r'.withMsg rest).StandsAt bytes := by
  cases hs : r.status with
  | handleInit =>
    obtain ⟨hbytes, hfresh⟩ : r.recvMsg = bytes ∧ r.fileMsgStatus = .fileBeginFlag := by
      unfold StandsAt at h
      rwa [hs] at h
    -- the request line is the first of the stream, and the head stands behind it
    rw [readLine_of_init hs] at ho
    cases ho
    rw [hbytes] at hc
    exact ⟨behindBlank_line hc, hfresh⟩
  | handleHead => exact standsAt_head h hs hc ho
  | handleBody =>
    -- in a body only an upload reads lines
    have hu : r.isUpload = true := by
      by_contra hu
      simp [wantsLine, hs, hu] at hw
    rw [wantsLine_of_upload hu] at hw
    -- the part has lines until its content begins
    cases hf : r.fileMsgStatus with
    | fileBeginFlag => exact standsAt_begin h hu hf hc ho
    | fileHead => exact standsAt_part h hu hf hc ho
    | fileContent =>
      rw [hf] at hw
      cases hw
    | fileComplete =>
      rw [hf] at hw
      cases hw
  | handleComplete => simp [wantsLine, isUpload, hs] at hw
  | handleError => simp [wantsLine, isUpload, hs] at hw

end Line

/-- Where a request stands that has read the lines of its bytes, from the first byte on, and that
none of them has put into error. -/
theorem drained_standsAt {bytes : Bytes} {r : Request}
    (h : (Request.init.push bytes).drained = .ok r) :
    r.StandsAt bytes ∧ r.status ≠ .handleError := by
  refine drained_induction (P := fun r => r.StandsAt bytes ∧ r.status ≠ .handleError) ?_
    (r := Request.init.push bytes) ⟨⟨rfl, rfl⟩, nofun⟩ h
  rintro r r' line rest ⟨hstands, hsound⟩ hw hc ho
  exact ⟨readLine_standsAt hstands hw hc ho, show r'.status ≠ _ from readLine_sound hsound ho⟩

/-! ### A request that is still received -/

/-- The request has been absorbed from its bytes, however they were cut, and no response has been
asked for yet. -/
def Reading (bytes : Bytes) (q : Request) : Prop :=
  ∃ o, Request.init.absorb bytes = .ok o ∧ o.handed = none ∧ o.request = q

/-- The final delimiter of the upload is not among the bytes behind the header of its part, so far
as these have arrived. -/
def Unfinished (q : Request) (body : Bytes) : Prop :=
  ∀ b content, q.boundary? = some b → behindBlank body = some content → ¬ delimiter b <:+: content

/-- Behind the lines of an upload that is still received, the final delimiter is missing: had it
arrived, the response would have been asked for. -/
theorem unfinished_of_stands {bytes : Bytes} {r : Request} (hstands : r.StandsAt bytes)
    (hrest : r.wantsLine = false ∨ cutLine r.recvMsg = none) (hu : r.isUpload = true)
    (hnone : r.settle.handed = none) {body : Bytes} (hbody : behindBlank bytes = some body) :
    r.Unfinished body := by
  intro b content hb hcontent
  obtain ⟨body', hbytes, hpart⟩ : ∃ body', behindBlank bytes = some body' ∧ (r.isUpload = true →
      match r.fileMsgStatus with
      | .fileBeginFlag => r.recvMsg = body'
      | .fileHead => behindBlank body' = behindNext r.recvMsg
      | _ => behindBlank body' = some r.recvMsg) := by
    unfold StandsAt at hstands
    rwa [(isUpload_iff.mp hu).1] at hstands
  obtain rfl := Option.some.inj (hbody.symm.trans hbytes)
  have hpart := hpart hu
  have hwants := wantsLine_of_upload hu
  -- by how far the part has come
  cases hf : r.fileMsgStatus with
  | fileBeginFlag =>
    -- the start boundary has not arrived, so nothing behind it has
    rw [hf] at hpart hwants
    rw [← hpart, behindBlank_eq_none (not_crlf_of_rest hrest hwants)] at hcontent
    cases hcontent
  | fileHead =>
    -- all complete lines have been read, and none of them was blank
    rw [hf] at hpart hwants
    rw [hpart, behindNext_eq_none (not_crlf_of_rest hrest hwants)] at hcontent
    cases hcontent
  | fileContent =>
    -- the content has been scanned to its end
    rw [hf] at hpart
    obtain rfl := Option.some.inj (hcontent.symm.trans hpart)
    rw [settle_of_content hu hf, hb, Option.getD_some] at hnone
    unfold scanned at hnone
    split at hnone
    · cases hnone
    · next hfound => exact fun hin => hfound ((scan_found_iff (delimiter_ne_nil b) _).mpr hin)
  | fileComplete =>
    -- a complete upload asks for its redirect
    rw [settle_of_upload hu, hf] at hnone
    cases hnone

/-- A new request is still received, from no bytes at all. -/
theorem reading_init : Reading [] Request.init := ⟨⟨Request.init, none, none⟩, rfl, rfl, rfl⟩

/-- **What a request that is still received waits for**: the end of its head, the final delimiter of
its upload, or nothing when its method is none of the three. -/
theorem Reading.undecided {bytes : Bytes} {q : Request} (h : Reading bytes q) :
    q.status ≠ .handleError ∧ (behindBlank bytes = none ∨
      ∃ body, behindBlank bytes = some body ∧ parsedMethod bytes = some q.requestMethod ∧
        (q.requestMethod = lit "POST" ∧ q.isMultipart = true ∧ q.Unfinished body ∨
          q.requestMethod ≠ lit "GET" ∧ q.requestMethod ≠ lit "POST" ∧
            q.requestMethod ≠ lit "PUT")) := by
  obtain ⟨o, ho, hnone, rfl⟩ := h
  obtain ⟨r, hd, rfl⟩ := drained_of_absorb ho
  obtain ⟨hstands, hsound⟩ := drained_standsAt hd
  obtain ⟨hstatus, hlive⟩ := settle_status hnone
  have hrest := drained_rest hd
  refine ⟨by rwa [hstatus], ?_⟩
  -- by the stage in which the lines have run out
  cases hs : r.status with
  | handleInit =>
    -- without a line there is no blank one
    refine .inl ?_
    unfold StandsAt at hstands
    rw [hs] at hstands
    rw [← hstands.1]
    exact behindBlank_eq_none (not_crlf_of_rest hrest (wantsLine_of_init hs))
  | handleHead =>
    refine .inl ?_
    unfold StandsAt at hstands
    rw [hs] at hstands
    rw [hstands.1]
    exact behindNext_eq_none (not_crlf_of_rest hrest (wantsLine_of_head hs))
  | handleBody =>
    have hmethod : parsedMethod bytes = some r.settle.request.requestMethod := by
      rcases absorb_requestMethod ho with hinit | hmethod
      · rw [hstatus, hs] at hinit
        cases hinit
      · exact hmethod
    obtain ⟨body, hbody⟩ : ∃ body, behindBlank bytes = some body := by
      unfold StandsAt at hstands
      rw [hs] at hstands
      exact hstands.imp fun _ h => h.1
    refine .inr ⟨body, hbody, hmethod, ?_⟩
    obtain ⟨recvMsg, status, fileMsgStatus, hfields⟩ := settle_fields r
    have hunfinished (hu : r.isUpload = true) : r.settle.request.Unfinished body := by
      have hr := unfinished_of_stands hstands hrest hu hnone hbody
      rw [hfields]
      exact hr
    rw [hfields]
    rw [hfields] at hunfinished
    change r.requestMethod = _ ∧ r.isMultipart = true ∧ _ ∨ _
    rw [settle_of_body hs] at hnone
    -- each of the three methods asks for its response, but for an upload
    by_cases hpost : r.requestMethod = lit "POST"
    · have hmul : r.isMultipart = true := by
        by_contra hmul
        rw [if_neg (by rw [hpost]; decide), if_pos hpost, if_neg hmul] at hnone
        cases hnone
      exact .inl ⟨hpost, hmul, hunfinished (isUpload_iff.mpr ⟨hs, hpost, hmul⟩)⟩
    · refine .inr ⟨fun hget => ?_, hpost, fun hput => ?_⟩
      · rw [if_pos hget] at hnone
        cases hnone
      · rw [if_neg (by rw [hput]; decide), if_neg hpost, if_pos hput] at hnone
        cases hnone
  | handleComplete => exact absurd hs hlive
  | handleError => exact absurd hs hsound

/-- Behind its request line, a request that is still received has the method and the resource of
that line. -/
theorem Reading.onLine {bytes : Bytes} {q : Request} (h : Reading bytes q) :
    q.status = .handleInit ∨ OnLine bytes q := by
  obtain ⟨o, ho, -, rfl⟩ := h
  exact absorb_onLine ho

/-- The head of a `PUT` is complete: its response has been asked for, and the request stays in the
table, in the stage of the body. -/
structure IsPut (bytes : Bytes) (q : Request) : Prop where
  body : q.status = .handleBody
  method : q.requestMethod = lit "PUT"
  asked : OnLine bytes q

end Request

namespace HandleRecv

open Request

/-! ### A turn of the receive loop -/

/-- The call ends with handing `name` over and arming the descriptor for output. Before that it has
only received. -/
def Asks (name : Bytes) (acts : List Action) : Prop :=
  ∃ before, (∀ a ∈ before, a.Receiving) ∧
    acts = before ++ [.setBodyFileName name, .modifyWaitFd true true true]

/-- What one turn of the receive loop makes of a request, with the bytes received for it by then: it
goes on, or leaves with a response asked for. -/
inductive TurnReads (bytes : Bytes) (t : Turn) : Prop where
  /-- It is still received. -/
  | again (flow : t.flow = .again) (receiving : ∀ a ∈ t.acts, a.Receiving)
      (reading : t.request.Reading bytes)
  | completes (flow : t.flow = .leave) (status : t.request.status = .handleComplete)
      (method : t.request.requestMethod = lit "GET" ∨ t.request.requestMethod = lit "POST")
      (asked : OnLine bytes t.request)
      (asks : Asks (askedFor t.request.requestMethod t.request.requestResource) t.acts)
  | puts (flow : t.flow = .leave) (put : t.request.IsPut bytes)
      (asks : Asks t.request.requestResource t.acts)

/-- **A turn on a request that is still received** is one of the three, by what all the bytes
together decide. -/
theorem turn_reads {bytes buf : Bytes} {ofs : Bool} {r r' : Request} (hr : r.Reading bytes)
    (he : r.Entry) (hlen : r.recvMsg.length + buf.length < 2 ^ 31)
    (hopen : ∀ a ∈ (recvTurn buf ofs r).acts, a.Opens) (hd : (r.push buf).drained = .ok r') :
    TurnReads (bytes ++ buf) (recvTurn buf ofs r) := by
  have hfollows := entry_follows he hlen hopen hd
  -- what the chunk decides is decided by all the bytes
  obtain ⟨o, ho, hnone, rfl⟩ := hr
  have habs : Request.init.absorb (bytes ++ buf) = .ok (r'.settle.after (o.written.getD [])) := by
    rw [absorb_append ho hnone, absorb_of_drained hd]
    rfl
  generalize o.request = r at *
  -- behind the first line, method and resource are those of the request line
  have hsame (hs : (recvTurn buf ofs r).request.status ≠ .handleInit) :
      OnLine (bytes ++ buf) (recvTurn buf ofs r).request := by
    have hstatus : (recvTurn buf ofs r).request.status = r'.settle.request.status :=
      by simpa using congrArg Request.status hfollows.request
    have hm : (recvTurn buf ofs r).request.requestMethod = r'.settle.request.requestMethod :=
      by simpa using congrArg Request.requestMethod hfollows.request
    have hn : (recvTurn buf ofs r).request.requestResource = r'.settle.request.requestResource :=
      by simpa using congrArg Request.requestResource hfollows.request
    rcases absorb_onLine habs with hinit | ⟨line, rest, hc, hline⟩
    · exact absurd (hstatus.trans hinit) hs
    · refine ⟨line, rest, hc, ?_⟩
      rw [hm, hn]
      exact hline
  obtain ⟨before, last, hacts, hbefore, hend⟩ := recvTurn_ends buf ofs he.tabled.incomplete
  -- how the turn ends says what has been decided
  cases hend with
  | again flow live =>
    have hhanded : r'.settle.handed = none := by
      by_contra hh
      rw [hfollows.flow, if_neg hh] at flow
      cases flow
    have hreq := hfollows.msg fun hs => live ((congrArg Request.status hfollows.request).trans hs)
    refine .again flow ?_ ⟨_, habs, hhanded, hreq.symm⟩
    rw [hacts, List.append_nil]
    exact hbefore
  | completes flow status method =>
    exact .completes flow status method (hsame (by rw [status]; exact nofun))
      ⟨before, hbefore, hacts⟩
  | puts flow status method =>
    exact .puts flow ⟨status, method, hsame (by rw [status]; exact nofun)⟩ ⟨before, hbefore, hacts⟩
  | openFails path flow status =>
    -- every upload file opens
    have hfails := hopen (.openAppend path false) (by rw [hacts]; simp)
    cases hfails
  | crashes f flow =>
    rw [hfollows.flow] at flow
    split at flow <;> cases flow

/-! ### A call -/

/-- What a call makes of a request for which `bytes` had been received. It waits for more, completes
and is erased, asks as a `PUT` and stays, or closes the connection. -/
inductive CallReads (bytes : Bytes) (c : Call) : Prop where
  /-- It is still received. -/
  | waits (q : Request) (request : c.request = some q)
      (handed : handedOver c.acts = []) (going : completed c.acts = [])
      (reading : q.Reading (bytes ++ received c.acts))
  | completes (q : Request) (request : c.request = none)
      (method : q.requestMethod = lit "GET" ∨ q.requestMethod = lit "POST")
      (asked : OnLine (bytes ++ received c.acts) q) (before : List Action)
      (receiving : ∀ a ∈ before, a.Receiving)
      (acts : c.acts = before ++ [.setBodyFileName (askedFor q.requestMethod q.requestResource),
        .modifyWaitFd true true true, .processed q.requestMethod q.requestResource])
  | puts (q : Request) (request : c.request = some q) (put : q.IsPut (bytes ++ received c.acts))
      (asks : Asks q.requestResource c.acts)
  | closes (closed : .closeClient ∈ c.acts)

/-- Turns that have only received, in front: what the rest of the call makes of the request is what
the whole call makes of it. -/
theorem CallReads.prepend {bytes x : Bytes} {acts : List Action} {c : Call}
    (ha : ∀ a ∈ acts, a.Receiving) (hx : received acts = x) (h : CallReads (bytes ++ x) c) :
    CallReads bytes (c.prepend acts) := by
  have hbytes : bytes ++ received (c.prepend acts).acts = bytes ++ x ++ received c.acts := by
    rw [Call.prepend_acts, received_append, hx, List.append_assoc]
  cases h with
  | waits q request handed going reading =>
    refine .waits q request ?_ ?_ (by rwa [hbytes])
    · rw [Call.prepend_acts, handedOver_append, handed, Conn.handedOver_receiving ha]
      rfl
    · rw [Call.prepend_acts, completed_append, going, Conn.completed_receiving ha]
      rfl
  | completes q request method asked before receiving hacts =>
    refine .completes q request method (by rwa [hbytes]) (acts ++ before) ?_ ?_
    · exact fun a h => (List.mem_append.mp h).elim (ha a) (receiving a)
    · rw [Call.prepend_acts, hacts, List.append_assoc]
  | puts q request put asks =>
    obtain ⟨before, receiving, hacts⟩ := asks
    refine .puts q request (by rwa [hbytes]) ⟨acts ++ before, ?_, ?_⟩
    · exact fun a h => (List.mem_append.mp h).elim (ha a) (receiving a)
    · rw [Call.prepend_acts, hacts, List.append_assoc]
  | closes closed => exact .closes (List.mem_append_right _ closed)

/-- When there is nothing more to receive, the request waits as it is, and the descriptor is armed
for input. -/
theorem reads_again {bytes : Bytes} {r : Request} (hr : r.Reading bytes)
    (hlive : r.status ≠ .handleComplete) (rest : List RecvResult) :
    CallReads bytes (Received.finish ⟨r, [.modifyWaitFd true true false], none, rest⟩) := by
  unfold Received.finish finish
  simp only
  rw [if_neg hlive, if_neg hr.undecided.1]
  exact .waits r rfl rfl rfl (by simpa [Action.received] using hr)

/-- When the peer has closed, or `recv` has failed, the call closes the connection. -/
theorem reads_error (bytes : Bytes) (r : Request) (rest : List RecvResult) :
    CallReads bytes (Received.finish ⟨{ r with status := .handleError }, [], none, rest⟩) :=
  .closes (by simp [Received.finish, finish])

/-- **A call on a request that is still received.** By induction on the results of `recv`: each turn
goes on with the bytes received so far, or ends the call. -/
theorem call_reads (results : List RecvResult) {bytes : Bytes} {r : Request}
    (hr : r.Reading bytes) (he : r.Entry) (hb : Bounded results r)
    (hcrash : (recvLoop results r).finish.crash = none)
    (hopen : ∀ a ∈ (recvLoop results r).finish.acts, a.Opens) :
    CallReads bytes (recvLoop results r).finish := by
  induction results generalizing bytes r with
  | nil => exact reads_again hr he.tabled.incomplete []
  | cons x rest ih =>
    cases x with
    | again => exact reads_again hr he.tabled.incomplete rest
    | closed => exact reads_error bytes r rest
    | failed => exact reads_error bytes r rest
    | data buf ofs =>
      obtain ⟨hlen, hrest⟩ := hb
      unfold recvLoop at hcrash hopen ⊢
      simp only at hcrash hopen ⊢
      -- the lines of the chunk are read, or one of them throws
      cases hd : (r.push buf).drained with
      | error f =>
        -- a refused line throws, and the call does not return
        have hflow : (recvTurn buf ofs r).flow = .crash f := by rw [recvTurn_of_error ofs hd]
        simp only [hflow] at hcrash
        cases hcrash
      | ok r' =>
        have hturn : ∀ a ∈ (recvTurn buf ofs r).acts, a.Opens := by
          intro a ha
          refine hopen a ?_
          split
          · rw [Received.finish_prepend, Call.prepend_acts]
            exact List.mem_append_left _ ha
          · exact List.mem_append_left _ ha
          · exact ha
        have hshows := shows_turn (r.push buf) buf r'.settle
        rw [← (entry_follows he hlen hturn hd).acts] at hshows
        have hreads := turn_reads hr he hlen hturn hd
        have hentry := (recvTurn_entry he hlen hturn).1
        generalize recvTurn buf ofs r = t at hcrash hopen hturn hshows hreads hentry hrest
        cases hreads with
        | again flow receiving reading =>
          simp only [flow, Received.finish_prepend] at hcrash hopen ⊢
          -- the rest of the call goes on with what has been received
          refine CallReads.prepend receiving hshows.received ?_
          exact ih reading (hentry flow) (hrest flow) hcrash
            fun a ha => hopen a (List.mem_append_right _ ha)
        | completes flow status method asked asks =>
          obtain ⟨before, receiving, hacts⟩ := asks
          simp only [flow]
          unfold Received.finish finish
          simp only [status, if_true]
          refine .completes t.request rfl method ?_ before receiving ?_
          · simpa [hshows.received, Action.received] using asked
          · rw [hacts, List.append_assoc]
            rfl
        | puts flow put asks =>
          simp only [flow]
          unfold Received.finish finish
          simp only [put.body]
          refine .puts t.request rfl ?_ ?_
          · simpa [hshows.received] using put
          · simpa using asks

/-- A turn on a request in error drops the chunk and goes on: no stage takes it up. -/
theorem recvTurn_error {r : Request} (h : r.status = .handleError) (buf : Bytes) (ofs : Bool) :
    recvTurn buf ofs r = ⟨r.push buf, [.recvd buf], .again⟩ := by
  have hbody : (r.push buf).status ≠ .handleBody := by
    rw [push, withMsg_status, h]
    decide
  rw [recvTurn_behind_head (by rw [h]; decide) (by rw [h]; decide), bodyStage, if_neg hbody]
  rfl

/-- **A call on a request in error closes the connection**, whatever it receives before. -/
theorem recvLoop_error (results : List RecvResult) {r : Request} (h : r.status = .handleError) :
    .closeClient ∈ (recvLoop results r).finish.acts := by
  induction results generalizing r with
  | nil => simp [recvLoop, Received.finish, finish, h]
  | cons x rest ih =>
    -- nothing to receive, the end of the stream, a failure, or one more chunk to drop
    cases x with
    | again => simp [recvLoop, Received.finish, finish, h]
    | closed => simp [recvLoop, Received.finish, finish]
    | failed => simp [recvLoop, Received.finish, finish]
    | data buf ofs =>
      unfold recvLoop
      simp only [recvTurn_error h]
      rw [Received.finish_prepend]
      exact List.mem_append_right _ (ih (r := r.push buf) h)

/-- A call that receives something for a `PUT` asks for its response once more, behind the first
chunk. -/
theorem recvLoop_put {bytes : Bytes} {r : Request} (h : r.IsPut bytes) (buf : Bytes) (ofs : Bool)
    (rest : List RecvResult) : CallReads bytes (recvLoop (.data buf ofs :: rest) r).finish := by
  unfold recvLoop
  simp only [recvTurn_put h.body h.method]
  unfold Received.finish finish
  have hbody : (r.push buf).status = .handleBody := h.body
  simp only [hbody]
  refine .puts (r.push buf) rfl ⟨hbody, h.method, ?_⟩ ⟨[.recvd buf], ?_, rfl⟩
  · exact OnLine.append (q := r.push buf) h.asked _
  · simp [Action.Receiving]

/-- **A call on a `PUT`** asks for its response again, or closes the connection, or receives
nothing. -/
theorem recvLoop_of_put {bytes : Bytes} {r : Request} (h : r.IsPut bytes)
    (results : List RecvResult) :
    CallReads bytes (recvLoop results r).finish ∨
      ((recvLoop results r).finish.request = some r ∧
        (recvLoop results r).finish.acts = [.modifyWaitFd true true false]) := by
  have hlive : r.status ≠ .handleComplete := by
    rw [h.body]
    exact nofun
  have hsound : r.status ≠ .handleError := by
    rw [h.body]
    exact nofun
  cases results with
  | nil => exact .inr (by simp [recvLoop, Received.finish, finish, hlive, hsound])
  | cons x rest =>
    cases x with
    | again => exact .inr (by simp [recvLoop, Received.finish, finish, hlive, hsound])
    | closed => exact .inl (reads_error bytes r rest)
    | failed => exact .inl (reads_error bytes r rest)
    | data buf ofs => exact .inl (recvLoop_put h buf ofs rest)

end HandleRecv

namespace HandleSend

/-- A call of `HandleSend` erases no `Request`: it makes one or marks the one there is, at most. -/
theorem process_request_stays (w : World) (results : List SendResult) {request : Option Request}
    (response : Option Response) (h : (process w results request response).request = none) :
    request = none := by
  cases response with
  | none => exact h
  | some r =>
    have hstage (h : (initStage w request r).request = none) : request = none := by
      rcases initStage_request w request r with ho | ho
      · exact ho.symm.trans h
      · cases ho.symm.trans h
    rcases process_request_eq w results request r with ho | ho
    · exact hstage (ho.symm.trans h)
    · rw [ho] at h
      rcases sendLoop_request_cases results (initStage w request r).request
        (initStage w request r).response with hloop | hloop
      · exact hstage (hloop.symm.trans h)
      · cases hloop.symm.trans h

end HandleSend

/-! ### Runs -/

namespace Conn

open HandleRecv

/-- An action, for the bytes received since the last request was complete. What completes a request
sets the count back. -/
def meanwhile (bytes : Bytes) : Action → Bytes
  | .recvd buf => bytes ++ buf
  | .processed _ _ => []
  | _ => bytes

/-- The bytes received for the request that is not complete yet, as the actions so far have them. -/
def underway (log : List Action) : Bytes := log.foldl meanwhile []

/-- Actions that complete no request add the bytes they receive. -/
theorem underway_append {acts : List Action} (log : List Action) (h : completed acts = []) :
    underway (log ++ acts) = underway log ++ received acts := by
  unfold underway
  rw [List.foldl_append]
  generalize log.foldl meanwhile [] = bytes
  -- over the actions, from any bytes that have been received
  induction acts generalizing bytes with
  | nil => exact (List.append_nil _).symm
  | cons a acts ih =>
    rw [completed_cons] at h
    obtain ⟨ha, hacts⟩ := List.append_eq_nil_iff.mp h
    rw [List.foldl_cons, received_cons, ih hacts, ← List.append_assoc]
    congr 1
    cases a <;> first | rfl | exact (List.append_nil _).symm | cases ha

/-- Behind the completion of a request nothing has been received for the next one. -/
theorem underway_processed (log : List Action) (method resource : Bytes) :
    underway (log ++ [.processed method resource]) = [] := by
  rw [underway, List.foldl_append]
  rfl

/-- A call of `HandleSend` receives nothing and completes no request. -/
theorem underway_send (log : List Action) (w : HandleSend.World)
    (results : List HandleSend.SendResult) (request : Option Request) (response : Option Response) :
    underway (log ++ (HandleSend.process w results request response).acts) = underway log := by
  have hacts := send_actions w results request response
  generalize (HandleSend.process w results request response).acts = acts at hacts
  have hquiet (a : Action) (ha : a ∈ acts) : a.completed = none ∧ a.received = [] := by
    rcases hacts a ha with h | rfl | rfl
    · cases a <;> first | exact ⟨rfl, rfl⟩ | cases h
    · exact ⟨rfl, rfl⟩
    · exact ⟨rfl, rfl⟩
  have hcompleted : completed acts = [] :=
    List.filterMap_eq_nil_iff.mpr fun a ha => (hquiet a ha).1
  have hreceived : received acts = [] :=
    List.flatMap_eq_nil_iff.mpr fun a ha => (hquiet a ha).2
  rw [underway_append log hcompleted, hreceived, List.append_nil]

/-- The entry of a connection is what has been received for it, or sending has failed. Without an
entry nothing has been received since the last completion. -/
def Tallies (k : Conn) : Prop :=
  match k.request with
  | none => underway k.log = []
  | some q => q.status = .handleError ∨ q.Reading (underway k.log) ∨ q.IsPut (underway k.log)

/-- A call of `HandleRecv` that leaves its connection open leaves an entry that tallies, by each of
the things it can make of the request. -/
theorem tallies_of_reads {k : Conn} {c : HandleRecv.Call} {response : Option Response}
    (h : CallReads (underway k.log) c)
    (hopen : (k.after ⟨c.request, response, c.acts, c.crash⟩).ended = false) :
    (k.after ⟨c.request, response, c.acts, c.crash⟩).Tallies := by
  unfold Tallies after
  simp only
  cases h with
  | waits q request handed going reading =>
    rw [request, underway_append k.log going]
    exact .inr (.inl reading)
  | completes q request method asked before receiving hacts =>
    -- the request is erased, and the count starts again
    rw [request, hacts]
    simp only
    rw [show [Action.setBodyFileName (askedFor q.requestMethod q.requestResource),
      .modifyWaitFd true true true, .processed q.requestMethod q.requestResource] =
      [.setBodyFileName (askedFor q.requestMethod q.requestResource),
        .modifyWaitFd true true true] ++ [.processed q.requestMethod q.requestResource] from rfl,
      ← List.append_assoc, ← List.append_assoc, underway_processed]
  | puts q request put asks =>
    obtain ⟨before, receiving, hacts⟩ := asks
    have going : completed c.acts = [] := by
      rw [hacts, completed_append, Conn.completed_receiving receiving]
      rfl
    rw [request, underway_append k.log going]
    exact .inr (.inr put)
  -- a connection that is closed is not open
  | closes closed =>
    have hclosed := closes_eq_false.mp (Bool.or_eq_false_iff.mp hopen).2
    exact absurd closed hclosed

/-- A call of `HandleRecv` on an entry that tallies: one of `CallReads`, unless it is a `PUT` for
which nothing arrives, where the call only arms the descriptor. -/
theorem Tallies.recv {k : Conn} (hk : k.Tallies) (hentry : ∀ q ∈ k.request, q.Entry)
    {results : List RecvResult} {fresh : Uninit} (hreg : k.Regular (.recv results fresh))
    (hopen : (k.after (Handler.call (.recv results fresh) k.request k.response)).ended = false) :
    CallReads (underway k.log) (HandleRecv.process results k.request) ∨
      ∃ q, k.request = some q ∧ q.IsPut (underway k.log) ∧
        (HandleRecv.process results k.request).request = some q ∧
        (HandleRecv.process results k.request).acts = [.modifyWaitFd true true false] := by
  have hclosed : Action.closeClient ∉ (HandleRecv.process results k.request).acts :=
    closes_eq_false.mp (Bool.or_eq_false_iff.mp hopen).2
  have hcrash : (HandleRecv.process results k.request).crash = none := hreg.returns
  have hopens : ∀ a ∈ (HandleRecv.process results k.request).acts, a.Opens := hreg.opens
  have hbounded : HandleRecv.Bounded results (k.request.getD Request.init) := hreg.bounded
  unfold HandleRecv.process at *
  unfold Tallies at hk
  cases hq : k.request with
  | none =>
    rw [hq] at hk hcrash hopens hbounded
    refine .inl ?_
    rw [hk]
    exact call_reads results Request.reading_init Request.init_entry hbounded hcrash hopens
  | some q =>
    rw [hq] at hk hclosed hcrash hopens hbounded
    -- an entry in error is closed, and the other two go on
    rcases hk with herror | hreading | hput
    · exact absurd (recvLoop_error results herror) hclosed
    · exact .inl (call_reads results hreading (hentry q hq) hbounded hcrash hopens)
    · exact (recvLoop_of_put hput results).imp_right fun h => ⟨q, rfl, hput, h⟩

/-- **Every call keeps the tally**, of either handler, as long as it returns and leaves the
connection open. -/
theorem Tallies.step {k : Conn} (hk : k.Tallies) (hentry : ∀ q ∈ k.request, q.Entry) {h : Handler}
    (hreg : k.Regular h) (hopen : (k.after (h.call k.request k.response)).ended = false) :
    (k.after (h.call k.request k.response)).Tallies := by
  cases h with
  | recv results fresh =>
    rcases hk.recv hentry hreg hopen with hreads | ⟨q, -, hput, hrequest, hacts⟩
    · exact tallies_of_reads hreads hopen
    · -- a `PUT` for which nothing has been received
      have hbytes : underway (k.log ++ (HandleRecv.process results k.request).acts) =
          underway k.log := by
        rw [hacts, underway_append k.log rfl]
        exact List.append_nil _
      unfold Tallies
      change match (HandleRecv.process results k.request).request with
        | none => underway (k.log ++ (HandleRecv.process results k.request).acts) = []
        | some q => q.status = .handleError ∨
          q.Reading (underway (k.log ++ (HandleRecv.process results k.request).acts)) ∨
          q.IsPut (underway (k.log ++ (HandleRecv.process results k.request).acts))
      rw [hrequest, hbytes]
      exact .inr (.inr hput)
  | send w results =>
    have hstays := @HandleSend.process_request_stays w results k.request k.response
    have hcases := HandleSend.process_request_cases w results k.request k.response
    have hbytes := underway_send k.log w results k.request k.response
    change Tallies (k.after (HandleSend.process w results k.request k.response))
    unfold Tallies after at *
    simp only
    generalize HandleSend.process w results k.request k.response = c at hstays hcases hbytes
    rw [hbytes]
    cases hc : c.request with
    | none =>
      -- only an entry that was not there is missing
      rw [hstays hc] at hk
      exact hk
    | some q =>
      -- the request is as it was, or made by the call, or marked as failed
      rcases hcases q hc with rfl | rfl
      · cases hq : k.request with
        | none =>
          -- the entry is made by the call
          rw [hq] at hk
          refine .inr (.inl ?_)
          simp only at hk
          rw [hk]
          exact Request.reading_init
        | some q =>
          rw [hq] at hk
          exact hk
      · exact .inl rfl

/-- In every run the entry of an open connection tallies, since every call keeps it so and a new
connection begins with nothing. -/
theorem reachable_tallies {left : Option Response} {k : Conn}
    (h : (connection left).Reachable Regular k) (hopen : k.ended = false) : k.Tallies := by
  refine h.invariant (I := fun k => k.ended = false → k.Tallies) (fun _ => rfl) ?_ hopen
  intro k h k' hreach hk hreg hstep hover
  obtain ⟨hopen, rfl⟩ := step_eq_some.mp hstep
  exact (hk hopen).step (requests_entries hreach) hreg hover

/-! ### Requests with a complete head -/

/-- What is handed over for the request line of a stream: the resource as it stands there, and the
redirect for `POST`. -/
def requested (bytes : Bytes) : Option Bytes :=
  (cutLine bytes).map fun p =>
    let q := Request.init.setRequestLine p.1
    if q.requestMethod = lit "POST" then lit "/redirect" else q.requestResource

/-- For a request that is on the line, it is what the stages hand over for its method and its
resource. -/
theorem requested_of_onLine {bytes : Bytes} {q : Request} (h : Request.OnLine bytes q) :
    requested bytes =
      some (if q.requestMethod = lit "POST" then lit "/redirect" else q.requestResource) := by
  obtain ⟨line, rest, hc, hm, hr⟩ := h
  rw [requested, hc, hm, hr]
  rfl

/-- The response to the request is placed in `responseStatus`: its resource has been handed over,
the entry is for it, and the descriptor is armed for output. -/
structure Places (bytes : Bytes) (c : HandleSend.Call) : Prop where
  placed : ∃ name, requested bytes = some name ∧ name ∈ handedOver c.acts ∧
    c.response.map Response.bodyFileName = some name
  armed : ∀ i, register (some i) c.acts = some ⟨true, true⟩

/-- A call that ends with handing the resource over places the response, whether it notes the
completion of the request behind that or not. -/
theorem places_of_acts {bytes name : Bytes} (hname : requested bytes = some name)
    {results : List RecvResult} {request : Option Request} {before logged : List Action}
    (receiving : ∀ a ∈ before, a.Receiving)
    (hlogged : logged = [] ∨ ∃ method resource, logged = [.processed method resource])
    (hacts : (HandleRecv.process results request).acts =
      before ++ ([.setBodyFileName name, .modifyWaitFd true true true] ++ logged))
    (fresh : Uninit) (response : Option Response) :
    Places bytes (Handler.call (.recv results fresh) request response) := by
  have hresponse : handOver fresh response (HandleRecv.process results request).acts =
      some (Response.setBodyFileName fresh response name) := by
    rw [hacts, handOver_append fresh response receiving]
    rcases hlogged with rfl | ⟨method, resource, rfl⟩ <;> rfl
  refine ⟨⟨name, hname, ?_, ?_⟩, fun i => ?_⟩
  · change name ∈ handedOver (HandleRecv.process results request).acts
    rw [hacts]
    simp [Action.handedOver]
  · change (handOver fresh response (HandleRecv.process results request).acts).map _ = _
    rw [hresponse]
    cases response <;> rfl
  · change register (some i) (HandleRecv.process results request).acts = _
    rw [hacts, register_behind fun a ha => (receiving a ha).plain]
    rcases hlogged with rfl | ⟨method, resource, rfl⟩ <;> rfl

/-- The request is an upload, and its final delimiter is not in the body as far as it has
arrived. -/
structure Awaits (body : Bytes) (q : Request) : Prop where
  method : q.requestMethod = lit "POST"
  multipart : q.isMultipart = true
  missing : ∀ b, q.boundary? = some b → ¬ delimiter b <:+: body

/-- The request has its outcome: the response is placed, or the request is an upload that is still
received. -/
def Resolved (bytes : Bytes) (c : HandleSend.Call) : Prop :=
  Places bytes c ∨
    ∃ body q, behindBlank bytes = some body ∧ c.request = some q ∧ Awaits body q

/-- The method on the request line is one of the three that `HANDLE_BODY` compares with, byte for
byte. -/
def Known (bytes : Bytes) : Prop :=
  ∃ method, parsedMethod bytes = some method ∧
    (method = lit "GET" ∨ method = lit "POST" ∨ method = lit "PUT")

/-- The boundary that is recorded for a stream, when the lines of it that have arrived are read. -/
def recordedBoundary (bytes : Bytes) : Option Bytes :=
  match (Request.init.push bytes).drained with
  | .ok r => r.boundary?
  | .error _ => none

/-- For a request that is still received, it is the boundary of the request. -/
theorem recordedBoundary_of_reading {bytes : Bytes} {q : Request} (h : q.Reading bytes) :
    recordedBoundary bytes = q.boundary? := by
  obtain ⟨o, ho, -, rfl⟩ := h
  obtain ⟨r, hd, rfl⟩ := Request.drained_of_absorb ho
  obtain ⟨_, _, _, hfields⟩ := Request.settle_fields r
  rw [recordedBoundary, hd, hfields]
  rfl

/-- The bytes of the final delimiter stand in the body of the request nowhere but in the content,
behind the header of the part. -/
def EndsContent (bytes : Bytes) : Prop :=
  ∀ b body, recordedBoundary bytes = some b → behindBlank bytes = some body →
    delimiter b <:+: body → ∃ content, behindBlank body = some content ∧ delimiter b <:+: content

/-- The bytes received for the request behind a call: those there were, and those of the call. -/
def arrived (k : Conn) (c : HandleSend.Call) : Bytes := underway k.log ++ received c.acts

/-- A call of `HandleRecv` in which a `PUT` receives something, and in which the final delimiter
stands in no other place. -/
structure Steady (k : Conn) (results : List RecvResult) (fresh : Uninit) : Prop where
  regular : k.Regular (.recv results fresh)
  feeds : ∀ q ∈ k.request, q.status = .handleBody → q.requestMethod = lit "PUT" →
    ∃ buf ofs rest, results = .data buf ofs :: rest
  content : EndsContent (k.arrived (Handler.call (.recv results fresh) k.request k.response))

/-- A request that is still received behind a call is an upload that waits for its delimiter, or its
method is none of the three. -/
theorem resolved_of_reading {bytes : Bytes} {c : HandleSend.Call} {q : Request}
    (hrequest : c.request = some q) (handed : handedOver c.acts = []) (reading : q.Reading bytes)
    (hcontent : EndsContent bytes) (hhead : behindBlank bytes ≠ none) :
    Resolved bytes c ↔ Known bytes := by
  obtain ⟨-, hnone | ⟨body, hbody, hmethod, hq⟩⟩ := reading.undecided
  · exact absurd hnone hhead
  constructor
  · rintro (⟨⟨name, -, hname, -⟩, -⟩ | ⟨body', q', -, hq', hawaits⟩)
    · -- nothing has been handed over
      rw [handed] at hname
      cases hname
    · obtain rfl := Option.some.inj (hrequest.symm.trans hq')
      exact ⟨_, hmethod, .inr (.inl hawaits.method)⟩
  · rintro ⟨method, hparsed, hknown⟩
    obtain rfl := Option.some.inj (hmethod.symm.trans hparsed)
    rcases hq with ⟨hpost, hmul, hunfinished⟩ | ⟨hget, hpost, hput⟩
    · -- an upload: the delimiter is not in the content, and it stands nowhere else
      refine .inr ⟨body, q, hbody, hrequest, hpost, hmul, fun b hb hin => ?_⟩
      have hrecorded := (recordedBoundary_of_reading reading).trans hb
      obtain ⟨content, hbehind, hin⟩ := hcontent b body hrecorded hbody hin
      exact hunfinished b content hb hbehind hin
    · exact absurd hknown (by simp [hget, hpost, hput])

/-- A call that keeps the connection, by what it makes of its request: it waits, or its response is
placed, or it is a `PUT` whose response is. -/
theorem resolved_of_reads {bytes : Bytes} {results : List RecvResult} {request : Option Request}
    (h : CallReads bytes (HandleRecv.process results request)) (fresh : Uninit)
    (response : Option Response)
    (hstays : .closeClient ∉ (HandleRecv.process results request).acts)
    (hcontent : EndsContent (bytes ++ received (HandleRecv.process results request).acts))
    (hhead : behindBlank (bytes ++ received (HandleRecv.process results request).acts) ≠ none) :
    Resolved (bytes ++ received (HandleRecv.process results request).acts)
        (Handler.call (.recv results fresh) request response) ↔
      Known (bytes ++ received (HandleRecv.process results request).acts) := by
  cases h with
  -- the call waits: whether it should is decided by the method
  | waits q hrequest handed going reading =>
    exact resolved_of_reading hrequest handed reading hcontent hhead
  | completes q hrequest method asked before receiving hacts =>
    have hknown : Known _ := ⟨_, asked.parsedMethod, method.imp_right .inl⟩
    refine iff_of_true (.inl ?_) hknown
    -- a `GET` or a `POST` is complete, and its resource has been placed
    have hname : requested (bytes ++ received (HandleRecv.process results request).acts) =
        some (askedFor q.requestMethod q.requestResource) := by
      rw [requested_of_onLine asked, askedFor]
      rcases method with hm | hm <;> rw [hm] <;> rfl
    exact places_of_acts hname receiving (.inr ⟨_, _, rfl⟩) hacts fresh response
  | puts q hrequest put asks =>
    have hknown : Known _ := ⟨_, put.asked.parsedMethod, .inr (.inr put.method)⟩
    refine iff_of_true (.inl ?_) hknown
    obtain ⟨before, receiving, hacts⟩ := asks
    have hname : requested (bytes ++ received (HandleRecv.process results request).acts) =
        some q.requestResource := by
      rw [requested_of_onLine put.asked, if_neg (by rw [put.method]; decide)]
    -- the request stays in the table, so that nothing is noted behind
    refine places_of_acts hname receiving (.inl rfl) ?_ fresh response
    rw [hacts, List.append_nil]
  | closes closed => exact absurd closed hstays

/-- **Which requests are answered.** In every run of calls of the two handlers that return, that
open the upload files and whose buffers stay short: behind a call of `HandleRecv` that keeps the
connection, a request with a complete head is answered, or an upload whose final delimiter is
missing, exactly when its method is one of the three. -/
theorem resolved_iff_known {left : Option Response} {k : Conn}
    (h : (connection left).Reachable Regular k) (hopen : k.ended = false)
    {results : List RecvResult} {fresh : Uninit} (hs : k.Steady results fresh)
    (hstays : .closeClient ∉ (Handler.call (.recv results fresh) k.request k.response).acts)
    (hhead : behindBlank (k.arrived (Handler.call (.recv results fresh) k.request k.response)) ≠
      none) :
    Resolved (k.arrived (Handler.call (.recv results fresh) k.request k.response))
        (Handler.call (.recv results fresh) k.request k.response) ↔
      Known (k.arrived (Handler.call (.recv results fresh) k.request k.response)) := by
  have hopen' : (k.after (Handler.call (.recv results fresh) k.request k.response)).ended =
    false := by
    refine Bool.or_eq_false_iff.mpr ⟨?_, closes_eq_false.mpr hstays⟩
    rw [hs.regular.returns]
    rfl
  -- by the tally, and for a `PUT` because something arrives
  have hreads : CallReads (underway k.log) (HandleRecv.process results k.request) := by
    rcases (reachable_tallies h hopen).recv (requests_entries h) hs.regular hopen' with
      hreads | ⟨q, hq, hput, -⟩
    · exact hreads
    · obtain ⟨buf, ofs, rest, rfl⟩ := hs.feeds q hq hput.body hput.method
      rw [HandleRecv.process, hq]
      exact recvLoop_put hput buf ofs rest
  exact resolved_of_reads hreads fresh k.response hstays hs.content hhead

/-- A connection on which half a request line has been received, so that the request is not new when
the rest arrives. -/
def halfLine : Conn :=
  (connection none).start.after
    (Handler.call (.recv [.data (lit "GET / HT") true] HandleSend.sampleWorld.fresh) none none)

/-- The rest of the head, in a chunk of its own. -/
def restOfHead : List RecvResult := [.data (lit "TP/1.1\r\n\r\n") true]

theorem resolved_iff_known_get :
    Resolved (lit "GET / HTTP/1.1\r\n\r\n")
      (Handler.call (.recv restOfHead HandleSend.sampleWorld.fresh) halfLine.request
        halfLine.response) := by
  have hreach : (connection none).Reachable Regular halfLine :=
    .step (.recv [.data (lit "GET / HT") true] HandleSend.sampleWorld.fresh) .start
      (by decide +kernel) rfl
  have harrived : halfLine.arrived (Handler.call (.recv restOfHead HandleSend.sampleWorld.fresh)
      halfLine.request halfLine.response) = lit "GET / HTTP/1.1\r\n\r\n" := by
    decide +kernel
  have hnone : recordedBoundary (lit "GET / HTTP/1.1\r\n\r\n") = none := by decide +kernel
  have hmethod : ∀ q ∈ halfLine.request, q.requestMethod ≠ lit "PUT" := by decide +kernel
  have hsteady : halfLine.Steady restOfHead HandleSend.sampleWorld.fresh := by
    refine ⟨by decide +kernel, fun q hq _ hm => absurd hm (hmethod q hq), fun b body hb => ?_⟩
    rw [harrived, hnone] at hb
    cases hb
  have hiff := resolved_iff_known hreach (by decide +kernel) hsteady (by decide +kernel)
    (by rw [harrived]; decide +kernel)
  rw [harrived] at hiff
  exact hiff.mpr ⟨lit "GET", by decide +kernel, .inl rfl⟩

/-- A `HEAD` request, received at once. -/
def headRequest : List RecvResult := [.data (lit "HEAD / HTTP/1.1\r\n\r\n") true]

/-- No branch of `HANDLE_BODY` is for `HEAD`: nothing is handed over, and the descriptor waits for
more input. -/
theorem head_request_unanswered :
    ¬ ∀ (left : Option Response) (k : Conn) (results : List RecvResult) (fresh : Uninit),
      (connection left).Reachable Machine.anyStep k → k.ended = false →
        (Handler.call (.recv results fresh) k.request k.response).crash = none →
          .closeClient ∉ (Handler.call (.recv results fresh) k.request k.response).acts →
            behindBlank
                (k.arrived (Handler.call (.recv results fresh) k.request k.response)) ≠ none →
              Resolved (k.arrived (Handler.call (.recv results fresh) k.request k.response))
                (Handler.call (.recv results fresh) k.request k.response) := by
  intro h
  have hresolved :=
    h none (connection none).start headRequest HandleSend.sampleWorld.fresh .start rfl
    (by decide +kernel) (by decide +kernel) (by decide +kernel)
  rcases hresolved with ⟨⟨name, -, hname, -⟩, -⟩ | ⟨body, q, -, hq, hawaits⟩
  · have hnone : handedOver (Handler.call (.recv headRequest HandleSend.sampleWorld.fresh)
        (connection none).start.request (connection none).start.response).acts = [] := by
      decide +kernel
    rw [hnone] at hname
    cases hname
  · have hmethod : (Handler.call (.recv headRequest HandleSend.sampleWorld.fresh)
        (connection none).start.request (connection none).start.response).request.map
        Request.requestMethod = some (lit "HEAD") := by
      decide +kernel
    rw [hq, Option.map_some, hawaits.method] at hmethod
    revert hmethod
    decide

end Conn

end Cherokee
