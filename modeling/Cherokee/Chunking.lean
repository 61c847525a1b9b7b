import Cherokee.RecvRun

/-!
# Chunk independence

A byte stream that completes at its last byte or not at all leaves the same `Request`, the same
bytes in the same file and the same resource handed over, however it is cut into results of `recv`
(`HandleRecv.chunk_independence`).

The content loop keeps its lengths in an `int`. They stay below the bytes received: by the time an
upload's content is read its boundary has been received twice, once in the headers and once in the
start boundary (`Request.Within`).
-/

open Search DelimScan

namespace Cherokee

/-! ### Lengths of what a stream gives -/

namespace IStringStream

/-- Extraction leaves no more in the stream than there was. -/
theorem extract_rest_length (stream : IStringStream) (str : Bytes) :
    (stream.extract str).2.rest.length ≤ stream.rest.length := by
  have hdrop : ∀ (p : UInt8 → Bool) (s : Bytes), (s.dropWhile p).length ≤ s.length :=
    fun p s => (List.dropWhile_suffix p).length_le
  unfold extract
  split
  · simp only
    split
    · exact Nat.zero_le _
    · exact (hdrop _ _).trans (hdrop _ _)
  · exact le_rfl

/-- Nor does taking one character. -/
theorem get_rest_length (stream : IStringStream) :
    stream.get.rest.length ≤ stream.rest.length := by
  unfold get
  split
  · split <;> simp_all
  · exact le_rfl

/-- A line read from the stream is no longer than what was in it. -/
theorem getline_length (stream : IStringStream) (str : Bytes) :
    (stream.getline str).1.length ≤ max str.length stream.rest.length := by
  unfold getline
  split
  · split
    · simp only [List.length_take]
      omega
    · exact le_max_right _ _
  · exact le_max_left _ _

end IStringStream

namespace Request

/-! ### The bytes behind a request -/

/-- The length of the boundary, once there is one, and zero before. -/
def boundaryLength (r : Request) : ℕ := (r.boundary?.getD []).length

/-- A part of a string is no longer than the string. -/
theorem substr_length {s t : Bytes} {pos n : ℕ} (h : substr s pos n = .ok t) :
    t.length ≤ s.length := by
  unfold substr at h
  split at h
  · cases h
    simp only [List.length_take, List.length_drop]
    omega
  · cases h

/-- An entry among the headers makes the boundary as long as its value at most. -/
theorem setHeader_boundaryLength (r : Request) (key value : Bytes) :
    (r.setHeader key value).boundaryLength ≤ max r.boundaryLength value.length := by
  unfold boundaryLength boundary? setHeader
  simp only [Function.update_apply]
  split
  · exact le_max_right _ _
  · exact le_max_left _ _

/-- A media type makes the boundary no longer than its own value. -/
theorem addContentType_boundaryLength {r r' : Request} {key value : Bytes}
    (h : r.addContentType key value = .ok r') :
    r'.boundaryLength ≤ max r.boundaryLength value.length := by
  unfold addContentType at h
  split at h
  · next semIndex _ =>
    have htype := setHeader_boundaryLength r key (value.take semIndex)
    rw [List.length_take] at htype
    simp only [bind, Except.bind] at h
    split at h
    · cases h
    · next key' _ =>
      split at h
      · cases h
      · next parameter hp =>
        cases h
        have hparam := setHeader_boundaryLength (r.setHeader key (value.take semIndex)) key'
          parameter
        have hlen := substr_length hp
        omega
  · cases h
    exact setHeader_boundaryLength r key value

/-- A header line makes the boundary longer by no more than its own length, since it can only come
from its value. -/
theorem addHeaderOpt_boundaryLength {r r' : Request} {line : Bytes}
    (h : r.addHeaderOpt line = .ok r') :
    r'.boundaryLength ≤ max r.boundaryLength line.length := by
  unfold addHeaderOpt at h
  simp only at h
  split at h
  · cases h
  · generalize hstream : ((⟨line, true⟩ : IStringStream).extract []).2.get = stream at h
    -- the value is cut out of the line
    have hvalue : (stream.getline []).1.length ≤ line.length := by
      have h₁ := IStringStream.getline_length stream []
      have h₂ := IStringStream.get_rest_length ((⟨line, true⟩ : IStringStream).extract []).2
      have h₃ := IStringStream.extract_rest_length (⟨line, true⟩ : IStringStream) []
      rw [hstream] at h₂
      simp only [List.length_nil] at h₁
      simp only at h₃
      omega
    generalize (stream.getline []).1 = value at h hvalue
    -- taking the carriage return away does not make it longer
    have hstrip : (if value.getLast? = some cr then value.dropLast else value).length ≤
        line.length := by
      split
      · rw [List.length_dropLast]
        omega
      · exact hvalue
    generalize (if value.getLast? = some cr then value.dropLast else value) = value' at h hstrip
    split at h
    -- `Content-Length` sets no header
    · cases hs : stoll value' with
      | error f => rw [hs] at h; cases h
      | ok n =>
        rw [hs] at h
        cases h
        exact le_max_left _ _
    · split at h
      -- `Content-Type` enters its type and a parameter, both parts of the value
      · have := addContentType_boundaryLength h
        omega
      · cases h
        have := setHeader_boundaryLength r
          ((⟨line, true⟩ : IStringStream).extract []).1.dropLast value'
        omega

open HandleRecv

/-- The bytes that have been consumed at least, beyond the length of the boundary: the request line,
the blank line, and the start boundary with the boundary once more. -/
def overhead (r : Request) : ℕ :=
  match r.status with
  | .handleHead => 2
  | .handleBody => if r.fileMsgStatus = .fileBeginFlag then 4 else 8
  | _ => 0

/-- The request fits into `n` received bytes: what it keeps is what has been received less what has
been consumed. -/
structure Within (n : ℕ) (r : Request) : Prop where
  size : r.boundaryLength + r.overhead + r.recvMsg.length ≤ n
  /-- Before the body the parts of an upload have not begun. -/
  fresh : r.status = .handleInit ∨ r.status = .handleHead → r.fileMsgStatus = .fileBeginFlag
  /-- Behind the start boundary there is a boundary. -/
  bounded : r.status = .handleBody → r.fileMsgStatus ≠ .fileBeginFlag → r.boundary? ≠ none

/-- A new request keeps nothing. -/
theorem init_within : Request.init.Within 0 where
  size := le_rfl
  fresh _ := rfl
  bounded := nofun

/-- More data received makes room for itself. -/
theorem Within.push {n : ℕ} {r : Request} (h : r.Within n) (buf : Bytes) :
    (r.push buf).Within (n + buf.length) where
  size := by
    have hsize := h.size
    change r.boundaryLength + r.overhead + (r.recvMsg ++ buf).length ≤ _
    rw [List.length_append]
    omega
  fresh := h.fresh
  bounded := h.bounded

/-! ### A line consumed pays for what it adds -/

section Line

variable {n : ℕ} {r r' : Request} {line rest : Bytes}

/-- What a line leaves, when the bytes of the line have been consumed: room for all of it, of two
bytes at least. -/
theorem Within.consume (h : r.Within n) (hc : cutLine r.recvMsg = some (line, rest)) :
    r.boundaryLength + r.overhead + (line.length + rest.length) ≤ n ∧ 2 ≤ line.length := by
  have hsize := h.size
  rw [← cutAfter_append hc, List.length_append] at hsize
  exact ⟨hsize, cutAfter_line_length hc⟩

/-- The request line pays for the overhead of the head. -/
theorem within_requestLine (h : r.Within n) (hc : cutLine r.recvMsg = some (line, rest))
    (hs : r.status = .handleInit) :
    ({ r.setRequestLine line with status := .handleHead }.withMsg rest).Within n := by
  obtain ⟨hsize, hline⟩ := h.consume hc
  refine ⟨?_, fun _ => h.fresh (.inl hs), nofun⟩
  change r.boundaryLength + 2 + rest.length ≤ n
  omega

/-- The blank line pays for the overhead of the body. -/
theorem within_endHead (h : r.Within n) (hc : cutLine r.recvMsg = some (line, rest))
    (hs : r.status = .handleHead) : (r.endHead.withMsg rest).Within n := by
  obtain ⟨hsize, hline⟩ := h.consume hc
  have hover : r.overhead = 2 := by rw [overhead, hs]
  have hend : r.endHead.boundaryLength = r.boundaryLength ∧ r.endHead.status = .handleBody ∧
      r.endHead.fileMsgStatus = .fileBeginFlag := by
    unfold endHead
    split
    · exact ⟨rfl, rfl, rfl⟩
    · exact ⟨rfl, rfl, h.fresh (.inr hs)⟩
  obtain ⟨hb, hs', hf⟩ := hend
  have hover' : r.endHead.overhead = 4 := by simp [overhead, hs', hf]
  refine ⟨?_, fun _ => hf, fun _ hne => absurd hf hne⟩
  change r.endHead.boundaryLength + r.endHead.overhead + rest.length ≤ n
  omega

/-- A header line pays for the boundary that may come from it. -/
theorem within_addHeaderOpt (h : r.Within n) (hc : cutLine r.recvMsg = some (line, rest))
    (hs : r.status = .handleHead) (ho : r.addHeaderOpt line = .ok r') :
    (r'.withMsg rest).Within n := by
  obtain ⟨hsize, hline⟩ := h.consume hc
  have hover : r.overhead = 2 := by rw [overhead, hs]
  have hb := addHeaderOpt_boundaryLength ho
  obtain ⟨msgHeader, contentLength, hr'⟩ := addHeaderOpt_fields ho
  have hs' : r'.status = .handleHead := by rw [hr']; exact hs
  have hf' : r'.fileMsgStatus = .fileBeginFlag := by rw [hr']; exact h.fresh (.inr hs)
  have hover' : r'.overhead = 2 := by rw [overhead, hs']
  refine ⟨?_, fun _ => hf', fun _ hne => absurd hf' hne⟩
  change r'.boundaryLength + r'.overhead + rest.length ≤ n
  omega

/-- The start boundary is as long as the announced one and what is added to it, and so pays for the
boundary once more. -/
theorem within_begins (h : r.Within n) (hc : cutLine r.recvMsg = some (line, rest))
    (hs : r.status = .handleBody) (hf : r.fileMsgStatus = .fileBeginFlag) {b : Bytes}
    (hb : r.boundary? = some b) (heq : line = lit "--" ++ b ++ crlf) :
    (({ r with fileMsgStatus := .fileHead } : Request).withMsg rest).Within n := by
  obtain ⟨hsize, hline⟩ := h.consume hc
  have hover : r.overhead = 4 := by simp [overhead, hs, hf]
  have hbl : r.boundaryLength = b.length := by rw [boundaryLength, hb]; rfl
  have hll : line.length = b.length + 4 := by rw [heq]; simp [lit, crlf]
  have hover' : ({ r with fileMsgStatus := .fileHead } : Request).overhead = 8 := by
    simp [overhead, hs]
  refine ⟨?_, fun hi => ?_, fun _ _ => ?_⟩
  · change r.boundaryLength +
      ({ r with fileMsgStatus := .fileHead } : Request).overhead + rest.length ≤ n
    omega
  · rcases hi with hi | hi <;> cases hs.symm.trans hi
  · change r.boundary? ≠ none
    rw [hb]
    exact Option.some_ne_none b

/-- A complete request needs nothing more. -/
theorem within_complete (h : r.Within n) (hc : cutLine r.recvMsg = some (line, rest)) :
    (({ r with status := .handleComplete } : Request).withMsg rest).Within n := by
  obtain ⟨hsize, hline⟩ := h.consume hc
  refine ⟨?_, (by rintro (h | h) <;> cases h), nofun⟩
  change r.boundaryLength + 0 + rest.length ≤ n
  omega

/-- Behind the start boundary a line pays for itself. -/
theorem within_part (h : r.Within n) (hc : cutLine r.recvMsg = some (line, rest))
    (hs : r.status = .handleBody) (hf : r.fileMsgStatus ≠ .fileBeginFlag)
    (hs' : r'.status = r.status) (hf' : r'.fileMsgStatus ≠ .fileBeginFlag)
    (hh : r'.msgHeader = r.msgHeader) : (r'.withMsg rest).Within n := by
  obtain ⟨hsize, hline⟩ := h.consume hc
  have hover : r.overhead = 8 := by simp [overhead, hs, hf]
  have hover' : r'.overhead = 8 := by simp [overhead, hs', hs, hf']
  have hb : r'.boundary? = r.boundary? := by rw [boundary?, hh]; rfl
  have hbl : r'.boundaryLength = r.boundaryLength := by rw [boundaryLength, hb]; rfl
  refine ⟨?_, fun hi => ?_, fun _ _ => ?_⟩
  · change r'.boundaryLength + r'.overhead + rest.length ≤ n
    omega
  · rw [withMsg_status, hs', hs] at hi
    rcases hi with hi | hi <;> cases hi
  · rw [withMsg_boundary?, hb]
    exact h.bounded hs hf

/-- Every line pays for what it adds, wherever it stands. -/
theorem readLine_within (h : r.Within n) (hc : cutLine r.recvMsg = some (line, rest))
    (ho : r.readLine line = .ok r') : (r'.withMsg rest).Within n := by
  have hskip : (r.withMsg rest).Within n := by
    obtain ⟨hsize, -⟩ := h.consume hc
    refine ⟨?_, h.fresh, h.bounded⟩
    change r.boundaryLength + r.overhead + rest.length ≤ n
    omega
  cases readLine_cases ho with
  | requestLine init => exact within_requestLine h hc init
  | blank head => exact within_endHead h hc head
  | header head added => exact within_addHeaderOpt h hc head added
  | begins body begin boundary eq => exact within_begins h hc body begin boundary eq
  | mismatch => exact within_complete h hc
  | partBlank body part =>
    have hne : r.fileMsgStatus ≠ .fileBeginFlag := by rw [part]; exact nofun
    exact within_part h hc body hne rfl nofun rfl
  | partLine body part =>
    have hne : r.fileMsgStatus ≠ .fileBeginFlag := by rw [part]; exact nofun
    exact within_part h hc body hne rfl hne rfl
  | nothing => exact hskip

end Line

/-- So the request fits when all its lines have been read. By induction on the lines. -/
theorem drained_within {n : ℕ} {r r' : Request} (h : r.Within n) (hd : r.drained = .ok r') :
    r'.Within n :=
  drained_induction (P := Within n) (fun _ _ _ _ h _ hc ho => readLine_within h hc ho) h hd

/-- What is decided keeps within the bytes received: it only leaves less. -/
theorem settle_within {n : ℕ} {r : Request} (h : r.Within n) (hn : r.settle.handed = none) :
    r.settle.request.Within n := by
  by_cases hc : r.isUpload = true ∧ r.fileMsgStatus = .fileContent
  · obtain ⟨hu, hf⟩ := hc
    rw [settle_of_content hu hf] at hn ⊢
    have hheld := congrArg List.length
      (scan_released_append_held (delimiter (r.boundary?.getD [])) r.recvMsg)
    unfold scanned at hn ⊢
    split at hn
    · cases hn
    · next hfound =>
      rw [if_neg hfound]
      refine ⟨?_, h.fresh, h.bounded⟩
      have hsize := h.size
      rw [List.length_append] at hheld
      change r.boundaryLength + r.overhead + _ ≤ n
      rw [withMsg_recvMsg]
      omega
  · rwa [settle_of_waiting hc hn]

/-- The lengths of the content loop stay below the bytes received, and so below the largest
`int`. -/
theorem Within.fits {n : ℕ} {r : Request} (h : r.Within n) (hn : n < 2 ^ 31) :
    r.Fits true := by
  intro hu hf
  obtain ⟨hs, -, -⟩ := isUpload_iff.mp hu
  have hover : r.overhead = 8 := by rw [overhead, hs]; simp [hf]
  obtain ⟨b, hb⟩ := Option.ne_none_iff_exists'.mp (h.bounded hs (by rw [hf]; exact nofun))
  have hsize := h.size
  rw [hover, boundaryLength, hb, Option.getD_some] at hsize
  exact ⟨rfl, b, hb, .inr ⟨by omega, by omega⟩⟩

end Request

namespace HandleRecv

open Request

/-- On fewer than `2 ^ 31` bytes every turn passes: no length of the content loop overflows. -/
theorem passes_of_within {n : ℕ} {r : Request} (h : r.Within n) {s : List RecvResult}
    (hq : ∀ x ∈ s, x.Quiet) (hlen : n + (stream s).length < 2 ^ 31) : Passes s r := by
  induction s generalizing n r with
  | nil => trivial
  | cons x s ih =>
    rw [stream_cons, List.length_append] at hlen
    have hqs : ∀ y ∈ s, y.Quiet := fun y hy => hq y (List.mem_cons_of_mem x hy)
    cases hq x List.mem_cons_self with
    | again => exact ih h hqs (by change n + (0 + _) < _ at hlen; omega)
    | data buf hbuf =>
      intro r' hd
      have hw := drained_within (h.push buf) hd
      change n + (buf.length + _) < _ at hlen
      exact ⟨hw.fits (by omega), fun hn => ih (settle_within hw hn) hqs (by omega)⟩

end HandleRecv

/-! ### The parsed method -/

/-- The method on the first line of a stream, when there is a line. -/
def parsedMethod (bytes : Bytes) : Option Bytes :=
  (cutLine bytes).map fun p => (Request.init.setRequestLine p.1).requestMethod

/-- More bytes do not change it. -/
theorem parsedMethod_append {x : Bytes} {method : Bytes} (h : parsedMethod x = some method)
    (y : Bytes) : parsedMethod (x ++ y) = some method := by
  unfold parsedMethod at h ⊢
  obtain ⟨⟨line, rest⟩, hc, hm⟩ := Option.map_eq_some_iff.mp h
  rw [cutLine, cutAfter_append_of_some hc]
  exact congrArg some hm

namespace Request

open HandleRecv

/-- Method and resource of the request are those on the first line of a stream. -/
def OnLine (bytes : Bytes) (q : Request) : Prop :=
  ∃ line rest, cutLine bytes = some (line, rest) ∧
    q.requestMethod = (Request.init.setRequestLine line).requestMethod ∧
    q.requestResource = (Request.init.setRequestLine line).requestResource

/-- More bytes do not change the first line. -/
theorem OnLine.append {x : Bytes} {q : Request} (h : OnLine x q) (y : Bytes) :
    OnLine (x ++ y) q := by
  obtain ⟨line, rest, hc, hline⟩ := h
  exact ⟨line, rest ++ y, cutAfter_append_of_some hc y, hline⟩

/-- The method of such a request is the one on the first line. -/
theorem OnLine.parsedMethod {bytes : Bytes} {q : Request} (h : OnLine bytes q) :
    parsedMethod bytes = some q.requestMethod := by
  obtain ⟨line, rest, hc, hm, -⟩ := h
  rw [Cherokee.parsedMethod, hc, hm]
  rfl

/-- The lines behind the request line leave method and resource alone. -/
theorem readLine_asked {r r' : Request} {line : Bytes} (hs : r.status ≠ .handleInit)
    (h : r.readLine line = .ok r') : r'.status ≠ .handleInit ∧
      r'.requestMethod = r.requestMethod ∧ r'.requestResource = r.requestResource := by
  cases readLine_cases h with
  | requestLine init => exact absurd init hs
  | blank =>
    unfold endHead
    split <;> exact ⟨nofun, rfl, rfl⟩
  | header head added =>
    obtain ⟨_, _, rfl⟩ := addHeaderOpt_fields added
    exact ⟨hs, rfl, rfl⟩
  | begins => exact ⟨hs, rfl, rfl⟩
  | mismatch => exact ⟨nofun, rfl, rfl⟩
  | partBlank => exact ⟨hs, rfl, rfl⟩
  | partLine => exact ⟨hs, rfl, rfl⟩
  | nothing => exact ⟨hs, rfl, rfl⟩

/-- Nor does a decision touch method and resource. -/
theorem settle_asked (r : Request) : r.settle.request.requestMethod = r.requestMethod ∧
    r.settle.request.requestResource = r.requestResource := by
  obtain ⟨_, _, _, h⟩ := settle_fields r
  rw [h]
  exact ⟨rfl, rfl⟩

/-- Once the first line is in, the request is the one on it: no later line touches its method or its
resource. -/
theorem absorb_onLine {x : Bytes} {o : Outcome} (h : Request.init.absorb x = .ok o) :
    o.request.status = .handleInit ∨ OnLine x o.request := by
  have hmsg : (Request.init.push x).recvMsg = x := rfl
  unfold absorb at h
  cases hc : cutLine x with
  | none =>
    -- no line is complete, so nothing has been read
    rw [drained_of_rest (.inr (by rw [hmsg, hc]))] at h
    cases h
    exact .inl rfl
  | some p =>
    obtain ⟨line, rest⟩ := p
    -- the first line is the request line
    have hline := drained_of_line (wantsLine_of_init (r := Request.init.push x) rfl)
      (by rw [hmsg, hc]) (readLine_of_init rfl line)
    rw [hline] at h
    generalize hr : ({ (Request.init.push x).setRequestLine line with
      status := .handleHead }.withMsg rest : Request) = r at h
    cases hd : r.drained with
    | error f => rw [hd] at h; cases h
    | ok r' =>
      rw [hd] at h
      obtain rfl : r'.settle = o := Except.ok.inj h
      have hstart : r.status ≠ .handleInit ∧
          r.requestMethod = (Request.init.setRequestLine line).requestMethod ∧
          r.requestResource = (Request.init.setRequestLine line).requestResource := by
        rw [← hr]
        exact ⟨nofun, rfl, rfl⟩
      -- the lines behind it keep the method and the resource
      have hkeep := drained_induction
        (P := fun s => s.status ≠ .handleInit ∧
          s.requestMethod = (Request.init.setRequestLine line).requestMethod ∧
          s.requestResource = (Request.init.setRequestLine line).requestResource)
        (fun s s' _ _ hs _ _ ho => by
          obtain ⟨hi, hm, hn⟩ := readLine_asked hs.1 ho
          exact ⟨hi, hm.trans hs.2.1, hn.trans hs.2.2⟩) hstart hd
      obtain ⟨hm, hn⟩ := settle_asked r'
      exact .inr ⟨line, rest, hc, hm.trans hkeep.2.1, hn.trans hkeep.2.2⟩

/-- Once the first line is in, the method is the parsed one. -/
theorem absorb_requestMethod {x : Bytes} {o : Outcome} (h : Request.init.absorb x = .ok o) :
    o.request.status = .handleInit ∨ parsedMethod x = some o.request.requestMethod :=
  (absorb_onLine h).imp_right OnLine.parsedMethod

end Request

/-- A response is asked for when the request is complete, and for a `PUT`. -/
theorem Request.absorb_handed {r : Request} {x : Bytes} {o : Outcome} (h : r.absorb x = .ok o)
    (hh : o.handed ≠ none) : o.request.status = .handleComplete ∨
      (o.request.requestMethod = lit "PUT" ∧ o.request.status = .handleBody) := by
  obtain ⟨r', hd, rfl⟩ := drained_of_absorb h
  refine (settle_handed hh).imp_right fun ⟨hm, hsame, hs⟩ => ?_
  rw [hsame]
  exact ⟨hm, hs⟩

/-- Unless the parsed method is `PUT`, a response is asked for when the request is complete. -/
theorem Request.complete_of_handed {x : Bytes} {o : Outcome} (h : Request.init.absorb x = .ok o)
    (hput : parsedMethod x ≠ some (lit "PUT")) (hh : o.handed ≠ none) :
    o.request.status = .handleComplete := by
  refine (absorb_handed h hh).resolve_right fun ⟨hm, hs⟩ => hput ?_
  rcases absorb_requestMethod h with hi | hparsed
  · rw [hs] at hi
    cases hi
  · rw [hparsed, hm]

/-! ### Two ways to cut a stream -/

namespace HandleRecv

open Request

/-- A run that begins without an entry begins with a new one, as the first call makes it. -/
theorem run_none {s : List RecvResult} (hs : s ≠ []) :
    run s none = run s (some Request.init) := by
  obtain ⟨x, rest, rfl⟩ := List.exists_cons_of_ne_nil hs
  rw [run_cons, run_cons]
  rfl

/-- What the calls leave that receive a stream whose last chunk completes the request, or that does
not complete it: it depends on the stream alone. -/
theorem run_stream {s : List RecvResult} (hq : ∀ x ∈ s, x.Arrives) (hne : s ≠ [])
    (hend : s.getLast? ≠ some .again) (hp : Passes s Request.init) {o : Outcome}
    (ho : Request.init.absorb (stream s) = .ok o)
    (hc : o.handed ≠ none → o.request.status = .handleComplete)
    (hpend : ∀ p q, p ++ q = stream s → q ≠ [] →
      ∀ o', Request.init.absorb p = .ok o' → o'.handed = none) :
    (run s none).crash = none ∧
      (run s none).request = (if o.handed = none then some o.request else none) ∧
      Shows (run s none).acts (stream s)
        (if o.handed = none then [] else [(o.request.requestMethod, o.request.requestResource)])
        o.handed.toList o.writtenTo := by
  rw [run_none hne]
  by_cases hn : o.handed = none
  -- no response is asked for: the calls absorb the whole stream, and the entry stays
  · obtain ⟨acts, hrun, hshows⟩ := run_absorb hq init_atRest hp ho hn []
    rw [List.append_nil, run_nil] at hrun
    rw [hrun, if_pos hn, if_pos hn, hn]
    refine ⟨rfl, rfl, ?_⟩
    simpa using hshows
  · -- the last chunk completes the request
    obtain ⟨s', x, rfl⟩ := (List.eq_nil_or_concat s).resolve_left hne
    rw [List.concat_eq_append] at *
    have hx := hq x (List.mem_append_right _ List.mem_cons_self)
    cases hx with
    | again => simp at hend
    | data buf ofs hbuf =>
      have hqs : ∀ y ∈ s', y.Arrives := fun y hy => hq y (List.mem_append_left _ hy)
      have hstream : stream (s' ++ [.data buf ofs]) = stream s' ++ buf := by
        simp [RecvResult.bytes]
      rw [hstream] at ho hpend ⊢
      cases ho₁ : Request.init.absorb (stream s') with
      | error f =>
        rw [absorb_append_of_error ho₁] at ho
        cases ho
      | ok o₁ =>
        -- before it nothing is asked for, so one call ends with this chunk, and none begins behind
        -- it
        obtain ⟨acts, hrun, hshows⟩ := run_absorb_complete hqs init_atRest hp ho₁
          (hpend _ _ rfl hbuf o₁ ho₁) ho (hc hn) []
        rw [run_nil] at hrun
        rw [hrun, if_neg hn, if_neg hn]
        refine ⟨rfl, rfl, ?_⟩
        simpa using hshows.append (shows_processed _ _)

/-- One byte per `recv`, each in a call that finds the file open. -/
def bytewise (bytes : Bytes) : List RecvResult := bytes.map fun c => .data [c] true

/-- Together they are the bytes of the stream. -/
@[simp] theorem stream_bytewise (bytes : Bytes) : stream (bytewise bytes) = bytes := by
  induction bytes with
  | nil => rfl
  | cons c bytes ih =>
    change [c] ++ stream (bytewise bytes) = _
    rw [ih]
    rfl

/-- Nothing but data is among them, and every file opens. -/
theorem bytewise_quiet (bytes : Bytes) : ∀ x ∈ bytewise bytes, x.Quiet := by
  intro x hx
  obtain ⟨c, -, rfl⟩ := List.mem_map.mp hx
  exact .data [c] (List.cons_ne_nil _ _)

/-- Each of them brings something. -/
theorem bytewise_arrives (bytes : Bytes) : ∀ x ∈ bytewise bytes, x.Arrives :=
  fun x hx => (bytewise_quiet bytes x hx).arrives

/-- They do not end in `EAGAIN`. -/
theorem bytewise_getLast (bytes : Bytes) : (bytewise bytes).getLast? ≠ some .again := by
  unfold bytewise
  rw [List.getLast?_map]
  cases bytes.getLast? <;> simp

/-- A stream that no proper beginning of completes, byte by byte, asks for no response before its
last byte. -/
theorem pending_of_bytewise {bytes : Bytes} (hlen : bytes.length < 2 ^ 31)
    (hput : parsedMethod bytes ≠ some (lit "PUT"))
    (hlast : ∀ p q, p ++ q = bytes → q ≠ [] → completed (run (bytewise p) none).acts = [])
    {p q : Bytes} (hpq : p ++ q = bytes) (hq : q ≠ []) {o : Outcome}
    (ho : Request.init.absorb p = .ok o) : o.handed = none := by
  induction p using List.reverseRecOn generalizing q o with
  | nil =>
    cases ho
    rfl
  | append_singleton p c ih =>
    by_contra hn
    cases ho₁ : Request.init.absorb p with
    | error f =>
      rw [absorb_append_of_error ho₁] at ho
      cases ho
    | ok o₁ =>
      have hsub : p ++ ([c] ++ q) = bytes := by rw [← List.append_assoc, hpq]
      -- the bytes before the last one have not completed the request
      have hn₁ := ih hsub (List.cons_ne_nil _ _) ho₁
      have hc := complete_of_handed ho
        (fun h => hput (by rw [← hpq]; exact parsedMethod_append h q)) hn
      have hmap : bytewise (p ++ [c]) = bytewise p ++ [.data [c] true] := by simp [bytewise]
      have hpass : Passes (bytewise p ++ [.data [c] true]) Request.init := by
        refine passes_of_within init_within (fun x hx => ?_) ?_
        · rw [← hmap] at hx
          exact bytewise_quiet _ x hx
        have := congrArg List.length hsub
        simp only [stream_append, stream_bytewise, List.length_append, List.length_cons,
          List.length_nil] at this ⊢
        change 0 + (p.length + 1) < _
        omega
      obtain ⟨acts, hrun, -⟩ := run_absorb_complete (bytewise_arrives p) init_atRest hpass
        (by rwa [stream_bytewise]) hn₁ (by rwa [stream_bytewise]) hc []
      -- so the run completes it here, in front of its last byte
      have hnone := hlast (p ++ [c]) q hpq hq
      rw [run_none (by simp [hmap]), hmap, hrun, run_nil, Call.prepend_acts, List.append_nil,
        completed_append] at hnone
      exact List.cons_ne_nil _ _ (List.append_eq_nil_iff.mp hnone).2

/-- Two runs leave the same state: the same entry of `requestStatus`, the same requests completed,
the same resources handed over to `responseStatus`, and the same bytes in the same files. -/
structure Agrees (x y : Call) : Prop where
  crash : x.crash = y.crash
  request : x.request = y.request
  completed : completed x.acts = completed y.acts
  handedOver : handedOver x.acts = handedOver y.acts
  appendedTo : ∀ path, appendedTo path x.acts = appendedTo path y.acts

/-- **Chunk independence of request parsing.** A stream below `2 ^ 31` bytes whose parsed method is
not `PUT`, and which, received byte by byte, ends the process nowhere and completes at its last byte
or not at all, leaves the same state however it is cut. -/
theorem chunk_independence {bytes : Bytes} (hlen : bytes.length < 2 ^ 31)
    (hput : parsedMethod bytes ≠ some (lit "PUT"))
    (hcrash : (run (bytewise bytes) none).crash = none)
    (hlast : ∀ p q, p ++ q = bytes → q ≠ [] → completed (run (bytewise p) none).acts = [])
    {s : List RecvResult} (hq : ∀ x ∈ s, x.Quiet) (hend : s.getLast? ≠ some .again)
    (hs : stream s = bytes) : Agrees (run s none) (run (bytewise bytes) none) := by
  by_cases hne : s = []
  · subst hne
    rw [stream_nil] at hs
    subst hs
    exact ⟨rfl, rfl, rfl, rfl, fun _ => rfl⟩
  have hbytes : bytes ≠ [] := by
    rintro rfl
    obtain ⟨s', x, rfl⟩ := (List.eq_nil_or_concat s).resolve_left hne
    rw [List.concat_eq_append] at *
    cases hq x (List.mem_append_right _ List.mem_cons_self) with
    | again => simp at hend
    | data buf hbuf =>
      simp only [stream_append, stream_cons, RecvResult.bytes, List.append_eq_nil_iff] at hs
      exact hbuf hs.2.1
  have hbne : bytewise bytes ≠ [] := by simpa [bytewise] using hbytes
  -- the lengths of the whole stream fit an `int`, however it is cut
  have hpass (t : List RecvResult) (hq : ∀ x ∈ t, x.Quiet) (ht : stream t = bytes) :
      Passes t Request.init :=
    passes_of_within init_within hq (by rw [ht]; omega)
  cases ho : Request.init.absorb bytes with
  | error f =>
    -- a stream with a refused line ends the process also byte by byte
    have herr := run_absorb_error (bytewise_arrives bytes) init_atRest
      (hpass _ (bytewise_quiet bytes) (stream_bytewise bytes)) (by rwa [stream_bytewise]) []
    rw [List.append_nil, ← run_none hbne, hcrash] at herr
    cases herr
  | ok o =>
    have hm := complete_of_handed ho hput
    have hpend : ∀ p q, p ++ q = bytes → q ≠ [] →
        ∀ o', Request.init.absorb p = .ok o' → o'.handed = none :=
      fun p q hpq hq o' ho' => pending_of_bytewise hlen hput hlast hpq hq ho'
    -- both runs are the run of the whole stream
    obtain ⟨hc₁, hr₁, hs₁⟩ := run_stream (fun x hx => (hq x hx).arrives) hne hend (hpass s hq hs)
      (by rwa [hs]) hm (by rwa [hs])
    obtain ⟨-, hr₂, hs₂⟩ := run_stream (bytewise_arrives bytes) hbne (bytewise_getLast bytes)
      (hpass _ (bytewise_quiet bytes) (stream_bytewise bytes)) (by rwa [stream_bytewise]) hm
      (by rwa [stream_bytewise])
    exact ⟨hc₁.trans hcrash.symm, hr₁.trans hr₂.symm, hs₁.completed.trans hs₂.completed.symm,
      hs₁.handedOver.trans hs₂.handedOver.symm,
      fun path => (hs₁.appendedTo path).trans (hs₂.appendedTo path).symm⟩

theorem chunk_independence_get :
    Agrees (run [.data (lit "GET /\r") true, .again, .data (lit "\n\r\n") true] none)
      (run (bytewise (lit "GET /\r\n\r\n")) none) := by
  refine chunk_independence (by decide) (by decide)
    (by decide +kernel) (fun p q hpq hq => ?_) (fun x hx => ?_) (by decide) rfl
  · have hlen : p.length < 9 := by
      have := congrArg List.length hpq
      have := List.length_pos_of_ne_nil hq
      simp only [List.length_append] at *
      change _ = 9 at *
      omega
    have hp : p = (lit "GET /\r\n\r\n").take p.length := by rw [← hpq, List.take_left]
    have hall : ∀ n < 9, completed (run (bytewise ((lit "GET /\r\n\r\n").take n)) none).acts =
      [] := by
      decide +kernel
    rw [hp]
    exact hall _ hlen
  · simp only [List.mem_cons, List.not_mem_nil, or_false] at hx
    rcases hx with rfl | rfl | rfl
    · exact .data _ (by decide)
    · exact .again
    · exact .data _ (by decide)

end HandleRecv

end Cherokee
