import Cherokee.Exact
import Cherokee.RequestFormat

/-!
# The upload round trip

A well-formed single-part `multipart/form-data` request stores exactly its content in exactly one
file, however it is cut (`HandleRecv.upload_round_trip`).

The content loop keeps the length of the delimiter and of the buffer in an `int`. The round trip
holds for boundaries up to `2 ^ 31 - 2056` bytes; with a boundary of `2 ^ 31 - 8` bytes the request
never completes (`HandleRecv.upload_boundary_overflow`).
-/

open Search DelimScan

namespace Cherokee

/-! ### The form -/

/-- A part header line with the file name, up to the parameter with that name. -/
def dispositionHead (name : Bytes) : Bytes :=
  lit "Content-Disposition: form-data; name=\"" ++ name ++ lit "\"; "

/-- A well-formed upload of one file: a request with one part, as a browser sends it from a form. -/
structure Upload where
  resource : Bytes
  version : Bytes
  /-- The headers before `Content-Type`. -/
  before : List HeaderLine
  /-- The headers behind `Content-Type`. -/
  after : List HeaderLine
  boundary : Bytes
  /-- The part header lines before the one with the file name. -/
  partBefore : List Bytes
  /-- The part header lines behind the one with the file name. -/
  partAfter : List Bytes
  name : Bytes
  fileName : Bytes
  content : Bytes
  resource_token : IsToken resource
  version_token : IsToken version
  headers_plain : ∀ h ∈ before ++ after, h.Plain ∧ h.key ≠ lit "boundary"
  boundary_word : IsWord boundary
  part_line : ∀ l ∈ partBefore ++ partAfter,
    l ≠ [] ∧ ¬ crlf <:+: l ∧ ¬ lit "filename" <:+: l
  name_line : cr ∉ name ∧ lf ∉ name
  name_plain : ¬ lit "filename" <:+: name
  fileName_line : 34 ∉ fileName ∧ cr ∉ fileName ∧ lf ∉ fileName
  /-- The scan counts the characters in an `int`. -/
  fileName_short : fileName.length < 2 ^ 31
  fileName_visible : ∃ c ∈ fileName, isspace c = false
  content_free : ¬ crlf ++ lit "--" ++ boundary <:+: content

namespace Upload

/-- The request line of the upload, with `POST` as its method. -/
def requestLine (u : Upload) : RequestLine where
  method := lit "POST"
  resource := u.resource
  version := u.version
  method_token := by decide
  resource_token := u.resource_token
  version_token := u.version_token

/-- `Content-Type: multipart/form-data; boundary=…`, the one header that the upload needs. -/
def contentType (u : Upload) : HeaderLine where
  key := lit "Content-Type"
  value := lit "multipart/form-data; boundary=" ++ u.boundary
  key_token := contentType_token
  value_line := by
    have hlit : lf ∉ lit "multipart/form-data; boundary=" := by decide
    rw [List.mem_append, not_or]
    exact ⟨hlit, u.boundary_word.not_mem rfl⟩

/-- The lines of the head, up to and with the blank one. -/
def headLines (u : Upload) : List Bytes :=
  [u.requestLine.bytes] ++ u.before.map HeaderLine.bytes ++ [u.contentType.bytes] ++
    u.after.map HeaderLine.bytes ++ [[]]

/-- `Content-Disposition: form-data; name="…"; filename="…"`, the one line of the part that is
needed. -/
def disposition (u : Upload) : Bytes :=
  dispositionHead u.name ++ lit "filename=\"" ++ u.fileName ++ lit "\""

/-- The start boundary and the part header, up to and with the blank line. -/
def partLines (u : Upload) : List Bytes :=
  [lit "--" ++ u.boundary] ++ u.partBefore ++ [u.disposition] ++ u.partAfter ++ [[]]

/-- The bytes in front of the content: the lines of the head and of the part. -/
def preamble (u : Upload) : Bytes := (u.headLines ++ u.partLines).flatMap (· ++ crlf)

/-- The bytes of the request: the preamble, the content and the final delimiter. -/
def bytes (u : Upload) : Bytes := u.preamble ++ u.content ++ HandleRecv.delimiter u.boundary

/-- The file that the content is stored in: its name without spaces, in the directory of the
files. -/
def path (u : Upload) : Bytes := cStr (lit "filedir/" ++ removeSpaces u.fileName)

end Upload

/-! ### Reading the head of an upload -/

/-- The `Content-Type` with one parameter enters the media type and the parameter. -/
theorem Request.addContentType_parameter (r : Request) {key type parameter value : Bytes}
    (ht : (59 : UInt8) ∉ type) (hp : (61 : UInt8) ∉ parameter)
    (hlen : type.length + parameter.length + value.length + 3 < 2 ^ 63) :
    r.addContentType key (type ++ lit "; " ++ parameter ++ lit "=" ++ value) =
      .ok ((r.setHeader key type).setHeader parameter value) := by
  have hvalue : type ++ lit "; " ++ parameter ++ lit "=" ++ value =
      type ++ 59 :: (32 :: (parameter ++ 61 :: value)) := by
    simp [lit]
  -- the first `;` ends the type, and the first `=` behind it the name
  have hsem : find (type ++ 59 :: (32 :: (parameter ++ 61 :: value))) (lit ";") 0 =
      some type.length := by
    rw [find_zero]
    exact firstAt_singleton_append ht _
  have heq : find (type ++ 59 :: (32 :: (parameter ++ 61 :: value))) (lit "=") type.length =
      some (parameter.length + 2 + type.length) := by
    have hmem : (61 : UInt8) ∉ 59 :: 32 :: parameter := by
      simp only [List.mem_cons, not_or]
      exact ⟨by decide, by decide, hp⟩
    rw [find, List.drop_left]
    exact congrArg (Option.map _) (firstAt_singleton_append hmem value)
  -- (32 :: (parameter ++ 61 :: value))) (type.length + 2) :: the name stands between them, and the
  -- value behind the second
  have hkey : substr (type ++ 59 :: (32 :: (parameter ++ 61 :: value))) (type.length + 2)
      parameter.length = .ok parameter := by
    rw [substr, if_pos (by simp), ← List.drop_drop, List.drop_left]
    simp
  have hval : substr (type ++ 59 :: (32 :: (parameter ++ 61 :: value)))
      (type.length + (parameter.length + 3)) npos = .ok value := by
    rw [substr, if_pos (by simp), ← List.drop_drop, List.drop_left]
    have hdrop : (59 :: 32 :: (parameter ++ 61 :: value)).drop (parameter.length + 3) = value := by
      simp
    rw [hdrop, List.take_of_length_le (by unfold npos; omega)]
  -- the lengths the source computes are not negative, so they come through `size_t`
  have hlen₁ : toSize (((parameter.length + 2 + type.length : ℕ) : ℤ) - type.length - 2) =
      parameter.length := by
    unfold toSize
    omega
  have hlen₂ : toSize (((parameter.length + 2 + type.length : ℕ) : ℤ) + 1) =
      type.length + (parameter.length + 3) := by
    unfold toSize
    omega
  unfold addContentType
  rw [hvalue, hsem]
  simp only [heq, Option.getD_some, hlen₁, hlen₂, hkey, hval, List.take_left, bind, Except.bind]
  rfl

namespace HandleRecv

open Request

/-- The head of the upload has been read, and nothing of its part. -/
structure Begun (u : Upload) (r : Request) : Prop where
  upload : r.isUpload = true
  resource : r.requestResource = u.resource
  boundary : r.boundary? = some u.boundary
  fileName : r.recvFileName = []

/-- The lines of the head are read, and leave the upload at its start boundary. -/
theorem reads_headLines (u : Upload) (hb : u.boundary.length < 2 ^ 62) :
    ∃ r, requestReader.Reads Request.init u.headLines r ∧ Begun u r ∧
      r.fileMsgStatus = .fileBeginFlag := by
  have hbefore : ∀ h ∈ u.before, h.Plain := fun h hh =>
    (u.headers_plain h (List.mem_append_left _ hh)).1
  have hafter : ∀ h ∈ u.after, h.Plain := fun h hh =>
    (u.headers_plain h (List.mem_append_right _ hh)).1
  obtain ⟨m₁, n₁, hread₁, -⟩ := reads_headers (r := u.requestLine.request) rfl hbefore
  obtain ⟨m₂, n₂, hread₂, hkeep₂⟩ := reads_headers
    (r := (({ u.requestLine.request with msgHeader := m₁, contentLength := n₁ }.setHeader
      (lit "Content-Type") (lit "multipart/form-data")).setHeader (lit "boundary") u.boundary))
    rfl hafter
  -- the `Content-Type` line fills in the type and the boundary
  have htype : Request.addHeaderOpt
      { u.requestLine.request with msgHeader := m₁, contentLength := n₁ }
      (u.contentType.bytes ++ crlf) =
      .ok (({ u.requestLine.request with msgHeader := m₁, contentLength := n₁ }.setHeader
        (lit "Content-Type") (lit "multipart/form-data")).setHeader
          (lit "boundary") u.boundary) := by
    have hkey : u.contentType.key = lit "Content-Type" := rfl
    rw [HeaderLine.addHeaderOpt_bytes, hkey, if_neg (by decide), if_pos rfl]
    have hvalue : u.contentType.value = lit "multipart/form-data" ++ lit "; " ++ lit "boundary" ++
        lit "=" ++ u.boundary := rfl
    rw [hvalue]
    refine addContentType_parameter _ (by decide) (by decide) ?_
    change 19 + 8 + u.boundary.length + 3 < _
    omega
  have hmulti : m₂ (lit "Content-Type") = some (lit "multipart/form-data") := by
    rw [hkeep₂ _ fun h hh => (hafter h hh).1]
    rfl
  -- no line behind it names the boundary again
  have hbound : m₂ (lit "boundary") = some u.boundary := by
    rw [hkeep₂ _ fun h hh => (u.headers_plain h (List.mem_append_right _ hh)).2]
    rfl
  have hread := ((((reads_requestLine u.requestLine).append hread₁).append
    (reads_header rfl htype)).append hread₂).append (reads_endHead rfl)
  refine ⟨_, hread, ?_⟩
  have hm : Request.isMultipart
      { (({ u.requestLine.request with msgHeader := m₁, contentLength := n₁ }.setHeader
        (lit "Content-Type") (lit "multipart/form-data")).setHeader (lit "boundary") u.boundary)
        with msgHeader := m₂, contentLength := n₂ } = true := by
    simp [isMultipart, hmulti]
  rw [endHead, if_pos hm]
  exact ⟨⟨isUpload_iff.mpr ⟨rfl, rfl, hm⟩, rfl, hbound, rfl⟩, rfl⟩

/-- A part header line without a file name changes nothing: the text is just looked for. -/
theorem addPartLine_plain (r : Request) {l : Bytes} (h : ¬ lit "filename" <:+: l) :
    r.addPartLine (l ++ crlf) = .ok r := by
  have hno : find (l ++ crlf) (lit "filename") 0 = none := by
    rw [find_zero, firstAt_eq_none_iff]
    intro hi
    rcases infix_append_cons (c := cr) (by decide) hi with hi | hi
    · exact h hi
    · exact absurd hi (by decide)
  rw [addPartLine, hno]

/-- Behind a field name without the text `filename` the parameter is the first place with it. -/
theorem dispositionHead_plain {name : Bytes} (h : ¬ lit "filename" <:+: name) :
    ¬ lit "filename" <:+: dispositionHead name ++ (lit "filename").dropLast := by
  intro hi
  have heq : dispositionHead name ++ (lit "filename").dropLast =
      lit "Content-Disposition: form-data; name=" ++ 34 ::
        (name ++ 34 :: (59 :: 32 :: (lit "filename").dropLast)) := by
    simp [dispositionHead, lit]
  rw [heq] at hi
  rcases infix_append_cons (by decide) hi with hi | hi
  · exact absurd hi (by decide)
  · rcases infix_append_cons (by decide) hi with hi | hi
    · exact h hi
    · exact absurd hi (by decide)

/-- The part header line with the file name puts the name, without its spaces, behind what is
there. -/
theorem addPartLine_disposition (u : Upload) (r : Request) :
    r.addPartLine (u.disposition ++ crlf) =
      .ok { r with recvFileName := removeSpaces (r.recvFileName ++ u.fileName) } := by
  have hline : u.disposition ++ crlf =
      dispositionHead u.name ++ (lit "filename" ++ (lit "=\"" ++ (u.fileName ++ 34 :: crlf))) := by
    simp [Upload.disposition, lit]
  have hno := dispositionHead_plain u.name_plain
  have hfind : find (u.disposition ++ crlf) (lit "filename") 0 =
      some (dispositionHead u.name).length := by
    rw [find_zero, hline]
    exact firstAt_append_self hno _
  have hdrop : (u.disposition ++ crlf).drop
      ((dispositionHead u.name).length + (lit "filename=\"").length) =
      u.fileName ++ 34 :: crlf := by
    rw [hline, ← List.drop_drop, List.drop_left]
    rfl
  have hscan : scanName (u.fileName ++ 34 :: crlf) r.recvFileName =
      .ok (u.fileName.length, r.recvFileName ++ u.fileName) := by
    rw [scanName_eq, firstAt_singleton_append u.fileName_line.1 crlf]
    simp only [List.take_left]
    rw [if_pos u.fileName_short]
  unfold addPartLine
  rw [hfind]
  simp only [hdrop, hscan]

/-- A part header line is read in the part header. -/
theorem reads_partLine {r r' : Request} (hr : InPartHead r) {l : Bytes} (hne : l ≠ [])
    (hl : ¬ crlf <:+: l) (ho : r.addPartLine (l ++ crlf) = .ok r') :
    requestReader.Reads r [l] r' := by
  refine .cons (partSection.wants r hr) (not_crlf_isInfix hl) ?_ (.nil _)
  change r.readLine (l ++ crlf) = _
  have hcrlf : l ++ crlf ≠ crlf := by
    intro heq
    exact hne (List.append_left_eq_self.mp heq)
  rw [partSection.read r _ hr, if_neg hcrlf, ho]

/-- The other lines of the part header are read, and change nothing. -/
theorem reads_plainPartLines {r : Request} (hr : InPartHead r) {lines : List Bytes}
    (h : ∀ l ∈ lines, l ≠ [] ∧ ¬ crlf <:+: l ∧ ¬ lit "filename" <:+: l) :
    requestReader.Reads r lines r := by
  induction lines with
  | nil => exact .nil r
  | cons l lines ih =>
    obtain ⟨hne, hl, hf⟩ := h l List.mem_cons_self
    exact (reads_partLine hr hne hl (addPartLine_plain r hf)).append
      (ih fun x hx => h x (List.mem_cons_of_mem l hx))

/-- The start boundary and the part header of the upload. -/
theorem reads_partLines (u : Upload) {r : Request} (hr : Begun u r)
    (hf : r.fileMsgStatus = .fileBeginFlag) :
    requestReader.Reads r u.partLines { r with
      fileMsgStatus := .fileContent, recvFileName := removeSpaces u.fileName } := by
  obtain ⟨hs, -, -⟩ := isUpload_iff.mp hr.upload
  -- the start boundary begins the part
  have hbegin : requestReader.Reads r [lit "--" ++ u.boundary]
      { r with fileMsgStatus := .fileHead } := by
    refine .cons ?_ (not_crlf_isInfix_of_lf ?_) ?_ (.nil _)
    · change r.wantsLine = true
      rw [wantsLine_of_upload hr.upload, hf]
      rfl
    · rw [List.mem_append, not_or]
      exact ⟨by decide, u.boundary_word.not_mem rfl⟩
    · change r.readLine (lit "--" ++ u.boundary ++ crlf) = _
      rw [readLine_of_begin hs hf, readBegin, hr.boundary]
      exact if_pos rfl
  have hpart : InPartHead { r with fileMsgStatus := .fileHead } := ⟨hr.upload, rfl⟩
  have hbefore : requestReader.Reads _ u.partBefore _ := reads_plainPartLines hpart
    fun l hl => u.part_line l (List.mem_append_left _ hl)
  -- the disposition names the file
  have hdisp : requestReader.Reads { r with fileMsgStatus := .fileHead } [u.disposition]
      { r with fileMsgStatus := .fileHead, recvFileName := removeSpaces u.fileName } := by
    refine reads_partLine hpart (by simp [Upload.disposition, lit]) ?_ ?_
    · intro hi
      have hmem : lf ∈ u.disposition := hi.subset (by decide)
      revert hmem
      simp only [Upload.disposition, dispositionHead, List.mem_append, not_or, imp_false]
      exact ⟨⟨⟨⟨⟨by decide, u.name_line.2⟩, by decide⟩, by decide⟩, u.fileName_line.2.2⟩, by decide⟩
    · rw [addPartLine_disposition, hr.fileName]
      rfl
  have hnamed : InPartHead { r with
      fileMsgStatus := .fileHead, recvFileName := removeSpaces u.fileName } := ⟨hr.upload, rfl⟩
  have hafter : requestReader.Reads _ u.partAfter _ := reads_plainPartLines hnamed
    fun l hl => u.part_line l (List.mem_append_right _ hl)
  -- the blank line ends the part header
  have hend : requestReader.Reads
      { r with fileMsgStatus := .fileHead, recvFileName := removeSpaces u.fileName } [[]]
      { r with fileMsgStatus := .fileContent, recvFileName := removeSpaces u.fileName } := by
    refine .cons (partSection.wants _ hnamed) (by decide) ?_ (.nil _)
    exact (partSection.read _ crlf hnamed).trans (if_pos rfl)
  exact (((hbegin.append hbefore).append hdisp).append hafter).append hend

/-! ### The content -/

/-- Behind content in which the marked boundary does not occur, the scan finds the delimiter, and
releases the content whole. -/
theorem scan_content (u : Upload) :
    scan (delimiter u.boundary) (u.content ++ delimiter u.boundary) =
      ⟨u.content, delimiter u.boundary, true⟩ := by
  have hscan := scan_append_delim (c := u.content) (t := []) (delimiter_ne_nil u.boundary)
  simp only [List.append_nil] at hscan
  refine hscan fun j hj hpre => ?_
  -- an occurrence inside the content overlaps the delimiter behind it, which has no second `'\r'`
  have hmark : delimiter u.boundary = crlf ++ lit "--" ++ u.boundary ++ lit "--\r\n" := rfl
  obtain ⟨t, ht⟩ := hpre
  rw [List.drop_append_of_le_length (Nat.le_of_lt hj)] at ht
  nth_rewrite 1 [hmark] at ht
  rw [List.append_assoc, List.append_eq_append_iff] at ht
  rcases ht with ⟨x, hx, -⟩ | ⟨x, hx, hD⟩
  · refine u.content_free ?_
    exact (List.IsPrefix.isInfix ⟨x, hx.symm⟩).trans (List.drop_suffix j _).isInfix
  · have hne : u.content.drop j ≠ [] := by simpa using hj
    obtain ⟨c, cs, hcs⟩ := List.exists_cons_of_ne_nil hne
    rw [hcs] at hx
    have htail : lf :: lit "--" ++ u.boundary = cs ++ x := (List.cons.inj hx).2
    have hcr : cr ∉ lf :: lit "--" ++ u.boundary := by
      simp only [List.cons_append, List.mem_cons, List.mem_append, not_or]
      exact ⟨by decide, by decide, u.boundary_word.not_mem rfl⟩
    -- the overlap is the boundary whole, or the delimiter's carriage return inside the boundary
    cases x with
    | nil =>
      refine u.content_free ?_
      rw [List.append_nil] at htail
      have heq : crlf ++ lit "--" ++ u.boundary = u.content.drop j := by
        rw [hcs, ← htail, (List.cons.inj hx).1.symm]
        rfl
      rw [heq]
      exact (List.drop_suffix j _).isInfix
    | cons y x =>
      rw [delimiter_eq] at hD
      obtain ⟨rfl, -⟩ := List.cons.inj hD
      exact hcr (by rw [htail]; simp)

/-- What is decided about an upload that has arrived: the content goes to the file of the upload,
the request is complete, and the redirect is handed over. -/
structure Stored (u : Upload) (o : Outcome) : Prop where
  handed : o.handed = some (lit "/redirect")
  written : o.written = some u.content
  status : o.request.status = .handleComplete
  method : o.request.requestMethod = lit "POST"
  resource : o.request.requestResource = u.resource
  path : o.request.uploadPath = u.path
  fileMsgStatus : o.request.fileMsgStatus = .fileComplete
  boundary : o.request.boundary? = some u.boundary
  recvMsg : o.request.recvMsg = delimiter u.boundary

/-- The bytes of an upload are read as an upload, and stored: what is absorbed from a new request is
the whole of it. -/
theorem absorb_upload (u : Upload) (hb : u.boundary.length < 2 ^ 62) :
    ∃ o, Request.init.absorb u.bytes = .ok o ∧ Stored u o := by
  obtain ⟨r, hread, hr, hf⟩ := reads_headLines u hb
  have hdrained := drained_of_reads (hread.append (reads_partLines u hr hf))
    (u.content ++ delimiter u.boundary)
  generalize hr' : ({ r with
    fileMsgStatus := .fileContent, recvFileName := removeSpaces u.fileName } : Request).withMsg
      (u.content ++ delimiter u.boundary) = r' at hdrained
  have hu : r'.isUpload = true := by rw [← hr']; exact hr.upload
  have hc : r'.fileMsgStatus = .fileContent := by rw [← hr']; rfl
  have hbound : r'.boundary? = some u.boundary := by rw [← hr']; exact hr.boundary
  have hmsg : r'.recvMsg = u.content ++ delimiter u.boundary := by rw [← hr']; rfl
  have hbytes : u.bytes = (u.headLines ++ u.partLines).flatMap (· ++ crlf) ++
      (u.content ++ delimiter u.boundary) := by
    rw [Upload.bytes, Upload.preamble, List.append_assoc]
  refine ⟨r'.settle, ?_, ?_⟩
  · rw [absorb, hbytes, hdrained, drained_of_content hu hc]
    rfl
  · rw [settle_of_content hu hc, hbound, Option.getD_some, hmsg, scan_content u, scanned,
      if_pos rfl]
    have hpost := (isUpload_iff.mp hu).2.1
    refine ⟨rfl, rfl, rfl, hpost, ?_, ?_, rfl, hbound, rfl⟩
    · rw [← hr']
      exact hr.resource
    · rw [← hr']
      rfl

/-! ### The round trip -/

/-- What a round trip comes to: nothing has ended the process, the `Request` is erased, the request
has been completed and `/redirect` handed over, and the content, and nothing else, has been appended
to the file of the upload. -/
structure RoundTrip (u : Upload) (x : Call) : Prop where
  crash : x.crash = none
  request : x.request = none
  shows : Shows x.acts u.bytes [(lit "POST", u.resource)] [lit "/redirect"]
    fun path => if path = u.path then u.content else []

/-- The bytes of an upload are one request: no byte less is enough, and nothing is left over but the
delimiter. -/
theorem exact_upload (u : Upload) (hb : u.boundary.length < 2 ^ 62) :
    ∃ o, Exact u.bytes o ∧ Stored u o := by
  obtain ⟨o, ho, hstored⟩ := absorb_upload u hb
  refine ⟨o, ⟨ho, hstored.status, ?_, .inr ⟨hstored.fileMsgStatus, ?_⟩⟩, hstored⟩
  · rcases absorb_requestMethod ho with hi | hm
    · rw [hstored.status] at hi
      cases hi
    · rw [hm, hstored.method]
      decide
  · rw [hstored.recvMsg, hstored.boundary]
    rfl

/-- **Upload round trip.** -/
theorem upload_round_trip (u : Upload) (hb : u.boundary.length + 2056 ≤ 2 ^ 31)
    {s : List RecvResult} (hq : ∀ x ∈ s, x.Quiet) (hchunk : ∀ x ∈ s, x.bytes.length ≤ 2048)
    (hend : s.getLast? ≠ some .again) (hs : stream s = u.bytes) : RoundTrip u (run s none) := by
  obtain ⟨o, hexact, hstored⟩ := exact_upload u (by omega)
  have hne : s ≠ [] := by
    rintro rfl
    exact hexact.ne_nil hs.symm
  have harrives : ∀ x ∈ s, x.Arrives := fun x hx => (hq x hx).arrives
  have ho : Request.init.absorb (stream s) = .ok o := by rw [hs]; exact hexact.absorbed
  have hp : Passes s Request.init :=
    passes_of_roomy harrives init_atRest ho fun _ _ =>
      ⟨hq, hchunk, u.boundary, hstored.boundary, hb⟩
  obtain ⟨hc, hr, hshows⟩ := run_stream harrives hne hend hp ho (fun _ => hstored.status)
    (fun p q hpq hq' o' ho' => hexact.pending (hpq.trans hs) hq' ho')
  rw [if_neg hexact.handed] at hr hshows
  refine ⟨hc, hr, ?_⟩
  rw [hs, hstored.method, hstored.resource, hstored.handed] at hshows
  refine ⟨hshows.received, hshows.completed, hshows.handedOver, fun path => ?_⟩
  rw [hshows.appendedTo, Outcome.writtenTo, hstored.path, hstored.written]
  rfl

/-- An upload whose content looks like the delimiter more than once. -/
def sampleUpload : Upload where
  resource := lit "/"
  version := lit "HTTP/1.1"
  before := [⟨lit "Host", lit "localhost:8888", by decide, by decide⟩]
  after := [⟨lit "Content-Length", lit "231", contentLength_token, by decide⟩]
  boundary := lit "XyZ"
  partBefore := [lit "X-Part: 1"]
  partAfter := [lit "Content-Type: text/plain"]
  name := lit "upload"
  fileName := lit "my notes.txt"
  content := lit "one\r\n--Xy\r\rtwo\r\n-"
  resource_token := slash_token
  version_token := http_token
  headers_plain := by decide
  boundary_word := by decide
  part_line := by decide
  name_line := by decide
  name_plain := by decide
  fileName_line := by decide
  fileName_short := by decide
  fileName_visible := by decide
  content_free := by decide

/-- The request in two chunks, with an `EAGAIN` between them. -/
theorem upload_round_trip_sample :
    RoundTrip sampleUpload (run [.data (sampleUpload.bytes.take 250) true, .again,
      .data (sampleUpload.bytes.drop 250) true] none) := by
  refine upload_round_trip sampleUpload (by decide) (fun x hx => ?_) (fun x hx => ?_) (by simp) ?_
  · simp only [List.mem_cons, List.not_mem_nil, or_false] at hx
    rcases hx with rfl | rfl | rfl
    · exact .data _ (by decide +kernel)
    · exact .again
    · exact .data _ (by decide +kernel)
  · simp only [List.mem_cons, List.not_mem_nil, or_false] at hx
    rcases hx with rfl | rfl | rfl <;> decide +kernel
  · simp [RecvResult.bytes]

/-! ### Boundaries that are too long -/

/-- A script that brings nothing of the content passes, whatever the boundary is: the content loop
has nothing to do. -/
theorem passes_of_nothing {s : List RecvResult} (hq : ∀ x ∈ s, x.Quiet) {r : Request}
    (hr : r.AtRest) {o : Outcome} (ho : r.absorb (stream s) = .ok o) (hn : o.handed = none)
    (hw : o.written.getD [] = []) (hm : o.request.recvMsg = []) {b : Bytes}
    (hb : o.request.boundary? = some b) : Passes s r := by
  induction s generalizing r o with
  | nil => trivial
  | cons x s ih =>
    have hqs : ∀ y ∈ s, y.Quiet := fun y hy => hq y (List.mem_cons_of_mem x hy)
    cases hq x List.mem_cons_self with
    | again => exact ih hqs hr ho hn hw hm hb
    | data buf hbuf =>
      have ho' : r.absorb (buf ++ stream s) = .ok o := ho
      obtain ⟨o₁, o₂, ho₁, hn₁, ho₂, hn₂, rfl⟩ := absorb_split ho' hn
      intro r' hd
      obtain rfl : r'.settle = o₁ := Except.ok.inj ((absorb_of_drained hd).symm.trans ho₁)
      refine ⟨fun hu hf => ?_, fun _ => ?_⟩
      · -- what has arrived of the content is neither written nor held
        obtain ⟨hheader, -⟩ := absorb_body hd (isUpload_iff.mp hu).1 ho'
        refine ⟨rfl, b, by rw [boundary?, ← hheader]; exact hb, .inl ?_⟩
        have hall := absorb_of_content hu hf (stream s)
        have hpush : r'.absorb (stream s) = _ := settle_push hn₁ (stream s)
        rw [hall, ho₂] at hpush
        have heq := Except.ok.inj hpush
        -- a scan gives out what it is given, written or held; both are nothing here
        have hrel := scan_released_append_held (delimiter (r'.boundary?.getD []))
          (r'.recvMsg ++ stream s)
        rw [← heq, scanned_written] at hw
        rw [← heq, scanned_recvMsg] at hm
        rw [hm, show Result.released _ = [] from hw, List.append_nil] at hrel
        exact (List.append_eq_nil_iff.mp hrel.symm).1
      · refine ih hqs (absorb_atRest hr.sound ho₁ hn₁) ho₂ hn₂ ?_ hm hb
        cases hw₂ : o₂.written with
        | none => rfl
        | some w₂ =>
          simp only [Outcome.after, hw₂, Option.map_some, Option.getD_some,
            List.append_eq_nil_iff] at hw
          exact hw.2

/-- With an empty content and a delimiter of `2 ^ 31` bytes or more the content loop waits, as the
length it compares with is negative as an `int` and huge as a `size_t`. -/
theorem contentLoop_wide {b t : Bytes} (hb : 2 ^ 31 ≤ b.length + 8) (hb' : b.length + 8 < 2 ^ 32)
    (ht : (cr :: t).length < 2 ^ 32) :
    contentLoop (some b) (cr :: t) = ⟨[], cr :: t, .wait⟩ := by
  refine Loop.eval_of_inr ?_
  have hsave : toInt (cr :: t).length ≠ 0 := by
    rw [List.length_cons] at ht ⊢
    unfold toInt
    omega
  have hlen : ¬ toSize (toInt (b.length + 8)) ≤ (cr :: t).length - 0 := by
    rw [toInt_of_wide hb hb']
    unfold toSize
    omega
  have hfind : find (cr :: t) (lit "\r") 0 = some 0 := by
    rw [find_zero]
    exact firstAt_singleton_append (s := []) (by simp) t
  unfold contentTurn
  simp only [hfind]
  rw [if_neg hsave, if_neg hlen]
  rfl

/-- In the content of an upload a turn does nothing but the content stage, on the chunk behind what
is there. -/
theorem recvTurn_content {r : Request} (hu : r.isUpload = true)
    (hf : r.fileMsgStatus = .fileContent) (buf : Bytes) (ofs : Bool) :
    recvTurn buf ofs r = (contentStage ofs (r.push buf)).prepend [.recvd buf] := by
  have hline : (requestLineStage (r.push buf)).2 = [] := by
    rw [requestLineStage, if_neg]
    rw [push, withMsg_status, (isUpload_iff.mp hu).1]
    decide
  have hturn := recvTurn_of_upload (r := r) ofs
    (drained_of_content (r := r.push buf) hu hf) hu
  rwa [hline] at hturn

/-- The delimiter of an empty content never completes the request when it is too long. -/
theorem run_wide {b : Bytes} (hb : 2 ^ 31 ≤ b.length + 8) (hb' : b.length + 8 < 2 ^ 32)
    {r : Request} (hu : r.isUpload = true) (hf : r.fileMsgStatus = .fileContent)
    (hr : r.boundary? = some b) {m y : Bytes} (hmy : m ++ y = delimiter b) :
    (run (bytewise y) (some (r.withMsg m))).request ≠ none := by
  induction y generalizing m with
  | nil => exact Option.some_ne_none _
  | cons c y ih =>
    -- what is held begins with the `'\r'` of the delimiter
    obtain ⟨t, ht⟩ : ∃ t, m ++ [c] = cr :: t := by
      rw [delimiter_eq] at hmy
      cases m with
      | nil => exact ⟨[], by rw [(List.cons.inj hmy).1]; rfl⟩
      | cons x m => exact ⟨m ++ [c], by rw [(List.cons.inj hmy).1]; rfl⟩
    have hlen : (cr :: t).length < 2 ^ 32 := by
      have hall := congrArg List.length hmy
      rw [delimiter_length, List.length_append, List.length_cons] at hall
      rw [← ht, List.length_append, List.length_singleton]
      omega
    -- too few bytes for a delimiter of that length: the turn saves nothing
    have hstage : contentStage true ((r.withMsg m).push [c]) =
        ⟨r.withMsg (m ++ [c]), [.openAppend r.uploadPath true, .append r.uploadPath []],
          .again⟩ := by
      have hloop := contentLoop_wide hb hb' hlen
      rw [← ht] at hloop
      have hbound : ((r.withMsg m).push [c]).boundary? = some b := hr
      have hmsg : ((r.withMsg m).push [c]).recvMsg = m ++ [c] := rfl
      rw [contentStage, if_pos (show ((r.withMsg m).push [c]).fileMsgStatus = _ from hf),
        if_pos rfl, hbound, hmsg, hloop]
      rfl
    have hturn := recvTurn_content (r := r.withMsg m) hu hf [c] true
    rw [hstage] at hturn
    have hs := (isUpload_iff.mp hu).1
    change (run (.data [c] true :: bytewise y) _).request ≠ none
    rw [run_cons, Option.getD_some, resume_data_again (by rw [hturn]; rfl), hturn,
      Call.prepend_request]
    change (resume (bytewise y) (r.withMsg (m ++ [c]))).request ≠ none
    rw [resume_eq_run _ (by rw [withMsg_status, hs]; decide)
      (by rw [withMsg_status, hs]; decide), Call.prepend_request]
    exact ih (by rw [List.append_assoc]; exact hmy)

/-- **An upload of an empty file whose delimiter has `2 ^ 31` bytes or more never completes.** -/
theorem upload_never_completes (u : Upload) (hb : 2 ^ 31 ≤ u.boundary.length + 8)
    (hb' : u.boundary.length + 8 < 2 ^ 32) (hc : u.content = []) :
    (run (bytewise u.bytes) none).request ≠ none := by
  obtain ⟨r, hread, hr, hf⟩ := reads_headLines u (by omega)
  have hdrained := drained_of_reads (hread.append (reads_partLines u hr hf)) []
  generalize hr' : ({ r with
    fileMsgStatus := .fileContent, recvFileName := removeSpaces u.fileName } : Request).withMsg
      [] = r' at hdrained
  have hu : r'.isUpload = true := by rw [← hr']; exact hr.upload
  have hf' : r'.fileMsgStatus = .fileContent := by rw [← hr']; rfl
  have hbound : r'.boundary? = some u.boundary := by rw [← hr']; exact hr.boundary
  have hmsg : r'.recvMsg = [] := by rw [← hr']; rfl
  -- behind the preamble the content is empty
  have hset : r'.settle = ⟨r', some [], none⟩ := by
    rw [settle_of_content hu hf', hmsg, scan_nil]
    change (⟨r'.withMsg [], some [], none⟩ : Outcome) = _
    rw [← hmsg, withMsg_self]
  have ho : Request.init.absorb u.preamble = .ok ⟨r', some [], none⟩ := by
    have hflat : u.preamble = (u.headLines ++ u.partLines).flatMap (· ++ crlf) ++ [] := by
      rw [List.append_nil, Upload.preamble]
    rw [absorb, hflat, hdrained, drained_of_content hu hf', Except.map, hset]
  have hq := bytewise_quiet u.preamble
  have hp : Passes (bytewise u.preamble) Request.init :=
    passes_of_nothing hq init_atRest (by rw [stream_bytewise]; exact ho) rfl rfl hmsg hbound
  obtain ⟨acts, hrun, -⟩ :=
    run_absorb (bytewise_arrives _) init_atRest hp (by rw [stream_bytewise]; exact ho) rfl
    (bytewise (delimiter u.boundary))
  have hbytes : bytewise u.bytes = bytewise u.preamble ++ bytewise (delimiter u.boundary) := by
    rw [Upload.bytes, hc, List.append_nil, bytewise, bytewise, bytewise, List.map_append]
  have hne : bytewise u.bytes ≠ [] := by
    rw [hbytes]
    simp [bytewise, delimiter_ne_nil]
  rw [run_none hne, hbytes, hrun, Call.prepend_request]
  -- the delimiter arrives byte by byte, and the loop never sees it
  have hwide := run_wide hb hb' hu hf' hbound (m := []) (y := delimiter u.boundary) rfl
  rwa [← hmsg, withMsg_self] at hwide

/-- An upload of an empty file, with any boundary that is a word. -/
def emptyUpload (boundary : Bytes) (h : IsWord boundary) : Upload where
  resource := lit "/"
  version := lit "HTTP/1.1"
  before := []
  after := []
  boundary := boundary
  partBefore := []
  partAfter := []
  name := lit "upload"
  fileName := lit "f"
  content := []
  resource_token := slash_token
  version_token := http_token
  headers_plain := by decide
  boundary_word := h
  part_line := by decide
  name_line := by decide
  name_plain := by decide
  fileName_line := by decide
  fileName_short := by decide
  fileName_visible := by decide
  content_free h := by simp [crlf] at h

/-- The round trip does not hold for every boundary: with `2 ^ 31 - 8` bytes the length of the
delimiter is negative as an `int`, and no `recv` ever brings enough for the comparison. -/
theorem upload_boundary_overflow :
    ¬ ∀ (u : Upload) (s : List RecvResult), (∀ x ∈ s, x.Quiet) →
      (∀ x ∈ s, x.bytes.length ≤ 2048) → s.getLast? ≠ some .again → stream s = u.bytes →
      RoundTrip u (run s none) := by
  intro h
  have hword : IsWord (List.replicate (2 ^ 31 - 8) (97 : UInt8)) := by
    intro c hc
    rw [List.eq_of_mem_replicate hc]
    decide
  have hlen : (emptyUpload _ hword).boundary.length = 2 ^ 31 - 8 := List.length_replicate
  have hnever := upload_never_completes (emptyUpload _ hword) (by omega) (by omega) rfl
  refine hnever (h (emptyUpload _ hword) _ (bytewise_quiet _) (fun x hx => ?_)
    (bytewise_getLast _) (stream_bytewise _)).request
  obtain ⟨c, -, rfl⟩ := List.mem_map.mp hx
  change 1 ≤ 2048
  decide

end HandleRecv

end Cherokee
