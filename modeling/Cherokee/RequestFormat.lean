import Cherokee.RecvRun

/-!
# What a client sends

The requests of a client as it writes them: a request line, header lines `key: value`, a blank line,
and for an upload a single part in `multipart/form-data`. Each form carries the conditions under
which it is well formed, and comes with what `requestReader` makes of it.

* `HandleRecv.reads_requestLine`, `HandleRecv.reads_headers`: the head.
* `HandleRecv.addPartLine_disposition`: the part header line with the file name.
-/

open Search

namespace Cherokee

/-! ### Words and streams -/

/-- A string without white space, which `>>` reads in one extraction. -/
def IsWord (s : Bytes) : Prop := ∀ c ∈ s, isspace c = false

instance (s : Bytes) : Decidable (IsWord s) := List.decidableBAll _ s

/-- A word that is not empty, so that `>>` finds it. -/
def IsToken (s : Bytes) : Prop := s ≠ [] ∧ IsWord s

instance (s : Bytes) : Decidable (IsToken s) := inferInstanceAs (Decidable (_ ∧ IsWord s))

theorem IsWord.not_mem {s : Bytes} (h : IsWord s) {c : UInt8} (hc : isspace c = true) : c ∉ s := by
  intro hm
  rw [h c hm] at hc
  cases hc

theorem IsToken.lf_not_mem {s : Bytes} (h : IsToken s) : lf ∉ s := h.2.not_mem rfl

namespace IStringStream

/-- Extraction reads a word up to white space, and leaves the white space in the stream. -/
theorem extract_token (space word rest : Bytes) {c : UInt8} (hspace : ∀ x ∈ space, isspace x = true)
    (hword : IsToken word) (hc : isspace c = true) (str : Bytes) :
    extract ⟨space ++ (word ++ c :: rest), true⟩ str = (word, ⟨c :: rest, true⟩) := by
  obtain ⟨hne, hall⟩ := hword
  have hpos : ∀ x ∈ word, (!isspace x) = true := fun x hx => by rw [hall x hx]; rfl
  have hdrop : (space ++ (word ++ c :: rest)).dropWhile isspace = word ++ c :: rest := by
    rw [List.dropWhile_append_of_pos hspace]
    obtain ⟨x, w, rfl⟩ := List.exists_cons_of_ne_nil hne
    rw [List.cons_append, List.dropWhile_cons, hall x List.mem_cons_self]
    rfl
  have htake : (word ++ c :: rest).takeWhile (!isspace ·) = word := by
    rw [List.takeWhile_append_of_pos hpos, List.takeWhile_cons, hc]
    simp
  have hleft : (word ++ c :: rest).dropWhile (!isspace ·) = c :: rest := by
    rw [List.dropWhile_append_of_pos hpos, List.dropWhile_cons, hc]
    rfl
  unfold extract
  simp only [if_true, hdrop, htake, hleft]
  rw [if_neg (by simp)]
  rfl

/-- The function `getline` reads up to the line feed, and takes it out of the stream. -/
theorem getline_lf {line rest : Bytes} (h : lf ∉ line) (str : Bytes) :
    getline ⟨line ++ lf :: rest, true⟩ str = (line, ⟨rest, true⟩) := by
  have hfirst := firstAt_singleton_append h rest
  unfold getline
  simp only [if_true, hfirst, List.take_left, List.drop_append]
  simp

end IStringStream

/-! ### The request line -/

/-- A request line without its terminator: three tokens, which the parser tells apart by the blanks
between them. -/
structure RequestLine where
  method : Bytes
  resource : Bytes
  version : Bytes
  method_token : IsToken method
  resource_token : IsToken resource
  version_token : IsToken version

namespace RequestLine

/-- `METHOD resource version` -/
def bytes (l : RequestLine) : Bytes :=
  l.method ++ lit " " ++ l.resource ++ lit " " ++ l.version

/-- The request once its line has been read, with no header yet. -/
def request (l : RequestLine) : Request :=
  { Request.init with
    status := .handleHead
    requestMethod := l.method
    requestResource := l.resource
    httpVersion := l.version }

theorem lf_not_mem (l : RequestLine) : lf ∉ l.bytes := by
  have hspace : lf ∉ lit " " := by decide
  simp only [bytes, List.mem_append, not_or]
  exact ⟨⟨⟨⟨l.method_token.lf_not_mem, hspace⟩, l.resource_token.lf_not_mem⟩, hspace⟩,
    l.version_token.lf_not_mem⟩

theorem setRequestLine_bytes (l : RequestLine) (r : Request) :
    r.setRequestLine (l.bytes ++ crlf) =
      { r with
        requestMethod := l.method
        requestResource := l.resource
        httpVersion := l.version } := by
  have hspace : ∀ x ∈ [(32 : UInt8)], isspace x = true := by
    intro x hx
    rw [List.mem_singleton.mp hx]
    rfl
  have h₁ := IStringStream.extract_token [] l.method (l.resource ++ 32 :: (l.version ++ crlf))
    (c := 32) (by simp) l.method_token (by decide) r.requestMethod
  have h₂ := IStringStream.extract_token [32] l.resource (l.version ++ crlf)
    (c := 32) hspace l.resource_token (by decide) r.requestResource
  have h₃ := IStringStream.extract_token [32] l.version [lf]
    (c := cr) hspace l.version_token (by decide) r.httpVersion
  have hbytes : l.bytes ++ crlf =
      [] ++ (l.method ++ 32 :: (l.resource ++ 32 :: (l.version ++ crlf))) := by
    simp [bytes, lit]
  unfold Request.setRequestLine
  rw [hbytes]
  simp only [h₁]
  rw [show (32 : UInt8) :: (l.resource ++ 32 :: (l.version ++ crlf)) =
    [32] ++ (l.resource ++ 32 :: (l.version ++ crlf)) from rfl]
  simp only [h₂]
  rw [show (32 : UInt8) :: (l.version ++ crlf) = [32] ++ (l.version ++ cr :: [lf]) from rfl]
  simp only [h₃]

end RequestLine

/-! ### Header lines -/

/-- A header line without its terminator. Its value may hold anything but a line feed. -/
structure HeaderLine where
  key : Bytes
  value : Bytes
  key_token : IsToken key
  value_line : lf ∉ value

/-! ### Words of the heads in use -/

theorem slash_token : IsToken (lit "/") := by decide

theorem http_token : IsToken (lit "HTTP/1.1") := by decide

theorem put_token : IsToken (lit "PUT") := by decide

theorem contentLength_token : IsToken (lit "Content-Length") := by decide

theorem contentType_token : IsToken (lit "Content-Type") := by decide

/-- A string of decimal digits, without a sign and without white space. -/
def IsDigits (s : Bytes) : Prop := ∀ c ∈ s, isDigit c = true

instance (s : Bytes) : Decidable (IsDigits s) := List.decidableBAll _ s

/-- A decimal number that fits a `long long`, so that `std::stoll` returns it. -/
def IsDecimal (s : Bytes) : Prop := s ≠ [] ∧ IsDigits s ∧ decimal s < 2 ^ 63

instance (s : Bytes) : Decidable (IsDecimal s) :=
  inferInstanceAs (Decidable (_ ∧ IsDigits s ∧ _))

theorem stoll_of_isDecimal {s : Bytes} (h : IsDecimal s) : stoll s = .ok (decimal s) := by
  obtain ⟨hne, hdigit, hlt⟩ := h
  obtain ⟨c, t, rfl⟩ := List.exists_cons_of_ne_nil hne
  have hc := hdigit c List.mem_cons_self
  have hspace : isspace c = false := by
    simp only [isDigit, Bool.and_eq_true, decide_eq_true_eq] at hc
    have h13 : ¬ c ≤ 13 := fun h => absurd (UInt8.le_trans hc.1 h) (by decide)
    have h32 : c ≠ 32 := by
      rintro rfl
      exact absurd hc.1 (by decide)
    simp [isspace, h13, h32]
  have hsign : c ≠ 45 ∧ c ≠ 43 := by
    constructor <;> rintro rfl <;> exact absurd hc (by decide)
  have htake : (c :: t).takeWhile isDigit = c :: t := by
    rw [← List.append_nil (c :: t), List.takeWhile_append_of_pos hdigit]
    rfl
  unfold stoll
  rw [List.dropWhile_cons, hspace]
  simp only [Bool.false_eq_true, if_false, List.head?_cons, Option.some.injEq, hsign.1, hsign.2,
    or_self, htake, List.cons_ne_nil]
  rw [if_pos (by omega)]

namespace HeaderLine

/-- `key: value` -/
def bytes (h : HeaderLine) : Bytes := h.key ++ lit ": " ++ h.value

theorem lf_not_mem (h : HeaderLine) : lf ∉ h.bytes := by
  have hsep : lf ∉ lit ": " := by decide
  simp only [bytes, List.mem_append, not_or]
  exact ⟨⟨h.key_token.lf_not_mem, hsep⟩, h.value_line⟩

/-- A header line is not the blank one, so the head does not end with it. -/
theorem bytes_ne (h : HeaderLine) : h.bytes ++ crlf ≠ crlf := by
  intro heq
  have hlen := congrArg List.length heq
  simp only [bytes, lit, List.length_append, List.length_map] at hlen
  simp at hlen

/-- What `Request::addHeaderOpt` makes of a header line, by its key: a number, a media type, or an
entry as it stands. -/
theorem addHeaderOpt_bytes (h : HeaderLine) (r : Request) :
    r.addHeaderOpt (h.bytes ++ crlf) =
      if h.key = lit "Content-Length" then
        (stoll h.value).map fun contentLength => { r with contentLength }
      else if h.key = lit "Content-Type" then r.addContentType h.key h.value
      else .ok (r.setHeader h.key h.value) := by
  have hword : IsToken (h.key ++ [58]) := by
    refine ⟨by simp, fun c hc => ?_⟩
    rcases List.mem_append.mp hc with hc | hc
    · exact h.key_token.2 c hc
    · rw [List.mem_singleton.mp hc]
      decide
  -- the stream is read word by word: the key with its colon, the blank, and the rest of the line
  have hextract := IStringStream.extract_token [] (h.key ++ [58]) (h.value ++ crlf)
    (c := 32) (by simp) hword (by decide) []
  have hbytes : h.bytes ++ crlf = [] ++ (h.key ++ [58] ++ 32 :: (h.value ++ crlf)) := by
    simp [bytes, lit]
  have hvalue : lf ∉ h.value ++ [cr] := by
    simp only [List.mem_append, List.mem_singleton, not_or]
    exact ⟨h.value_line, by decide⟩
  have hget : (⟨32 :: (h.value ++ crlf), true⟩ : IStringStream).get = ⟨h.value ++ crlf, true⟩ := rfl
  have hgetline : IStringStream.getline ⟨h.value ++ crlf, true⟩ [] =
      (h.value ++ [cr], ⟨[], true⟩) := by
    have hread : IStringStream.getline ⟨h.value ++ [cr] ++ [lf], true⟩ [] = _ :=
      IStringStream.getline_lf hvalue []
    rwa [List.append_assoc] at hread
  -- `getline` leaves the carriage return, which is taken off
  have hlast : (h.value ++ [cr]).getLast? = some cr := by simp
  unfold Request.addHeaderOpt
  rw [hbytes]
  simp only [hextract, hget, hgetline, hlast, if_true, List.dropLast_concat]
  rw [if_neg (by simp)]
  cases stoll h.value <;> rfl

/-- A header the parser takes as it stands, or whose number it can read. -/
def Plain (h : HeaderLine) : Prop :=
  h.key ≠ lit "Content-Type" ∧ (h.key = lit "Content-Length" → IsDecimal h.value)

instance (h : HeaderLine) : Decidable h.Plain := inferInstanceAs (Decidable (_ ∧ _))

/-- A plain header line is accepted, and touches no other header. -/
theorem addHeaderOpt_plain {h : HeaderLine} (hp : h.Plain) (r : Request) :
    ∃ msgHeader contentLength,
      r.addHeaderOpt (h.bytes ++ crlf) = .ok { r with msgHeader, contentLength } ∧
      ∀ key, h.key ≠ key → msgHeader key = r.msgHeader key := by
  rw [addHeaderOpt_bytes, if_neg hp.1]
  split
  · next hlen =>
    rw [stoll_of_isDecimal (hp.2 hlen)]
    exact ⟨r.msgHeader, decimal h.value, rfl, fun _ _ => rfl⟩
  · refine ⟨Function.update r.msgHeader h.key (some h.value), r.contentLength, rfl, ?_⟩
    intro key hne
    exact Function.update_of_ne (Ne.symm hne) _ _

/-- A header the parser does not stop at: a length it can read, and something behind the semicolon
of a media type. -/
def Accepted (h : HeaderLine) : Prop :=
  (h.key = lit "Content-Length" → IsDecimal h.value) ∧
    (h.key = lit "Content-Type" →
      ∀ semIndex ∈ find h.value (lit ";") 0, semIndex + 2 ≤ h.value.length)

instance (h : HeaderLine) : Decidable h.Accepted := inferInstanceAs (Decidable (_ ∧ _))

theorem addHeaderOpt_accepted {h : HeaderLine} (ha : h.Accepted) (r : Request) :
    ∃ r', r.addHeaderOpt (h.bytes ++ crlf) = .ok r' := by
  rw [addHeaderOpt_bytes]
  split
  · next hlen =>
    rw [stoll_of_isDecimal (ha.1 hlen)]
    exact ⟨_, rfl⟩
  · split
    · next htype =>
      unfold Request.addContentType
      cases hsem : find h.value (lit ";") 0 with
      | none => exact ⟨_, rfl⟩
      | some semIndex =>
        -- two characters behind the semicolon the name of the parameter begins
        have hlen : semIndex + 2 ≤ h.value.length := ha.2 htype semIndex hsem
        -- the parameter starts behind the equals sign, or at the front when there is none
        have hparam : ∃ parameter, substr h.value
            (toSize (((find h.value (lit "=") semIndex).getD npos : ℕ) + 1)) npos =
              .ok parameter := by
          unfold substr
          rw [if_pos]
          · exact ⟨_, rfl⟩
          · cases heq : find h.value (lit "=") semIndex with
            | none => exact Nat.zero_le _
            | some i =>
              have hi : i + 1 ≤ h.value.length := find_length_le (by omega) heq
              rw [Option.getD_some, toSize]
              omega
        obtain ⟨parameter, hparam⟩ := hparam
        simp only [bind, Except.bind, hparam]
        rw [substr, if_pos hlen]
        exact ⟨_, rfl⟩
    · exact ⟨_, rfl⟩

end HeaderLine

/-! ### Reading the head -/

theorem not_crlf_isInfix_of_lf {line : Bytes} (h : lf ∉ line) :
    ¬ crlf <:+: line ++ crlf.dropLast := by
  intro hi
  have hmem : lf ∈ line ++ crlf.dropLast := hi.subset (by decide)
  rcases List.mem_append.mp hmem with hm | hm
  · exact h hm
  · exact absurd hm (by decide)

theorem not_crlf_isInfix {line : Bytes} (h : ¬ crlf <:+: line) :
    ¬ crlf <:+: line ++ crlf.dropLast := by
  intro hi
  rcases List.infix_concat_iff.mp (show crlf <:+: line ++ [cr] from hi) with hs | hs
  · obtain ⟨t, ht⟩ := hs
    have := congrArg List.getLast? ht
    simp [crlf, cr, lf] at this
  · exact h hs

namespace HandleRecv

open Request

theorem reads_requestLine (l : RequestLine) :
    requestReader.Reads Request.init [l.bytes] l.request := by
  refine .cons rfl (not_crlf_isInfix_of_lf l.lf_not_mem) ?_ (.nil _)
  change Request.init.readLine (l.bytes ++ crlf) = _
  rw [readLine_of_init rfl, l.setRequestLine_bytes]
  rfl

/-- A header line that is accepted is read as one line, and leaves the request in its head. -/
theorem reads_header {r r' : Request} (hs : r.status = .handleHead) {h : HeaderLine}
    (ho : r.addHeaderOpt (h.bytes ++ crlf) = .ok r') : requestReader.Reads r [h.bytes] r' := by
  refine .cons (wantsLine_of_head hs) (not_crlf_isInfix_of_lf h.lf_not_mem) ?_ (.nil _)
  change r.readLine (h.bytes ++ crlf) = _
  rw [readLine_of_head hs, if_neg h.bytes_ne, ho]

/-- Plain header lines are read, and touch no other header. -/
theorem reads_headers {r : Request} (hs : r.status = .handleHead) {headers : List HeaderLine}
    (hp : ∀ h ∈ headers, h.Plain) :
    ∃ msgHeader contentLength,
      requestReader.Reads r (headers.map HeaderLine.bytes) { r with msgHeader, contentLength } ∧
      ∀ key, (∀ h ∈ headers, h.key ≠ key) → msgHeader key = r.msgHeader key := by
  induction headers generalizing r with
  | nil => exact ⟨r.msgHeader, r.contentLength, .nil r, fun _ _ => rfl⟩
  | cons h headers ih =>
    obtain ⟨m₁, n₁, ho, hkeep₁⟩ := HeaderLine.addHeaderOpt_plain (hp h List.mem_cons_self) r
    obtain ⟨m₂, n₂, hread, hkeep₂⟩ := ih (r := { r with msgHeader := m₁, contentLength := n₁ }) hs
      fun x hx => hp x (List.mem_cons_of_mem h hx)
    refine ⟨m₂, n₂, (reads_header hs ho).append hread, fun key hkey => ?_⟩
    rw [hkeep₂ key fun x hx => hkey x (List.mem_cons_of_mem h hx)]
    exact hkeep₁ key (hkey h List.mem_cons_self)

/-- The blank line ends the head, and what is read behind it belongs to the body. -/
theorem reads_endHead {r : Request} (hs : r.status = .handleHead) :
    requestReader.Reads r [[]] r.endHead := by
  refine .cons (wantsLine_of_head hs) (by decide) ?_ (.nil _)
  change r.readLine crlf = _
  rw [readLine_of_head hs, if_pos rfl]

theorem reads_recvMsg {r r' : Request} {lines : List Bytes}
    (h : requestReader.Reads r lines r') : r'.recvMsg = r.recvMsg := by
  induction h with
  | nil => rfl
  | cons _ _ read _ ih => rw [ih, readLine_recvMsg read]

/-- What has been read from the front of a stream leaves the rest. -/
theorem drained_of_reads {r : Request} {lines : List Bytes}
    (h : requestReader.Reads Request.init lines r) (rest : Bytes) :
    (Request.init.push (lines.flatMap (· ++ crlf) ++ rest)).drained = (r.withMsg rest).drained := by
  have hr : r.recvMsg = [] := reads_recvMsg h
  unfold drained
  change Except.map _ (requestReader.drain Request.init (lines.flatMap (· ++ crlf) ++ rest)) =
    Except.map _ (requestReader.drain (r.withMsg []) rest)
  rw [show lines.flatMap (· ++ crlf) ++ rest =
    lines.flatMap (· ++ requestReader.sep) ++ rest from rfl, h.drain]
  rw [show r.withMsg [] = r by rw [← hr]; rfl]

end HandleRecv

/-! ### Requests that end with their head -/

/-- The head of a request whose headers the parser accepts. -/
structure Head where
  line : RequestLine
  headers : List HeaderLine
  headers_accepted : ∀ h ∈ headers, h.Accepted

namespace Head

open HandleRecv Request

/-- The lines of the head, up to the blank one. -/
def lines (h : Head) : List Bytes := [h.line.bytes] ++ h.headers.map HeaderLine.bytes ++ [[]]

/-- The bytes of the head. -/
def bytes (h : Head) : Bytes := h.lines.flatMap (· ++ crlf)

/-- The request once its headers have been read. -/
def request (h : Head) : Except Fault Request :=
  h.headers.foldlM (fun r x => r.addHeaderOpt (x.bytes ++ crlf)) h.line.request

/-- The request is complete with its head: a `GET`, or a `POST` that is no upload. -/
def Closes (h : Head) : Prop :=
  h.line.method = lit "GET" ∨
    (h.line.method = lit "POST" ∧ h.request.toOption.any Request.isMultipart = false)

instance (h : Head) : Decidable h.Closes := inferInstanceAs (Decidable (_ ∨ _ ∧ _))

/-- Header lines that are accepted are read one after the other. -/
theorem reads_accepted {r : Request} (hs : r.status = .handleHead) {headers : List HeaderLine}
    (ha : ∀ h ∈ headers, h.Accepted) :
    ∃ msgHeader contentLength,
      headers.foldlM (fun r x => r.addHeaderOpt (x.bytes ++ crlf)) r =
        .ok { r with msgHeader, contentLength } ∧
      requestReader.Reads r (headers.map HeaderLine.bytes) { r with msgHeader, contentLength } := by
  induction headers generalizing r with
  | nil => exact ⟨r.msgHeader, r.contentLength, rfl, .nil r⟩
  | cons h headers ih =>
    obtain ⟨r', ho⟩ := HeaderLine.addHeaderOpt_accepted (ha h List.mem_cons_self) r
    obtain ⟨m₁, n₁, rfl⟩ := addHeaderOpt_fields ho
    obtain ⟨m₂, n₂, hfold, hread⟩ := ih (r := { r with msgHeader := m₁, contentLength := n₁ }) hs
      fun x hx => ha x (List.mem_cons_of_mem h hx)
    refine ⟨m₂, n₂, ?_, (reads_header hs ho).append hread⟩
    rw [List.foldlM_cons, ho]
    exact hfold

/-- The head is read: its lines one after the other, up to the blank one. -/
theorem reads_lines (h : Head) :
    ∃ msgHeader contentLength,
      h.request = .ok { h.line.request with msgHeader, contentLength } ∧
      requestReader.Reads Request.init h.lines
        { h.line.request with msgHeader, contentLength }.endHead := by
  obtain ⟨m, n, hfold, hread⟩ := reads_accepted (r := h.line.request) rfl h.headers_accepted
  exact ⟨m, n, hfold, ((reads_requestLine h.line).append hread).append (reads_endHead rfl)⟩

end Head

end Cherokee
