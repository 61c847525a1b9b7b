import Cherokee.Upload
import Cherokee.Lib.LastWins

/-!
# The head, read back

A client writes a request line, header lines and a blank line. However the bytes are cut into
results of `recv`, the chunk that brings the last of them finds the `Request` in its head and takes
it to `HANDLE_BODY`, with the words of the request line and with the options entered from left to
right (`HandleRecv.head_round_trip`).

`Header` is a header line other than `Content-Length`, in the forms the parser is made for; its
`pairs` are what it says. A `Content-Type` with a parameter says two things.
-/

open Search LastWins

namespace Cherokee

/-! ### Header lines and what they say -/

/-- A header line other than `Content-Length`. -/
inductive Header where
  /-- `key: value` -/
  | option (key value : Bytes) (token : IsToken key) (line : lf ∉ value)
      (not_length : key ≠ lit "Content-Length") (not_type : key ≠ lit "Content-Type")
  /-- `Content-Type: type` -/
  | mediaType (type : Bytes) (line : lf ∉ type) (semicolon : 59 ∉ type)
  /-- `Content-Type: type; name=value`. A string holds no more than `max_size` bytes. -/
  | parameter (type name value : Bytes)
      (line : lf ∉ type ++ lit "; " ++ name ++ lit "=" ++ value) (semicolon : 59 ∉ type)
      (equals : 61 ∉ name)
      (size : (type ++ lit "; " ++ name ++ lit "=" ++ value).length ≤ maxSize)

namespace Header

/-- The line. -/
def line : Header → HeaderLine
  | option key value token line _ _ => ⟨key, value, token, line⟩
  | mediaType type line _ => ⟨lit "Content-Type", type, contentType_token, line⟩
  | parameter type name value line _ _ _ =>
    ⟨lit "Content-Type", type ++ lit "; " ++ name ++ lit "=" ++ value, contentType_token, line⟩

/-- The pairs the line says. -/
def pairs : Header → List (Bytes × Bytes)
  | option key value _ _ _ _ => [(key, value)]
  | mediaType type _ _ => [(lit "Content-Type", type)]
  | parameter type name value _ _ _ _ => [(lit "Content-Type", type), (name, value)]

/-- The bytes of the line. -/
def bytes (x : Header) : Bytes := x.line.bytes ++ crlf

end Header

/-- An option other than `Content-Length` and `Content-Type` is entered as it stands. -/
theorem HeaderLine.addHeaderOpt_option {h : HeaderLine} (hlen : h.key ≠ lit "Content-Length")
    (htype : h.key ≠ lit "Content-Type") (r : Request) :
    r.addHeaderOpt (h.bytes ++ crlf) = .ok (r.setHeader h.key h.value) := by
  rw [addHeaderOpt_bytes, if_neg hlen, if_neg htype]

/-- The value of `Content-Type` is looked into. -/
theorem HeaderLine.addHeaderOpt_contentType {h : HeaderLine} (htype : h.key = lit "Content-Type")
    (r : Request) :
    r.addHeaderOpt (h.bytes ++ crlf) = r.addContentType (lit "Content-Type") h.value := by
  have hlen : h.key ≠ lit "Content-Length" := by
    rw [htype]
    decide
  rw [addHeaderOpt_bytes, if_neg hlen, if_pos htype, htype]

namespace Header

/-- **The parser enters the pairs of a header line.** -/
theorem addHeaderOpt_bytes (x : Header) (r : Request) :
    r.addHeaderOpt x.bytes = .ok { r with msgHeader := enter r.msgHeader x.pairs } := by
  cases x with
  | option key value token line not_length not_type =>
    exact HeaderLine.addHeaderOpt_option not_length not_type r
  | mediaType type line semicolon =>
    refine (HeaderLine.addHeaderOpt_contentType rfl r).trans ?_
    have hno : find type (lit ";") 0 = none := by
      rw [find_zero]
      exact firstAt_singleton_eq_none_iff.mpr semicolon
    change r.addContentType (lit "Content-Type") type = _
    rw [Request.addContentType, hno]
    rfl
  | parameter type name value line semicolon equals size =>
    refine (HeaderLine.addHeaderOpt_contentType rfl r).trans ?_
    have hlen : type.length + name.length + value.length + 3 < 2 ^ 63 := by
      have hsep : (lit "; ").length = 2 ∧ (lit "=").length = 1 := ⟨rfl, rfl⟩
      simp only [List.length_append, hsep.1, hsep.2, maxSize] at size
      omega
    exact Request.addContentType_parameter r semicolon equals hlen

end Header

/-- The bytes of a head. -/
def headBytes (l : RequestLine) (headers : List Header) : Bytes :=
  l.bytes ++ crlf ++ headers.flatMap Header.bytes ++ crlf

namespace Request

/-- The request between two lines of its head: these headers have been read. -/
def inHead (l : RequestLine) (headers : List Header) : Request :=
  { l.request with msgHeader := enter (fun _ => none) (headers.flatMap Header.pairs) }

/-- The request that comes to its body with these headers. -/
def headed (l : RequestLine) (headers : List Header) (recvMsg : Bytes) : Request :=
  { inHead l headers with status := .handleBody, recvMsg }

theorem inHead_status (l : RequestLine) (headers : List Header) :
    (inHead l headers).status = .handleHead := rfl

theorem inHead_append (l : RequestLine) (xs : List Header) (x : Header) :
    inHead l (xs ++ [x]) =
      { inHead l xs with msgHeader := enter (inHead l xs).msgHeader x.pairs } := by
  unfold inHead
  rw [List.flatMap_append, enter_append, List.flatMap_singleton]

theorem endHead_inHead (l : RequestLine) (headers : List Header) (m : Bytes) :
    ((inHead l headers).withMsg m).endHead = headed l headers m := by
  unfold endHead
  split <;> rfl

end Request

namespace HandleRecv

open Request

/-! ### The head, line by line -/

/-- The lines of a head. -/
def headLines (l : RequestLine) (headers : List Header) : List Bytes :=
  [l.bytes] ++ headers.map (·.line.bytes) ++ [[]]

theorem headLines_flatMap (l : RequestLine) (headers : List Header) :
    (headLines l headers).flatMap (· ++ crlf) = headBytes l headers := by
  unfold headLines headBytes
  rw [List.flatMap_append, List.flatMap_append, List.flatMap_map, List.flatMap_singleton,
    List.flatMap_singleton]
  rfl

/-- Header lines are read one after the other. -/
theorem reads_options (l : RequestLine) (xs ys : List Header) :
    requestReader.Reads (inHead l xs) (ys.map (·.line.bytes)) (inHead l (xs ++ ys)) := by
  induction ys generalizing xs with
  | nil =>
    rw [List.append_nil]
    exact .nil _
  | cons y ys ih =>
    have hread : requestReader.Reads (inHead l xs) [y.line.bytes] (inHead l (xs ++ [y])) := by
      refine reads_header (inHead_status l xs) ?_
      rw [inHead_append]
      exact y.addHeaderOpt_bytes _
    have hrest := ih (xs ++ [y])
    rw [List.append_assoc] at hrest
    exact hread.append hrest

/-- The head is read up to any of its header lines. -/
theorem reads_inHead (l : RequestLine) (headers : List Header) :
    requestReader.Reads Request.init ([l.bytes] ++ headers.map (·.line.bytes)) (inHead l headers) :=
  (reads_requestLine l).append (reads_options l [] headers)

/-- The blank line has not been read: the request line has not, or some header lines have been. -/
theorem headLines_split {l : RequestLine} {headers : List Header} {done todo : List Bytes}
    (h : headLines l headers = done ++ todo) (htodo : todo ≠ []) :
    done = [] ∨ ∃ xs ys, headers = xs ++ ys ∧ done = [l.bytes] ++ xs.map (·.line.bytes) ∧
      todo = ys.map (·.line.bytes) ++ [[]] := by
  cases done with
  | nil => exact .inl rfl
  | cons a done =>
    change l.bytes :: (headers.map (·.line.bytes) ++ [[]]) = a :: (done ++ todo) at h
    obtain ⟨rfl, hsplit⟩ := List.cons.inj h
    refine .inr ?_
    rcases List.append_eq_append_iff.mp hsplit with ⟨z, rfl, hz⟩ | ⟨z, hz, rfl⟩
    · -- the rest is the blank line, or nothing
      cases z with
      | nil => exact ⟨headers, [], (List.append_nil _).symm, by simp, hz.symm⟩
      | cons b z =>
        obtain ⟨-, hnil⟩ := List.cons.inj hz
        exact absurd (List.append_eq_nil_iff.mp hnil.symm).2 htodo
    · obtain ⟨xs, ys, rfl, rfl, rfl⟩ := List.map_eq_append_iff.mp hz
      exact ⟨xs, ys, rfl, rfl, rfl⟩

/-- **A beginning of a head leaves the request in its head**: nothing has been read, or the request
line and some of the headers. -/
theorem drained_beginning (l : RequestLine) (headers : List Header) {x y : Bytes}
    (hxy : x ++ y = headBytes l headers) (hy : y ≠ []) :
    ((Request.init.push x).drained = .ok (Request.init.push x) ∧ ¬ crlf <:+: x) ∨
      ∃ xs ys m, headers = xs ++ ys ∧
        (Request.init.push x).drained = .ok ((inHead l xs).withMsg m) ∧
        m ++ y = ys.flatMap Header.bytes ++ crlf := by
  have hreads := (reads_inHead l headers).append (reads_endHead (inHead_status l headers))
  -- the lines that are complete in `x` have been read, and the rest is held
  obtain ⟨done, todo, t, m, hlines, htodo, hdone, hdrain, hleft⟩ := hreads.drain_beginning
    (show x ++ y = _ from hxy.trans (headLines_flatMap l headers).symm) hy
  have hdrained : (Request.init.push x).drained = .ok (t.withMsg m) := by
    change Except.map _ (requestReader.drain Request.init x) = _
    rw [hdrain]
    rfl
  rcases headLines_split hlines htodo with rfl | ⟨xs, ys, rfl, rfl, rfl⟩
  · -- no line has been read, so none is complete
    cases hdone
    have hm : m = x := by
      refine List.append_cancel_right (hleft.trans ?_)
      rw [hxy, ← headLines_flatMap]
      exact congrArg (List.flatMap _) hlines.symm
    rw [hm] at hdrained
    refine .inl ⟨hdrained, ?_⟩
    have hwants : (Request.init.withMsg x).wantsLine = true := rfl
    -- the request still wants a line, so the reader has stopped for want of one
    have hrest := (drained_rest hdrained).resolve_left (by rw [hwants]; exact nofun)
    exact cutAfter_eq_none_iff.mp hrest
  · -- the request line and the first headers have been read
    refine .inr ⟨xs, ys, m, rfl, ?_, ?_⟩
    · rw [hdrained, hdone.unique (reads_inHead l xs)]
    · rw [hleft, List.flatMap_append, List.flatMap_map, List.flatMap_singleton]
      rfl

/-! ### The header loop -/

/-- One turn of the header loop for a header line. -/
theorem headTurn_option (l : RequestLine) (xs : List Header) (x : Header) (m : Bytes) :
    headTurn ((inHead l xs).withMsg (x.bytes ++ m)) = .inl ((inHead l (xs ++ [x])).withMsg m) := by
  have hcut : cutLine (x.bytes ++ m) = some (x.bytes, m) := by
    have hcut := cutLine_append (not_crlf_isInfix_of_lf x.line.lf_not_mem) m
    rwa [← List.append_assoc] at hcut
  refine lineTurn_of_option hcut x.line.bytes_ne ?_
  rw [withMsg_withMsg, addHeaderOpt_withMsg, x.addHeaderOpt_bytes, inHead_append]
  rfl

/-- One turn of the header loop for the blank line. -/
theorem headTurn_blank (l : RequestLine) (xs : List Header) (m : Bytes) :
    headTurn ((inHead l xs).withMsg (crlf ++ m)) = .inr (.ok (headed l xs m)) := by
  rw [← endHead_inHead]
  exact lineTurn_of_blank (cutLine_crlf m)

/-- **The header loop enters the header lines up to the blank one.** -/
theorem headLoop_options (l : RequestLine) (xs ys : List Header) (m : Bytes) :
    Loop.eval headTurn_decreasing ((inHead l xs).withMsg (ys.flatMap Header.bytes ++ (crlf ++ m))) =
      .ok (headed l (xs ++ ys) m) := by
  induction ys generalizing xs with
  | nil =>
    rw [List.append_nil]
    exact Loop.eval_of_inr (headTurn_blank l xs m)
  | cons y ys ih =>
    rw [List.flatMap_cons, List.append_assoc, Loop.eval_of_inl (headTurn_option l xs y _), ih,
      List.append_assoc]
    rfl

theorem headStage_of_head {r : Request} (h : r.status = .handleHead) :
    headStage r = Loop.eval headTurn_decreasing r := if_pos h

/-- The stages of the head take the rest of the head from any line on. -/
theorem headStage_inHead (l : RequestLine) (xs ys : List Header) (m : Bytes) :
    headStage (requestLineStage
      ((inHead l xs).withMsg (ys.flatMap Header.bytes ++ (crlf ++ m)))).1 =
        .ok (headed l (xs ++ ys) m) := by
  have hline (n : Bytes) : requestLineStage ((inHead l xs).withMsg n) =
      ((inHead l xs).withMsg n, []) := rfl
  rw [hline]
  exact (headStage_of_head rfl).trans (headLoop_options l xs ys m)

/-- The stages of the head take a whole head. -/
theorem headStage_init (l : RequestLine) (headers : List Header) (m : Bytes) :
    headStage (requestLineStage (Request.init.withMsg (headBytes l headers ++ m))).1 =
      .ok (headed l headers m) := by
  have hcut : cutLine (headBytes l headers ++ m) =
      some (l.bytes ++ crlf, headers.flatMap Header.bytes ++ (crlf ++ m)) := by
    rw [← cutLine_append (not_crlf_isInfix_of_lf l.lf_not_mem)
      (headers.flatMap Header.bytes ++ (crlf ++ m)), headBytes]
    simp only [List.append_assoc]
  have hline : requestLineStage (Request.init.withMsg (headBytes l headers ++ m)) =
      ((inHead l []).withMsg (headers.flatMap Header.bytes ++ (crlf ++ m)),
        [.requestLine (l.bytes ++ crlf)]) := by
    unfold requestLineStage
    simp only [withMsg_recvMsg, hcut, l.setRequestLine_bytes]
    rfl
  rw [hline]
  exact (headStage_of_head rfl).trans (headLoop_options l [] headers m)

/-! ### The head, chunk by chunk -/

/-- A request that is still in its head has seen no upload, so its calls pass. -/
theorem passes_of_head {s : List RecvResult} (hq : ∀ x ∈ s, x.Arrives) {r : Request} (hr : r.AtRest)
    {o : Outcome} (ho : r.absorb (stream s) = .ok o)
    (hs : o.request.status = .handleInit ∨ o.request.status = .handleHead) : Passes s r := by
  induction s generalizing r o with
  | nil => trivial
  | cons x s ih =>
    have hqs : ∀ y ∈ s, y.Arrives := fun y hy => hq y (List.mem_cons_of_mem x hy)
    cases hq x List.mem_cons_self with
    | again => exact ih hqs hr ho hs
    | data buf ofs hbuf =>
      intro r' hd
      have ho' : r.absorb (buf ++ stream s) = .ok o := ho
      refine ⟨fun hu _ => ?_, fun hn => ?_⟩
      · -- the body is never left for the head
        rcases absorb_body_status hd (isUpload_iff.mp hu).1 ho' with hb | hc
        · rcases hs with hs | hs <;> cases hb.symm.trans hs
        · rcases hs with hs | hs <;> cases hc.symm.trans hs
      · have ho₁ : r.absorb buf = .ok r'.settle := absorb_of_drained hd
        obtain ⟨o₂, ho₂, rfl⟩ := absorb_rest ho' ho₁ hn
        exact ih hqs (absorb_atRest hr.sound ho₁ hn) ho₂ hs

/-- A beginning of a head, received in any chunks, leaves a request that goes on with the rest of
the head. -/
theorem run_beginning (l : RequestLine) (headers : List Header) {s : List RecvResult}
    (hq : ∀ x ∈ s, x.Arrives) {last : Bytes} (hxy : stream s ++ last = headBytes l headers)
    (hlast : last ≠ []) (tail : List RecvResult) :
    ∃ r before, run (s ++ tail) (some Request.init) = (run tail (some r)).prepend before ∧
      ∀ extra, headStage (requestLineStage (r.push (last ++ extra))).1 =
        .ok (headed l headers extra) := by
  rcases drained_beginning l headers hxy hlast with ⟨hd, -⟩ | ⟨xs, ys, m, rfl, hd, hleft⟩
  · -- the request line is still to come
    have ho : Request.init.absorb (stream s) = .ok ⟨Request.init.push (stream s), none, none⟩ :=
      absorb_of_drained hd
    obtain ⟨acts, hrun, -⟩ :=
      run_absorb hq init_atRest (passes_of_head hq init_atRest ho (.inl rfl)) ho rfl tail
    refine ⟨_, acts, hrun, fun extra => ?_⟩
    -- with the last chunk the whole head is in the buffer
    have hmsg : (Request.init.push (stream s)).push (last ++ extra) =
        Request.init.withMsg (headBytes l headers ++ extra) := by
      rw [push_push, ← List.append_assoc, hxy]
      rfl
    rw [hmsg]
    exact headStage_init l headers extra
  · -- some of the headers are still to come
    have ho : Request.init.absorb (stream s) = .ok ⟨(inHead l xs).withMsg m, none, none⟩ :=
      absorb_of_drained hd
    obtain ⟨acts, hrun, -⟩ :=
      run_absorb hq init_atRest (passes_of_head hq init_atRest ho (.inr rfl)) ho rfl tail
    refine ⟨_, acts, hrun, fun extra => ?_⟩
    -- with the last chunk the rest of the head is in the buffer
    have hmsg : ((inHead l xs).withMsg m).push (last ++ extra) =
        (inHead l xs).withMsg (ys.flatMap Header.bytes ++ (crlf ++ extra)) := by
      rw [push, withMsg_withMsg, withMsg_recvMsg, ← List.append_assoc, hleft, List.append_assoc]
    rw [hmsg]
    exact headStage_inHead l xs ys extra

/-- **The head round trip.** A stream that begins with a head, cut in any way: the chunk that brings
the last byte of the head finds the request `r` of the calls before, and the stages of the head take
`r` to `HANDLE_BODY`, with the words of the request line and the pairs of the headers entered from
left to right. When the keys are distinct, the order of the headers does not matter. -/
theorem head_round_trip (l : RequestLine) (headers : List Header) {s : List RecvResult}
    (hq : ∀ x ∈ s, x.Arrives) {rest : Bytes} (hs : stream s = headBytes l headers ++ rest) :
    (∃ s₁ buf ofs s₂ last extra r before,
      s = s₁ ++ .data buf ofs :: s₂ ∧ headBytes l headers = stream s₁ ++ last ∧ last ≠ [] ∧
      buf = last ++ extra ∧ rest = extra ++ stream s₂ ∧
      run s none = (resume (.data buf ofs :: s₂) r).prepend before ∧
      headStage (requestLineStage (r.push buf)).1 = .ok (headed l headers extra)) ∧
    ∀ headers', headers.Perm headers' → ((headers.flatMap Header.pairs).map Prod.fst).Nodup →
      ∀ m, headed l headers' m = headed l headers m := by
  refine ⟨?_, fun headers' hperm hkeys m => ?_⟩
  · have hne : headBytes l headers ≠ [] := fun h => by
      have := (List.append_eq_nil_iff.mp h).2
      cases this
    obtain ⟨s₁, buf, ofs, s₂, last, extra, rfl, hhead, hlast, rfl, hrest⟩ := split_stream hne hs
    have hq₁ : ∀ x ∈ s₁, x.Arrives := fun x hx => hq x (List.mem_append_left _ hx)
    obtain ⟨r, before, hrun, hstage⟩ :=
      run_beginning l headers hq₁ hhead.symm hlast (.data (last ++ extra) ofs :: s₂)
    refine ⟨s₁, _, ofs, s₂, last, extra, r, before, rfl, hhead, hlast, rfl, hrest, ?_, hstage extra⟩
    rw [run_none (List.append_ne_nil_of_right_ne_nil _ (List.cons_ne_nil _ _)), hrun, run_cons]
    rfl
  · unfold headed inHead
    rw [enter_perm _ (hperm.flatMap_right Header.pairs) hkeys]

def sampleLine : RequestLine where
  method := lit "PUT"
  resource := lit "/put/a"
  version := lit "HTTP/1.1"
  method_token := put_token
  resource_token := by decide
  version_token := http_token

theorem charset_equals : 61 ∉ lit "charset" := by decide

/-- An empty value, a value in spaces that ends in a carriage return, and a parameter. -/
def sampleHeaders : List Header :=
  [.option (lit "X") [] (by decide) (by decide) (by decide) (by decide),
    .option (lit "Y") (lit "  a \r") (by decide) (by decide) (by decide) (by decide),
    .parameter (lit "text/plain") (lit "charset") (lit "a=b;c") (by decide) (by decide)
      charset_equals (by decide)]

theorem head_round_trip_sample :
    (∃ s₁ buf ofs s₂ last extra r before,
      [RecvResult.data (lit "PUT /put/a HTTP/1.1\r\nX: \r") true, .again,
        .data (lit "\nY:   a \r\r\nContent-Type: text/plain; charset=a=b;c\r\n\r\nbody") true] =
          s₁ ++ .data buf ofs :: s₂ ∧
      headBytes sampleLine sampleHeaders = stream s₁ ++ last ∧ last ≠ [] ∧
      buf = last ++ extra ∧ lit "body" = extra ++ stream s₂ ∧
      run [RecvResult.data (lit "PUT /put/a HTTP/1.1\r\nX: \r") true, .again,
        .data (lit "\nY:   a \r\r\nContent-Type: text/plain; charset=a=b;c\r\n\r\nbody") true]
          none = (resume (.data buf ofs :: s₂) r).prepend before ∧
      headStage (requestLineStage (r.push buf)).1 = .ok (headed sampleLine sampleHeaders extra)) ∧
    ∀ headers', sampleHeaders.Perm headers' →
      ((sampleHeaders.flatMap Header.pairs).map Prod.fst).Nodup →
      ∀ m, headed sampleLine headers' m = headed sampleLine sampleHeaders m := by
  refine head_round_trip sampleLine sampleHeaders (fun x hx => ?_) (by decide +kernel)
  simp only [List.mem_cons, List.not_mem_nil, or_false] at hx
  rcases hx with rfl | rfl | rfl
  · exact .data _ _ (by decide)
  · exact .again
  · exact .data _ _ (by decide)

end HandleRecv

end Cherokee
