import Cherokee.HandleSend
import Cherokee.RequestFormat
import Mathlib.Data.List.ModifyLast

/-!
# The response stream

What `HandleSend` puts on a connection, and how a client takes it apart again: up to the first blank
line, and then as many bytes as the head announces.

* `announces_of_lines`: the heads that `HandleSend` constructs end at their first blank line and
  announce the length of their body.
* `HandleSend.sendLoop_tracks`: sending keeps account of what is on the wire.
* `HandleSend.stream_self_delimiting`: the client recovers the responses that were constructed.
-/

open Search

namespace Cherokee

/-! ### The client -/

/-- What stands before the value in the line that announces the length, with the line end in front
of it, so that no other header that ends in the same words is taken for it. -/
def lengthMark : Bytes := crlf ++ lit "Content-Length: "

/-- The value of the `Content-Length` line of a head, as a client reads it: the digits behind the
first occurrence of the mark, and zero where there is no such line. -/
def announced (head : Bytes) : ℕ :=
  match firstAt lengthMark head with
  | some i => decimal ((head.drop (i + lengthMark.length)).takeWhile isDigit)
  | none => 0

/-- The client reads up to the first blank line, and then as many bytes as the head announces. It
has no response yet when the blank line or some of those bytes are still to come. -/
def readResponse (wire : Bytes) : Option ((Bytes × Bytes) × Bytes) :=
  match cutAfter (crlf ++ crlf) wire with
  | some (head, rest) =>
    if announced head ≤ rest.length then
      some ((head, rest.take (announced head)), rest.drop (announced head))
    else none
  | none => none

/-- At most `n` responses taken from the front of the stream one after the other, and the bytes left
over when the next one is not there completely. -/
def readResponses : ℕ → Bytes → List (Bytes × Bytes) × Bytes
  | 0, wire => ([], wire)
  | n + 1, wire =>
    match readResponse wire with
    | some (p, rest) =>
      let (ps, left) := readResponses n rest
      (p :: ps, left)
    | none => ([], wire)

/-- The client on a whole stream. No response is empty, so that there are never more responses than
there are bytes. -/
def client (wire : Bytes) : List (Bytes × Bytes) × Bytes := readResponses wire.length wire

/-- The head ends at its first blank line, whatever bytes come behind it, and announces `n` of them
as its body. -/
structure Announces (head : Bytes) (n : ℕ) : Prop where
  cut : ∀ rest, cutAfter (crlf ++ crlf) (head ++ rest) = some (head, rest)
  announced : announced head = n

/-- The bytes of responses one after the other, each head with its body behind it, with nothing
between two responses. -/
def flatten (ps : List (Bytes × Bytes)) : Bytes := ps.flatMap fun p => p.1 ++ p.2

@[simp] theorem flatten_nil : flatten [] = [] := rfl

@[simp] theorem flatten_append (ps qs : List (Bytes × Bytes)) :
    flatten (ps ++ qs) = flatten ps ++ flatten qs := List.flatMap_append

@[simp] theorem flatten_singleton (p : Bytes × Bytes) : flatten [p] = p.1 ++ p.2 := by
  simp [flatten]

/-- The client takes a response off a stream that begins with it when its head announces its body,
and leaves exactly the bytes behind it. -/
theorem readResponse_append {head body : Bytes} (h : Announces head body.length) (rest : Bytes) :
    readResponse (head ++ body ++ rest) = some ((head, body), rest) := by
  unfold readResponse
  rw [List.append_assoc, h.cut]
  simp [h.announced]

/-- The client recovers responses whose heads announce their bodies, all of them, in their order,
and without a byte left over. -/
theorem client_flatten {ps : List (Bytes × Bytes)} (h : ∀ p ∈ ps, Announces p.1 p.2.length) :
    client (flatten ps) = (ps, []) := by
  -- any number of turns that is no smaller than the stream is long will do
  suffices hread : ∀ n, (flatten ps).length ≤ n → readResponses n (flatten ps) = (ps, []) from
    hread _ le_rfl
  induction ps with
  | nil =>
    rintro (_ | n) -
    · rfl
    · rfl
  | cons p ps ih =>
    intro n hn
    have hp := h p List.mem_cons_self
    have hsplit : flatten (p :: ps) = p.1 ++ p.2 ++ flatten ps := rfl
    -- a response takes at least the four bytes of its blank line
    have hcut : 4 ≤ p.1.length := cutAfter_line_length (hp.cut [])
    rw [hsplit, List.length_append, List.length_append] at hn
    obtain ⟨n, rfl⟩ : ∃ k, n = k + 1 := ⟨n - 1, by omega⟩
    rw [hsplit, readResponses, readResponse_append hp]
    simp only [ih (fun q hq => h q (List.mem_cons_of_mem p hq)) n (by omega)]

/-! ### Decimal numbers -/

/-- A number has at least one digit, zero included, so that the lines made from it are not empty. -/
theorem toDecimal_ne_nil (n : ℕ) : toDecimal n ≠ [] := by
  simp [toDecimal, Nat.toDigits_ne_nil]

/-- The code of a digit fits into a byte, and is not changed on the way there. -/
theorem toUInt8_toNat_of_isDigit {d : Char} (h : d.isDigit = true) :
    d.toNat.toUInt8.toNat = d.toNat := by
  have hd : d.toNat ≤ 57 := by
    simp only [Char.isDigit, Bool.and_eq_true, decide_eq_true_eq] at h
    exact h.2
  exact Nat.mod_eq_of_lt (by omega)

/-- `std::to_string` of a size writes digits only, where a client stops reading at the first other
byte. -/
theorem toDecimal_isDigits (n : ℕ) : IsDigits (toDecimal n) := by
  intro c hc
  obtain ⟨d, hd, rfl⟩ := List.mem_map.mp hc
  have hdigit := Nat.isDigit_of_mem_toDigits (by decide) (by decide) hd
  have hnat := toUInt8_toNat_of_isDigit hdigit
  simp only [Char.isDigit, Bool.and_eq_true, decide_eq_true_eq] at hdigit
  simp only [isDigit, Bool.and_eq_true, decide_eq_true_eq, UInt8.le_iff_toNat_le, hnat]
  exact hdigit

/-- What a client reads from the digits that `std::to_string` has written is the number itself. -/
theorem decimal_toDecimal (n : ℕ) : decimal (toDecimal n) = n := by
  -- over the digits, from any value that has been read so far
  have hfold : ∀ (l : List Char) (k : ℕ), (∀ d ∈ l, d.isDigit = true) →
      (l.map fun c => c.toNat.toUInt8).foldl (fun n c => 10 * n + (c.toNat - 48)) k =
        Nat.ofDigitChars 10 l k := by
    intro l
    induction l with
    | nil => exact fun _ _ => rfl
    | cons d l ih =>
      intro k hd
      rw [List.map_cons, List.foldl_cons, Nat.ofDigitChars_cons,
        toUInt8_toNat_of_isDigit (hd d List.mem_cons_self)]
      exact ih _ fun x hx => hd x (List.mem_cons_of_mem d hx)
  have h := hfold (Nat.toDigits 10 n) 0 fun d hd =>
    Nat.isDigit_of_mem_toDigits (by decide) (by decide) hd
  rwa [Nat.ofDigitChars_ten_toDigits] at h

/-- A `size_t` has at most twenty digits, which bounds the length of a head. -/
theorem toDecimal_length {n : ℕ} (h : n < 2 ^ 64) : (toDecimal n).length ≤ 20 := by
  rw [toDecimal, List.length_map, Nat.length_toDigits_le_iff (by decide) (by decide)]
  omega

/-! ### Heads -/

/-- The form of every head that is constructed: lines, each with its terminator, and a blank line
behind them. -/
def headOf (lines : List Bytes) : Bytes := lines.flatMap (· ++ crlf) ++ crlf

/-- The first line of a head with its terminator, and the head that the other lines make. -/
theorem headOf_cons (l : Bytes) (lines : List Bytes) :
    headOf (l :: lines) = l ++ (cr :: lf :: headOf lines) := by
  simp [headOf, crlf]

/-- The first blank line of a head is the one at its end, as long as no line is empty or holds a
carriage return, and whatever comes behind the head. -/
theorem firstAt_headOf {l : Bytes} {lines : List Bytes} (h : ∀ x ∈ l :: lines, x ≠ [] ∧ cr ∉ x)
    (rest : Bytes) :
    (firstAt (crlf ++ crlf) (headOf (l :: lines) ++ rest)).map (· + 4) =
      some (headOf (l :: lines)).length := by
  -- over the lines: a blank line needs two line ends in a row, and no line is empty
  induction lines generalizing l with
  | nil =>
    -- the last line: what stands behind it is the blank line
    have hcr := (h l List.mem_cons_self).2
    have hskip := firstAt_skip (p := [lf, cr, lf]) hcr ([cr, lf, cr, lf] ++ rest)
    rw [firstAt_of_isPrefix (List.prefix_append _ _)] at hskip
    rw [show headOf [l] ++ rest = l ++ ([cr, lf, cr, lf] ++ rest) by simp [headOf, crlf],
      show crlf ++ crlf = [cr, lf, cr, lf] from rfl, hskip]
    simp [headOf, crlf]
  | cons l' lines ih =>
    have hcr := (h l List.mem_cons_self).2
    obtain ⟨hne, hcr'⟩ := h l' (List.mem_cons_of_mem l List.mem_cons_self)
    have htail := ih fun x hx => h x (List.mem_cons_of_mem l hx)
    have hskip := firstAt_skip (p := [lf, cr, lf]) hcr (cr :: lf :: headOf (l' :: lines) ++ rest)
    -- neither of the two bytes behind `l` begins a blank line, for `l'` is not empty
    have hno : ¬ [cr, lf, cr, lf] <+: cr :: lf :: (headOf (l' :: lines) ++ rest) := by
      obtain ⟨c, t, rfl⟩ := List.exists_cons_of_ne_nil hne
      intro hpre
      have hc : cr = c := (List.cons_prefix_cons.mp
        (List.cons_prefix_cons.mp (List.cons_prefix_cons.mp hpre).2).2).1
      rw [hc] at hcr'
      exact hcr' List.mem_cons_self
    have hno' : ¬ [cr, lf, cr, lf] <+: lf :: (headOf (l' :: lines) ++ rest) := fun hpre =>
      absurd (List.cons_prefix_cons.mp hpre).1 (by decide)
    rw [List.cons_append, List.cons_append, firstAt_cons_of_not_isPrefix hno,
      firstAt_cons_of_not_isPrefix hno'] at hskip
    rw [headOf_cons, List.append_assoc, List.cons_append, List.cons_append,
      show crlf ++ crlf = [cr, lf, cr, lf] from rfl, hskip]
    obtain ⟨i, hi, hlen⟩ := Option.map_eq_some_iff.mp htail
    rw [show firstAt [cr, lf, cr, lf] (headOf (l' :: lines) ++ rest) = some i from hi]
    simp only [Option.map_some, Option.some.injEq, List.length_append, List.length_cons, ← hlen]
    omega

/-- **The head of a response.** Behind a status line and a `Content-Length` line stand lines that
are not empty. Then a client finds the end of the head where it is, and reads the length that has
been written into it. -/
theorem announces_of_lines {status : Bytes} (n : ℕ) {lines : List Bytes}
    (hstatus : status ≠ [] ∧ cr ∉ status) (hlines : ∀ l ∈ lines, l ≠ [] ∧ cr ∉ l) :
    Announces (headOf (status :: (lit "Content-Length: " ++ toDecimal n) :: lines)) n := by
  -- the digits hold no line end
  have hdigits : cr ∉ toDecimal n := fun hm => absurd (toDecimal_isDigits n cr hm) (by decide)
  -- so that every line is as `firstAt_headOf` asks
  have hall : ∀ x ∈ status :: (lit "Content-Length: " ++ toDecimal n) :: lines,
      x ≠ [] ∧ cr ∉ x := by
    intro x hx
    rcases List.mem_cons.mp hx with rfl | hx
    · exact hstatus
    · rcases List.mem_cons.mp hx with rfl | hx
      · refine ⟨by simp [toDecimal_ne_nil], ?_⟩
        rw [List.mem_append, not_or]
        exact ⟨by decide, hdigits⟩
      · exact hlines x hx
  constructor
  · intro rest
    obtain ⟨i, hi, hlen⟩ := Option.map_eq_some_iff.mp (firstAt_headOf hall rest)
    rw [cutAfter, hi, Option.map_some, show i + (crlf ++ crlf).length = i + 4 from rfl, hlen,
      List.take_left, List.drop_left]
  · -- the first line end in front of the mark is the one of the status line
    have hhead : headOf (status :: (lit "Content-Length: " ++ toDecimal n) :: lines) =
        status ++ (lengthMark ++ (toDecimal n ++ (cr :: lf :: headOf lines))) := by
      rw [headOf_cons, headOf_cons]
      simp [lengthMark, crlf]
    have hskip : firstAt lengthMark
        (status ++ (lengthMark ++ (toDecimal n ++ (cr :: lf :: headOf lines)))) = _ :=
      firstAt_skip (p := lf :: lit "Content-Length: ") hstatus.2 _
    rw [show cr :: lf :: lit "Content-Length: " = lengthMark from rfl,
      firstAt_of_isPrefix (List.prefix_append _ _), Option.map_some, Nat.zero_add] at hskip
    unfold announced
    rw [hhead, hskip]
    simp only
    rw [← List.drop_drop, List.drop_left, List.drop_left,
      List.takeWhile_append_of_pos (toDecimal_isDigits n),
      List.takeWhile_cons_of_neg (by decide), List.append_nil, decimal_toDecimal]

/-! ### Responses that have been constructed -/

/-- The length of the body that a response announces. Without a body it is zero, whatever
`msgBodyLen` has been left at. -/
def Response.bodyLength (r : Response) : ℕ :=
  match r.bodyType with
  | .emptyType => 0
  | _ => r.msgBodyLen

/-- A response that has been constructed: the lengths beside its parts are the lengths of the parts,
and its head announces the length of its body. -/
structure Response.Sound (r : Response) : Prop where
  headLen : toSize r.beforeBodyMsgLen = r.beforeBodyMsg.length
  announces : Announces r.beforeBodyMsg r.bodyLength
  bodyLen : r.bodyType = .htmlType → r.msgBody.length = r.msgBodyLen

/-- The action neither writes to the connection nor constructs a response, so that the account of
the stream passes over it. -/
def Action.Silent : Action → Prop
  | .built _ => False
  | .sent _ => False
  | .sentFile _ => False
  | _ => True

/-- The action belongs to preparing a response. It touches files only, before anything is put on the
wire. -/
def Action.Preparing : Action → Prop
  | .openRead _ _ => True
  | .remove _ _ => True
  | .openTrunc _ _ => True
  | .write _ _ => True
  | _ => False

/-- What prepares a response is silent: nothing of it goes to the client. -/
theorem Action.Preparing.silent {a : Action} (h : a.Preparing) : a.Silent := by
  cases a <;> trivial

namespace HandleSend

/-- The head of a response, with or without a `Location`, is sound for the body that comes with it:
of any of the three types, and with an `int` for the length of the head that does not overflow. -/
theorem construct_sound {r : Response} {bodyType : MsgBodyType} {status : Bytes} {n : ℕ}
    {lines : List Bytes} (hn : n < 2 ^ 64)
    (hlen : bodyType ≠ .emptyType → r.msgBodyLen = n) (hempty : bodyType = .emptyType → n = 0)
    (hhtml : bodyType = .htmlType → r.msgBody.length = r.msgBodyLen)
    (hstatus : status ≠ [] ∧ cr ∉ status) (hlines : ∀ l ∈ lines, l ≠ [] ∧ cr ∉ l)
    (hshort : status.length + (lines.flatMap (· ++ crlf)).length < 2 ^ 30) :
    (construct r bodyType
      (headOf (status :: (lit "Content-Length: " ++ toDecimal n) :: lines))).Sound := by
  -- twenty digits and the other lines stay far below the largest `int`
  have hhead : (headOf (status :: (lit "Content-Length: " ++ toDecimal n) :: lines)).length <
      2 ^ 31 := by
    have hdec := toDecimal_length hn
    have hmark : (lit "Content-Length: ").length = 16 := rfl
    simp only [headOf, crlf, List.flatMap_cons, List.length_append, List.length_cons,
      List.length_nil, hmark] at hshort ⊢
    omega
  refine ⟨?_, ?_, hhtml⟩
  · change toSize (toInt _) = _
    rw [toInt_of_lt hhead, toSize_natCast (by omega)]
    rfl
  -- the head is written with the length that `msgBodyLen` says
  · have hbody : (construct r bodyType
        (headOf (status :: (lit "Content-Length: " ++ toDecimal n) :: lines))).bodyLength = n := by
      cases bodyType with
      | fileType => exact hlen (by decide)
      | htmlType => exact hlen (by decide)
      | emptyType => exact (hempty rfl).symm
    rw [hbody]
    exact announces_of_lines n hstatus hlines

/-- The lines behind the `Content-Length` of a page, with the `Location` line where there is an
address. -/
def htmlLines (location : Option Bytes) : List Bytes :=
  lit "Content-Type: text/html;charset=UTF-8" ::
    (location.map (lit "Location: " ++ ·)).toList ++ [lit "Connection: keep-alive"]

/-- The lines behind the `Content-Length` of a file. Its third argument is always there, and comes
out as a `Location`. -/
def fileLines (location : Bytes) : List Bytes :=
  [lit "Content-Type: application/octet-stream", lit "Location: " ++ location,
    lit "Connection: keep-alive"]

/-- The line as the source writes it, with its terminator in the same literal. -/
theorem lit_html :
    lit "Content-Type: text/html;charset=UTF-8\r\n" =
      lit "Content-Type: text/html;charset=UTF-8" ++ crlf := by decide

/-- The same of the line for a file. -/
theorem lit_file :
    lit "Content-Type: application/octet-stream\r\n" =
      lit "Content-Type: application/octet-stream" ++ crlf := by decide

/-- The same of the line that ends every head. -/
theorem lit_connection :
    lit "Connection: keep-alive\r\n" = lit "Connection: keep-alive" ++ crlf := by decide

/-- What `getMessageHeader` puts together for a page are the lines of `htmlLines` behind the
`Content-Length`, each with its terminator. -/
theorem getMessageHeader_html {length location : Bytes} (h : length ≠ []) :
    lit "Content-Length: " ++ length ++ crlf ++
        (htmlLines (if location = [] then none else some location)).flatMap (· ++ crlf) =
      getMessageHeader length (lit "html") location [] := by
  have hhtml : lit "html" ≠ [] := by decide
  unfold getMessageHeader htmlLines
  rw [if_pos h, if_pos hhtml, if_pos rfl, if_neg (not_not_intro rfl), lit_html, lit_connection]
  -- an address that is empty stands for none
  by_cases hl : location = []
  · rw [if_pos hl, if_neg (not_not_intro hl)]
    simp
  · rw [if_neg hl, if_pos hl]
    simp

/-- What `getMessageHeader` puts together for a file are the lines of `fileLines` behind the
`Content-Length`, each with its terminator. -/
theorem getMessageHeader_file {length location : Bytes} (h : length ≠ []) (hl : location ≠ []) :
    lit "Content-Length: " ++ length ++ crlf ++ (fileLines location).flatMap (· ++ crlf) =
      getMessageHeader length (lit "file") location [] := by
  have hfile : lit "file" ≠ [] := by decide
  have hhtml : lit "file" ≠ lit "html" := by decide
  unfold getMessageHeader fileLines
  rw [if_pos h, if_pos hfile, if_neg hhtml, if_pos rfl, if_pos hl, if_neg (not_not_intro rfl),
    lit_file, lit_connection]
  simp

/-- A status line, the header lines and the blank line, put together in the order of the source, are
a head of the form `headOf`. -/
theorem head_eq (status length : Bytes) (lines : List Bytes) :
    status ++ crlf ++ (lit "Content-Length: " ++ length ++ crlf ++ lines.flatMap (· ++ crlf)) ++
      crlf = headOf (status :: (lit "Content-Length: " ++ length) :: lines) := by
  simp [headOf]

/-! ### Opening a response -/

/-- The stage has constructed a response: the call goes on to the send loop with it, from the first
byte of its head, and has touched nothing but files before. -/
structure Opened (s : Stage) : Prop where
  flow : s.flow = .proceed
  acts : ∃ before, s.acts = before ++ [.built s.response] ∧ ∀ a ∈ before, a.Preparing
  status : s.response.status = .handleHead
  unsent : s.response.curStatusHasSendLen = 0
  sound : s.response.Sound

/-- The stage leaves the call without a response. Either it arms its descriptor to be entered again,
or the call does not return. -/
structure Left (s : Stage) : Prop where
  status : s.response.status = .handleInit
  exit : (s.flow = .leave ∧ ∃ before, s.acts = before ++ [.modifyWaitFd true true true] ∧
      ∀ a ∈ before, a.Preparing) ∨
    ∃ f, s.flow = .crash f ∧ ∀ a ∈ s.acts, a.Preparing

/-- A call that leaves without a response has put nothing on the wire and has constructed
nothing. -/
theorem Left.silent {s : Stage} (h : Left s) : ∀ a ∈ s.acts, a.Silent := by
  -- what is done behind the preparing is arming the descriptor, or nothing
  rcases h.exit with ⟨-, before, hacts, hbefore⟩ | ⟨f, -, hacts⟩
  · intro a ha
    rw [hacts] at ha
    rcases List.mem_append.mp ha with ha | ha
    · exact (hbefore a ha).silent
    · rw [List.mem_singleton.mp ha]
      trivial
  · exact fun a ha => (hacts a ha).silent

/-- The way in which each branch constructs: the new response behind actions that have only prepared
it. -/
theorem opened_built {request : Option Request} {r : Response} {acts : List Action}
    (ha : ∀ a ∈ acts, a.Preparing) (hs : r.status = .handleHead) (hu : r.curStatusHasSendLen = 0)
    (hr : r.Sound) : Opened (built request r acts) :=
  ⟨rfl, ⟨acts, rfl, ha⟩, hs, hu, hr⟩

/-- A branch that puts another resource in place of its own and arms the descriptor leaves without a
response. -/
theorem left_reenter (w : World) (request : Option Request) (name : Bytes) {acts : List Action}
    (ha : ∀ a ∈ acts, a.Preparing) : Left (reenter w request name acts) :=
  ⟨rfl, .inl ⟨rfl, acts, rfl, ha⟩⟩

/-- A branch that does not return leaves without a response, and has done nothing before. -/
theorem left_crash (request : Option Request) {r : Response} (hr : r.status = .handleInit)
    (f : Fault) : Left ⟨request, r, [], .crash f⟩ :=
  ⟨hr, .inr ⟨f, rfl, nofun⟩⟩

/-- A page that the function returns is as long as a string can be, or shorter. -/
theorem getFileListPage_length {w : World} {fileListHtml page : Bytes}
    (h : getFileListPage w fileListHtml = .ok page) : page.length ≤ maxSize := by
  unfold getFileListPage at h
  -- no directory, no page
  cases hvec : getFileVec w.filedir with
  | error f => rw [hvec] at h; cases h
  | ok fileVec =>
    rw [hvec] at h
    simp only [bind, Except.bind] at h
    split at h
    · split at h
      · next hle =>
        cases h
        exact hle
      · cases h
    · cases h

/-- The branch for the page constructs the page with its own length, or does not return, where the
directory or the template is not as the function needs it. -/
theorem filelistStage_opens (w : World) (request : Option Request) {r : Response}
    (hr : r.status = .handleInit) :
    Opened (filelistStage w request r) ∨ Left (filelistStage w request r) := by
  unfold filelistStage getStatusLine
  simp only
  cases hpage : getFileListPage w r.msgBody with
  | error f => exact .inr ⟨hr, .inr ⟨f, rfl, nofun⟩⟩
  | ok msgBody =>
    have hmax := getFileListPage_length hpage
    refine .inl (opened_built nofun rfl rfl ?_)
    rw [← getMessageHeader_html (toDecimal_ne_nil _), head_eq]
    refine construct_sound (n := msgBody.length) ?_ (fun _ => rfl) nofun (fun _ => rfl) ?_ ?_ ?_
    · unfold maxSize at hmax
      omega
    · decide
    · decide
    · decide

/-- How long the lines behind the `Content-Length` of a file are, for a `Location` of a given
length. -/
theorem fileLines_length (location : Bytes) :
    ((fileLines location).flatMap (· ++ crlf)).length = location.length + 76 := by
  have htype : (lit "Content-Type: application/octet-stream").length = 38 := rfl
  have hlocation : (lit "Location: ").length = 10 := rfl
  have hconnection : (lit "Connection: keep-alive").length = 22 := rfl
  simp only [fileLines, crlf, List.flatMap_cons, List.flatMap_nil, List.length_append,
    List.length_cons, List.length_nil, htype, hlocation, hconnection]
  omega

/-- The branch for a download constructs a response with the size that `fstat` has reported. Where
the file does not open, the request is turned into one for the redirect. -/
theorem downlStage_opens (w : World) (request : Option Request) (r : Response) (filename : Bytes) :
    Opened (downlStage w request r filename) ∨ Left (downlStage w request r filename) := by
  unfold downlStage getStatusLine
  simp only
  -- the file is there or not
  cases hopen : w.openRead (cStr (lit "filedir/" ++ filename)) with
  | none =>
    exact .inr (left_reenter w request _ (List.forall_mem_singleton.mpr trivial))
  | some p =>
    obtain ⟨fd, size⟩ := p
    have hsize : (size : ℕ) < 2 ^ 64 := by omega
    refine .inl (opened_built ?_ rfl rfl ?_)
    · exact List.forall_mem_singleton.mpr trivial
    · rw [← getMessageHeader_file (toDecimal_ne_nil _) (toDecimal_ne_nil _), head_eq]
      refine construct_sound (n := size) hsize (fun _ => rfl) nofun nofun (by decide) ?_ ?_
      -- no line is empty, and none holds a carriage return
      · intro l hl
        simp only [fileLines, List.mem_cons, List.not_mem_nil, or_false] at hl
        rcases hl with rfl | rfl | rfl
        · decide
        · refine ⟨by simp [toDecimal_ne_nil], ?_⟩
          rw [List.mem_append, not_or]
          refine ⟨by decide, fun hm => ?_⟩
          exact absurd (toDecimal_isDigits _ cr hm) (by decide)
        · decide
      · have hlen := toDecimal_length (n := toSize ((size : ℤ) - 1)) (by unfold toSize; omega)
        rw [fileLines_length]
        change 15 + _ < _
        omega

/-- The branch for a GET on `put` makes the file empty and constructs a redirect without a body.
Where the file does not open, it leaves to be entered again. -/
theorem putStage_opens (w : World) (request : Option Request) (r : Response) (filename : Bytes) :
    Opened (putStage w request r filename) ∨ Left (putStage w request r filename) := by
  unfold putStage getStatusLine
  simp only
  split
  · refine .inl (opened_built ?_ rfl rfl ?_)
    · intro a ha
      simp only [List.mem_cons, List.not_mem_nil, or_false] at ha
      rcases ha with rfl | rfl <;> trivial
    · rw [← getMessageHeader_html (by decide), head_eq]
      exact construct_sound (n := 0) (by decide) nofun (fun _ => rfl) nofun (by decide) (by decide)
        (by decide)
  · exact .inr (left_reenter w request _ (List.forall_mem_singleton.mpr trivial))

/-- The last branch always constructs a redirect, which has no body. -/
theorem redirectStage_opens (request : Option Request) (r : Response) :
    Opened (redirectStage request r) := by
  unfold redirectStage getStatusLine
  refine opened_built nofun rfl rfl ?_
  rw [← getMessageHeader_html (by decide), head_eq]
  exact construct_sound (n := 0) (by decide) nofun (fun _ => rfl) nofun (by decide) (by decide)
    (by decide)

/-- A new response is opened, or the call leaves without one: one of the two in each of the branches
of the source, by the resource. -/
theorem operaStage_opens (w : World) (request : Option Request) {r : Response}
    (hr : r.status = .handleInit) :
    Opened (operaStage w request r) ∨ Left (operaStage w request r) := by
  unfold operaStage
  split
  · exact .inr (left_crash request hr _)
  -- page, download, deletion, put, and everything else
  · split_ifs
    · exact filelistStage_opens w request hr
    · exact downlStage_opens w request r _
    · exact .inr (left_reenter w request _ (List.forall_mem_singleton.mpr trivial))
    · exact putStage_opens w request r _
    · exact .inl (redirectStage_opens request r)

/-! ### What is on the wire -/

/-- One action on the list of responses. A construction adds a response, a page with its whole body
already; what `sendfile` reads is added to the body of the last one. -/
def record (ps : List (Bytes × Bytes)) : Action → List (Bytes × Bytes)
  | .built r => ps ++ [(r.beforeBodyMsg, if r.bodyType = .htmlType then r.msgBody else [])]
  | .sentFile data => ps.modifyLast fun p => (p.1, p.2 ++ data)
  | _ => ps

/-- The responses constructed, in their order, each with its head and its body: the page, or what
has been read from the file so far. -/
def responses (acts : List Action) : List (Bytes × Bytes) := acts.foldl record []

/-- The stream consists of responses that announce their bodies, and nothing of another response
stands behind them. -/
structure Delivered (wire : Bytes) (ps : List (Bytes × Bytes)) : Prop where
  wire : wire = flatten ps
  announces : ∀ p ∈ ps, Announces p.1 p.2.length

/-- The account of a response entry: how much of the stream is there.

Behind the responses that are complete, a response whose head is being sent has the beginning of its
head on the wire, and one whose body is being sent has its head and the beginning of its body. -/
inductive Tracks (stream : Bytes) (ps : List (Bytes × Bytes)) (r : Response) : Prop where
  | idle (status : r.status = .handleInit ∨ r.status = .handleComplete)
      (delivered : Delivered stream ps)
  | head (done : Bytes) (qs : List (Bytes × Bytes)) (status : r.status = .handleHead)
      (sound : r.Sound) (delivered : Delivered done qs)
      (responses : ps = qs ++ [(r.beforeBodyMsg, if r.bodyType = .htmlType then r.msgBody else [])])
      (sent : r.curStatusHasSendLen ≤ r.beforeBodyMsg.length)
      (wire : stream = done ++ r.beforeBodyMsg.take r.curStatusHasSendLen)
  | body (done : Bytes) (qs : List (Bytes × Bytes)) (data : Bytes) (status : r.status = .handleBody)
      (sound : r.Sound) (delivered : Delivered done qs)
      (responses : ps = qs ++
        [(r.beforeBodyMsg, if r.bodyType = .htmlType then r.msgBody else data)])
      (sent : data.length = r.curStatusHasSendLen) (room : data.length ≤ r.bodyLength)
      (page : r.bodyType = .htmlType → data <+: r.msgBody)
      (wire : stream = done ++ r.beforeBodyMsg ++ data)

/-- Silent actions construct nothing and send nothing, so that the list of responses stays as it
is. -/
theorem foldl_record_silent {acts : List Action} (h : ∀ a ∈ acts, a.Silent)
    (ps : List (Bytes × Bytes)) : acts.foldl record ps = ps := by
  induction acts with
  | nil => rfl
  | cons a acts ih =>
    have ha := h a List.mem_cons_self
    rw [List.foldl_cons]
    have hrecord : record ps a = ps := by
      cases a <;> first | rfl | cases ha
    rw [hrecord]
    exact ih fun x hx => h x (List.mem_cons_of_mem a hx)

/-- Silent actions put no byte on the wire. -/
theorem onWire_silent {acts : List Action} (h : ∀ a ∈ acts, a.Silent) : onWire acts = [] := by
  induction acts with
  | nil => rfl
  | cons a acts ih =>
    have ha := h a List.mem_cons_self
    rw [onWire_cons, ih fun x hx => h x (List.mem_cons_of_mem a hx)]
    cases a <;> first | rfl | cases ha

/-! ### Sending keeps account -/

/-- What one `send` takes is never more than what is left of the message. -/
theorem chunk_length_le (msg : Bytes) (len sent n : ℕ) :
    (chunk msg len sent n).length ≤ len - sent := by
  unfold chunk
  rw [List.length_take]
  omega

/-- What is sent continues what has been sent: the two together are a longer beginning of the same
message. -/
theorem take_append_chunk (msg : Bytes) (len sent n : ℕ) :
    msg.take sent ++ chunk msg len sent n = msg.take (sent + (chunk msg len sent n).length) := by
  unfold chunk
  rw [List.take_add]
  congr 1
  rw [List.length_take, List.take_eq_take_iff]
  omega

/-- Sending a part of the head keeps the account. The beginning that is on the wire grows, and with
its last byte the response goes over to its body. -/
theorem sendHead_tracks {stream : Bytes} {ps : List (Bytes × Bytes)} {r : Response}
    (hs : r.status = .handleHead) (h : Tracks stream ps r) (n : ℕ) :
    Tracks (stream ++ (sendHead r n).2) ps (sendHead r n).1 := by
  cases h with
  | idle status => rcases status with h | h <;> cases hs.symm.trans h
  | body _ _ _ status => cases hs.symm.trans status
  | head done qs status sound delivered responses sent wire =>
    have hdata := take_append_chunk r.beforeBodyMsg (toSize r.beforeBodyMsgLen)
      r.curStatusHasSendLen n
    have hlen := chunk_length_le r.beforeBodyMsg (toSize r.beforeBodyMsgLen)
      r.curStatusHasSendLen n
    unfold sendHead
    simp only
    generalize chunk r.beforeBodyMsg (toSize r.beforeBodyMsgLen) r.curStatusHasSendLen n = data
      at hdata hlen ⊢
    rw [sound.headLen] at hlen ⊢
    -- the head is complete with these bytes, or there is more of it
    split
    · next hle =>
      have hall : r.beforeBodyMsg.take (r.curStatusHasSendLen + data.length) = r.beforeBodyMsg :=
        List.take_of_length_le hle
      have hwire : stream ++ data = done ++ r.beforeBodyMsg ++ [] := by
        rw [wire, List.append_assoc, hdata, hall, List.append_nil]
      exact .body done qs [] rfl ⟨sound.headLen, sound.announces, sound.bodyLen⟩ delivered responses
        rfl (Nat.zero_le _) (fun _ => List.nil_prefix) hwire
    · next hlt =>
      have hwire : stream ++ data =
          done ++ r.beforeBodyMsg.take (r.curStatusHasSendLen + data.length) := by
        rw [wire, List.append_assoc, hdata]
      have hle : r.curStatusHasSendLen + data.length ≤ r.beforeBodyMsg.length := by omega
      exact .head done qs status ⟨sound.headLen, sound.announces, sound.bodyLen⟩ delivered responses
        hle hwire

/-- What goes out with a part of the body is a chunk of the message, behind what has gone out
before. -/
theorem sendBody_snd (r : Response) (msg : Bytes) (n : ℕ) :
    (sendBody r msg n).2 = chunk msg r.msgBodyLen r.curStatusHasSendLen n := by
  unfold sendBody
  simp only
  split <;> rfl

/-- Sending a part of the body keeps the account, of the page or of a file. Of a file the bytes are
also recorded, since its body is what has been read. -/
theorem sendBody_tracks {stream : Bytes} {ps : List (Bytes × Bytes)} {r : Response} {msg : Bytes}
    (hs : r.status = .handleBody) (he : r.bodyType ≠ .emptyType) (h : Tracks stream ps r)
    (hpage : r.bodyType = .htmlType → msg = r.msgBody) (n : ℕ) :
    Tracks (stream ++ (sendBody r msg n).2)
      (if r.bodyType = .htmlType then ps
        else ps.modifyLast fun p => (p.1, p.2 ++ (sendBody r msg n).2))
      (sendBody r msg n).1 := by
  cases h with
  | idle status => rcases status with h | h <;> cases hs.symm.trans h
  | head _ _ status => cases hs.symm.trans status
  | body done qs data status sound delivered responses sent room page wire =>
    -- there is a body, so that `msgBodyLen` is what the head announces
    have hlenr : r.bodyLength = r.msgBodyLen := by
      unfold Response.bodyLength
      split
      · next hb => exact absurd hb he
      · rfl
    have hlen := chunk_length_le msg r.msgBodyLen r.curStatusHasSendLen n
    have hnext := take_append_chunk msg r.msgBodyLen r.curStatusHasSendLen n
    rw [sendBody_snd]
    unfold sendBody
    simp only
    generalize chunk msg r.msgBodyLen r.curStatusHasSendLen n = more at hlen hnext ⊢
    -- the page is continued from where it stood, and a file is recorded as it is read
    have hpage' : r.bodyType = .htmlType → data ++ more <+: r.msgBody := by
      intro hb
      rw [hpage hb] at hnext
      rw [List.prefix_iff_eq_take.mp (page hb), sent, hnext]
      exact List.take_prefix _ _
    have hps : (if r.bodyType = .htmlType then ps
        else ps.modifyLast fun p => (p.1, p.2 ++ more)) =
        qs ++ [(r.beforeBodyMsg, if r.bodyType = .htmlType then r.msgBody else data ++ more)] := by
      rw [responses]
      split
      · rfl
      · rw [List.modifyLast_concat]
    have hwire : stream ++ more = done ++ r.beforeBodyMsg ++ (data ++ more) := by
      rw [wire, List.append_assoc, List.append_assoc]
    have hsum : (data ++ more).length = r.curStatusHasSendLen + more.length := by
      rw [List.length_append, sent]
    rw [hps]
    -- the body is complete with these bytes, or there is more of it
    by_cases hle : r.msgBodyLen ≤ r.curStatusHasSendLen + more.length
    · rw [if_pos hle]
      have hfull : (data ++ more).length = r.bodyLength := by omega
      -- a page that is complete has been sent to its end
      have hbody : (if r.bodyType = .htmlType then r.msgBody else data ++ more) = data ++ more := by
        split
        · next hb =>
          exact ((hpage' hb).eq_of_length (by rw [hfull, hlenr, sound.bodyLen hb])).symm
        · rfl
      rw [hbody]
      refine .idle (.inr rfl) ⟨?_, fun p hp => ?_⟩
      · rw [hwire, flatten_append, flatten_singleton, delivered.wire, List.append_assoc]
      · rcases List.mem_append.mp hp with hp | hp
        · exact delivered.announces p hp
        · rw [List.mem_singleton.mp hp, hfull]
          exact sound.announces
    · rw [if_neg hle]
      have hroom : (data ++ more).length ≤ r.bodyLength := by omega
      exact .body done qs (data ++ more) status ⟨sound.headLen, sound.announces, sound.bodyLen⟩
        delivered rfl hsum hroom hpage' hwire

/-- A response that is neither new nor complete is being sent: its head, or its body. -/
theorem tracks_sending {stream : Bytes} {ps : List (Bytes × Bytes)} {r : Response}
    (h : Tracks stream ps r) (hc : r.status ≠ .handleComplete) (hi : r.status ≠ .handleInit) :
    r.status = .handleHead ∨ r.status = .handleBody := by
  cases h with
  | idle status => exact absurd status (not_or.mpr ⟨hi, hc⟩)
  | head _ _ status => exact .inl status
  | body _ _ _ status => exact .inr status

/-- A response without a body is complete behind its head: with the head on the wire, the stream
consists of whole responses. -/
theorem empty_tracks {stream : Bytes} {ps : List (Bytes × Bytes)} {r : Response}
    (hs : r.status = .handleBody) (he : r.bodyType = .emptyType) (h : Tracks stream ps r) :
    Delivered stream ps := by
  cases h with
  | idle status => rcases status with h | h <;> cases hs.symm.trans h
  | head _ _ status => cases hs.symm.trans status
  | body done qs data status sound delivered responses sent room page wire =>
    have hzero : r.bodyLength = 0 := by rw [Response.bodyLength, he]
    have hdata : data = [] := List.eq_nil_of_length_eq_zero (by omega)
    rw [he, hdata] at responses
    refine ⟨?_, fun p hp => ?_⟩
    · rw [wire, responses, hdata, flatten_append, flatten_singleton, delivered.wire,
        if_neg (by decide), List.append_assoc]
    · rw [responses, if_neg (by decide)] at hp
      rcases List.mem_append.mp hp with hp | hp
      · exact delivered.announces p hp
      · have hann := sound.announces
        rw [hzero] at hann
        rw [List.mem_singleton.mp hp]
        exact hann

/-- What a stage of the call does to the account: it goes on, with a response that is not new, and
what it has put on the wire is what the response says. -/
structure Stage.Keeps (s : Stage) (stream : Bytes) (ps : List (Bytes × Bytes)) : Prop where
  flow : s.flow = .proceed
  tracks : Tracks (stream ++ onWire s.acts) (s.acts.foldl record ps) s.response
  status : s.response.status ≠ .handleInit

/-- An action in front of the stage is one more entry of the account the stage starts from. -/
theorem Stage.Keeps.prepend {s : Stage} {stream : Bytes} {ps : List (Bytes × Bytes)} {a : Action}
    (h : s.Keeps (stream ++ a.onWire) (record ps a)) : (s.prepend [a]).Keeps stream ps := by
  refine ⟨h.flow, ?_, h.status⟩
  have ht := h.tracks
  rw [List.append_assoc] at ht
  exact ht

/-- A stage that stops at once leaves the account as it is, whatever it does to the request. -/
theorem keeps_stop {r : Response} {stream : Bytes} {ps : List (Bytes × Bytes)}
    (request : Option Request) (h : Tracks stream ps r) (hr : r.status ≠ .handleInit) :
    Stage.Keeps ⟨request, r, [], .proceed⟩ stream ps :=
  ⟨rfl, by simpa using h, hr⟩

/-- Behind a part of the head the response is still at its head, or has gone over to its body. -/
theorem sendHead_status {r : Response} (hs : r.status = .handleHead) (n : ℕ) :
    (sendHead r n).1.status = .handleHead ∨ (sendHead r n).1.status = .handleBody := by
  unfold sendHead
  simp only
  split
  · exact .inr rfl
  · exact .inl hs

/-- Behind a part of the body the response is still at its body, or it is complete. -/
theorem sendBody_status {r : Response} (hs : r.status = .handleBody) (msg : Bytes) (n : ℕ) :
    (sendBody r msg n).1.status = .handleBody ∨ (sendBody r msg n).1.status = .handleComplete := by
  unfold sendBody
  simp only
  split
  · exact .inr rfl
  · exact .inl hs

/-- The loop has nothing to send of a response without a body: it is complete in the same turn,
whatever answers there are. -/
theorem sendLoop_empty (results : List SendResult) (request : Option Request) {r : Response}
    (hs : r.status = .handleBody) (hb : r.bodyType = .emptyType) :
    sendLoop results request r =
      ⟨request, { r with status := .handleComplete, curStatusHasSendLen := 0 }, [], .proceed⟩ := by
  unfold sendLoop
  simp only [hs, hb]

/-- **The send loop, call by call.** What holds when the loop stops, and is carried back over every
`send` and `sendfile`, holds of the whole loop. The loop stops where an answer says that there is no
room or that the connection has failed, and where the response is complete. -/
theorem sendLoop_induction {P : Response → Stage → Prop} {request : Option Request}
    (stop : ∀ q r, q = request ∨ q = setError request →
      r.status = .handleHead ∨ r.status = .handleBody ∨ r.status = .handleComplete →
        P r ⟨q, r, [], .proceed⟩)
    (head : ∀ r n s, r.status = .handleHead → P (sendHead r n).1 s →
      P r (s.prepend [.sent (sendHead r n).2]))
    (page : ∀ r n s, r.status = .handleBody → r.bodyType = .htmlType →
      P (sendBody r r.msgBody n).1 s → P r (s.prepend [.sent (sendBody r r.msgBody n).2]))
    (file : ∀ r n disk s, r.status = .handleBody → r.bodyType = .fileType →
      P (sendBody r disk n).1 s → P r (s.prepend [.sentFile (sendBody r disk n).2]))
    (empty : ∀ r s, r.status = .handleBody → r.bodyType = .emptyType →
      P { r with status := .handleComplete, curStatusHasSendLen := 0 } s → P r s)
    (results : List SendResult) {r : Response}
    (hr : r.status = .handleHead ∨ r.status = .handleBody) : P r (sendLoop results request r) := by
  -- at its body, a response without one needs no answer
  have hempty {r : Response} (results : List SendResult) (hs : r.status = .handleBody)
      (hb : r.bodyType = .emptyType) : P r (sendLoop results request r) := by
    rw [sendLoop_empty results request hs hb]
    exact empty r _ hs hb (stop request _ (.inl rfl) (.inr (.inr rfl)))
  induction results generalizing r with
  | nil =>
    -- no answer is left, as if there were no room
    rcases hr with hs | hs
    · simp only [sendLoop, hs]
      exact stop request r (.inl rfl) (.inl hs)
    · cases hb : r.bodyType with
      | htmlType =>
        simp only [sendLoop, hs, hb]
        exact stop request r (.inl rfl) (.inr (.inl hs))
      | fileType =>
        simp only [sendLoop, hs, hb]
        exact stop request r (.inl rfl) (.inr (.inl hs))
      | emptyType => exact hempty [] hs hb
  | cons x results ih =>
    -- a turn of the body is the last one, or the loop goes on
    have hbody {q : Response} {a : Action} (hq : q.status = .handleBody ∨
      q.status = .handleComplete)
        (hstep : ∀ s, P q s → P r (s.prepend [a])) :
        P r (if q.status = .handleComplete then ⟨request, q, [a], .proceed⟩
          else (sendLoop results request q).prepend [a]) := by
      by_cases hc : q.status = .handleComplete
      · rw [if_pos hc]
        exact hstep _ (stop request q (.inl rfl) (.inr (.inr hc)))
      · rw [if_neg hc]
        exact hstep _ (ih (.inr (hq.resolve_right hc)))
    rcases hr with hs | hs
    · unfold sendLoop
      simp only [hs]
      -- the head comes first; what is behind it is another turn
      cases x with
      | accepted n disk => exact head r n _ hs (ih (sendHead_status hs n))
      | again => exact stop request r (.inl rfl) (.inl hs)
      | failed => exact stop (setError request) r (.inr rfl) (.inl hs)
    · cases hb : r.bodyType with
      | htmlType =>
        unfold sendLoop
        simp only [hs, hb]
        cases x with
        | accepted n disk => exact hbody (sendBody_status hs _ n) fun s => page r n s hs hb
        | again => exact stop request r (.inl rfl) (.inr (.inl hs))
        | failed => exact stop (setError request) r (.inr rfl) (.inr (.inl hs))
      | fileType =>
        unfold sendLoop
        simp only [hs, hb]
        cases x with
        | accepted n disk => exact hbody (sendBody_status hs _ n) fun s => file r n disk s hs hb
        | again => exact stop request r (.inl rfl) (.inr (.inl hs))
        | failed => exact stop (setError request) r (.inr rfl) (.inr (.inl hs))
      | emptyType => exact hempty _ hs hb

/-- **Sending keeps account of what is on the wire**, whatever the answers of `send` and `sendfile`
are and however many of them the loop takes. -/
theorem sendLoop_keeps (results : List SendResult) (request : Option Request) {r : Response}
    {stream : Bytes} {ps : List (Bytes × Bytes)}
    (hr : r.status = .handleHead ∨ r.status = .handleBody)
    (h : Tracks stream ps r) : (sendLoop results request r).Keeps stream ps := by
  refine sendLoop_induction (P := fun r s => ∀ stream ps, Tracks stream ps r → s.Keeps stream ps)
    ?_ ?_ ?_ ?_ ?_ results hr stream ps h
  -- the loop stops: nothing more goes out
  · intro q r _ hr stream ps h
    refine keeps_stop q h ?_
    rcases hr with hr | hr | hr <;> rw [hr] <;> exact nofun
  -- a part of the head
  · intro r n s hs ih stream ps h
    exact Stage.Keeps.prepend (a := .sent _) (ih _ _ (sendHead_tracks hs h n))
  -- a part of the page
  · intro r n s hs hb ih stream ps h
    have ht := sendBody_tracks hs (by rw [hb]; decide) h (fun _ => rfl) n
    rw [if_pos hb] at ht
    exact Stage.Keeps.prepend (a := .sent _) (ih _ _ ht)
  -- a part of a file, which is recorded as it is read
  · intro r n disk s hs hb ih stream ps h
    have hno : r.bodyType ≠ .htmlType := by rw [hb]; decide
    have hpage : r.bodyType = .htmlType → disk = r.msgBody := fun hb' => absurd hb' hno
    have ht := sendBody_tracks hs (by rw [hb]; decide) h hpage n
    rw [if_neg hno] at ht
    exact Stage.Keeps.prepend (a := .sentFile _) (ih _ _ ht)
  -- no body, and nothing to send
  · intro r s hs hb ih stream ps h
    exact ih _ _ (.idle (.inr rfl) (empty_tracks hs hb h))

/-- The account of the response entry of a descriptor between two calls. Without an entry the stream
consists of whole responses, and an entry is never left complete. -/
def EntryTracks (stream : Bytes) (ps : List (Bytes × Bytes)) : Option Response → Prop
  | none => Delivered stream ps
  | some r => Tracks stream ps r ∧ r.status ≠ .handleComplete

/-- A stage that has constructed a response keeps the account of a stream of whole responses: the
new one is added, and none of its bytes has gone out. -/
theorem opened_tracks {s : Stage} (h : Opened s) {stream : Bytes} {ps : List (Bytes × Bytes)}
    (hd : Delivered stream ps) : s.Keeps stream ps := by
  obtain ⟨before, hacts, hsilent⟩ := h.acts
  refine ⟨h.flow, ?_, by rw [h.status]; exact nofun⟩
  have hbefore : ∀ a ∈ before, a.Silent := fun a ha => (hsilent a ha).silent
  have hwire : stream ++ onWire s.acts = stream := by
    rw [hacts, onWire_append, onWire_silent hbefore]
    exact List.append_nil _
  rw [hwire, hacts, List.foldl_append, foldl_record_silent hbefore]
  refine .head stream ps h.status h.sound hd rfl ?_ ?_
  · rw [h.unsent]
    exact Nat.zero_le _
  · rw [h.unsent, List.take_zero, List.append_nil]

/-- Behind the send loop the response is gone, or its descriptor is armed for output. Neither puts
anything on the wire. -/
theorem finish_tracks (w : World) (request : Option Request) {r : Response} {stream : Bytes}
    {ps : List (Bytes × Bytes)} (h : Tracks stream ps r) (hi : r.status ≠ .handleInit) :
    let c := finish w request r
    EntryTracks (stream ++ onWire c.acts) (c.acts.foldl record ps) c.response := by
  have hstray : ∀ a ∈ closeStray w, a.Silent := forall_mem_closeStray w fun _ => trivial
  -- resetting, erasing, arming and closing are all silent
  have hsilent : ∀ a ∈ (finish w request r).acts, a.Silent := by
    intro a ha
    unfold finish at ha
    split_ifs at ha
    · rcases List.mem_append.mp ha with h | h
      · simp only [List.mem_cons, List.not_mem_nil, or_false] at h
        rcases h with rfl | rfl <;> trivial
      · exact hstray a h
    · rcases List.mem_append.mp ha with h | h
      · simp only [List.mem_cons, List.not_mem_nil, or_false] at h
        rcases h with rfl | rfl | rfl <;> trivial
      · exact hstray a h
    · rw [List.mem_singleton.mp ha]
      trivial
  change EntryTracks (stream ++ onWire (finish w request r).acts)
    ((finish w request r).acts.foldl record ps) (finish w request r).response
  rw [onWire_silent hsilent, List.append_nil, foldl_record_silent hsilent]
  unfold finish
  -- the response is complete, or new again, or is still being sent
  split_ifs with hc he
  · cases h with
    | idle _ delivered => exact ⟨.idle (.inl rfl) delivered, nofun⟩
    | head _ _ status => cases hc.symm.trans status
    | body _ _ _ status => cases hc.symm.trans status
  · rcases tracks_sending h hc hi with hs | hs <;> cases he.symm.trans hs
  · exact ⟨h, hc⟩

/-- From a response that is being sent on: the loop returns, and the call that ends behind it keeps
the account over all that the stages have done. -/
theorem sent_tracks (w : World) (results : List SendResult) {s : Stage} {stream : Bytes}
    {ps : List (Bytes × Bytes)} (h : s.Keeps stream ps) (hc : s.response.status ≠ .handleComplete) :
    (sendLoop results s.request s.response).flow = .proceed ∧
      let t := sendLoop results s.request s.response
      let c := (finish w t.request t.response).prepend (s.acts ++ t.acts)
      EntryTracks (stream ++ onWire c.acts) (c.acts.foldl record ps) c.response := by
  have hloop := sendLoop_keeps results s.request
    (tracks_sending h.tracks hc h.status) h.tracks
  have hfin := finish_tracks w (sendLoop results s.request s.response).request hloop.tracks
    hloop.status
  refine ⟨hloop.flow, ?_⟩
  change EntryTracks (stream ++ onWire (s.acts ++ _ ++ _)) ((s.acts ++ _ ++ _).foldl record ps) _
  rw [onWire_append, onWire_append, List.foldl_append, List.foldl_append, ← List.append_assoc,
    ← List.append_assoc]
  exact hfin

section Process

variable {w : World} {results : List SendResult} {request : Option Request}
    {r : Response} {s : Stage}

/-- A call that comes to the send loop does what the stage has done, then what the loop does, and
then ends as `finish` says. -/
theorem process_proceed (h : initStage w request r = s) (hs : s.flow = .proceed)
    (ht : (sendLoop results s.request s.response).flow = .proceed) :
    process w results request (some r) =
      (finish w (sendLoop results s.request s.response).request
        (sendLoop results s.request s.response).response).prepend
          (s.acts ++ (sendLoop results s.request s.response).acts) := by
  unfold process
  simp only [h, hs, ht]

/-- A call that leaves its response for re-entry does nothing behind its stage. -/
theorem process_leave (h : initStage w request r = s) (hs : s.flow = .leave) :
    process w results request (some r) = ⟨s.request, some s.response, s.acts, none⟩ := by
  unfold process
  simp only [h, hs]

/-- A call that does not return from preparing its response leaves everything as the stage has it at
that point. -/
theorem process_crash (h : initStage w request r = s) {f : Fault} (hs : s.flow = .crash f) :
    process w results request (some r) = ⟨s.request, some s.response, s.acts, some f⟩ := by
  unfold process
  simp only [h, hs]

/-- A new response is prepared by the branch for its resource, with the resource noted as
dispatched. -/
theorem initStage_of_init (hr : r.status = .handleInit) :
    initStage w request r = (operaStage w request r).prepend [.dispatch r.bodyFileName] :=
  if_pos hr

/-- A response that is being sent needs no preparing, and the call goes straight to the send
loop. -/
theorem initStage_of_not_init (hr : r.status ≠ .handleInit) :
    initStage w request r = ⟨request, r, [], .proceed⟩ :=
  if_neg hr

end Process

/-- **A call keeps account of what is on the wire.** Whatever the resource, the files and the
answers are, what the call has sent is what the entry it leaves says. -/
theorem process_tracks (w : World) (results : List SendResult) (request : Option Request)
    {response : Option Response} {stream : Bytes} {ps : List (Bytes × Bytes)}
    (h : EntryTracks stream ps response) :
    EntryTracks (stream ++ onWire (process w results request response).acts)
      ((process w results request response).acts.foldl record ps)
      (process w results request response).response := by
  cases response with
  | none => simpa [process] using h
  | some r =>
    obtain ⟨ht, hc⟩ := h
    -- a new response starts behind delivered ones; any other goes on where it stands
    by_cases hi : r.status = .handleInit
    · have hd : Delivered stream ps := by
        cases ht with
        | idle _ delivered => exact delivered
        | head _ _ status => cases hi.symm.trans status
        | body _ _ _ status => cases hi.symm.trans status
      rcases operaStage_opens w request hi with ho | hl
      -- constructed: the loop goes on from the first byte of the head
      · have hk : ((operaStage w request r).prepend [.dispatch r.bodyFileName]).Keeps stream ps :=
          Stage.Keeps.prepend (opened_tracks ho (by simpa [Action.onWire, record] using hd))
        obtain ⟨hflow, htracks⟩ := sent_tracks w results hk
          (show (operaStage w request r).response.status ≠ _ by rw [ho.status]; exact nofun)
        rw [process_proceed (initStage_of_init hi) hk.flow hflow]
        exact htracks
      · -- a call that leaves without a response puts nothing on the wire
        have hall : ∀ a ∈ .dispatch r.bodyFileName :: (operaStage w request r).acts,
            a.Silent := by
          intro a ha
          rcases List.mem_cons.mp ha with rfl | ha
          · trivial
          · exact hl.silent a ha
        have hleft : EntryTracks (stream ++ onWire (.dispatch r.bodyFileName ::
            (operaStage w request r).acts)) ((.dispatch r.bodyFileName ::
            (operaStage w request r).acts).foldl record ps)
            (some (operaStage w request r).response) := by
          rw [onWire_silent hall, List.append_nil, foldl_record_silent hall]
          exact ⟨.idle (.inl hl.status) hd, by rw [hl.status]; exact nofun⟩
        -- it leaves to be entered again, or it does not return
        rcases hl.exit with ⟨hflow, -⟩ | ⟨f, hflow, -⟩
        · rw [process_leave (initStage_of_init hi) hflow]
          exact hleft
        · rw [process_crash (initStage_of_init hi) hflow]
          exact hleft
    · obtain ⟨hflow, htracks⟩ := sent_tracks w results (keeps_stop request ht hi) hc
      rw [process_proceed (initStage_of_not_init hi) rfl hflow]
      exact htracks

/-! ### Calls one after the other -/

/-- What happens to the entries of a descriptor: a call of one of the two handlers. -/
inductive Visit where
  /-- `HandleRecv` has left this `Request`, and may have handed a resource over; an entry made for
  it holds `fresh` in the members nothing sets. -/
  | received (request : Option Request) (name : Option Bytes) (fresh : Uninit)
  /-- A call of `HandleSend`. -/
  | send (w : World) (results : List SendResult)

/-- One visit. `HandleRecv` puts the resource into the entry, which it makes where there is none,
and `HandleSend` runs on what it finds there. -/
def visit (request : Option Request) (response : Option Response) : Visit → Call
  | .received request name fresh =>
    ⟨request, (name.map (Response.setBodyFileName fresh response)).or response,
      (name.map .setBodyFileName).toList, none⟩
  | .send w results => process w results request response

/-- Visits one after the other, each on what the one before it has left, until the process ends in
one of them. -/
def visits : List Visit → Option Request → Option Response → Call
  | [], request, response => ⟨request, response, [], none⟩
  | v :: vs, request, response =>
    let c := visit request response v
    match c.crash with
    | some _ => c
    | none => (visits vs c.request c.response).prepend c.acts

/-- Handing a resource over does not touch the account: an entry that is made for it is new, and one
that is there keeps how far it has been sent. -/
theorem setBodyFileName_tracks (fresh : Uninit) {response : Option Response} (name : Bytes)
    {stream : Bytes} {ps : List (Bytes × Bytes)} (h : EntryTracks stream ps response) :
    EntryTracks stream ps (some (Response.setBodyFileName fresh response name)) := by
  cases response with
  | none => exact ⟨.idle (.inl rfl) h, nofun⟩
  | some r =>
    obtain ⟨ht, hc⟩ := h
    refine ⟨?_, hc⟩
    cases ht with
    | idle status delivered => exact .idle status delivered
    | head done qs status sound delivered responses sent wire =>
      exact .head done qs status ⟨sound.headLen, sound.announces, sound.bodyLen⟩ delivered responses
        sent wire
    | body done qs data status sound delivered responses sent room page wire =>
      exact .body done qs data status ⟨sound.headLen, sound.announces, sound.bodyLen⟩ delivered
        responses sent room page wire

/-- One visit keeps the account, of either handler. -/
theorem visit_tracks (v : Visit) (request : Option Request) {response : Option Response}
    {stream : Bytes} {ps : List (Bytes × Bytes)} (h : EntryTracks stream ps response) :
    EntryTracks (stream ++ onWire (visit request response v).acts)
      ((visit request response v).acts.foldl record ps) (visit request response v).response := by
  cases v with
  | send w results => exact process_tracks w results request h
  | received request' name fresh =>
    cases name with
    | none => simpa [visit] using h
    | some name =>
      have hset := setBodyFileName_tracks fresh name h
      simpa [visit, Action.onWire, record] using hset

/-- Over any visits the account is kept, from any stream and entry that agree. By induction on the
visits; one that does not return is the last. -/
theorem visits_tracks (vs : List Visit) (request : Option Request) {response : Option Response}
    {stream : Bytes} {ps : List (Bytes × Bytes)} (h : EntryTracks stream ps response) :
    EntryTracks (stream ++ onWire (visits vs request response).acts)
      ((visits vs request response).acts.foldl record ps)
        (visits vs request response).response := by
  induction vs generalizing request response stream ps with
  | nil => simpa [visits] using h
  | cons v vs ih =>
    have hv := visit_tracks v request h
    unfold visits
    simp only
    cases hcrash : (visit request response v).crash with
    | some f => simpa only using hv
    | none =>
      simp only
      change EntryTracks (stream ++ onWire (_ ++ _)) ((_ ++ _ : List Action).foldl record ps) _
      rw [onWire_append, List.foldl_append, ← List.append_assoc]
      exact ih _ hv

/-- No response is partly sent: there is no entry, or the one there is has not been constructed
yet. -/
def Complete (response : Option Response) : Prop := ∀ r ∈ response, r.status = .handleInit

instance (response : Option Response) : Decidable (Complete response) :=
  inferInstanceAs (Decidable (∀ r ∈ response, _))

/-- A directory with one file. -/
def sampleWorld : World where
  page := some (lit "<table>\n<!--filelist_label-->\n</table>\n")
  filedir := some [lit ".", lit "..", lit "a.txt"]
  openRead _ := some (7, 5)
  remove _ := true
  openTrunc _ := true
  fresh := ⟨0, 0, .htmlType, 0, 0⟩

/-- A directory in which every file is empty. -/
def emptyFiles : World := { sampleWorld with openRead := fun _ => some (7, 0) }

/-- The page, sent in two calls, and then the file, read in two parts. -/
def sampleVisits : List Visit :=
  [.received none (some (lit "/")) sampleWorld.fresh,
    .send sampleWorld [.accepted 10 [], .again],
    .send sampleWorld [.accepted 2048 [], .accepted 2048 []],
    .received none (some (lit "/downl/a.txt")) sampleWorld.fresh,
    .send sampleWorld [.accepted 2048 [], .accepted 2 (lit "hello"), .accepted 3 (lit "hello")]]

example : (responses (visits sampleVisits none none).acts).map (·.2.length) = [205, 5] := by
  decide +kernel

end HandleSend

end Cherokee
