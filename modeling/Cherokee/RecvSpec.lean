import Cherokee.HandleRecv
import Cherokee.Lib.LineMachine
import Cherokee.Lib.DelimScan

/-!
# The receiver as a line reader and a delimiter scan

What the stages of `HandleRecv::process` do together, stated without their loops:

* `requestReader` is the `LineMachine` whose lines are the request line, the headers, the start
  boundary and the part headers; `Request.drained` runs it on `recvMsg`.
* `Request.settle` is what happens to a request whose lines have been read: it is complete, or the
  content of an upload is scanned for the final delimiter, or more must arrive.
* `Request.absorb r x` is both, after `x` has been received.

`recvTurn_follows` says that the body of the receive loop computes `absorb`, as long as the lengths
of the content loop fit an `int`; `absorb_append` says that absorbing is independent of where the
input is cut.
-/

open Search DelimScan

namespace Cherokee

namespace Request

/-! ### The request reader -/

/-- The request is an upload whose body is being received: its method and its media type send it
through the stages of a part. -/
def isUpload (r : Request) : Bool :=
  r.status == .handleBody && r.requestMethod == lit "POST" && r.isMultipart

/-- The request asks for a line: the request line, a header, the start boundary or a header of the
part. In the content of a part, and behind the body, it asks for none. -/
def wantsLine (r : Request) : Bool :=
  r.status == .handleInit || r.status == .handleHead ||
    (r.isUpload && (r.fileMsgStatus == .fileBeginFlag || r.fileMsgStatus == .fileHead))

/-- The line where the start boundary is expected. The boundary is looked up with `at()`, and a line
that is not the start boundary completes the request. -/
def readBegin (r : Request) (line : Bytes) : Except Fault Request :=
  match r.boundary? with
  | none => .error .outOfRange
  | some boundary =>
    if line = lit "--" ++ boundary ++ crlf then .ok { r with fileMsgStatus := .fileHead }
    else .ok { r with status := .handleComplete }

/-- The effect of a line, by the place where the request reads it. -/
def readLine (r : Request) (line : Bytes) : Except Fault Request :=
  match r.status with
  | .handleInit => .ok { r.setRequestLine line with status := .handleHead }
  | .handleHead => if line = crlf then .ok r.endHead else r.addHeaderOpt line
  | .handleBody =>
    match r.fileMsgStatus with
    | .fileBeginFlag => r.readBegin line
    | .fileHead => if line = crlf then .ok { r with fileMsgStatus := .fileContent }
      else r.addPartLine line
    | _ => .ok r
  | _ => .ok r

end Request

/-- The reader of the lines of a request, over the states of the request itself. -/
def requestReader : LineMachine Request Fault UInt8 where
  sep := crlf
  sep_ne := by decide
  reading := Request.wantsLine
  onLine := Request.readLine

namespace Request

/-! ### `recvMsg` is carried along -/

/-- The request with other unprocessed data, and everything else as it is. -/
def withMsg (r : Request) (recvMsg : Bytes) : Request := { r with recvMsg }

@[simp] theorem withMsg_recvMsg (r : Request) (m : Bytes) : (r.withMsg m).recvMsg = m := rfl

@[simp] theorem withMsg_status (r : Request) (m : Bytes) : (r.withMsg m).status = r.status := rfl

@[simp] theorem withMsg_msgHeader (r : Request) (m : Bytes) :
    (r.withMsg m).msgHeader = r.msgHeader := rfl

@[simp] theorem withMsg_requestMethod (r : Request) (m : Bytes) :
    (r.withMsg m).requestMethod = r.requestMethod := rfl

@[simp] theorem withMsg_requestResource (r : Request) (m : Bytes) :
    (r.withMsg m).requestResource = r.requestResource := rfl

@[simp] theorem withMsg_fileMsgStatus (r : Request) (m : Bytes) :
    (r.withMsg m).fileMsgStatus = r.fileMsgStatus := rfl

@[simp] theorem withMsg_recvFileName (r : Request) (m : Bytes) :
    (r.withMsg m).recvFileName = r.recvFileName := rfl

@[simp] theorem withMsg_isMultipart (r : Request) (m : Bytes) :
    (r.withMsg m).isMultipart = r.isMultipart := rfl

@[simp] theorem withMsg_boundary? (r : Request) (m : Bytes) :
    (r.withMsg m).boundary? = r.boundary? := rfl

@[simp] theorem withMsg_isUpload (r : Request) (m : Bytes) :
    (r.withMsg m).isUpload = r.isUpload := rfl

@[simp] theorem withMsg_wantsLine (r : Request) (m : Bytes) :
    (r.withMsg m).wantsLine = r.wantsLine := rfl

@[simp] theorem withMsg_uploadPath (r : Request) (m : Bytes) :
    (r.withMsg m).uploadPath = r.uploadPath := rfl

@[simp] theorem withMsg_withMsg (r : Request) (m n : Bytes) :
    (r.withMsg m).withMsg n = r.withMsg n := rfl

@[simp] theorem withMsg_self (r : Request) : r.withMsg r.recvMsg = r := rfl

/-- The end of the head does not look at the unprocessed data. -/
theorem endHead_withMsg (r : Request) (m : Bytes) :
    (r.withMsg m).endHead = r.endHead.withMsg m := by
  unfold endHead
  rw [withMsg_isMultipart]
  split <;> rfl

/-- Nor does entering a media type, with or without a parameter. -/
theorem addContentType_withMsg (r : Request) (key value m : Bytes) :
    (r.withMsg m).addContentType key value =
      (r.addContentType key value).map (withMsg · m) := by
  unfold addContentType
  split
  · simp only [bind, Except.bind]
    split
    · rfl
    · split <;> rfl
  · rfl

/-- Nor does entering a header, whether it is accepted or refused. -/
theorem addHeaderOpt_withMsg (r : Request) (line m : Bytes) :
    (r.withMsg m).addHeaderOpt line = (r.addHeaderOpt line).map (withMsg · m) := by
  unfold addHeaderOpt
  simp only
  split
  · rfl
  · split
    -- a number is refused or taken, of the value alone
    · cases stoll _ <;> rfl
    · split
      · exact addContentType_withMsg r _ _ m
      · rfl

/-- Nor does a line of the header of a part. -/
theorem addPartLine_withMsg (r : Request) (line m : Bytes) :
    (r.withMsg m).addPartLine line = (r.addPartLine line).map (withMsg · m) := by
  unfold addPartLine
  rw [withMsg_recvFileName]
  split
  · split <;> rfl
  · rfl

/-- Nor does the line of the start boundary. -/
theorem readBegin_withMsg (r : Request) (line m : Bytes) :
    (r.withMsg m).readBegin line = (r.readBegin line).map (withMsg · m) := by
  unfold readBegin
  rw [withMsg_boundary?]
  split
  · rfl
  · split <;> rfl

/-- No line looks at the unprocessed data, and every line carries it along. -/
theorem readLine_withMsg (r : Request) (line m : Bytes) :
    (r.withMsg m).readLine line = (r.readLine line).map (withMsg · m) := by
  unfold readLine
  rw [withMsg_status, withMsg_fileMsgStatus]
  -- by the stage, and in the body by the stage of the part
  split
  · rfl
  · split
    · rw [endHead_withMsg]; rfl
    · exact addHeaderOpt_withMsg r line m
  · split
    · exact readBegin_withMsg r line m
    · split
      · rfl
      · exact addPartLine_withMsg r line m
    · rfl
  · rfl

/-- What a line does to a request, one case for each place it can stand in. -/
inductive LineRead (line : Bytes) (r : Request) : Request → Prop
  | requestLine (init : r.status = .handleInit) :
      LineRead line r { r.setRequestLine line with status := .handleHead }
  | blank (head : r.status = .handleHead) (blank : line = crlf) : LineRead line r r.endHead
  | header (head : r.status = .handleHead) {r' : Request} (added : r.addHeaderOpt line = .ok r') :
      LineRead line r r'
  /-- The start boundary is as announced. -/
  | begins (body : r.status = .handleBody) (begin : r.fileMsgStatus = .fileBeginFlag) {b : Bytes}
      (boundary : r.boundary? = some b) (eq : line = lit "--" ++ b ++ crlf) :
      LineRead line r { r with fileMsgStatus := .fileHead }
  | mismatch (body : r.status = .handleBody) (begin : r.fileMsgStatus = .fileBeginFlag) :
      LineRead line r { r with status := .handleComplete }
  | partBlank (body : r.status = .handleBody) (part : r.fileMsgStatus = .fileHead) :
      LineRead line r { r with fileMsgStatus := .fileContent }
  | partLine (body : r.status = .handleBody) (part : r.fileMsgStatus = .fileHead)
      (recvFileName : Bytes) : LineRead line r { r with recvFileName }
  /-- No line is asked for. -/
  | nothing (init : r.status ≠ .handleInit) (head : r.status ≠ .handleHead)
      (begin : r.status = .handleBody → r.fileMsgStatus ≠ .fileBeginFlag) : LineRead line r r

/-- The line of the start boundary is the one announced, or it completes the request. -/
theorem readBegin_cases {r r' : Request} {line : Bytes} (hs : r.status = .handleBody)
    (hf : r.fileMsgStatus = .fileBeginFlag) (h : r.readBegin line = .ok r') :
    LineRead line r r' := by
  unfold readBegin at h
  split at h
  · cases h
  · next b hb =>
    split at h
    · next heq =>
      cases h
      exact .begins hs hf hb heq
    · cases h
      exact .mismatch hs hf

/-- **What a line can do**, from the result of reading it: each of the cases with the place at which
it stands. -/
theorem readLine_cases {r r' : Request} {line : Bytes} (h : r.readLine line = .ok r') :
    LineRead line r r' := by
  unfold readLine at h
  split at h
  · next hs =>
    cases h
    exact .requestLine hs
  · next hs =>
    split at h
    · next hline =>
      cases h
      exact .blank hs hline
    · exact .header hs h
  · next hs =>
    split at h
    · next hf => exact readBegin_cases hs hf h
    · next hf =>
      split at h
      · cases h
        exact .partBlank hs hf
      · obtain ⟨name, rfl⟩ := addPartLine_fields h
        exact .partLine hs hf name
    · next hbegin _ =>
      cases h
      refine .nothing ?_ ?_ fun _ => hbegin
      · rw [hs]; exact nofun
      · rw [hs]; exact nofun
  · next hinit hhead hbody =>
    cases h
    exact .nothing hinit hhead fun hs => absurd hs hbody

/-! ### Reading the lines of `recvMsg` -/

/-- The request when all complete lines that it asks for have been read from `recvMsg`. What is left
there is kept as the unprocessed data. -/
def drained (r : Request) : Except Fault Request :=
  (requestReader.drain (r.withMsg []) r.recvMsg).map fun p => p.1.withMsg p.2

/-- More data received, behind what is there. -/
def push (r : Request) (buf : Bytes) : Request := r.withMsg (r.recvMsg ++ buf)

/-- Data received in two parts is data received in one. -/
theorem push_push (r : Request) (x y : Bytes) : (r.push x).push y = r.push (x ++ y) := by
  simp [push]

/-- Reading a line leaves the unprocessed data alone; the reader cuts the line off. -/
theorem readLine_recvMsg {r r' : Request} {line : Bytes} (h : r.readLine line = .ok r') :
    r'.recvMsg = r.recvMsg := by
  have hcarry := readLine_withMsg r line r.recvMsg
  rw [withMsg_self, h] at hcarry
  have heq : r' = r'.withMsg r.recvMsg := Except.ok.inj hcarry
  rw [heq, withMsg_recvMsg]

/-- The reader leaves the request's own `recvMsg` alone, as it works on a buffer of its own. -/
theorem drain_recvMsg {r r' : Request} {buf rest : Bytes}
    (h : requestReader.drain r buf = .ok (r', rest)) : r'.recvMsg = r.recvMsg := by
  refine LineMachine.drain_induction (M := requestReader)
    (P := fun r _ o => o = .ok (r', rest) → r'.recvMsg = r.recvMsg) ?_ ?_ ?_ r buf h
  · rintro r buf - ⟨⟩
    rfl
  · intro r buf line rest r'' _ _ ho ih heq
    rw [ih heq, readLine_recvMsg ho]
  · rintro r buf line rest f _ _ _ ⟨⟩

/-- A request that asks for no line, or for which none is complete, has been drained. -/
theorem drained_of_rest {r : Request}
    (h : r.wantsLine = false ∨ cutLine r.recvMsg = none) : r.drained = .ok r := by
  unfold drained
  rw [LineMachine.drain_of_rest (h.imp_right cutAfter_eq_none_iff.mp)]
  rfl

/-- A complete line that is accepted is the first one to be read, and the others are read behind
it. -/
theorem drained_of_line {r r' : Request} {line rest : Bytes} (hw : r.wantsLine = true)
    (hc : cutLine r.recvMsg = some (line, rest)) (ho : r.readLine line = .ok r') :
    r.drained = (r'.withMsg rest).drained := by
  have ho' : (r.withMsg []).readLine line = .ok (r'.withMsg []) := by
    rw [readLine_withMsg, ho]; rfl
  unfold drained
  rw [LineMachine.drain_of_ok (M := requestReader) (s := r.withMsg []) hw hc ho']
  rfl

/-- A complete line that is refused ends the reading. -/
theorem drained_of_error {r : Request} {f : Fault} {line rest : Bytes} (hw : r.wantsLine = true)
    (hc : cutLine r.recvMsg = some (line, rest)) (ho : r.readLine line = .error f) :
    r.drained = .error f := by
  have ho' : (r.withMsg []).readLine line = .error f := by
    rw [readLine_withMsg, ho]; rfl
  unfold drained
  rw [LineMachine.drain_of_error (M := requestReader) (s := r.withMsg []) hw hc ho']
  rfl

/-- A request whose lines have been read asks for none, or has no complete one. -/
theorem drained_rest {r r' : Request} (h : r.drained = .ok r') :
    r'.wantsLine = false ∨ cutLine r'.recvMsg = none := by
  unfold drained at h
  -- reading has ended in a line that is refused, or with what is left
  cases hd : requestReader.drain (r.withMsg []) r.recvMsg with
  | error f => rw [hd] at h; cases h
  | ok p =>
    rw [hd] at h
    cases h
    exact (LineMachine.drain_rest hd).imp_right cutAfter_eq_none_iff.mpr

/-- **Reading lines is independent of where the input is cut**: of data in two parts, the lines of
the first are read, and then those of what is left with the second behind it. -/
theorem drained_push (r : Request) (x y : Bytes) :
    (r.push (x ++ y)).drained = (r.push x).drained >>= fun r' => (r'.push y).drained := by
  unfold drained
  change Except.map _ (requestReader.drain (r.withMsg []) (r.recvMsg ++ (x ++ y))) =
    Except.map _ (requestReader.drain (r.withMsg []) (r.recvMsg ++ x)) >>= _
  rw [← List.append_assoc, LineMachine.drain_append]
  -- a line of the first part is refused, or the request goes on
  cases hd : requestReader.drain (r.withMsg []) (r.recvMsg ++ x) with
  | error f => rfl
  | ok p =>
    have hmsg : p.1.withMsg [] = p.1 := by
      rw [show ([] : Bytes) = p.1.recvMsg from (drain_recvMsg hd).symm, withMsg_self]
    change Except.map _ (requestReader.drain p.1 (p.2 ++ y)) =
      Except.map _ (requestReader.drain (p.1.withMsg []) (p.2 ++ y))
    rw [hmsg]

end Request

/-! ### The stages read lines -/

namespace HandleRecv

open Request

/-- The first line is the request line. -/
theorem readLine_of_init {r : Request} (h : r.status = .handleInit) (line : Bytes) :
    r.readLine line = .ok { r.setRequestLine line with status := .handleHead } := by
  rw [readLine, h]

/-- In the head the blank line ends it, and any other line is a header. -/
theorem readLine_of_head {r : Request} (h : r.status = .handleHead) (line : Bytes) :
    r.readLine line = if line = crlf then .ok r.endHead else r.addHeaderOpt line := by
  rw [readLine, h]

/-- At the beginning of a part a line is compared with the start boundary. -/
theorem readLine_of_begin {r : Request} (h : r.status = .handleBody)
    (hf : r.fileMsgStatus = .fileBeginFlag) (line : Bytes) :
    r.readLine line = r.readBegin line := by
  rw [readLine, h, hf]

/-- In the header of a part the blank line begins the content, and any other line is a header of the
part. -/
theorem readLine_of_part {r : Request} (h : r.status = .handleBody)
    (hf : r.fileMsgStatus = .fileHead) (line : Bytes) :
    r.readLine line = if line = crlf then .ok { r with fileMsgStatus := .fileContent }
      else r.addPartLine line := by
  rw [readLine, h, hf]

/-- A new request asks for its request line. -/
theorem wantsLine_of_init {r : Request} (h : r.status = .handleInit) : r.wantsLine = true := by
  simp [wantsLine, h]

/-- In the head a request asks for a header. -/
theorem wantsLine_of_head {r : Request} (h : r.status = .handleHead) : r.wantsLine = true := by
  simp [wantsLine, h]

/-- What an upload is, property by property. -/
theorem isUpload_iff {r : Request} : r.isUpload = true ↔
    r.status = .handleBody ∧ r.requestMethod = lit "POST" ∧ r.isMultipart = true := by
  simp [isUpload, and_assoc]

/-- An upload asks for lines in front of its content. -/
theorem wantsLine_of_upload {r : Request} (h : r.isUpload = true) :
    r.wantsLine = (r.fileMsgStatus == .fileBeginFlag || r.fileMsgStatus == .fileHead) := by
  obtain ⟨hs, -, -⟩ := isUpload_iff.mp h
  simp [wantsLine, h, hs]

/-- The request line stage reads a line, if one is complete: reading goes on to the same end behind
it. -/
theorem drained_requestLineStage (r : Request) : (requestLineStage r).1.drained = r.drained := by
  unfold requestLineStage
  split
  · next hs =>
    split
    · next line rest hc =>
      exact (drained_of_line (wantsLine_of_init hs) hc (readLine_of_init hs line)).symm
    · rfl
  · rfl

/-- Behind the request line stage no complete request line is left. -/
theorem requestLineStage_rest (r : Request) (h : (requestLineStage r).1.status = .handleInit) :
    cutLine (requestLineStage r).1.recvMsg = none := by
  unfold requestLineStage at h ⊢
  split at h
  · next hs =>
    rw [if_pos hs]
    split at h
    · cases h
    · next hc =>
      rw [hc]
  · next hs => exact absurd h hs

/-- A header does not change the stage. -/
theorem addHeaderOpt_status {r r' : Request} {line : Bytes} (h : r.addHeaderOpt line = .ok r') :
    r'.status = r.status := by
  obtain ⟨_, _, rfl⟩ := addHeaderOpt_fields h
  rfl

section LineTurn

variable {blank : Request → Request} {option : Request → Bytes → Except Fault Request}
  {r r' : Request} {line rest : Bytes}

/-- A turn that finds the blank line leaves the section, with the line cut off. -/
theorem lineTurn_of_blank (hc : cutLine r.recvMsg = some (crlf, rest)) :
    lineTurn blank option r = .inr (.ok (blank (r.withMsg rest))) := by
  unfold lineTurn
  simp only [hc]
  rw [if_pos trivial]
  rfl

/-- A turn that finds another line takes it as an option, with the line cut off before. -/
theorem lineTurn_of_option (hc : cutLine r.recvMsg = some (line, rest)) (hne : line ≠ crlf)
    (ho : option (r.withMsg rest) line = .ok r') : lineTurn blank option r = .inl r' := by
  unfold lineTurn
  rw [withMsg] at ho
  simp only [hc, if_neg hne, ho]

/-- A turn that finds a line which the option refuses ends the process. -/
theorem lineTurn_of_error {f : Fault} (hc : cutLine r.recvMsg = some (line, rest))
    (hne : line ≠ crlf)
    (ho : option (r.withMsg rest) line = .error f) : lineTurn blank option r = .inr (.error f) := by
  unfold lineTurn
  rw [withMsg] at ho
  simp only [hc, if_neg hne, ho]

/-- A turn with which the loop goes on has taken an option line, which is not the blank one. -/
theorem lineTurn_inl_cases (h : lineTurn blank option r = .inl r') :
    ∃ line rest, cutLine r.recvMsg = some (line, rest) ∧ line ≠ crlf ∧
      option (r.withMsg rest) line = .ok r' := by
  unfold lineTurn at h
  split at h
  · cases h
  · next line rest hc =>
    simp only at h
    split at h
    · cases h
    · next hne =>
      split at h
      · next ho =>
        cases h
        exact ⟨line, rest, hc, hne, ho⟩
      · cases h

/-- How the loop ends in a turn: it waits for a line, leaves the section behind the blank one, or
has a line that is refused. -/
inductive LineEnd (blank : Request → Request) (option : Request → Bytes → Except Fault Request)
    (r : Request) : Except Fault Request → Prop
  /-- No line is complete. -/
  | waits (uncut : cutLine r.recvMsg = none) : LineEnd blank option r (.ok r)
  | leaves {rest : Bytes} (cut : cutLine r.recvMsg = some (crlf, rest)) :
      LineEnd blank option r (.ok (blank (r.withMsg rest)))
  /-- The line is refused. -/
  | fails {line rest : Bytes} {f : Fault} (cut : cutLine r.recvMsg = some (line, rest))
      (ne : line ≠ crlf) (refused : option (r.withMsg rest) line = .error f) :
      LineEnd blank option r (.error f)

/-- A turn with which the loop ends is one of the three. -/
theorem lineTurn_inr_cases {o : Except Fault Request} (h : lineTurn blank option r = .inr o) :
    LineEnd blank option r o := by
  unfold lineTurn at h
  split at h
  · next hc =>
    cases h
    exact .waits hc
  · next line rest hc =>
    simp only at h
    split at h
    · next hb =>
      subst hb
      cases h
      exact .leaves hc
    · next hne =>
      split at h
      · cases h
      · next ho =>
        cases h
        exact .fails hc hne ho

end LineTurn

/-- **What a loop over header lines leaves.** What holds in the section, and is kept by the option
lines, holds when no complete line is left, or a blank line leaves the section. By induction on the
turns. -/
theorem lineLoop_leaves {blank : Request → Request}
    {option : Request → Bytes → Except Fault Request}
    {P Q : Request → Prop} (hwait : ∀ r, P r → Q r) (hblank : ∀ r m, P r → Q (blank (r.withMsg m)))
    (hoption : ∀ r r' m line, P r → option (r.withMsg m) line = .ok r' → P r')
    (hdec : Loop.Decreasing (lineTurn blank option) fun r => r.recvMsg.length) {r r' : Request}
    (hr : P r) (h : Loop.eval hdec r = .ok r') : Q r' := by
  refine Loop.eval_induction hdec (P := fun r o => P r → o = .ok r' → Q r') ?_ ?_ r hr h
  · rintro r o hturn hr rfl
    cases lineTurn_inr_cases hturn with
    | waits => exact hwait _ hr
    | leaves => exact hblank r _ hr
  · intro r r₁ hturn ih hr ho
    obtain ⟨line, rest, -, -, hopt⟩ := lineTurn_inl_cases hturn
    exact ih (hoption r r₁ rest line hr hopt) ho

/-- The request is in a section of header lines: it asks for a line, a line is what the loop over
the section makes of it, and only the blank line leaves the section. None of this looks at the
unprocessed data. -/
structure LineSection (Q : Request → Prop) (blank : Request → Request)
    (option : Request → Bytes → Except Fault Request) : Prop where
  wants : ∀ r, Q r → r.wantsLine = true
  read : ∀ r line, Q r →
    r.readLine line = if line = crlf then .ok (blank r) else option r line
  stay : ∀ r r' line, Q r → option r line = .ok r' → Q r'
  leave : ∀ r, ¬ Q (blank r)
  withMsg : ∀ r m, Q r → Q (r.withMsg m)
  blank_withMsg : ∀ r m, blank (r.withMsg m) = (blank r).withMsg m
  option_withMsg : ∀ r line m, option (r.withMsg m) line = (option r line).map (Request.withMsg · m)

/-- **A loop over header lines reads lines**, and leaves no complete one to a request that is still
in the section. By induction on the turns of the loop. -/
theorem drained_lineLoop {Q : Request → Prop} {blank : Request → Request}
    {option : Request → Bytes → Except Fault Request} (H : LineSection Q blank option)
    (hdec : Loop.Decreasing (lineTurn blank option) fun r => r.recvMsg.length)
    {r : Request} (hr : Q r) :
    r.drained = (Loop.eval hdec r >>= drained) ∧
      ∀ r', Loop.eval hdec r = .ok r' → Q r' → cutLine r'.recvMsg = none := by
  refine Loop.eval_induction hdec
    (P := fun r o => Q r → (r.drained = (o >>= drained) ∧
      ∀ r', o = .ok r' → Q r' → cutLine r'.recvMsg = none)) ?_ ?_ r hr
  · -- the loop leaves: no complete line, the blank line, or a line refused
    intro r o hturn hr
    cases lineTurn_inr_cases hturn with
    | waits uncut =>
      -- without a complete line both stop with the buffer as it is
      refine ⟨rfl, ?_⟩
      rintro r' ⟨⟩ -
      exact uncut
    | @leaves rest cut =>
      have hline := H.read r crlf hr
      rw [if_pos rfl] at hline
      refine ⟨?_, ?_⟩
      · rw [drained_of_line (H.wants r hr) cut hline, ← H.blank_withMsg]
        rfl
      · rintro r' ⟨⟩ h
        exact absurd h (H.leave _)
    | @fails line rest f cut ne refused =>
      have hline := H.read r line hr
      -- the rest of the buffer has no part in the refusal
      have hcarry := H.option_withMsg r line rest
      rw [if_neg ne] at hline
      rw [refused] at hcarry
      refine ⟨?_, nofun⟩
      cases hopt : option r line with
      | ok r'' => rw [hopt] at hcarry; cases hcarry
      | error f' =>
        rw [hopt] at hcarry hline
        cases hcarry
        exact drained_of_error (H.wants r hr) cut hline
  · -- an option line is read and the loop goes on behind it
    intro r r' hturn ih hr
    obtain ⟨line, rest, cut, ne, taken⟩ := lineTurn_inl_cases hturn
    have hline := H.read r line hr
    have hcarry := H.option_withMsg r line rest
    rw [if_neg ne] at hline
    rw [taken] at hcarry
    cases hopt : option r line with
    | error f => rw [hopt] at hcarry; cases hcarry
    | ok r₀ =>
      rw [hopt] at hcarry hline
      obtain rfl : r' = r₀.withMsg rest := Except.ok.inj hcarry
      -- one line is the first of the drain too, and the rest is the induction hypothesis
      rw [drained_of_line (H.wants r hr) cut hline]
      exact ih (H.stay _ _ _ (H.withMsg r rest hr) taken)

/-- The head is such a section, of the headers. -/
theorem headSection :
    LineSection (fun r => r.status = .handleHead) Request.endHead Request.addHeaderOpt where
  wants _ h := wantsLine_of_head h
  read _ line h := readLine_of_head h line
  stay _ _ _ h ho := (addHeaderOpt_status ho).trans h
  leave r h := by
    unfold endHead at h
    split at h <;> cases h
  withMsg _ _ h := h
  blank_withMsg := endHead_withMsg
  option_withMsg := addHeaderOpt_withMsg

/-- The request is an upload whose part header is being read. -/
def InPartHead (r : Request) : Prop := r.isUpload = true ∧ r.fileMsgStatus = .fileHead

/-- The header of a part is such a section too, of the lines of which one may name the file. -/
theorem partSection : LineSection InPartHead (fun r => { r with fileMsgStatus := .fileContent })
    Request.addPartLine where
  wants r h := by
    rw [wantsLine_of_upload h.1, h.2]
    rfl
  read _ line h := readLine_of_part (isUpload_iff.mp h.1).1 h.2 line
  stay r r' line h ho := by
    obtain ⟨name, rfl⟩ := addPartLine_fields ho
    exact h
  leave r := by
    rintro ⟨-, h⟩
    cases h
  withMsg _ _ h := h
  blank_withMsg _ _ := rfl
  option_withMsg := addPartLine_withMsg

/-- The header stage reads lines, and leaves no complete one to the headers. A request outside the
head passes it as it is. -/
theorem drained_headStage (r : Request) :
    r.drained = (headStage r >>= drained) ∧
      ∀ r', headStage r = .ok r' → r'.status = .handleHead → cutLine r'.recvMsg = none := by
  unfold headStage
  split
  · next hs => exact drained_lineLoop headSection _ hs
  · next hs =>
    refine ⟨rfl, ?_⟩
    rintro r' ⟨⟩ h
    exact absurd h hs

/-- The part header stage of an upload reads lines, and leaves no complete one to the part
header. -/
theorem drained_partStage {r : Request} (hu : r.isUpload = true) :
    r.drained = (partStage r >>= drained) ∧
      ∀ r', partStage r = .ok r' → InPartHead r' → cutLine r'.recvMsg = none := by
  unfold partStage
  split
  · next hf => exact drained_lineLoop partSection _ ⟨hu, hf⟩
  · next hf =>
    refine ⟨rfl, ?_⟩
    rintro r' ⟨⟩ h
    exact absurd h.2 hf

/-! ### The start boundary -/

/-- The line that `find` sees, and what is behind it: the stage of the start boundary searches for
the terminator itself. -/
theorem cutLine_of_find {m : Bytes} {i : ℕ} (h : find m crlf 0 = some i) :
    cutLine m = some (m.take i ++ crlf, m.drop (i + 2)) := by
  rw [find_zero] at h
  obtain ⟨⟨t, ht⟩, -⟩ := firstAt_spec h
  unfold cutLine cutAfter
  rw [h]
  simp only [Option.map_some, Option.some.injEq, Prod.mk.injEq]
  refine ⟨?_, rfl⟩
  rw [List.take_add, ← ht, List.take_left]

/-- Where `find` sees no terminator no line is complete. -/
theorem cutLine_of_find_none {m : Bytes} (h : find m crlf 0 = none) : cutLine m = none := by
  rw [find_zero] at h
  rw [cutLine, cutAfter, h]
  rfl

/-- The start boundary stage of an upload reads a line. When that line is not the start boundary
the request read is complete. -/
theorem drained_beginStage {r : Request} (hu : r.isUpload = true) :
    match beginStage r with
    | .error f => r.drained = .error f
    | .ok none => ∃ m, r.drained = .ok ({ r with status := .handleComplete }.withMsg m)
    | .ok (some r') => r.drained = r'.drained ∧ r'.isUpload = true ∧
        (r'.fileMsgStatus = .fileBeginFlag → cutLine r'.recvMsg = none) := by
  obtain ⟨hs, -, -⟩ := isUpload_iff.mp hu
  unfold beginStage
  -- the stage passes a request whose part has begun
  split_ifs with hf
  swap
  · exact ⟨rfl, hu, fun h => absurd h hf⟩
  have hwants : r.wantsLine = true := by rw [wantsLine_of_upload hu, hf]; rfl
  cases hfind : find r.recvMsg crlf 0 with
  | none => exact ⟨rfl, hu, fun _ => cutLine_of_find_none hfind⟩
  | some i =>
    have hc := cutLine_of_find hfind
    -- the line in front of the first `"\r\n"` is the one the start boundary is compared with
    have hread := readLine_of_begin hs hf (r.recvMsg.take i ++ crlf)
    unfold readBegin at hread
    cases hb : r.boundary? with
    | none =>
      rw [hb] at hread
      exact drained_of_error hwants hc hread
    | some b =>
      rw [hb] at hread
      simp only [List.append_left_inj] at hread
      by_cases hline : r.recvMsg.take i = lit "--" ++ b
      · simp only [if_pos hline] at hread ⊢
        have hdrained := drained_of_line hwants hc hread
        refine ⟨hdrained, hu, ?_⟩
        rintro ⟨⟩
      · simp only [if_neg hline] at hread ⊢
        -- a line that is not the start boundary completes the request
        refine ⟨r.recvMsg.drop (i + 2), ?_⟩
        rw [drained_of_line hwants hc hread]
        exact drained_of_rest (.inl rfl)

/-! ### The content loop -/

/-- The final delimiter begins with a carriage return, which is what the content loop searches for,
and then goes on with the rest of it. -/
theorem delimiter_eq (b : Bytes) :
    delimiter b = cr :: (lf :: 45 :: 45 :: b ++ [45, 45, cr, lf]) := by
  simp [delimiter, lit, cr, lf]

/-- It is eight bytes longer than the boundary. -/
theorem delimiter_length (b : Bytes) : (delimiter b).length = b.length + 8 := by
  simp [delimiter_eq]

/-- Its first byte is the carriage return. -/
theorem delimiter_head? (b : Bytes) : (delimiter b).head? = some cr := by
  rw [delimiter_eq]
  rfl

/-- It is not empty, whatever the boundary is. -/
theorem delimiter_ne_nil (b : Bytes) : delimiter b ≠ [] := by
  rw [delimiter_eq]
  exact List.cons_ne_nil _ _

/-- What the source searches for, as one byte. -/
theorem lit_cr : lit "\r" = [cr] := rfl

/-- A stretch without `'\r'` is released by the scan, as no delimiter can begin in it. -/
theorem scan_take (b : Bytes) {m : Bytes} {n : ℕ} (h : cr ∉ m.take n) :
    scan (delimiter b) m = (scan (delimiter b) (m.drop n)).releaseAll (m.take n) := by
  have hscan : scan (delimiter b) (m.take n ++ m.drop n) =
      (scan (delimiter b) (m.drop n)).releaseAll (m.take n) := by
    refine scan_append_of_not_mem (fun d hd hm => h ?_) _
    rw [delimiter_head?] at hd
    rwa [← Option.some.inj hd] at hm
  rwa [List.take_append_drop] at hscan

/-- A `'\r'` at which no delimiter begins is released, and so is what comes before the next one. -/
theorem scan_past {b m t : Bytes} {e n : ℕ} (hno : cr ∉ m.take e) (ht : m.drop e = cr :: t)
    (hlen : (delimiter b).length ≤ (m.drop e).length) (hnpre : ¬ delimiter b <+: m.drop e)
    (hnext : cr ∉ t.take n) :
    scan (delimiter b) m =
      (scan (delimiter b) (m.drop (e + 1 + n))).releaseAll (m.take (e + 1 + n)) := by
  have hdrop : m.drop (e + 1) = t := by
    rw [← List.drop_drop, ht]
    rfl
  have htake : m.take (e + 1) = m.take e ++ [cr] := by
    rw [List.take_add, ht]
    rfl
  have hsplit : m.take (e + 1 + n) = m.take (e + 1) ++ t.take n := by
    rw [← hdrop]
    exact List.take_add
  rw [ht] at hlen hnpre
  -- up to the `'\r'`, the `'\r'` itself, and the stretch behind it
  calc scan (delimiter b) m
      = (scan (delimiter b) (cr :: t)).releaseAll (m.take e) := by rw [scan_take b hno, ht]
    _ = (scan (delimiter b) t).releaseAll (m.take (e + 1)) := by
      rw [scan_cons_of_not_isPrefix hlen hnpre, htake]
      simp [Result.releaseAll, Result.release]
    _ = ((scan (delimiter b) (t.drop n)).releaseAll (t.take n)).releaseAll (m.take (e + 1)) := by
      rw [scan_take b hnext]
    _ = (scan (delimiter b) (m.drop (e + 1 + n))).releaseAll (m.take (e + 1 + n)) := by
      rw [Result.releaseAll_releaseAll, hsplit, ← List.drop_drop, hdrop]

/-- A positive length is saved from the front of the buffer. -/
theorem save_inl (written m : Bytes) {n : ℕ} (hn : 0 < n) :
    save written m n = .inl (written ++ m.take n, m.drop n) := by
  unfold save
  rw [if_neg (by omega), if_neg (by omega)]
  simp

/-- The stretch that is saved behind a `'\r'` at which no delimiter begins is one the scan releases:
up to the next `'\r'`, or to the end. -/
theorem save_past {b m t : Bytes} {e : ℕ} (written : Bytes) (hm : m.length < 2 ^ 31)
    (hno : cr ∉ m.take e) (ht : m.drop e = cr :: t)
    (hlen : (delimiter b).length ≤ (m.drop e).length) (hnpre : ¬ delimiter b <+: m.drop e) :
    ∃ n, (match find m [cr] (e + 1) with
        | some i => save written m (toInt i)
        | none => save written m m.length) = .inl (written ++ m.take n, m.drop n) ∧
      scan (delimiter b) m = (scan (delimiter b) (m.drop n)).releaseAll (m.take n) := by
  have hdrop : m.drop (e + 1) = t := by
    rw [← List.drop_drop, ht]
    rfl
  have hmlen : m.length = e + 1 + t.length := by
    have htlen := congrArg List.length ht
    rw [List.length_drop, List.length_cons] at htlen
    omega
  unfold find
  rw [hdrop]
  cases hnext : firstAt [cr] t with
  | none =>
    -- no other `'\r'`: the stretch goes on to the end
    have hno' : cr ∉ t.take t.length := by
      rw [List.take_length]
      exact firstAt_singleton_eq_none_iff.mp hnext
    have hscan := scan_past hno ht hlen hnpre hno'
    rw [← hmlen] at hscan
    exact ⟨m.length, save_inl written m (by omega), hscan⟩
  | some j =>
    obtain ⟨hno', -⟩ := firstAt_singleton_spec hnext
    have hjlen := firstAt_length_le hnext
    -- up to the next `'\r'`, whose place fits an `int`
    have hj : toInt (j + (e + 1)) = ((e + 1 + j : ℕ) : ℤ) := by
      rw [Nat.add_comm j]
      exact toInt_of_lt (by omega)
    simp only [Option.map_some, hj]
    exact ⟨e + 1 + j, save_inl written m (Nat.add_pos_left e.succ_pos j),
      scan_past hno ht hlen hnpre hno'⟩

/-- One turn of the content loop stops where the scan stops, to wait or complete, or it saves a
stretch that the scan releases. -/
def TurnScans (b m : Bytes) : Prop :=
  ∀ written,
    (contentTurn (some b) (written, m) = .inr ⟨written, m, .wait⟩ ∧
      scan (delimiter b) m = ⟨[], m, false⟩) ∨
    (contentTurn (some b) (written, m) = .inr ⟨written, m, .complete⟩ ∧
      scan (delimiter b) m = ⟨[], m, true⟩) ∨
    ∃ n, contentTurn (some b) (written, m) = .inl (written ++ m.take n, m.drop n) ∧
      scan (delimiter b) m = (scan (delimiter b) (m.drop n)).releaseAll (m.take n)

/-- One turn of the content loop scans, when its lengths fit an `int`: the length of the delimiter
that the loop computes is then the length it has. -/
theorem contentTurn_scan {b m : Bytes} (hb : b.length + 8 < 2 ^ 31) (hm : m.length < 2 ^ 31) :
    TurnScans b m := by
  intro written
  -- the length of the delimiter goes through an `int` unharmed
  have hL : toSize (toInt (b.length + 8)) = (delimiter b).length := by
    rw [toInt_of_lt hb, delimiter_length]
    exact toSize_natCast (by omega)
  have hD := delimiter_ne_nil b
  unfold contentTurn
  simp only [toInt_of_lt hm, hL, lit_cr, find_zero]
  -- an empty buffer makes the turn wait
  by_cases h0 : m = []
  · subst h0
    exact .inl ⟨rfl, rfl⟩
  have hpos := List.length_pos_of_ne_nil h0
  rw [if_neg (by omega)]
  cases hfind : firstAt [cr] m with
  | none =>
    -- no `'\r'`: everything is saved
    have hno := firstAt_singleton_eq_none_iff.mp hfind
    exact .inr (.inr ⟨m.length, save_inl written m hpos, scan_take b (by rwa [List.take_length])⟩)
  | some e =>
    obtain ⟨hno, t, ht⟩ := firstAt_singleton_spec hfind
    have hte : toInt e = (e : ℤ) := by
      have hle := firstAt_length_le hfind
      exact toInt_of_lt (by omega)
    simp only [hte]
    by_cases hlen : (delimiter b).length ≤ m.length - e
    · rw [if_pos hlen]
      by_cases htake : (m.drop e).take (delimiter b).length = delimiter b
      · -- the delimiter ends the content, when nothing is left in front of it
        rw [if_pos htake]
        have hpre : delimiter b <+: m.drop e := htake ▸ List.take_prefix _ _
        by_cases he : e = 0
        · subst he
          rw [if_pos rfl]
          exact .inr (.inl ⟨rfl, scan_of_isPrefix hD hpre⟩)
        · rw [if_neg he]
          exact .inr (.inr ⟨e, save_inl written m (Nat.pos_of_ne_zero he), scan_take b hno⟩)
      · -- the first `'\r'` begins no delimiter: it is saved, up to the next one
        rw [if_neg htake]
        have hnpre : ¬ delimiter b <+: m.drop e :=
          fun h => htake (List.prefix_iff_eq_take.mp h).symm
        exact .inr (.inr (save_past written hm hno ht (by rwa [List.length_drop]) hnpre))
    · -- too few bytes behind the `'\r'`: what is in front of it is saved, and then the loop waits
      rw [if_neg hlen]
      by_cases he : e = 0
      · subst he
        rw [if_pos rfl]
        refine .inl ⟨rfl, ?_⟩
        rw [List.drop_zero] at ht
        rw [ht] at hlen ⊢
        exact scan_cons_of_short (delimiter_head? b) (by omega)
      · rw [if_neg he]
        exact .inr (.inr ⟨e, save_inl written m (Nat.pos_of_ne_zero he), scan_take b hno⟩)

/-- A content loop whose turns scan is the scan. By induction on the turns, over the end of the
buffer that is left. -/
theorem contentLoop_of_turns {b m : Bytes} (h : ∀ m', m' <:+ m → TurnScans b m') :
    contentLoop (some b) m =
      ⟨(scan (delimiter b) m).released, (scan (delimiter b) m).held,
        if (scan (delimiter b) m).found then .complete else .wait⟩ := by
  unfold contentLoop
  refine Loop.eval_induction (contentTurn_decreasing (some b))
    (P := fun p o => p.2 <:+ m → o =
      ⟨p.1 ++ (scan (delimiter b) p.2).released, (scan (delimiter b) p.2).held,
        if (scan (delimiter b) p.2).found then .complete else .wait⟩) ?_ ?_ ([], m)
        (List.suffix_refl m)
  · rintro ⟨written, m'⟩ o hturn hm
    rcases h m' hm written with ⟨ht, hs⟩ | ⟨ht, hs⟩ | ⟨n, ht, -⟩
    · rw [ht] at hturn; cases hturn
      simp [hs]
    · rw [ht] at hturn; cases hturn
      simp [hs]
    · rw [ht] at hturn; cases hturn
  · rintro ⟨written, m'⟩ p hturn ih hm
    rcases h m' hm written with ⟨ht, -⟩ | ⟨ht, -⟩ | ⟨n, ht, hs⟩
    · rw [ht] at hturn; cases hturn
    · rw [ht] at hturn; cases hturn
    · rw [ht] at hturn; cases hturn
      rw [ih ((List.drop_suffix n m').trans hm), hs,
        Result.releaseAll_released, ← List.append_assoc]
      rfl

/-- **The content loop is the scan for the final delimiter**, when its lengths fit an `int`: it
writes what the scan releases, keeps what the scan holds back, and is complete when the scan has
found the delimiter. -/
theorem contentLoop_eq_scan {b m : Bytes} (hb : b.length + 8 < 2 ^ 31) (hm : m.length < 2 ^ 31) :
    contentLoop (some b) m =
      ⟨(scan (delimiter b) m).released, (scan (delimiter b) m).held,
        if (scan (delimiter b) m).found then .complete else .wait⟩ :=
  contentLoop_of_turns fun _ hs => contentTurn_scan hb (lt_of_le_of_lt hs.length_le hm)

/-- On an empty buffer the loop waits at once, whatever the boundary is. -/
theorem contentLoop_nil (boundary? : Option Bytes) :
    contentLoop boundary? [] = ⟨[], [], .wait⟩ :=
  Loop.eval_of_inr rfl

end HandleRecv

end Cherokee
