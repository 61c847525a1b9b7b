import Cherokee.Action
import Cherokee.Lib.Loop
import Mathlib.Data.List.GetD

/-!
# `HandleRecv::process` (`event/myevent.cpp`)

A call of `HandleRecv::process` receives until `recv` has nothing more, the peer has closed or the
request is complete. Every received chunk goes behind `recvMsg` and then through the stages of the
request: request line, headers, and, for an upload, start boundary, part headers and content. Each
stage consumes what it can from the front of `recvMsg`.

`HandleRecv.recvTurn` is the body of the receive loop for one chunk, `HandleRecv.recvLoop` the loop
and `HandleRecv.process` the call, on the `requestStatus` entry of its descriptor. The handler
touches `responseStatus` only through `setBodyFileName`, which stands among its actions.
`HandleRecv.run` makes calls one after the other until the results of `recv` are used up.
-/

open Search

namespace Cherokee

/-- `recvMsg.find("\r\n")`, then `substr(0, endIndex + 2)` and `erase(0, endIndex + 2)`: the first
line with its terminator, and the rest. -/
def cutLine (recvMsg : Bytes) : Option (Bytes × Bytes) := cutAfter crlf recvMsg

/-- A line that is clear of line ends is cut off with its own terminator, and what is behind it
stays. -/
theorem cutLine_append {line : Bytes} (h : ¬ crlf <:+: line ++ [cr]) (rest : Bytes) :
    cutLine (line ++ (crlf ++ rest)) = some (line ++ crlf, rest) :=
  cutAfter_of_not_isInfix h rest

/-- A terminator in front is the blank line. -/
theorem cutLine_crlf (rest : Bytes) : cutLine (crlf ++ rest) = some (crlf, rest) := by
  have hclear : ¬ crlf <:+: [] ++ [cr] := by decide
  exact cutLine_append hclear rest

/-- Cutting a line off makes the string shorter, so that the loops over lines come to an end. -/
theorem cutLine_rest_lt {recvMsg line rest : Bytes} (h : cutLine recvMsg = some (line, rest)) :
    rest.length < recvMsg.length := by
  have := cutAfter_rest_length h
  simp only [crlf, List.length_cons, List.length_nil] at this
  omega

namespace Request

/-- Entering a media type touches the headers only. -/
theorem addContentType_fields {r r' : Request} {key value : Bytes}
    (h : r.addContentType key value = .ok r') : ∃ msgHeader, r' = { r with msgHeader } := by
  unfold addContentType at h
  split at h
  · simp only [bind, Except.bind] at h
    split at h
    · cases h
    · split at h
      · cases h
      · cases h
        exact ⟨_, rfl⟩
  · cases h
    exact ⟨_, rfl⟩

/-- A header line touches the headers and the content length only. -/
theorem addHeaderOpt_fields {r r' : Request} {headLine : Bytes}
    (h : r.addHeaderOpt headLine = .ok r') :
    ∃ msgHeader contentLength, r' = { r with msgHeader, contentLength } := by
  unfold addHeaderOpt at h
  simp only at h
  split at h
  · cases h
  · split at h
    · cases hs : stoll _ with
      | error f => rw [hs] at h; cases h
      | ok n =>
        rw [hs] at h
        cases h
        exact ⟨_, _, rfl⟩
    · split at h
      · obtain ⟨msgHeader, rfl⟩ := addContentType_fields h
        exact ⟨msgHeader, _, rfl⟩
      · cases h
        exact ⟨_, _, rfl⟩

/-- The data that has not been read yet is left alone by it. -/
theorem addHeaderOpt_recvMsg {r r' : Request} {headLine : Bytes}
    (h : r.addHeaderOpt headLine = .ok r') : r'.recvMsg = r.recvMsg := by
  obtain ⟨_, _, rfl⟩ := addHeaderOpt_fields h
  rfl

/-- The end of the header section: the body is next, and an upload begins with its start boundary,
whatever has been left of another part. -/
def endHead (r : Request) : Request :=
  if r.isMultipart then { r with status := .handleBody, fileMsgStatus := .fileBeginFlag }
  else { r with status := .handleBody }

/-- One turn of `for (int i = 0; strLine[i] != '\"'; ++i)`, which copies a character behind the file
name. Behind the last character of the string stands a zero byte; an index further behind is
outside, and so is one that an `int` does not count up to. -/
def nameTurn (strLine : Bytes) : ℕ × Bytes → (ℕ × Bytes) ⊕ Except Fault (ℕ × Bytes)
  | (i, name) =>
    -- an index equal to the length is inside: it stands on the zero byte
    if strLine.length < i ∨ 2 ^ 31 ≤ i then .inr (.error .undefined)
    else if strLine.getD i 0 = 34 then .inr (.ok (i, name))
    else .inl (i + 1, name ++ [strLine.getD i 0])

/-- The index comes nearer to the end of the string in every turn, so that the scan ends, inside or
outside. -/
theorem nameTurn_decreasing (strLine : Bytes) :
    Loop.Decreasing (nameTurn strLine) fun p => strLine.length + 1 - p.1 := by
  rintro ⟨i, name⟩ p h
  unfold nameTurn at h
  simp only at h
  split at h
  · cases h
  · split at h
    · cases h
    · cases h
      simp only
      omega

/-- The characters up to the next double quote go behind the file name: the index of the quote, and
the name. The scan has no bound of its own. -/
def scanName (strLine name : Bytes) : Except Fault (ℕ × Bytes) :=
  Loop.eval (nameTurn_decreasing strLine) (0, name)

/-- A line of a part's header other than the blank one: `filename="` is looked for, and what stands
behind it is scanned up to the next double quote, and put behind the name that is there already. -/
def addPartLine (r : Request) (strLine : Bytes) : Except Fault Request :=
  match find strLine (lit "filename") 0 with
  | some endIndex =>
    -- `erase` clamps, and the scan goes on with the name there is already
    match scanName (strLine.drop (endIndex + (lit "filename=\"").length)) r.recvFileName with
    | .ok (_, recvFileName) => .ok { r with recvFileName := removeSpaces recvFileName }
    | .error f => .error f
  | none => .ok r

/-- What the scan makes of an index and the characters copied so far: all up to the first quote from
there on, as long as an `int` counts up to it. -/
def nameFrom (strLine : Bytes) (p : ℕ × Bytes) : Except Fault (ℕ × Bytes) :=
  match firstAt [34] (strLine.drop p.1) with
  | some j =>
    if p.1 + j < 2 ^ 31 then .ok (p.1 + j, p.2 ++ (strLine.drop p.1).take j) else .error .undefined
  | none => .error .undefined

/-- A turn that ends the scan stands on a quote, or outside of the string. -/
theorem nameTurn_ends {strLine : Bytes} {p : ℕ × Bytes} {o : Except Fault (ℕ × Bytes)}
    (hturn : nameTurn strLine p = .inr o) : o = nameFrom strLine p := by
  obtain ⟨i, name⟩ := p
  unfold nameTurn at hturn
  unfold nameFrom
  simp only at hturn ⊢
  split at hturn
  · next hout =>
    -- the index is outside: no quote is left, or too many characters were copied
    cases hturn
    rcases hout with hlen | hint
    · rw [List.drop_eq_nil_of_le (le_of_lt hlen)]
      rfl
    · cases firstAt [34] (strLine.drop i) with
      | none => rfl
      | some j =>
        simp only
        rw [if_neg (by omega)]
  · next hin =>
    split at hturn
    · next hquote =>
      cases hturn
      have hi : i < strLine.length := by
        by_contra hle
        rw [List.getD_eq_default _ _ (by omega)] at hquote
        cases hquote
      -- strLine.drop (i + 1) := by :: the quote stands at the index, so the name ends here
      have hdrop : strLine.drop i = 34 :: strLine.drop (i + 1) := by
        rw [List.drop_eq_getElem_cons hi, ← hquote, List.getD_eq_getElem _ _ hi]
      have hpre : [(34 : UInt8)] <+: 34 :: strLine.drop (i + 1) := ⟨_, rfl⟩
      rw [hdrop, firstAt_of_isPrefix hpre]
      simp only
      rw [if_pos (by omega)]
      simp
    · cases hturn

/-- A turn with which the scan goes on has copied a character that is no quote, so that it comes to
the same end from there. -/
theorem nameTurn_copies {strLine : Bytes} {p p' : ℕ × Bytes}
    (hturn : nameTurn strLine p = .inl p') :
    nameFrom strLine p' = nameFrom strLine p := by
  obtain ⟨i, name⟩ := p
  unfold nameTurn at hturn
  unfold nameFrom
  simp only at hturn ⊢
  split at hturn
  · cases hturn
  · split at hturn
    · cases hturn
    · next hquote =>
      cases hturn
      by_cases hi : i < strLine.length
      · have hdrop : strLine.drop i = strLine.getD i 0 :: strLine.drop (i + 1) := by
          rw [List.drop_eq_getElem_cons hi, List.getD_eq_getElem _ _ hi]
        have hno : ¬ [34] <+: strLine.getD i 0 :: strLine.drop (i + 1) :=
          fun h => hquote (List.cons_prefix_cons.mp h).1.symm
        rw [hdrop, firstAt_cons_of_not_isPrefix hno]
        cases firstAt [34] (strLine.drop (i + 1)) with
        | none => rfl
        | some j =>
          simp only [Option.map_some, List.take_succ_cons, List.append_assoc, List.singleton_append]
          rw [show i + 1 + j = i + (j + 1) by omega]
      · -- the zero byte behind the string is copied, and the next index is outside
        rw [List.drop_eq_nil_of_le (by omega), List.drop_eq_nil_of_le (by omega)]
        rfl

/-- **The scan for the double quote** finds the first one, when an `int` counts up to it, and
otherwise runs out of the string. By induction on the turns. -/
theorem scanName_eq (strLine name : Bytes) :
    scanName strLine name = match firstAt [34] strLine with
      | some i => if i < 2 ^ 31 then .ok (i, name ++ strLine.take i) else .error .undefined
      | none => .error .undefined := by
  have hscan : scanName strLine name = nameFrom strLine (0, name) := by
    refine Loop.eval_induction (nameTurn_decreasing strLine)
      (P := fun p o => o = nameFrom strLine p) ?_ ?_ (0, name)
    · exact fun p o hturn => nameTurn_ends hturn
    · exact fun p p' hturn ih => ih.trans (nameTurn_copies hturn)
  rw [hscan, nameFrom]
  simp

/-- A part header line touches the file name only. -/
theorem addPartLine_fields {r r' : Request} {strLine : Bytes} (h : r.addPartLine strLine = .ok r') :
    ∃ recvFileName, r' = { r with recvFileName } := by
  unfold addPartLine at h
  split at h
  · split at h
    · cases h
      exact ⟨_, rfl⟩
    · cases h
  · cases h
    exact ⟨r.recvFileName, rfl⟩

/-- What goes wrong in a part header line is the scan, which throws nothing and just reads
outside. -/
theorem addPartLine_error {r : Request} {strLine : Bytes} {f : Fault}
    (h : r.addPartLine strLine = .error f) : f = .undefined := by
  unfold addPartLine at h
  split at h
  · rw [scanName_eq] at h
    cases hquote : firstAt [34] (strLine.drop _) with
    | none =>
      rw [hquote] at h
      cases h
      rfl
    | some i =>
      rw [hquote] at h
      simp only at h
      split at h
      · cases h
      · next heq =>
        cases h
        split at heq
        · cases heq
        · cases heq
          rfl
  · cases h

/-- The data that has not been read yet is left alone by a part header line. -/
theorem addPartLine_recvMsg {r r' : Request} {strLine : Bytes}
    (h : r.addPartLine strLine = .ok r') : r'.recvMsg = r.recvMsg := by
  obtain ⟨_, rfl⟩ := addPartLine_fields h
  rfl

/-- The file an upload is written to, as `ofstream` takes it: the path ends at the first zero
byte. -/
def uploadPath (r : Request) : Bytes := cStr (lit "filedir/" ++ r.recvFileName)

end Request

namespace HandleRecv

/-! ### Request line and headers -/

/-- The `HANDLE_INIT` stage: a complete line is taken apart as the request line, and the headers are
next. -/
def requestLineStage (r : Request) : Request × List Action :=
  if r.status = .handleInit then
    match cutLine r.recvMsg with
    | some (line, rest) =>
      ({ r.setRequestLine line with recvMsg := rest, status := .handleHead }, [.requestLine line])
    -- the line is not complete: the next chunk goes on with it
    | none => (r, [])
  else (r, [])

/-- One turn of a loop over header lines: without a complete line the loop waits, a blank line ends
the section, and any other is an option. -/
def lineTurn (blank : Request → Request) (option : Request → Bytes → Except Fault Request)
    (r : Request) : Request ⊕ Except Fault Request :=
  match cutLine r.recvMsg with
  | none => .inr (.ok r)
  | some (line, rest) =>
    -- the line is erased before it is looked at
    let r := { r with recvMsg := rest }
    if line = crlf then .inr (.ok (blank r))
    else
      match option r line with
      | .ok r => .inl r
      | .error f => .inr (.error f)

/-- Every turn with which such a loop goes on has cut a line off, as long as the options leave the
rest alone. -/
theorem lineTurn_decreasing {blank : Request → Request}
    {option : Request → Bytes → Except Fault Request}
    (h : ∀ r r' line, option r line = .ok r' → r'.recvMsg = r.recvMsg) :
    Loop.Decreasing (lineTurn blank option) fun r => r.recvMsg.length := by
  intro r r' hturn
  unfold lineTurn at hturn
  split at hturn
  · cases hturn
  · next line rest hc =>
    simp only at hturn
    split at hturn
    · cases hturn
    · split at hturn
      · next r'' ho =>
        cases hturn
        change r'.recvMsg.length < _
        rw [h _ _ _ ho]
        exact cutLine_rest_lt hc
      · cases hturn

/-- One turn of the header loop, in which a line other than the blank one is a header. -/
def headTurn : Request → Request ⊕ Except Fault Request :=
  lineTurn Request.endHead Request.addHeaderOpt

/-- The header loop ends, since a header leaves the rest alone. -/
theorem headTurn_decreasing : Loop.Decreasing headTurn fun r => r.recvMsg.length :=
  lineTurn_decreasing fun _ _ _ => Request.addHeaderOpt_recvMsg

/-- The `HANDLE_HEAD` stage: the loop over the headers, when the request is at them. -/
def headStage (r : Request) : Except Fault Request :=
  if r.status = .handleHead then Loop.eval headTurn_decreasing r else .ok r

/-! ### The stages of an upload -/

/-- The `FILE_BEGIN_FLAG` stage: the first line of the body is compared with the start boundary. The
result is `none` when it is another one, for which the source asks for the redirect. -/
def beginStage (r : Request) : Except Fault (Option Request) :=
  if r.fileMsgStatus = .fileBeginFlag then
    match find r.recvMsg crlf 0 with
    | some endIndex =>
      match r.boundary? with
      -- `getHeaders().at("boundary")` throws
      | none => .error .outOfRange
      | some boundary =>
        if r.recvMsg.take endIndex = lit "--" ++ boundary then
          .ok (some { r with
            fileMsgStatus := .fileHead, recvMsg := r.recvMsg.drop (endIndex + 2) })
        -- the redirect, with the line still in `recvMsg`
        else .ok none
    -- no line yet: the stages behind this one do nothing
    | none => .ok (some r)
  else .ok (some r)

/-- One turn of the part header loop, in which a line other than the blank one may name the file. -/
def partTurn : Request → Request ⊕ Except Fault Request :=
  lineTurn (fun r => { r with fileMsgStatus := .fileContent }) Request.addPartLine

/-- The part header loop ends, since its lines leave the rest alone. -/
theorem partTurn_decreasing : Loop.Decreasing partTurn fun r => r.recvMsg.length :=
  lineTurn_decreasing fun _ _ _ => Request.addPartLine_recvMsg

/-- The `FILE_HEAD` stage: the loop over the header of the part, when the upload is at it. -/
def partStage (r : Request) : Except Fault Request :=
  if r.fileMsgStatus = .fileHead then Loop.eval partTurn_decreasing r else .ok r

/-- How the content loop ends, in its three ways out. -/
inductive ContentEnd where
  /-- More bytes are needed. -/
  | wait
  /-- The final delimiter stands at the front. -/
  | complete
  | crash (f : Fault)
deriving DecidableEq, Repr

/-- What the content loop leaves: the bytes written to the file, and what is still in `recvMsg`. -/
structure Content where
  written : Bytes
  recvMsg : Bytes
  ended : ContentEnd
deriving DecidableEq, Repr

/-- `"\r\n--" + boundary + "--\r\n"`: what ends the content of an upload. -/
def delimiter (boundary : Bytes) : Bytes := lit "\r\n--" ++ boundary ++ lit "--\r\n"

/-- `ofs.write(recvMsg.c_str(), saveLen); recvMsg.erase(0, saveLen);` A turn that saves nothing
repeats itself for ever. -/
def save (written recvMsg : Bytes) (saveLen : ℤ) : (Bytes × Bytes) ⊕ Content :=
  if saveLen < 0 then .inr ⟨written, recvMsg, .crash .undefined⟩
  else if saveLen = 0 then .inr ⟨written, recvMsg, .crash .diverges⟩
  else .inl (written ++ recvMsg.take saveLen.toNat, recvMsg.drop saveLen.toNat)

/-- One turn of the content loop. The lengths `saveLen` and `boundarySecLen` are `int`s, compared
with and converted back to `size_t`s. -/
def contentTurn (boundary? : Option Bytes) : Bytes × Bytes → (Bytes × Bytes) ⊕ Content
  | (written, recvMsg) =>
    let saveLen := toInt recvMsg.length
    if saveLen = 0 then .inr ⟨written, recvMsg, .wait⟩
    else
      match find recvMsg (lit "\r") 0 with
      -- nothing that could begin the delimiter: all of it is saved
      | none => save written recvMsg saveLen
      | some endIndex =>
        match boundary? with
        -- `getHeaders().at("boundary")` throws
        | none => .inr ⟨written, recvMsg, .crash .outOfRange⟩
        | some boundary =>
          let boundarySecLen := toInt (boundary.length + 8)
          if toSize boundarySecLen ≤ recvMsg.length - endIndex then
            if (recvMsg.drop endIndex).take (toSize boundarySecLen) = delimiter boundary then
              -- what stands in front of the delimiter is saved first
              if endIndex = 0 then .inr ⟨written, recvMsg, .complete⟩
              else save written recvMsg (toInt endIndex)
            else
              -- this `'\r'` is content: saved up to the next one
              match find recvMsg (lit "\r") (endIndex + 1) with
              | some endIndex => save written recvMsg (toInt endIndex)
              | none => save written recvMsg saveLen
          -- too few bytes to tell: those in front are saved, and then the loop waits
          else if endIndex = 0 then .inr ⟨written, recvMsg, .wait⟩
          else save written recvMsg (toInt endIndex)

/-- A turn that saves leaves less in `recvMsg`. -/
theorem save_decreasing {written recvMsg : Bytes} {saveLen : ℤ} {p : Bytes × Bytes}
    (hne : recvMsg ≠ []) (h : save written recvMsg saveLen = .inl p) :
    p.2.length < recvMsg.length := by
  unfold save at h
  split at h
  · cases h
  · split at h
    · cases h
    · cases h
      have := List.length_pos_of_ne_nil hne
      rw [List.length_drop]
      omega

/-- So the content loop ends, in whatever way: a turn with which it goes on has saved something. -/
theorem contentTurn_decreasing (boundary? : Option Bytes) :
    Loop.Decreasing (contentTurn boundary?) fun p => p.2.length := by
  rintro ⟨written, recvMsg⟩ p h
  have hne : toInt recvMsg.length ≠ 0 → recvMsg ≠ [] := by
    rintro h0 rfl
    exact h0 rfl
  unfold contentTurn at h
  simp only at h
  split at h
  · cases h
  · next h0 =>
    split at h
    · exact save_decreasing (hne h0) h
    · split at h
      · cases h
      · split at h
        · split at h
          · split at h
            · cases h
            · exact save_decreasing (hne h0) h
          · split at h
            · exact save_decreasing (hne h0) h
            · exact save_decreasing (hne h0) h
        · split at h
          · cases h
          · exact save_decreasing (hne h0) h

/-- The content loop, from nothing written, on what has been received of the content. -/
def contentLoop (boundary? : Option Bytes) (recvMsg : Bytes) : Content :=
  Loop.eval (contentTurn_decreasing boundary?) ([], recvMsg)

/-! ### One chunk -/

/-- How a turn of the receive loop ends. -/
inductive Flow where
  /-- Receive again. -/
  | again
  /-- `break` out of the receive loop. -/
  | leave
  | crash (f : Fault)
deriving DecidableEq, Repr

/-- What a turn of the receive loop does: the request it leaves, its actions in their order, and how
it ends. -/
structure Turn where
  request : Request
  acts : List Action
  flow : Flow

/-- Actions taken before, in front of those of the turn. -/
def Turn.prepend (acts : List Action) (t : Turn) : Turn := { t with acts := acts ++ t.acts }

/-- Completion of the request: a response for `name` is asked for and the descriptor armed for
output. -/
def complete (r : Request) (name : Bytes) : Turn where
  request := { r with status := .handleComplete }
  acts := [.setBodyFileName name, .modifyWaitFd true true true]
  flow := .leave

/-- The `FILE_CONTENT` and `FILE_COMPLETE` stages; `ofs` tells whether the file opens. The file is
opened in every turn that comes to the content. -/
def contentStage (ofs : Bool) (r : Request) : Turn :=
  if r.fileMsgStatus = .fileContent then
    if ofs then
      let content := contentLoop r.boundary? r.recvMsg
      let acts := [.openAppend r.uploadPath true, .append r.uploadPath content.written]
      let r := { r with recvMsg := content.recvMsg }
      match content.ended with
      | .wait => ⟨r, acts, .again⟩
      | .complete =>
        (complete { r with fileMsgStatus := .fileComplete } (lit "/redirect")).prepend acts
      | .crash f => ⟨r, acts, .crash f⟩
    -- `if (!ofs)` leaves the receive loop without arming the descriptor
    else ⟨r, [.openAppend r.uploadPath false], .leave⟩
  else if r.fileMsgStatus = .fileComplete then complete r (lit "/redirect")
  else ⟨r, [], .again⟩

/-- The body of a `POST`: the stages of an upload one after the other, and a redirect for any other
one. -/
def postStage (ofs : Bool) (r : Request) : Turn :=
  if r.isMultipart then
    match beginStage r with
    | .error f => ⟨r, [], .crash f⟩
    -- no start boundary
    | .ok none => complete r (lit "/redirect")
    | .ok (some r) =>
      match partStage r with
      | .error f => ⟨r, [], .crash f⟩
      | .ok r => contentStage ofs r
  else complete r (lit "/redirect")

/-- The `HANDLE_BODY` stage. A `GET` is complete with its head, a `POST` goes through the stages of
an upload, and a `PUT` asks for its response and stays in the stage. -/
def bodyStage (ofs : Bool) (r : Request) : Turn :=
  if r.status = .handleBody then
    if r.requestMethod = lit "GET" then complete r r.requestResource
    else if r.requestMethod = lit "POST" then postStage ofs r
    else if r.requestMethod = lit "PUT" then
      -- `setStatus(HANDLE_BODY)` changes nothing here
      ⟨r, [.setBodyFileName r.requestResource, .modifyWaitFd true true true], .leave⟩
    -- any other method: the loop receives again
    else ⟨r, [], .again⟩
  else ⟨r, [], .again⟩

/-- The body of the receive loop for a received chunk, which goes through all stages that it is
enough for. -/
def recvTurn (buf : Bytes) (ofs : Bool) (r : Request) : Turn :=
  let r := { r with recvMsg := r.recvMsg ++ buf }
  let (r, acts) := requestLineStage r
  match headStage r with
  | .error f => ⟨r, .recvd buf :: acts, .crash f⟩
  | .ok r => (bodyStage ofs r).prepend (.recvd buf :: acts)

/-! ### The call -/

/-- What the system answers in a turn of the receive loop: what `recv` returns, and whether a file
opens that the turn may want. -/
inductive RecvResult where
  /-- `recv` returns a chunk; `ofs` tells whether the upload file opens, should the turn open it. -/
  | data (buf : Bytes) (ofs : Bool)
  /-- `-1` with `EAGAIN` -/
  | again
  /-- `0`: the peer has closed. -/
  | closed
  /-- `-1` with any other `errno` -/
  | failed
deriving DecidableEq, Repr

/-- What the receive loop leaves: the `Request`, the actions in their order, and the results not
asked for. -/
structure Received where
  request : Request
  acts : List Action
  crash : Option Fault
  rest : List RecvResult

/-- Actions taken before, in front of those of the loop. -/
def Received.prepend (acts : List Action) (x : Received) : Received :=
  { x with acts := acts ++ x.acts }

/-- The receive loop on the results `recv` gives. When they are used up there is nothing to receive
and `recv` returns `EAGAIN`. -/
def recvLoop : List RecvResult → Request → Received
  | [], r => ⟨r, [.modifyWaitFd true true false], none, []⟩
  | .again :: rest, r => ⟨r, [.modifyWaitFd true true false], none, rest⟩
  | .closed :: rest, r => ⟨{ r with status := .handleError }, [], none, rest⟩
  | .failed :: rest, r => ⟨{ r with status := .handleError }, [], none, rest⟩
  | .data buf ofs :: rest, r =>
    let t := recvTurn buf ofs r
    match t.flow with
    | .again => (recvLoop rest t.request).prepend t.acts
    | .leave => ⟨t.request, t.acts, none, rest⟩
    | .crash f => ⟨t.request, t.acts, some f, rest⟩

/-- Behind the receive loop: a complete request is logged and erased, one in error closes the
connection, and any other stays in the table. -/
def finish (r : Request) : Option Request × List Action :=
  if r.status = .handleComplete then (none, [.processed r.requestMethod r.requestResource])
  else if r.status = .handleError then (none, [.deleteWaitFd, .shutdown, .closeClient])
  else (some r, [])

/-- What a call leaves: the entry of `requestStatus`, the actions, and the results not asked for. -/
structure Call where
  request : Option Request
  acts : List Action
  crash : Option Fault
  rest : List RecvResult

/-- Actions taken before, in front of those of the call. -/
def Call.prepend (acts : List Action) (x : Call) : Call := { x with acts := acts ++ x.acts }

/-- What the call does once the receive loop has left; behind a crash nothing is done any more. -/
def Received.finish (x : Received) : Call :=
  match x.crash with
  | some f => ⟨some x.request, x.acts, some f, x.rest⟩
  | none =>
    let (request, acts) := HandleRecv.finish x.request
    ⟨request, x.acts ++ acts, none, x.rest⟩

/-- `HandleRecv::process` on the `requestStatus` entry of its descriptor. Without an entry a new
`Request` is made. -/
def process (results : List RecvResult) (entry : Option Request) : Call :=
  (recvLoop results (entry.getD Request.init)).finish

/-! ### Calls one after the other -/

/-- At most `n` calls, each on the results that the one before it has not asked for. A call that
does not return is the last one. -/
def calls : ℕ → List RecvResult → Option Request → Call
  | 0, results, entry => ⟨entry, [], none, results⟩
  | _ + 1, [], entry => ⟨entry, [], none, []⟩
  | n + 1, result :: results, entry =>
    let c := process (result :: results) entry
    match c.crash with
    | some _ => c
    | none => (calls n c.rest c.request).prepend c.acts

/-- Calls until the results of `recv` are used up: as every call takes one at least, no more are
needed than there are results. -/
def run (results : List RecvResult) (entry : Option Request) : Call :=
  calls results.length results entry

end HandleRecv

end Cherokee
