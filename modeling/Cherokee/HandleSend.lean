import Cherokee.HandleRecv

/-!
# `HandleSend::process` (`event/myevent.cpp`)

A call of `HandleSend::process` takes the resource of a new response apart and constructs the
response (`HandleSend.initStage`), then sends until `send` or `sendfile` has no room, an error
occurs or the response is complete (`HandleSend.sendLoop`), and then re-arms the descriptor
(`HandleSend.finish`).

The call works on the entries of both tables for its descriptor: it sets the status of the
`Request` when sending fails, and `operator[]` makes an entry where there is none. Behind a complete
response that is a `Response` whose body type nothing has set.
-/

open Search

namespace Cherokee

namespace HandleSend

/-! ### What a call finds -/

/-- The files and directories as a call finds them. -/
structure World where
  /-- The content of `html/filelist.html`; `none` when it does not open. -/
  page : Option Bytes
  /-- The entries of `filedir` in the order of `readdir`; `none` when `opendir` fails. -/
  filedir : Option (List Bytes)
  /-- `open(path, O_RDONLY)` and `fstat`: the descriptor and the size, an `off_t`; `none` is
  `-1`. -/
  openRead : Bytes → Option (ℤ × Fin (2 ^ 63))
  /-- `remove(path) == 0` -/
  remove : Bytes → Bool
  /-- Whether `std::ofstream(path, out | binary)` opens. -/
  openTrunc : Bytes → Bool
  /-- What a `Response` made in the call holds in the members nothing sets. -/
  fresh : Uninit

/-- What the system answers to `send` or `sendfile`. -/
inductive SendResult where
  /-- At most `n` bytes are taken; `disk` is the content of the file, should it be a `sendfile`. -/
  | accepted (n : ℕ) (disk : Bytes)
  /-- `-1` with `EAGAIN` -/
  | again
  /-- `-1` with any other `errno` -/
  | failed
deriving DecidableEq, Repr

/-! ### The head -/

/-- `HandleSend::getStatusLine`: the three members of the response are set, and the line is put
together from them. -/
def getStatusLine (r : Response) (httpVersion statusCode statusDes : Bytes) : Response × Bytes :=
  ({ r with
      responseHttpVersion := httpVersion
      responseStatusCode := statusCode
      responseStatusDes := statusDes },
    httpVersion ++ lit " " ++ statusCode ++ lit " " ++ statusDes ++ crlf)

/-- `HandleSend::getMessageHeader`: the header lines in their order, each only when its argument is
not empty, and the last one always. -/
def getMessageHeader (contentLength contentType redirectLocation contentRange : Bytes) : Bytes :=
  (if contentLength ≠ [] then lit "Content-Length: " ++ contentLength ++ crlf else []) ++
  (if contentType ≠ [] then
    if contentType = lit "html" then lit "Content-Type: text/html;charset=UTF-8\r\n"
    else if contentType = lit "file" then lit "Content-Type: application/octet-stream\r\n"
    else []
  else []) ++
  (if redirectLocation ≠ [] then lit "Location: " ++ redirectLocation ++ crlf else []) ++
  (if contentRange ≠ [] then lit "Content-Range: 0-" ++ contentRange ++ crlf else []) ++
  lit "Connection: keep-alive\r\n"

/-! ### The file list page -/

/-- `HandleSend::getFileVec`: the names in the directory, without the two that stand for
directories. `readdir` on no directory is undefined. -/
def getFileVec (filedir : Option (List Bytes)) : Except Fault (List Bytes) :=
  match filedir with
  | some names => .ok (names.filter fun name => name ≠ lit "." ∧ name ≠ lit "..")
  | none => .error .undefined

/-- The lines `getline` reads from a file; a line feed at the end begins no other line. -/
def linesOf (content : Bytes) : List Bytes :=
  let lines := content.splitOn lf
  if lines.getLast? = some [] then lines.dropLast else lines

/-- The row of the page for a file, with its name in three places, as it is. -/
def fileRow (filename : Bytes) : Bytes :=
  lit "            <tr><td class=\"col1\">" ++ filename ++
    lit "</td> <td class=\"col2\"><a href=\"downl/" ++ filename ++
    lit "\">downl</a></td> <td class=\"col3\"><a href=\"#\" onclick=\"return confirmDelete('" ++
    filename ++ lit "');\">remov</a></td></tr>" ++ lit "\n"

/-- The line of the template that the rows of the page replace, and which the first loop looks
for. -/
def filelistLabel : Bytes := lit "<!--filelist_label-->"

/-- `HandleSend::getFileListPage`: the template up to the label, the rows, and the rest of the
template. Without the label line the first loop never leaves. -/
def getFileListPage (w : World) (fileListHtml : Bytes) : Except Fault Bytes := do
  let fileVec ← getFileVec w.filedir
  match (linesOf (w.page.getD [])).span (· ≠ filelistLabel) with
  | (before, _ :: after) =>
    let fileListHtml := fileListHtml ++ before.flatMap (· ++ lit "\n") ++
      fileVec.flatMap fileRow ++ after.flatMap (· ++ lit "\n")
    if fileListHtml.length ≤ maxSize then .ok fileListHtml else .error .lengthError
  -- `getline` fails on every turn, and the loop looks for the label only
  | (_, []) => .error .diverges

/-! ### Constructing a response -/

/-- The operation and the file name of a resource: what stands between its first byte and the next
slash, and what stands behind that. The index is an `int`, and `size() - 1` is a `size_t`. -/
def splitResource (bodyFileName : Bytes) : Except Fault (Bytes × Bytes) :=
  if bodyFileName = lit "/" then .ok (lit "/", [])
  else
    let i := 1 + ((bodyFileName.drop 1).takeWhile (· ≠ 47)).length
    -- `++i` past the largest `int`
    if 2 ^ 31 ≤ i then .error .undefined
    else if i < toSize ((bodyFileName.length : ℤ) - 1) then do
      let opera ← substr bodyFileName 1 (i - 1)
      let filename ← substr bodyFileName (i + 1) npos
      return (opera, filename)
    -- no slash, or nothing behind it
    else .ok (lit "redirect", [])

/-- The response with its head, ready to be sent from the first byte. The length of the head is an
`int`. -/
def construct (r : Response) (bodyType : MsgBodyType) (beforeBodyMsg : Bytes) : Response :=
  { r with
    beforeBodyMsg
    beforeBodyMsgLen := toInt beforeBodyMsg.length
    bodyType
    status := .handleHead
    curStatusHasSendLen := 0 }

/-- How a stage of the call ends. -/
inductive Flow where
  /-- The send loop is next. -/
  | proceed
  /-- `return` -/
  | leave
  | crash (f : Fault)
deriving DecidableEq, Repr

/-- What a stage of the call leaves: the entries of both tables, the actions, and how it ends. -/
structure Stage where
  request : Option Request
  response : Response
  acts : List Action
  flow : Flow

/-- Actions taken before, in front of those of the stage. -/
def Stage.prepend (acts : List Action) (x : Stage) : Stage := { x with acts := acts ++ x.acts }

/-- A response has been constructed behind the actions of its branch, and is sent next. -/
def built (request : Option Request) (r : Response) (acts : List Action) : Stage :=
  ⟨request, r, acts ++ [.built r], .proceed⟩

/-- `responseStatus[fd] = Response()`, to be entered again for the resource `name` when the
descriptor is reported for output. -/
def reenter (w : World) (request : Option Request) (name : Bytes) (acts : List Action) : Stage :=
  ⟨request, { Response.init w.fresh with bodyFileName := name },
    acts ++ [.modifyWaitFd true true true], .leave⟩

/-- The branch `opera == "/"`: the page with its own length, behind `200`. -/
def filelistStage (w : World) (request : Option Request) (r : Response) : Stage :=
  let (r, statusLine) := getStatusLine r (lit "HTTP/1.1") (lit "200") (lit "OK")
  match getFileListPage w r.msgBody with
  | .error f => ⟨request, r, [], .crash f⟩
  | .ok msgBody =>
    let r := { r with msgBody, msgBodyLen := msgBody.length }
    built request (construct r .htmlType
      (statusLine ++ getMessageHeader (toDecimal r.msgBodyLen) (lit "html") [] [] ++ crlf)) []

/-- The branch `opera == "downl"`: the file is opened, and its size announced. Where it does not
open, the next call redirects. -/
def downlStage (w : World) (request : Option Request) (r : Response) (filename : Bytes) : Stage :=
  let (r, statusLine) := getStatusLine r (lit "HTTP/1.1") (lit "200") (lit "OK")
  let path := cStr (lit "filedir/" ++ filename)
  match w.openRead path with
  | none => reenter w request (lit "/redirect") [.openRead path none]
  | some (fd, size) =>
    let r := { r with fileMsgFd := fd, msgBodyLen := size }
    -- the length less one, meant for `Content-Range`, is passed as `redirectLocation`
    built request (construct r .fileType
      (statusLine ++ getMessageHeader (toDecimal r.msgBodyLen) (lit "file")
        (toDecimal (toSize ((r.msgBodyLen : ℤ) - 1))) [] ++ crlf)) [.openRead path (some fd)]

/-- The branch `opera == "del"`: the file is removed, and the next call lists what is left. -/
def delStage (w : World) (request : Option Request) (filename : Bytes) : Stage :=
  let path := cStr (lit "filedir/" ++ filename)
  reenter w request (lit "/") [.remove path (w.remove path)]

/-- The branch `opera == "put"`: the message of the `Request` is written to the file, which is
emptied before. Where it does not open, the next call redirects. -/
def putStage (w : World) (request : Option Request) (r : Response) (filename : Bytes) : Stage :=
  let path := cStr (lit "filedir/" ++ filename)
  if w.openTrunc path then
    -- `operator[]` makes the entry where there is none
    let q := request.getD Request.init
    let (r, statusLine) := getStatusLine r (lit "HTTP/1.1") (lit "200") (lit "OK")
    built (some q) (construct r .emptyType
      (statusLine ++ getMessageHeader (lit "0") (lit "html") [] [] ++ crlf))
      [.openTrunc path true, .write path q.recvMsg]
  else reenter w request (lit "/redirect") [.openTrunc path false]

/-- The last branch, for every other operation: `302` to the list of the files. -/
def redirectStage (request : Option Request) (r : Response) : Stage :=
  let (r, statusLine) :=
    getStatusLine r (lit "HTTP/1.1") (lit "302") (lit "Moved Temporarily")
  built request (construct r .emptyType
    (statusLine ++ getMessageHeader (lit "0") (lit "html") (lit "/") [] ++ crlf)) []

/-- The branches of the `HANDLE_INIT` stage, in the order in which the source compares the
operation. -/
def operaStage (w : World) (request : Option Request) (r : Response) : Stage :=
  match splitResource r.bodyFileName with
  | .error f => ⟨request, r, [], .crash f⟩
  | .ok (opera, filename) =>
    if opera = lit "/" then filelistStage w request r
    else if opera = lit "downl" then downlStage w request r filename
    else if opera = lit "del" then delStage w request filename
    else if opera = lit "put" then putStage w request r filename
    else redirectStage request r

/-- A resource that cannot be taken apart ends the process. -/
theorem operaStage_of_error {r : Response} {f : Fault} (h : splitResource r.bodyFileName = .error f)
    (w : World) (request : Option Request) :
    operaStage w request r = ⟨request, r, [], .crash f⟩ := by
  unfold operaStage
  rw [h]

/-- A resource that has been taken apart goes to the branch of its operation. -/
theorem operaStage_of_split {r : Response} {opera filename : Bytes}
    (h : splitResource r.bodyFileName = .ok (opera, filename)) (w : World)
    (request : Option Request) : operaStage w request r =
      if opera = lit "/" then filelistStage w request r
      else if opera = lit "downl" then downlStage w request r filename
      else if opera = lit "del" then delStage w request filename
      else if opera = lit "put" then putStage w request r filename
      else redirectStage request r := by
  unfold operaStage
  rw [h]

/-- The `HANDLE_INIT` stage: a new response is constructed, and any other one is sent on. -/
def initStage (w : World) (request : Option Request) (r : Response) : Stage :=
  if r.status = .handleInit then (operaStage w request r).prepend [.dispatch r.bodyFileName]
  else ⟨request, r, [], .proceed⟩

/-! ### Sending -/

/-- `requestStatus[fd].setStatus(HANDLE_ERROR)`, which makes the entry where there is none. -/
def setError (request : Option Request) : Option Request :=
  some { request.getD Request.init with status := .handleError }

/-- What is still to be sent of `msg`, when `len` is its length and `sent` bytes are gone, and the
system takes at most `n` bytes of it. -/
def chunk (msg : Bytes) (len sent n : ℕ) : Bytes := (msg.drop sent).take (min n (len - sent))

/-- `send` of the head has taken `n` bytes: the counter moves on, and begins again for the body when
the head is gone. -/
def sendHead (r : Response) (n : ℕ) : Response × Bytes :=
  let data := chunk r.beforeBodyMsg (toSize r.beforeBodyMsgLen) r.curStatusHasSendLen n
  let sent := r.curStatusHasSendLen + data.length
  if toSize r.beforeBodyMsgLen ≤ sent then
    ({ r with status := .handleBody, curStatusHasSendLen := 0 }, data)
  else ({ r with curStatusHasSendLen := sent }, data)

/-- `send` or `sendfile` of the body has taken `n` bytes of `msg`: the counter moves on, and the
response is complete when the body is gone. -/
def sendBody (r : Response) (msg : Bytes) (n : ℕ) : Response × Bytes :=
  let data := chunk msg r.msgBodyLen r.curStatusHasSendLen n
  let sent := r.curStatusHasSendLen + data.length
  if r.msgBodyLen ≤ sent then
    ({ r with status := .handleComplete, curStatusHasSendLen := 0 }, data)
  else ({ r with curStatusHasSendLen := sent }, data)

/-- The send loop on the answers the system gives, one of them for each `send` or `sendfile`. When
they are used up there is no room and the next is `EAGAIN`. -/
def sendLoop : List SendResult → Option Request → Response → Stage
  | results, request, r =>
    match r.status with
    | .handleHead =>
      match results with
      | .accepted n _ :: results =>
        let (r, data) := sendHead r n
        (sendLoop results request r).prepend [.sent data]
      -- it is the `Request` whose status is set, not the `Response`
      | .failed :: _ => ⟨setError request, r, [], .proceed⟩
      | _ => ⟨request, r, [], .proceed⟩
    | .handleBody =>
      match r.bodyType with
      | .htmlType =>
        match results with
        | .accepted n _ :: results =>
          let (r, data) := sendBody r r.msgBody n
          if r.status = .handleComplete then ⟨request, r, [.sent data], .proceed⟩
          else (sendLoop results request r).prepend [.sent data]
        | .failed :: _ => ⟨setError request, r, [], .proceed⟩
        | _ => ⟨request, r, [], .proceed⟩
      | .fileType =>
        match results with
        | .accepted n disk :: results =>
          let (r, data) := sendBody r disk n
          if r.status = .handleComplete then ⟨request, r, [.sentFile data], .proceed⟩
          else (sendLoop results request r).prepend [.sentFile data]
        | .failed :: _ => ⟨setError request, r, [], .proceed⟩
        | _ => ⟨request, r, [], .proceed⟩
      | .emptyType =>
        ⟨request, { r with status := .handleComplete, curStatusHasSendLen := 0 }, [], .proceed⟩
    | .handleError => ⟨request, r, [], .proceed⟩
    -- no branch of the loop is for these states, and none leaves it
    | _ => ⟨request, r, [], .crash .diverges⟩

/-! ### The call -/

/-- What a call leaves: the entries of both tables, and the actions. -/
structure Call where
  request : Option Request
  response : Option Response
  acts : List Action
  crash : Option Fault

/-- Actions taken before, in front of those of the call. -/
def Call.prepend (acts : List Action) (x : Call) : Call := { x with acts := acts ++ x.acts }

/-- `if (responseStatus[fd].getBodyType() == FILE_TYPE) close(responseStatus[fd].getFileMsgFd());`
behind the erased entry. -/
def closeStray (w : World) : List Action :=
  if w.fresh.bodyType = .fileType then [.closeFile w.fresh.fileMsgFd] else []

/-- What holds of closing a file holds of all that is done behind the erased entry, which is at most
that. -/
theorem forall_mem_closeStray {P : Action → Prop} (w : World) (h : ∀ fd, P (.closeFile fd)) :
    ∀ a ∈ closeStray w, P a := by
  unfold closeStray
  split
  · exact List.forall_mem_singleton.mpr (h _)
  · exact nofun

/-- Behind the send loop: a complete response is erased and the descriptor armed for input, one in
error closes the connection, and any other waits for room. -/
def finish (w : World) (request : Option Request) (r : Response) : Call :=
  if r.status = .handleComplete then
    ⟨request, some (Response.init w.fresh),
      [.finished, .modifyWaitFd true true false] ++ closeStray w, none⟩
  else if r.status = .handleError then
    ⟨request, some (Response.init w.fresh),
      [.modifyWaitFd true false false, .shutdown, .closeClient] ++ closeStray w, none⟩
  else ⟨request, some r, [.modifyWaitFd true true true], none⟩

/-- `HandleSend::process` on the entries of its descriptor. Without a response there is nothing to
do. -/
def process (w : World) (results : List SendResult) (request : Option Request)
    (response : Option Response) : Call :=
  match response with
  | none => ⟨request, none, [], none⟩
  | some r =>
    let s := initStage w request r
    match s.flow with
    | .crash f => ⟨s.request, some s.response, s.acts, some f⟩
    -- the call is entered again when the descriptor is ready
    | .leave => ⟨s.request, some s.response, s.acts, none⟩
    | .proceed =>
      let t := sendLoop results s.request s.response
      match t.flow with
      | .crash f => ⟨t.request, some t.response, s.acts ++ t.acts, some f⟩
      | _ => (finish w t.request t.response).prepend (s.acts ++ t.acts)

end HandleSend

end Cherokee
