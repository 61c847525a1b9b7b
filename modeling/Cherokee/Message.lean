import Cherokee.CppString
import Mathlib.Logic.Function.Basic

/-!
# Requests and responses (`message/message.h`)

`Request` and `Response` are the values of the two tables the handlers share, `requestStatus` and
`responseStatus`. The constructor of `Response` leaves five members unset; `Response.init` takes
what they hold from an `Uninit`, so that nothing can be proved that depends on it.
-/

namespace Cherokee

/-- `MSGSTATUS`: the processing status of the data in a `Request` or `Response`. -/
inductive MsgStatus where
  | handleInit
  | handleHead
  | handleBody
  | handleComplete
  | handleError
deriving DecidableEq, Repr

/-- `MSGBODYTYPE`: the type of a message body. -/
inductive MsgBodyType where
  | fileType
  | htmlType
  | emptyType
deriving DecidableEq, Repr

/-- `FILEMSGBODYSTATUS`: which part of an uploaded file's message body has been processed. -/
inductive FileMsgBodyStatus where
  | fileBeginFlag
  | fileHead
  | fileContent
  | fileComplete
deriving DecidableEq, Repr

/-- `std::unordered_map<std::string, std::string>`, used through `find`, `at` and `[]` only. -/
abbrev HeaderMap := Bytes → Option Bytes

/-- `class Request` -/
structure Request where
  status : MsgStatus
  msgHeader : HeaderMap
  recvMsg : Bytes
  requestMethod : Bytes
  requestResource : Bytes
  httpVersion : Bytes
  contentLength : ℤ
  recvFileName : Bytes
  fileMsgStatus : FileMsgBodyStatus

namespace Request

/-- `Request()` -/
def init : Request where
  status := .handleInit
  msgHeader := fun _ => none
  recvMsg := []
  requestMethod := []
  requestResource := []
  httpVersion := []
  contentLength := 0
  recvFileName := []
  fileMsgStatus := .fileBeginFlag

/-- `msgHeader[key] = value` -/
def setHeader (r : Request) (key value : Bytes) : Request :=
  { r with msgHeader := Function.update r.msgHeader key (some value) }

/-- `Request::setRequestLine` -/
def setRequestLine (r : Request) (requestLine : Bytes) : Request :=
  let lineStream : IStringStream := ⟨requestLine, true⟩
  let (requestMethod, lineStream) := lineStream.extract r.requestMethod
  let (requestResource, lineStream) := lineStream.extract r.requestResource
  let (httpVersion, _) := lineStream.extract r.httpVersion
  { r with requestMethod, requestResource, httpVersion }

/-- The `Content-Type` branch of `Request::addHeaderOpt`: the media type, and the parameter behind
the first semicolon as an entry of its own. -/
def addContentType (r : Request) (key value : Bytes) : Except Fault Request :=
  match find value (lit ";") 0 with
  | some semIndex => do
    let r := r.setHeader key (value.take semIndex)
    let eqIndex := (find value (lit "=") semIndex).getD npos
    let key ← substr value (semIndex + 2) (toSize ((eqIndex : ℤ) - semIndex - 2))
    let parameter ← substr value (toSize ((eqIndex : ℤ) + 1)) npos
    return r.setHeader key parameter
  | none => .ok (r.setHeader key value)

/-- `Request::addHeaderOpt` -/
def addHeaderOpt (r : Request) (headLine : Bytes) : Except Fault Request :=
  let lineStream : IStringStream := ⟨headLine, true⟩
  let (key, lineStream) := lineStream.extract []
  if key = [] then .error .undefined
  else
    let key := key.dropLast
    let lineStream := lineStream.get
    let (value, _) := lineStream.getline []
    let value := if value.getLast? = some cr then value.dropLast else value
    if key = lit "Content-Length" then do
      let contentLength ← stoll value
      return { r with contentLength }
    else if key = lit "Content-Type" then r.addContentType key value
    else .ok (r.setHeader key value)

/-- The test of `HandleRecv::process` for an upload:
`getHeaders().at("Content-Type") == "multipart/form-data"`, when there is one. -/
def isMultipart (r : Request) : Bool :=
  r.msgHeader (lit "Content-Type") == some (lit "multipart/form-data")

/-- `getHeaders().at("boundary")` -/
def boundary? (r : Request) : Option Bytes := r.msgHeader (lit "boundary")

end Request

/-- What the members a constructor of `Response` leaves unset happen to hold. -/
structure Uninit where
  msgBodyLen : ℕ
  beforeBodyMsgLen : ℤ
  bodyType : MsgBodyType
  fileMsgFd : ℤ
  curStatusHasSendLen : ℕ
deriving DecidableEq, Repr

/-- `class Response` -/
structure Response where
  status : MsgStatus
  bodyFileName : Bytes
  beforeBodyMsg : Bytes
  msgBody : Bytes
  msgBodyLen : ℕ
  beforeBodyMsgLen : ℤ
  bodyType : MsgBodyType
  fileMsgFd : ℤ
  curStatusHasSendLen : ℕ
  responseHttpVersion : Bytes
  responseStatusCode : Bytes
  responseStatusDes : Bytes
deriving DecidableEq, Repr

/-- `Response()` -/
def Response.init (u : Uninit) : Response where
  status := .handleInit
  bodyFileName := []
  beforeBodyMsg := []
  msgBody := []
  msgBodyLen := u.msgBodyLen
  beforeBodyMsgLen := u.beforeBodyMsgLen
  bodyType := u.bodyType
  fileMsgFd := u.fileMsgFd
  curStatusHasSendLen := u.curStatusHasSendLen
  responseHttpVersion := []
  responseStatusCode := []
  responseStatusDes := []

/-- `responseStatus[fd].setBodyFileName(name)`; `operator[]` makes an entry where there is none. -/
def Response.setBodyFileName (fresh : Uninit) (entry : Option Response) (name : Bytes) : Response :=
  { entry.getD (Response.init fresh) with bodyFileName := name }

end Cherokee
