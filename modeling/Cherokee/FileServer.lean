import Cherokee.FileSystem
import Cherokee.Pipeline

/-!
# The server and its files

`fileServer` is the server of `server`, with the files its handlers work on. A call of `HandleSend`
finds the directory, the files and the descriptors as the calls before have left them, so what is
left to the environment is the order of `readdir`, the number that `open` returns, and whether a
file can be written.

* `FileServer.Orderly`: the runs in which clients wait for their responses and no two connections
  use one file at a time. The code asks nothing of the sort of anybody: it has no lock on a file.
-/

namespace Cherokee

/-! ### Where a connection is -/

/-- What a connection is about, as one reads it from its log: how many answers its client has, how
much of the next request has come, and how far the server is with it. -/
structure Exchange where
  /-- The responses that have been sent completely. -/
  answered : ℕ
  /-- The bytes received since the last of them. -/
  got : Bytes
  /-- The next response has been asked for. -/
  asked : Bool
  /-- The file of the upload that is being received. -/
  storing : Option Bytes
  /-- The descriptor of the file that is being sent. -/
  sending : Option ℤ
deriving DecidableEq

namespace Exchange

/-- A new connection, which has received nothing and has answered nothing. -/
def start : Exchange := ⟨0, [], false, none, none⟩

/-- One action, as it moves the connection on. A response that has been sent completely closes the
account of its request: what comes behind it belongs to the next one. -/
def enter (e : Exchange) : Action → Exchange
  | .recvd buf => { e with got := e.got ++ buf }
  | .openAppend path _ => { e with storing := some path }
  | .setBodyFileName _ => { e with asked := true }
  | .processed _ _ => { e with storing := none }
  -- a page has no descriptor, and leaves none open
  | .built r => { e with sending := if r.bodyType = .fileType then some r.fileMsgFd else none }
  | .finished => ⟨e.answered + 1, [], false, none, none⟩
  | _ => e

end Exchange

/-- What a connection with this log is about: its actions are entered one after the other. -/
def exchange (log : List Action) : Exchange := log.foldl Exchange.enter .start

theorem exchange_append (log acts : List Action) :
    exchange (log ++ acts) = acts.foldl Exchange.enter (exchange log) :=
  List.foldl_append

/-! ### The system -/

/-- The server and its files, between two calls. The handlers share the files as they share the
tables. -/
structure FileServer where
  base : Server
  disk : FileSystem

/-- What the system decides in a call of `HandleSend`. Everything else the call finds follows from
the files. -/
structure FileServer.View where
  /-- The entries of `filedir` in the order of `readdir`. -/
  order : List Bytes
  /-- The number that `open` returns. -/
  fileFd : ℤ
  /-- A file opens for writing. -/
  writable : Bool
  /-- What a `Response` made in the call holds in the members nothing sets. -/
  fresh : Uninit

/-- A step: a client is accepted, or a handler is called, with all that the system and the network
decide in the call. -/
inductive FileServer.Label where
  | accept (fd : ℤ)
  | recv (fd : ℤ) (results : List HandleRecv.RecvResult) (fresh : Uninit)
  /-- What a `sendfile` reads is not said here: it is what the file holds. -/
  | send (fd : ℤ) (v : FileServer.View) (results : List HandleSend.SendResult)

namespace FileSystem

/-- The files as a call of `HandleSend` finds them. A file too long for an `off_t` does not open. -/
def world (fs : FileSystem) (page : Bytes) (v : FileServer.View) : HandleSend.World where
  page := some page
  filedir := some v.order
  openRead path := (fs.file path).bind fun content =>
    if h : content.length < 2 ^ 63 then some (v.fileFd, ⟨content.length, h⟩) else none
  remove path := (fs.file path).isSome
  openTrunc _ := v.writable
  fresh := v.fresh

end FileSystem

namespace HandleSend

/-- The answer, where a `sendfile` reads from a file with this content: what the kernel takes from
the file is what stands in it. -/
def SendResult.reading (content : Bytes) : SendResult → SendResult
  | .accepted n _ => .accepted n content
  | x => x

end HandleSend

namespace FileServer

/-- The descriptor is in use, for a connection or for a file. -/
def InUse (s : FileServer) (fd : ℤ) : Prop := s.base.conn fd ≠ none ∨ s.disk.opened fd ≠ none

instance (s : FileServer) (fd : ℤ) : Decidable (s.InUse fd) := inferInstanceAs (Decidable (_ ∨ _))

/-- The system can show the files like this: every entry is listed once, and a descriptor that is in
use is not given out. -/
def Offers (s : FileServer) (v : View) : Prop :=
  v.order.Perm (lit "." :: lit ".." :: s.disk.names) ∧ ¬ s.InUse v.fileFd

instance (s : FileServer) (v : View) : Decidable (s.Offers v) := inferInstanceAs (Decidable (_ ∧ _))

/-- The stage of a call of `HandleSend` in which the response is constructed, should it be reached.
It is looked at beforehand because it says which file the call will read from. -/
def opening (s : FileServer) (page : Bytes) (fd : ℤ) (v : View) : Option HandleSend.Stage :=
  (s.base.responseStatus fd).map
    (HandleSend.initStage (s.disk.world page v) (s.base.requestStatus fd))

/-- What a `sendfile` of the call reads; `none` when its descriptor is not open. A call that sends
no file reads nothing. -/
def source (s : FileServer) (page : Bytes) (fd : ℤ) (v : View) : Option Bytes :=
  match s.opening page fd v with
  | some x =>
    if x.flow = .proceed ∧ x.response.bodyType = .fileType then
      (s.disk.afterAll x.acts).read x.response.fileMsgFd
    else some []
  | none => some []

/-- The call of `HandleSend` with what it finds: the files as they are, and the answers of the
kernel with what is read from the file. -/
def sending (s : FileServer) (page : Bytes) (v : View) (results : List HandleSend.SendResult)
    (content : Bytes) : Handler :=
  .send (s.disk.world page v) (results.map (HandleSend.SendResult.reading content))

/-- The handler called in a step, and its descriptor. There is none where the system cannot show the
files as the label has it, or where a file is read that is not open. -/
def handler (s : FileServer) (page : Bytes) : Label → Option (ℤ × Handler)
  | .accept _ => none
  | .recv fd results fresh => some (fd, .recv results fresh)
  | .send fd v results =>
    if s.Offers v then
      (s.source page fd v).map fun content => (fd, s.sending page v results content)
    else none

/-- A call: what it does to the tables, and what its actions do to the files. -/
def call (s : FileServer) (fd : ℤ) (h : Handler) : Option FileServer :=
  (s.base.step (.call fd h)).map fun base => ⟨base, s.disk.afterAll (s.base.call fd h).acts⟩

/-- One step. A descriptor that is open for a file is not given out for a connection. -/
def step (page : Bytes) (s : FileServer) : Label → Option FileServer
  | .accept fd =>
    if s.disk.opened fd = none then
      (s.base.step (.accept fd)).map fun base => { s with base }
    else none
  | l => (s.handler page l).bind fun p => s.call p.1 p.2

end FileServer

/-- The server with the template `page`, on the files it finds when it starts. -/
def fileServer (page : Bytes) (fs : FileSystem) : Machine FileServer FileServer.Label where
  start := ⟨Server.init, fs⟩
  step := FileServer.step page

/-! ### Orderly runs -/

namespace HandleRecv

instance : (x : RecvResult) → Decidable x.Quiet
  | .again => .isTrue .again
  | .data buf true =>
    decidable_of_iff (buf ≠ []) ⟨.data buf, fun h => by cases h with | data _ h => exact h⟩
  | .data _ false => .isFalse (by intro h; cases h)
  | .closed => .isFalse (by intro h; cases h)
  | .failed => .isFalse (by intro h; cases h)

end HandleRecv

namespace FileServer

/-- What the connection `c` is about, from the log of its calls. -/
def exchange (s : FileServer) (c : ℕ) : Exchange := Cherokee.exchange (s.base.log c)

/-- The call of a step: the connection it is for, and what it does. There is none for an accept, or
where the handler finds no connection. -/
def callOf (s : FileServer) (page : Bytes) (l : Label) : Option (ℕ × HandleSend.Call) :=
  (s.handler page l).bind fun p => (s.base.ready p.1).map fun c => (c, s.base.call p.1 p.2)

/-- A call for the connection `c` that leaves alone what is being sent to the others. -/
structure Spares (s : FileServer) (c : ℕ) (acts : List Action) : Prop where
  /-- Every file is one in `filedir`. -/
  plain : ∀ a ∈ acts, ∀ path ∈ a.touched, PlainPath path
  /-- No file is written over that another connection is downloading. -/
  sending : ∀ c' < s.base.accepted, c' ≠ c → ∀ fd ∈ (s.exchange c').sending, ∀ a ∈ acts,
    ∀ path ∈ a.overwritten, s.disk.inode path ≠ s.disk.opened fd
  /-- What is closed as the descriptor of a file is none of a connection, and another connection is
  not being sent a file from it. -/
  strays : ∀ d ∈ strays acts, s.base.conn d = none ∧
    ∀ c' < s.base.accepted, c' ≠ c → (s.exchange c').sending ≠ some d

/-- A call for the connection `c` that keeps off what the others are using: what is being sent to
them, and what they are uploading. -/
structure Apart (s : FileServer) (c : ℕ) (acts : List Action) : Prop extends s.Spares c acts where
  /-- No file is touched that another connection is uploading. -/
  storing : ∀ c' < s.base.accepted, c' ≠ c → ∀ a ∈ acts, ∀ path ∈ a.touched,
    (s.exchange c').storing ≠ some path

set_option synthInstance.maxSize 1000 in
instance (s : FileServer) (c : ℕ) (acts : List Action) : Decidable (s.Spares c acts) :=
  decidable_of_iff (_ ∧ _ ∧ _)
    ⟨fun h => ⟨h.1, h.2.1, h.2.2⟩, fun h => ⟨h.plain, h.sending, h.strays⟩⟩

instance (s : FileServer) (c : ℕ) (acts : List Action) : Decidable (s.Apart c acts) :=
  decidable_of_iff (s.Spares c acts ∧ _) ⟨fun h => ⟨h.1, h.2⟩, fun h => ⟨h.toSpares, h.storing⟩⟩

/-- A call for the connection `c` that returns, and closes the connection only between two requests,
when no answer is owed and no upload is under way. -/
structure Returns (s : FileServer) (c : ℕ) (x : HandleSend.Call) : Prop where
  crash : x.crash = none
  closes : closes x.acts → (s.exchange c).asked = false ∧ (s.exchange c).storing = none

instance (s : FileServer) (c : ℕ) (x : HandleSend.Call) : Decidable (s.Returns c x) :=
  decidable_of_iff (_ ∧ _) ⟨fun h => ⟨h.1, h.2⟩, fun h => ⟨h.crash, h.closes⟩⟩

/-- What the client `c` and the network do in a call: they bring a part of the next request, of
which `m` is the whole, or the connection ends; and no `send` fails. -/
def Brings (s : FileServer) (m : HandleRecv.Message) (c : ℕ) (x : HandleSend.Call) : Label → Prop
  | .accept _ => True
  | .recv _ results _ => results = [.closed] ∨
      ((∀ y ∈ results, y.Quiet) ∧ (s.exchange c).got ++ received x.acts <+: m.bytes)
  | .send _ _ results => .failed ∉ results

instance (s : FileServer) (m : HandleRecv.Message) (c : ℕ) (x : HandleSend.Call) :
    (l : Label) → Decidable (s.Brings m c x l)
  | .accept _ => .isTrue trivial
  | .recv _ _ _ => inferInstanceAs (Decidable (_ ∨ _ ∧ _))
  | .send _ _ results => inferInstanceAs (Decidable (.failed ∉ results))

/-- A step of an orderly run, in which the client `c` asks `script c n` behind `n` answers. What is
asked is asked of the call the step makes, if it makes one. -/
def Orderly (page : Bytes) (script : ℕ → ℕ → HandleRecv.Message) (s : FileServer) (l : Label) :
    Prop :=
  ∀ p ∈ s.callOf page l, s.Apart p.1 p.2.acts ∧ s.Returns p.1 p.2 ∧
    s.Brings (script p.1 (s.exchange p.1).answered) p.1 p.2 l

instance (page : Bytes) (script : ℕ → ℕ → HandleRecv.Message) (s : FileServer) (l : Label) :
    Decidable (s.Orderly page script l) :=
  inferInstanceAs (Decidable (∀ p ∈ s.callOf page l, _))

end FileServer

end Cherokee
