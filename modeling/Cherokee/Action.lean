import Cherokee.Message

/-!
# What the handlers do to the outside

The handlers of `event/myevent.cpp` act on the world through system calls and through the two
tables. A call of a handler is modelled together with the list of `Action`s it takes, in order: its
system calls with their outcomes, the hand-over of a resource to the response table, and the log
lines that mark a stage (`requestLine`, `processed`, `built`, `finished`).
-/

namespace Cherokee

/-- One visible step of a handler working for a client descriptor. -/
inductive Action where
  /-- `recv` returned these bytes. -/
  | recvd (buf : Bytes)
  /-- "The request line is completed" -/
  | requestLine (line : Bytes)
  /-- `std::ofstream(path, out | app | binary)` -/
  | openAppend (path : Bytes) (ok : Bool)
  /-- The bytes written to a file opened for appending. -/
  | append (path data : Bytes)
  /-- `responseStatus[fd].setBodyFileName(name)` by `HandleRecv` -/
  | setBodyFileName (name : Bytes)
  /-- `modifyWaitFd(epollFd, fd, edgeTrigger, resetOneshot, addEpollout)` -/
  | modifyWaitFd (edgeTrigger resetOneshot addEpollout : Bool)
  /-- "request message was processed successfully": the `Request` is erased. -/
  | processed (method resource : Bytes)
  /-- `deleteWaitFd(epollFd, fd)` -/
  | deleteWaitFd
  /-- `shutdown(fd, …)` -/
  | shutdown
  /-- `close(fd)` of the client descriptor -/
  | closeClient
  /-- The resource `HandleSend` takes apart in `HANDLE_INIT`. -/
  | dispatch (name : Bytes)
  /-- `open(path, O_RDONLY)`; `none` is `-1`. -/
  | openRead (path : Bytes) (fd : Option ℤ)
  /-- `remove(path)`, and whether it returned `0`. -/
  | remove (path : Bytes) (ok : Bool)
  /-- `std::ofstream(path, out | binary)` -/
  | openTrunc (path : Bytes) (ok : Bool)
  /-- The bytes written to a file opened for writing. -/
  | write (path data : Bytes)
  /-- A response has been constructed. -/
  | built (response : Response)
  /-- The bytes `send` accepted. -/
  | sent (data : Bytes)
  /-- The bytes `sendfile` moved from the file to the socket. -/
  | sentFile (data : Bytes)
  /-- "response message was sent successfully": the `Response` is erased. -/
  | finished
  /-- `close(responseStatus[fd].getFileMsgFd())` -/
  | closeFile (fd : ℤ)
deriving DecidableEq, Repr

namespace Action

/-- The bytes an action appends to the file at `path`. -/
def appendedTo (path : Bytes) : Action → Bytes
  | append p data => if p = path then data else []
  | _ => []

/-- The bytes an action receives from the client. -/
def received : Action → Bytes
  | recvd buf => buf
  | _ => []

/-- The request an action completes: its method and resource. -/
def completed : Action → Option (Bytes × Bytes)
  | processed method resource => some (method, resource)
  | _ => none

/-- The resource an action hands over to the response table. -/
def handedOver : Action → Option Bytes
  | setBodyFileName name => some name
  | _ => none

/-- The bytes an action puts on the client's connection. -/
def onWire : Action → Bytes
  | sent data => data
  | sentFile data => data
  | _ => []

end Action

/-! ### Readings of a list of actions -/

/-- The bytes appended to the file at `path`. -/
def appendedTo (path : Bytes) (acts : List Action) : Bytes :=
  acts.flatMap (Action.appendedTo path)

/-- The bytes received from the client. -/
def received (acts : List Action) : Bytes := acts.flatMap Action.received

/-- The requests completed, in order. -/
def completed (acts : List Action) : List (Bytes × Bytes) := acts.filterMap Action.completed

/-- The resources handed over to the response table, in order. -/
def handedOver (acts : List Action) : List Bytes := acts.filterMap Action.handedOver

/-- The bytes put on the client's connection. -/
def onWire (acts : List Action) : Bytes := acts.flatMap Action.onWire

section Append

variable (path : Bytes) (as bs : List Action)

@[simp] theorem appendedTo_nil : appendedTo path [] = [] := rfl

@[simp] theorem appendedTo_cons (a : Action) :
    appendedTo path (a :: as) = a.appendedTo path ++ appendedTo path as := rfl

@[simp] theorem appendedTo_append :
    appendedTo path (as ++ bs) = appendedTo path as ++ appendedTo path bs :=
  List.flatMap_append

@[simp] theorem received_nil : received [] = [] := rfl

@[simp] theorem received_cons (a : Action) : received (a :: as) = a.received ++ received as := rfl

@[simp] theorem received_append : received (as ++ bs) = received as ++ received bs :=
  List.flatMap_append

@[simp] theorem completed_nil : completed [] = [] := rfl

@[simp] theorem completed_cons (a : Action) :
    completed (a :: as) = a.completed.toList ++ completed as := by
  unfold completed
  rw [List.filterMap_cons]
  cases a.completed <;> rfl

@[simp] theorem completed_append : completed (as ++ bs) = completed as ++ completed bs :=
  List.filterMap_append

@[simp] theorem handedOver_nil : handedOver [] = [] := rfl

@[simp] theorem handedOver_cons (a : Action) :
    handedOver (a :: as) = a.handedOver.toList ++ handedOver as := by
  unfold handedOver
  rw [List.filterMap_cons]
  cases a.handedOver <;> rfl

@[simp] theorem handedOver_append : handedOver (as ++ bs) = handedOver as ++ handedOver bs :=
  List.filterMap_append

@[simp] theorem onWire_nil : onWire [] = [] := rfl

@[simp] theorem onWire_cons (a : Action) : onWire (a :: as) = a.onWire ++ onWire as := rfl

@[simp] theorem onWire_append : onWire (as ++ bs) = onWire as ++ onWire bs :=
  List.flatMap_append

end Append

end Cherokee
