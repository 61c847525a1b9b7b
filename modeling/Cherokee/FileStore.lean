import Cherokee.Dispatch
import Cherokee.Lib.Simulation
import Cherokee.Paths
import Cherokee.Pipeline

/-!
# A store of files

What the server is for, without its connections, calls and tables: a store in which every operation
happens at one moment. An upload first makes its file and then stores all of its content; a request
is answered from the files as they are at that moment.

`FileStore` keeps the history of what has happened, and the files are what the history has made of
them (`filesAfter`). `fileStore` is the system of the sessions of its clients.

* `FileStore.reachable_valid`: every answer is the one of the files at its moment.
* `FileStore.reachable_performed`: the operations of a client are those of its requests, in order.
* `FileStore.reachable_spelled`: what a client has been sent is the answers of its operations, in
  order.
-/

namespace Cherokee

open HandleSend HandleRecv

/-! ### What can happen -/

/-- What a resource asks of the store, by the part of it that names the operation. -/
inductive Query where
  | list
  | read (path : Bytes)
  | remove (path : Bytes)
  | clear (path : Bytes)
  | other
deriving DecidableEq

/-- The query of a resource; `none` for one that is too long to be taken apart. What stands behind
the operation is the name of the file, up to a byte that ends a C string. -/
def Query.of (resource : Bytes) : Option Query :=
  match splitResource resource with
  | .error _ => none
  | .ok (opera, filename) =>
    let path := cStr (lit "filedir/" ++ filename)
    some (if opera = lit "/" then list
      else if opera = lit "downl" then read path
      else if opera = lit "del" then remove path
      else if opera = lit "put" then clear path
      else other)

/-- What is sent to a client: there are four kinds of responses. -/
inductive Answer where
  /-- The list of the files. -/
  | page (names : List Bytes)
  /-- The content of a file. -/
  | file (content : Bytes)
  /-- A file has been cleared. -/
  | cleared
  /-- The client is sent to the list. -/
  | redirect
deriving DecidableEq

/-- The page with these names in the place of the label: the lines of the template up to it, a row
for each name, and the lines behind it. -/
def pageWith (page : Bytes) (names : List Bytes) : Bytes :=
  let lines := linesOf page
  (lines.takeWhile (· ≠ filelistLabel)).flatMap (· ++ lit "\n") ++ names.flatMap fileRow ++
    (lines.dropWhile (· ≠ filelistLabel)).tail.flatMap (· ++ lit "\n")

/-- The head of an answer, as the code builds it. That of a file has the length, and the redirect
that comes with it by a slip. -/
def Answer.head (page : Bytes) : Answer → Bytes
  | .page names => (Reply.page (pageWith page names)).head
  | .file content => headOf (lit "HTTP/1.1 200 OK" ::
      (lit "Content-Length: " ++ toDecimal content.length) ::
        fileLines (toDecimal (toSize ((content.length : ℤ) - 1))))
  | .cleared => Reply.stored.head
  | .redirect => Reply.redirect.head

/-- Its body. A response that has nothing to say has none. -/
def Answer.body (page : Bytes) : Answer → Bytes
  | .page names => pageWith page names
  | .file content => content
  | .cleared => []
  | .redirect => []

/-- Its bytes, the head in front. -/
def Answer.bytes (page : Bytes) (a : Answer) : Bytes := a.head page ++ a.body page

/-- What happens in the store, each at one moment. -/
inductive StoreOp where
  /-- The file of an upload is made, unless it is there. -/
  | made (path : Bytes)
  /-- The content of an upload is put behind what the file holds. -/
  | stored (path content : Bytes)
  | removed (path : Bytes)
  | cleared (path : Bytes)
  /-- A file is read; `none` when it does not open. -/
  | read (path : Bytes) (found : File)
  | listed (names : List Bytes)
  | redirected
deriving DecidableEq

namespace StoreOp

/-- What an operation makes of the file at `path`. Reading and listing leave everything as it is. -/
def on (path : Bytes) (f : File) : StoreOp → File
  | .made p => if p = path then some (f.getD []) else f
  | .stored p content => if p = path then some (f.getD [] ++ content) else f
  | .removed p => if p = path then none else f
  | .cleared p => if p = path then some [] else f
  | _ => f

/-- The answer an operation gives. Making, storing and removing give none: the client is told by the
list that is sent to it afterwards. -/
def answer : StoreOp → Option Answer
  | .cleared _ => some .cleared
  | .read _ found => found.map .file
  | .listed names => some (.page names)
  | .redirected => some .redirect
  | _ => none

/-- A file that opens: it is there, and its length is an `off_t`. -/
def opens (f : File) : File := f.filter fun content => content.length < 2 ^ 63

/-- What an operation tells is so: a file that is read holds what was read, and a list names every
file once. -/
def Holds (files : Bytes → File) : StoreOp → Prop
  | .read path found => found = opens (files path)
  | .listed names => names.Nodup ∧ ∀ name, name ∈ names ↔ files (filedir ++ name) ≠ none
  | _ => True

end StoreOp

/-- The files behind an operation, each of them for itself. -/
def StoreOp.apply (files : Bytes → File) (e : StoreOp) (path : Bytes) : File :=
  e.on path (files path)

/-- The files behind a list of operations, one after the other. -/
def filesAfter (files : Bytes → File) (es : List StoreOp) : Bytes → File :=
  es.foldl StoreOp.apply files

@[simp] theorem filesAfter_nil (files : Bytes → File) : filesAfter files [] = files := rfl

@[simp] theorem filesAfter_cons (files : Bytes → File) (e : StoreOp) (es : List StoreOp) :
    filesAfter files (e :: es) = filesAfter (e.apply files) es := rfl

/-- The files behind one list of operations and another. -/
theorem filesAfter_append (files : Bytes → File) (es es' : List StoreOp) :
    filesAfter files (es ++ es') = filesAfter (filesAfter files es) es' :=
  List.foldl_append

/-- Everything that is told is so when it is told: each operation is compared with the files that
those before it have made. -/
def Valid (files : Bytes → File) : List StoreOp → Prop
  | [] => True
  | e :: es => e.Holds files ∧ Valid (e.apply files) es

/-- What is told in two lists is so, if it is in the first and then in the second. -/
theorem valid_append {files : Bytes → File} {es es' : List StoreOp} :
    Valid files (es ++ es') ↔ Valid files es ∧ Valid (filesAfter files es) es' := by
  induction es generalizing files with
  | nil => exact (true_and _).symm.to_iff
  | cons e es ih => exact (and_congr_right fun _ => ih).trans and_assoc.symm

/-- The answers a client has been given, in order. -/
def answers (c : ℕ) (history : List (ℕ × StoreOp)) : List Answer :=
  history.filterMap fun x => if x.1 = c then x.2.answer else none

/-- The operation answers the query. A file that does not open has no answer: its client is
redirected. -/
inductive Query.Answered : Query → StoreOp → Prop where
  | list (names : List Bytes) : Answered .list (.listed names)
  | read (path content : Bytes) : Answered (.read path) (.read path (some content))
  | clear (path : Bytes) : Answered (.clear path) (.cleared path)
  | other : Answered .other .redirected

/-- The operations of a client, in order, out of the history of all of them. -/
def opsOf (c : ℕ) (history : List (ℕ × StoreOp)) : List StoreOp :=
  (history.filter fun x => x.1 = c).map Prod.snd

/-! ### Sessions -/

/-- Where a session is with the request it is about. -/
inductive Phase where
  /-- The next request has not arrived. -/
  | waiting
  /-- An upload is arriving, and its file has been made. -/
  | storing
  /-- The request for a resource has arrived, and is not answered. -/
  | asked (resource : Bytes)
  /-- The rest of an answer is still to be sent. -/
  | answering (rest : Bytes)
deriving DecidableEq

/-- What is still to be sent of an answer. -/
def Phase.rest : Phase → Bytes
  | .answering rest => rest
  | _ => []

/-- The session of a client: what the store knows of it. -/
structure Session where
  phase : Phase
  /-- The requests that have been answered completely. -/
  served : ℕ
  /-- What has been sent. -/
  wire : Bytes
deriving DecidableEq

namespace Session

/-- The session of a client that has asked nothing yet. -/
def start : Session := ⟨.waiting, 0, []⟩

/-- The session in another phase. -/
def enter (s : Session) (phase : Phase) : Session := { s with phase }

@[simp] theorem enter_phase (s : Session) (phase : Phase) : (s.enter phase).phase = phase := rfl

@[simp] theorem enter_served (s : Session) (phase : Phase) : (s.enter phase).served = s.served :=
  rfl

@[simp] theorem enter_wire (s : Session) (phase : Phase) : (s.enter phase).wire = s.wire := rfl

end Session

/-- What a session does next, and what happens in the store with it: `m` is the request the client
is about to make. -/
inductive Moves (page : Bytes) (files : Bytes → File) (m : Message) (s : Session) :
    Option StoreOp → Session → Prop where
  /-- The request has arrived. -/
  | asks {h : Head} {isGet : h.line.method = lit "GET"} (message : m = .get h isGet)
      (phase : s.phase = .waiting) : Moves page files m s none (s.enter (.asked h.line.resource))
  /-- An upload begins to arrive. -/
  | makes {u : Upload} (message : m = .upload u) (phase : s.phase = .waiting) :
      Moves page files m s (some (.made u.path)) (s.enter .storing)
  /-- The upload has arrived. -/
  | stores {u : Upload} (message : m = .upload u) (phase : s.phase = .storing) :
      Moves page files m s (some (.stored u.path u.content)) (s.enter (.asked (lit "/redirect")))
  | removes {resource path : Bytes} (phase : s.phase = .asked resource)
      (query : Query.of resource = some (.remove path)) :
      Moves page files m s (some (.removed path)) (s.enter (.asked (lit "/")))
  /-- The file does not open: the client is sent to the list. -/
  | misses {resource path : Bytes} (phase : s.phase = .asked resource)
      (query : Query.of resource = some (.read path))
      (missing : StoreOp.opens (files path) = none) :
      Moves page files m s (some (.read path none)) (s.enter (.asked (lit "/redirect")))
  /-- The file does not open for writing. -/
  | refuses {resource path : Bytes} (phase : s.phase = .asked resource)
      (query : Query.of resource = some (.clear path)) :
      Moves page files m s none (s.enter (.asked (lit "/redirect")))
  /-- The request is answered. -/
  | answers {resource : Bytes} {query : Query} {e : StoreOp} {a : Answer}
      (phase : s.phase = .asked resource) (of : Query.of resource = some query)
      (answered : query.Answered e) (holds : e.Holds files) (answer : e.answer = some a) :
      Moves page files m s (some e) (s.enter (.answering (a.bytes page)))
  /-- Some of the answer is sent. -/
  | sends {rest : Bytes} (n : ℕ) (phase : s.phase = .answering rest) :
      Moves page files m s none
        { phase := .answering (rest.drop n), served := s.served, wire := s.wire ++ rest.take n }
  /-- The answer has been sent. -/
  | settles (phase : s.phase = .answering []) :
      Moves page files m s none { phase := .waiting, served := s.served + 1, wire := s.wire }

/-- What has been done for the request `m` when its session is in this phase. The constructors
follow the moves, but for those that only send. -/
inductive Serves (m : Message) : List StoreOp → Phase → Prop where
  | waits : Serves m [] .waiting
  | asks {h : Head} {isGet : h.line.method = lit "GET"} (message : m = .get h isGet) :
      Serves m [] (.asked h.line.resource)
  | makes {u : Upload} (message : m = .upload u) : Serves m [.made u.path] .storing
  | stores {u : Upload} (message : m = .upload u) :
      Serves m [.made u.path, .stored u.path u.content] (.asked (lit "/redirect"))
  | removes {es : List StoreOp} {resource path : Bytes} (before : Serves m es (.asked resource))
      (query : Query.of resource = some (.remove path)) :
      Serves m (es ++ [.removed path]) (.asked (lit "/"))
  | misses {es : List StoreOp} {resource path : Bytes} (before : Serves m es (.asked resource))
      (query : Query.of resource = some (.read path)) :
      Serves m (es ++ [.read path none]) (.asked (lit "/redirect"))
  | refuses {es : List StoreOp} {resource path : Bytes} (before : Serves m es (.asked resource))
      (query : Query.of resource = some (.clear path)) : Serves m es (.asked (lit "/redirect"))
  | answers {es : List StoreOp} {resource : Bytes} {query : Query} {e : StoreOp} {a : Answer}
      (rest : Bytes) (before : Serves m es (.asked resource)) (of : Query.of resource = some query)
      (answered : query.Answered e) (answer : e.answer = some a) :
      Serves m (es ++ [e]) (.answering rest)

/-- The operations of a client that asks `m n` behind `n` answers, when it has been given `served`
of them: those of the requests that have been answered, and some of the next one. -/
def Performed (m : ℕ → Message) (served : ℕ) (es : List StoreOp) (phase : Phase) : Prop :=
  ∃ (before : List (List StoreOp)) (now : List StoreOp), es = before.flatten ++ now ∧
    before.length = served ∧ (∀ i (h : i < before.length), Serves (m i) before[i] (.answering [])) ∧
    Serves (m served) now phase

/-! ### The system -/

/-- The store and the sessions of its clients. The files are not kept, as they follow from the
history. -/
structure FileStore where
  history : List (ℕ × StoreOp)
  session : ℕ → Session

/-- A step: the client whose session moves, where to, and what happens. -/
structure FileStore.Label where
  client : ℕ
  op : Option StoreOp
  next : Session

namespace FileStore

/-- The files, when the store began with `files`: what the operations so far have made of them. -/
def files (files : Bytes → File) (a : FileStore) : Bytes → File :=
  filesAfter files (a.history.map Prod.snd)

/-- The client `c` has gone on to `s`, and `es` have happened. -/
def put (a : FileStore) (c : ℕ) (es : List StoreOp) (s : Session) : FileStore where
  history := a.history ++ es.map (c, ·)
  session := Function.update a.session c s

section Put

variable (a : FileStore) (c : ℕ) (es : List StoreOp) (s : Session)

@[simp] theorem history_put : (a.put c es s).history = a.history ++ es.map (c, ·) := rfl

@[simp] theorem session_put_self : (a.put c es s).session c = s := Function.update_self ..

/-- The other sessions stay where they are. -/
theorem session_put_of_ne {c' : ℕ} (h : c' ≠ c) : (a.put c es s).session c' = a.session c' :=
  Function.update_of_ne h _ _

@[simp] theorem files_put (files₀ : Bytes → File) :
    (a.put c es s).files files₀ = filesAfter (a.files files₀) es := by
  unfold files put
  rw [List.map_append, List.map_map, filesAfter_append]
  exact congrArg _ (List.map_id es)

/-- A session that stays where it is, with nothing happening. -/
theorem put_self : a.put c [] (a.session c) = a := by
  unfold put
  rw [List.map_nil, List.append_nil, Function.update_eq_self]

/-- A session that goes on twice. -/
theorem put_put (es' : List StoreOp) (s' : Session) :
    (a.put c es s).put c es' s' = a.put c (es ++ es') s' := by
  unfold put
  rw [Function.update_idem, List.append_assoc, List.map_append]

end Put

open Classical in
/-- One step; `script c n` is what the client `c` asks behind `n` answers. A session moves as
`Moves` says, and what happens is noted. -/
noncomputable def step (files₀ : Bytes → File) (page : Bytes) (script : ℕ → ℕ → Message)
    (a : FileStore) (l : Label) : Option FileStore :=
  if Moves page (a.files files₀) (script l.client (a.session l.client).served)
      (a.session l.client) l.op l.next then some (a.put l.client l.op.toList l.next) else none

/-- A step is a move of the session it is for. -/
theorem step_eq_some {files₀ : Bytes → File} {page : Bytes} {script : ℕ → ℕ → Message}
    {a b : FileStore} {l : Label} : step files₀ page script a l = some b ↔
      Moves page (a.files files₀) (script l.client (a.session l.client).served)
        (a.session l.client) l.op l.next ∧ a.put l.client l.op.toList l.next = b := by
  unfold step
  split
  · next h => exact ⟨fun heq => ⟨h, Option.some.inj heq⟩, fun heq => congrArg some heq.2⟩
  · next h => exact ⟨fun heq => (Option.some_ne_none b heq.symm).elim, fun heq => absurd heq.1 h⟩

end FileStore

/-- The store that begins with `files`. -/
noncomputable def fileStore (files : Bytes → File) (page : Bytes) (script : ℕ → ℕ → Message) :
    Machine FileStore FileStore.Label where
  start := ⟨[], fun _ => .start⟩
  step := FileStore.step files page script

/-! ### One session alone -/

/-- The moves of a session whose client asks `m n` behind `n` answers, with what happens
meanwhile. -/
inductive Goes (page : Bytes) (m : ℕ → Message) (files : Bytes → File) (s : Session) :
    List StoreOp → Session → Prop where
  | refl : Goes page m files s [] s
  | step {es : List StoreOp} {s' s'' : Session} {e : Option StoreOp}
      (before : Goes page m files s es s')
      (moves : Moves page (filesAfter files es) (m s'.served) s' e s'') :
      Goes page m files s (es ++ e.toList) s''

/-- One move alone. -/
theorem Moves.goes {page : Bytes} {m : ℕ → Message} {files : Bytes → File} {s s' : Session}
    {e : Option StoreOp} (h : Moves page files (m s.served) s e s') :
    Goes page m files s e.toList s' :=
  .step .refl h

/-- What has been done for a request does not depend on how much of its answer has been sent. -/
theorem Serves.answering {m : Message} {es : List StoreOp} {rest : Bytes}
    (h : Serves m es (.answering rest)) (rest' : Bytes) : Serves m es (.answering rest') := by
  cases h with
  | answers _ before of answered answer => exact .answers rest' before of answered answer

/-- A move goes on with the request: what happens in it is one more operation for this request, and
behind the last of its answer the next request is up. -/
theorem Performed.moves {page : Bytes} {files : Bytes → File} {m : ℕ → Message} {s s' : Session}
    {e : Option StoreOp}
    {es : List StoreOp} (h : Performed m s.served es s.phase)
    (hm : Moves page files (m s.served) s e s') :
    Performed m s'.served (es ++ e.toList) s'.phase := by
  obtain ⟨before, now, rfl, hlen, hbefore, hnow⟩ := h
  -- the request is the same one, unless its answer has been sent
  have hsame {phase : Phase} (hserves : Serves (m s.served) (now ++ e.toList) phase) :
      Performed m s.served (before.flatten ++ now ++ e.toList) phase :=
    ⟨before, now ++ e.toList, List.append_assoc _ _ _, hlen, hbefore, hserves⟩
  -- each move is one of the ways in which a request is gone on with
  cases hm with
  | asks message phase =>
    rw [phase] at hnow
    cases hnow
    exact hsame (.asks message)
  | makes message phase =>
    rw [phase] at hnow
    cases hnow
    exact hsame (.makes message)
  | stores message phase =>
    rw [phase] at hnow
    cases hnow with
    | makes message' =>
      obtain rfl := Message.upload.inj (message.symm.trans message')
      exact hsame (.stores message)
  | removes phase query => exact hsame (.removes (phase ▸ hnow) query)
  | misses phase query missing => exact hsame (.misses (phase ▸ hnow) query)
  | refuses phase query =>
    refine hsame ?_
    rw [Option.toList_none, List.append_nil]
    exact .refuses (phase ▸ hnow) query
  | answers phase of answered holds answer =>
    exact hsame (.answers _ (phase ▸ hnow) of answered answer)
  | sends n phase =>
    rw [phase] at hnow
    refine hsame ?_
    rw [Option.toList_none, List.append_nil]
    exact hnow.answering _
  -- what has been done for this request joins what was done for those before
  | settles phase =>
    rw [phase] at hnow
    refine ⟨before ++ [now], [], ?_, ?_, fun i hi => ?_, .waits⟩
    · simp
    · simp [hlen]
    · rw [List.getElem_append]
      split
      · next hlt => exact hbefore i hlt
      · next hge =>
        -- the last one of them is the request that has just been answered
        have hi' : i = s.served := by
          rw [List.length_append, List.length_singleton] at hi
          omega
        subst hi'
        simpa using hnow

namespace FileStore

variable {files₀ : Bytes → File} {page : Bytes} {script : ℕ → ℕ → Message}

/-- **The moves of one session** are a run of the store. -/
theorem run_of_goes {a : FileStore} {c : ℕ} {es : List StoreOp} {s : Session}
    (h : Goes page (script c) (a.files files₀) (a.session c) es s) :
    ∃ ms, (fileStore files₀ page script).run a ms = some (a.put c es s) := by
  induction h with
  | refl => exact ⟨[], congrArg some (a.put_self c).symm⟩
  | @step es s' s'' e before moves ih =>
    obtain ⟨ms, hms⟩ := ih
    -- the last move is enabled, as the session has come to where it starts
    refine ⟨ms ++ [⟨c, e, s''⟩], Machine.run_trans hms ?_⟩
    rw [Machine.run_singleton]
    refine step_eq_some.mpr ⟨?_, put_put ..⟩
    rw [files_put, session_put_self]
    exact moves

/-! ### What is so in every run -/

/-- What happens in a move is so. -/
theorem holds_of_moves {files : Bytes → File} {m : Message} {s s' : Session} {e : Option StoreOp}
    (h : Moves page files m s e s') : ∀ x ∈ e, x.Holds files := by
  cases h with
  -- what is read and listed is so by the move; the others tell nothing
  | answers _ _ _ holds _ => exact fun x hx => Option.some.inj hx ▸ holds
  | misses _ _ missing => exact fun x hx => Option.some.inj hx ▸ missing.symm
  | makes _ _ => exact fun x hx => Option.some.inj hx ▸ trivial
  | stores _ _ => exact fun x hx => Option.some.inj hx ▸ trivial
  | removes _ _ => exact fun x hx => Option.some.inj hx ▸ trivial
  | _ => exact fun x hx => (Option.some_ne_none x hx.symm).elim

/-- **Every answer is the one of the files at its moment.** -/
theorem reachable_valid {a : FileStore}
    (h : (fileStore files₀ page script).Reachable Machine.anyStep a) :
    Valid files₀ (a.history.map Prod.snd) := by
  refine h.invariant (I := fun a => Valid files₀ (a.history.map Prod.snd))
    (show Valid files₀ [] from trivial) fun a l b _ ha _ hstep => ?_
  obtain ⟨hmoves, rfl⟩ := step_eq_some.mp hstep
  have hholds := holds_of_moves hmoves
  -- what has been told before was so then
  rw [history_put, List.map_append, valid_append]
  refine ⟨ha, ?_⟩
  cases he : l.op with
  | none => exact trivial
  | some e => exact ⟨hholds e he, trivial⟩

/-- What a move sends is what it takes off the rest, or what is answered is the rest. -/
theorem spelled_of_moves {files : Bytes → File} {m : Message} {s s' : Session} {e : Option StoreOp}
    (h : Moves page files m s e s') :
    s'.wire ++ s'.phase.rest =
      s.wire ++ s.phase.rest ++ (e.bind StoreOp.answer).elim [] (Answer.bytes page) := by
  -- only an answer adds to what is to be sent, and only `sends` takes from it
  cases h with
  | asks _ phase => simp [Phase.rest, phase]
  | makes _ phase => simp [Phase.rest, phase, StoreOp.answer]
  | stores _ phase => simp [Phase.rest, phase, StoreOp.answer]
  | removes phase _ => simp [Phase.rest, phase, StoreOp.answer]
  | misses phase _ _ => simp [Phase.rest, phase, StoreOp.answer]
  | refuses phase _ => simp [Phase.rest, phase]
  | answers phase _ _ _ answer => simp [Phase.rest, phase, answer]
  | sends n phase => simp [Phase.rest, phase]
  | settles phase => simp [Phase.rest, phase]

/-- The answers in two parts of a history. -/
theorem answers_append (c : ℕ) (xs ys : List (ℕ × StoreOp)) :
    answers c (xs ++ ys) = answers c xs ++ answers c ys :=
  List.filterMap_append

/-- The answers that one move gives: its own client has what its operation answers. -/
theorem answers_of_op (c d : ℕ) (e : Option StoreOp) :
    answers c (e.toList.map (d, ·)) = if d = c then (e.bind StoreOp.answer).toList else [] := by
  cases e with
  | none => split <;> rfl
  | some e =>
    unfold answers
    rw [Option.toList_some, List.map_singleton, List.filterMap_cons, List.filterMap_nil,
      Option.bind_some]
    by_cases hd : d = c
    · rw [if_pos hd, if_pos hd]
      cases e.answer <;> rfl
    · rw [if_neg hd, if_neg hd]

/-- **What a client has been sent, and the rest of the answer it is being sent, are the answers of
its operations**, in order. -/
theorem reachable_spelled {a : FileStore}
    (h : (fileStore files₀ page script).Reachable Machine.anyStep a) (c : ℕ) :
    (a.session c).wire ++ (a.session c).phase.rest =
      (answers c a.history).flatMap (Answer.bytes page) := by
  refine h.invariant (I := fun a => (a.session c).wire ++ (a.session c).phase.rest =
    (answers c a.history).flatMap (Answer.bytes page)) rfl fun a l b _ ha _ hstep => ?_
  obtain ⟨hmoves, rfl⟩ := step_eq_some.mp hstep
  rw [history_put, answers_append, answers_of_op, List.flatMap_append, ← ha]
  -- a move of the client itself, or of another one, which sends it nothing
  by_cases hc : l.client = c
  · subst hc
    rw [session_put_self, if_pos rfl, spelled_of_moves hmoves]
    cases l.op.bind StoreOp.answer <;> simp
  · rw [session_put_of_ne _ _ _ _ (Ne.symm hc), if_neg hc, List.flatMap_nil, List.append_nil]

/-- **The operations of a client are those of its requests**, in the order of the requests. -/
theorem reachable_performed {a : FileStore}
    (h : (fileStore files₀ page script).Reachable Machine.anyStep a) (c : ℕ) :
    Performed (script c) (a.session c).served (opsOf c a.history) (a.session c).phase := by
  refine h.invariant (I := fun a => Performed (script c) (a.session c).served (opsOf c a.history)
    (a.session c).phase) ?_ fun a l b _ ha _ hstep => ?_
  · exact ⟨[], [], rfl, rfl, fun i hi => absurd hi (Nat.not_lt_zero i), .waits⟩
  obtain ⟨hmoves, rfl⟩ := step_eq_some.mp hstep
  rw [history_put, opsOf, List.filter_append, List.map_append]
  by_cases hc : l.client = c
  · subst hc
    rw [session_put_self]
    -- a move of its own is the last of its operations
    have hops : ((l.op.toList.map (l.client, ·)).filter fun x => x.1 = l.client).map Prod.snd =
        l.op.toList := by
      cases l.op <;> simp
    rw [hops]
    exact ha.moves hmoves
  · rw [session_put_of_ne _ _ _ _ (Ne.symm hc)]
    -- a move of another client is none of them
    have hops : ((l.op.toList.map (l.client, ·)).filter fun x => x.1 = c).map Prod.snd = [] := by
      cases l.op <;> simp [hc]
    rw [hops, List.append_nil]
    exact ha

/-- What happens in a list of steps, with the clients for which it happens. -/
def happened (ls : List Label) : List (ℕ × StoreOp) :=
  ls.flatMap fun l => l.op.toList.map (l.client, ·)

/-- A list of steps and more behind it. -/
theorem happened_append (ls ls' : List Label) :
    happened (ls ++ ls') = happened ls ++ happened ls' :=
  List.flatMap_append

/-- **What has happened stays**, and what happens in a run comes behind it. -/
theorem history_run {a b : FileStore} {ls : List Label}
    (h : (fileStore files₀ page script).run a ls = some b) :
    b.history = a.history ++ happened ls := by
  induction ls generalizing a with
  | nil =>
    obtain rfl := Option.some.inj h
    exact (List.append_nil _).symm
  | cons l ls ih =>
    obtain ⟨t, ht, hrest⟩ := Option.bind_eq_some_iff.mp h
    obtain ⟨-, rfl⟩ := step_eq_some.mp ht
    rw [ih hrest, history_put, List.append_assoc]
    rfl

end FileStore

end Cherokee
