import Cherokee.Lib.Simulation
import Cherokee.SimulatedRecv
import Cherokee.SimulatedSend

/-!
# The server refines the store

An orderly run of the server, in which the clients wait for their responses and no two connections
use one file at a time, is a run of the store: every upload is stored at one moment, every request
is answered from the files of one moment, and the clients see nothing of the calls, the chunks and
the partial sends in which it is done.

* `FileServer.simulates`: the server refines the store.
* `FileServer.Linearizes`: a history of the store explains what the clients of a run see. Nothing
  happens in it for a request that has not arrived, and what a client has been sent is in it.
* `FileServer.linearizable`: the histories can be chosen for all runs at once, so that the history
  of a run begins with the one it had at any moment before, whatever has come since.

So an operation takes effect between the arrival of its request and its answer, and once it has, it
keeps its place: a request that begins to arrive behind an answer comes behind it in the history
(`Linearizes.between`).
-/

namespace Cherokee

open HandleSend HandleRecv

namespace Simulated

open FileServer

variable {s t : FileServer} {a : FileStore} {script : ℕ → ℕ → Message} {files : Bytes → File}
  {page : Bytes}

/-- The server and the store at the start: no client has sent anything, and no session has done
anything. -/
theorem start (page : Bytes) (fs : FileSystem) : Simulated script fs.file (fileServer page fs).start
    (fileStore fs.file page script).start where
  up := rfl
  awake _ := rfl
  numbered := Server.numbered_init
  free _ _ := ⟨rfl, blank_none⟩
  wire _ := rfl
  served _ := rfl
  new _ _ := rfl
  arrived _ := .waiting rfl rfl
  stage _ _ hd := by cases hd
  settled _ _ := rfl
  alone _ _ _ hs := by cases hs
  uploading _ _ hs := by cases hs

/-- An accepted connection waits for its first request. Its descriptor was free, so that nothing is
left under it, and in the store nothing happens. -/
theorem accept (h : Simulated script files s a) {fd : ℤ} {base : Server}
    (hstep : s.base.step (.accept fd) = some base) : Simulated script files { s with base } a := by
  have hnumbered := h.numbered.accept hstep
  obtain ⟨⟨-, hnone⟩, rfl⟩ := Server.accept_eq_some.mp hstep
  refine ⟨h.up, h.awake, hnumbered, ?_, h.wire, h.served, ?_, h.arrived, ?_,
    h.settled, h.alone, ?_⟩
  · intro d hd
    refine h.free d ?_
    by_cases hdf : d = fd
    · rw [hdf, hnone]
    · exact (Function.update_of_ne hdf _ _).symm.trans hd
  · exact fun c hc => h.new c (Nat.le_of_succ_le hc)
  · intro d c hd
    -- the descriptor of the new connection, and those that were open before
    rcases Server.conn_of_accept hd with ⟨rfl, rfl⟩ | ⟨-, hold⟩
    · obtain ⟨hrequest, hblank⟩ := h.free d hnone
      have hnew := h.new s.base.accepted le_rfl
      have hlog := h.numbered.unused s.base.accepted le_rfl
      have hstart : s.exchange s.base.accepted = .start := by
        rw [FileServer.exchange, hlog]
        rfl
      change Stage _ _ _ (s.exchange s.base.accepted) _ _ _
      rw [hnew, hstart]
      -- nothing has arrived, and the entries are as for one that has never been used
      refine .waiting ?_ rfl rfl rfl hblank
      change Message.At _ _ _ ((s.base.requestStatus d).getD Request.init)
      rw [hrequest]
      exact Message.at_start _
    · exact h.stage d c hold
  · intro c path hs
    obtain ⟨d, hd⟩ := h.uploading c path hs
    refine ⟨d, (Function.update_of_ne ?_ _ _).trans hd⟩
    rintro rfl
    rw [hnone] at hd
    cases hd

end Simulated

namespace FileServer

section Refines

variable {page : Bytes} {fs : FileSystem} {script : ℕ → ℕ → Message}

/-- **The server refines the store.** Every step of an orderly run is answered by moves of the
session it is for. -/
theorem simulates (hfits : ∀ c n, (script c n).Fits) :
    (fileServer page fs).Simulates (fileStore fs.file page script) (Orderly page script)
      (Simulated script fs.file) where
  start := .start page fs
  step s l t a hR hG hstep := by
    rcases step_cases hstep with ⟨fd, base, rfl, hbase, rfl⟩ | ⟨fd, h, c, hhandler, hready, rfl⟩
    · exact ⟨[], a, rfl, hR.accept hbase⟩
    · -- the guard of the step is about the call it makes
      obtain ⟨hapart, hreturns, hbrings⟩ := hG _ (mem_callOf hhandler hready)
      obtain ⟨-, hfd, -⟩ := Server.ready_eq_some.mp hready
      rcases handler_cases hhandler with
        ⟨results, fresh, rfl, rfl⟩ | ⟨v, results, content, rfl, hoffers, hsource, rfl⟩
      · exact hR.recv hfits hfd rfl hapart hreturns hbrings
      · exact hR.send hfd hoffers rfl hapart hreturns hsource hbrings

/-! ### Histories -/

/-- The history explains a state of the server that began with the files `files`. -/
structure Linearizes (page : Bytes) (script : ℕ → ℕ → Message) (files : Bytes → File)
    (s : FileServer) (history : List (ℕ × StoreOp)) : Prop where
  /-- What is read and listed is what the operations before have made. -/
  valid : Valid files (history.map Prod.snd)
  /-- The operations of a client are those of its requests: of all that have been answered, and of
  the next one only what may have happened with as much of it as has arrived. What the client has
  been sent is the answers of its operations, but for the rest of the last one. -/
  client : ∀ c, ∃ phase, Arrived (script c (s.exchange c).answered) (s.exchange c) phase ∧
    Performed (script c) (s.exchange c).answered (opsOf c history) phase ∧
    onWire (s.base.log c) ++ phase.rest = (answers c history).flatMap (Answer.bytes page)
  /-- The files are what the operations have made, unless an upload to them is arriving. -/
  files : ∀ path, (∀ c, (s.exchange c).storing ≠ some path) →
    s.disk.file path = filesAfter files (history.map Prod.snd) path

/-- A state that a state of the store stands behind is explained by what has happened in the
store. -/
theorem linearizes_of_simulated {files : Bytes → File} {s : FileServer} {a : FileStore}
    (h : Simulated script files s a)
    (ha : (fileStore files page script).Reachable Machine.anyStep a) :
    Linearizes page script files s a.history where
  valid := FileStore.reachable_valid ha
  client c := by
    -- how far the session has come is how far the request has arrived
    refine ⟨(a.session c).phase, ?_, ?_, ?_⟩
    · rw [h.served c]
      exact h.arrived c
    · rw [h.served c]
      exact FileStore.reachable_performed ha c
    · rw [h.wire c, FileStore.reachable_spelled ha c]
  files := h.settled

/-- **Between two requests of a client** the history has all of the first and nothing of the next:
the operations are those of the requests that have been answered, and their answers have been
sent. -/
theorem Linearizes.between {files : Bytes → File} {s : FileServer} {history : List (ℕ × StoreOp)}
    (h : Linearizes page script files s history) {c : ℕ} (hgot : (s.exchange c).got = []) :
    (∃ before : List (List StoreOp), opsOf c history = before.flatten ∧
      before.length = (s.exchange c).answered ∧
      ∀ i (hi : i < before.length), Serves (script c i) before[i] (.answering [])) ∧
    onWire (s.base.log c) = (answers c history).flatMap (Answer.bytes page) := by
  obtain ⟨phase, harrived, ⟨before, now, hops, hlen, hbefore, hnow⟩, hwire⟩ := h.client c
  obtain rfl := harrived.waiting_of_nothing hgot
  -- a session that waits has done nothing yet
  cases hnow
  exact ⟨⟨before, hops.trans (List.append_nil _), hlen, hbefore⟩,
    (List.append_nil _).symm.trans hwire⟩

/-- The runs of `M` that meet the condition `G` have histories, which explain what `view` shows of
the states. The histories are chosen for all runs at once, and only grow as a run goes on: what may
come later is of no influence on what has happened. -/
def Linearizable {State Label : Type} (M : Machine State Label) (G : State → Label → Prop)
    (view : State → FileServer) (page : Bytes) (script : ℕ → ℕ → Message) (files : Bytes → File) :
    Prop :=
  ∃ H : List Label → List (ℕ × StoreOp), (∀ ls ls', H ls <+: H (ls ++ ls')) ∧
    ∀ ls s, M.run M.start ls = some s → M.Along G M.start ls →
      Linearizes page script files (view s) (H ls)

/-- A system that is answered by the store, and shows a state of the server, has histories. -/
theorem linearizable_of_simulates {State Label : Type} {M : Machine State Label}
    {G : State → Label → Prop} {R : State → FileStore → Prop} {view : State → FileServer}
    (hsim : M.Simulates (fileStore fs.file page script) G R)
    (hR : ∀ s a, R s a → Simulated script fs.file (view s) a) :
    Linearizable M G view page script fs.file := by
  -- the moves of the store for every run, each a continuation of those for the runs before
  obtain ⟨F, hgrows, hF⟩ := hsim.follows
  refine ⟨fun ls => FileStore.happened (F ls), fun ls ls' => ?_, fun ls s hs hls => ?_⟩
  · obtain ⟨more, hmore⟩ := hgrows ls ls'
    simp only [← hmore, FileStore.happened_append]
    exact List.prefix_append _ _
  -- the history that the store records is made of its moves
  · obtain ⟨a, hrun, ha⟩ := hF ls s hs hls
    have hreach := Machine.reachable_of_run .start hrun (Machine.along_anyStep _ _)
    have hhistory : a.history = FileStore.happened (F ls) := FileStore.history_run hrun
    have hlinear := linearizes_of_simulated (hR s a ha) hreach
    rwa [hhistory] at hlinear

end Refines

/-! ### Two clients -/

theorem get_token : IsToken (lit "GET") := by decide

theorem downlNotes_token : IsToken (lit "/downl/mynotes.txt") := by decide

theorem delNotes_token : IsToken (lit "/del/mynotes.txt") := by decide

/-- A `GET` without headers. -/
def bareGet (resource : Bytes) (h : IsToken resource) : Message :=
  .get ⟨⟨lit "GET", resource, lit "HTTP/1.1", get_token, h, http_token⟩, [],
    List.forall_mem_nil _⟩ rfl

/-- One client stores its notes and deletes them again, the others look at the list and download
them. -/
def noteScript : ℕ → ℕ → Message
  | 0, 0 => .upload sampleUpload
  | 0, _ => bareGet (lit "/del/mynotes.txt") delNotes_token
  | _, 0 => bareGet (lit "/") slash_token
  | _, _ => bareGet (lit "/downl/mynotes.txt") downlNotes_token

/-- A template that is the label only, so that a page is the list of the files and nothing else. -/
def labelPage : Bytes := lit "<!--filelist_label-->\n"

/-- A chunk arrives on `fd`, and `HandleRecv` is called for it. -/
def chunkOn (fd : ℤ) (buf : Bytes) : Label := .recv fd [.data buf true] sampleWorld.fresh

/-- `HandleSend` is called for `fd`, with `names` in the directory; a file would be opened as
`fileFd`. -/
def sendOn (fd fileFd : ℤ) (names : List Bytes) (results : List SendResult) : Label :=
  .send fd ⟨lit "." :: lit ".." :: names, fileFd, true, sampleWorld.fresh⟩ results

/-- The list is asked for while the notes arrive in two parts. -/
def noteRun : List Label :=
  [.accept 5, .accept 6, chunkOn 5 (sampleUpload.bytes.take 240), chunkOn 6 (noteScript 1 0).bytes,
    sendOn 6 7 [lit "mynotes.txt"] [.accepted 2048 [], .accepted 9 []],
    chunkOn 5 (sampleUpload.bytes.drop 240), sendOn 5 7 [lit "mynotes.txt"] [.accepted 2048 []],
    sendOn 6 7 [lit "mynotes.txt"] [.accepted 2048 []], chunkOn 6 (noteScript 1 1).bytes]

/-- The notes are deleted while they are being sent. -/
def noteEnd : List Label :=
  [sendOn 6 7 [lit "mynotes.txt"] [.accepted 2048 [], .accepted 4 []],
    chunkOn 5 (noteScript 0 1).bytes, sendOn 5 8 [lit "mynotes.txt"] [],
    sendOn 5 8 [] [.accepted 2048 [], .accepted 2048 []], sendOn 6 8 [] [.accepted 2048 []]]

theorem noteScript_fits (c n : ℕ) : (noteScript c n).Fits := by
  unfold noteScript
  split
  · change sampleUpload.bytes.length ≤ maxSize
    decide +kernel
  all_goals exact trivial

end FileServer

end Cherokee
