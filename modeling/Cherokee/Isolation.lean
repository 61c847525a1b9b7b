import Cherokee.Server

/-!
# Connection isolation

The bytes on a connection belong to responses to requests of the same connection, as long as
`HandleRecv` closes a connection only when no response is owed on it. A response that is still owed
stays in `responseStatus`, and is sent to the next connection under the descriptor.

* `Conn.reachable_answers`: a connection that is alone is isolated.
* `Server.isolated_of_clean`: so is every connection of a run that leaves nothing behind.
* `Server.leaked_response`: a run that does leave a response behind.
-/

namespace Cherokee

open HandleSend

/-- What happened on a connection is its own: the bytes written belong to its responses. -/
structure Isolated (acts : List Action) : Prop where
  /-- The bytes written are those of the responses constructed on the connection. -/
  stream : onWire acts <+: flatten (responses acts)
  /-- Every response is for one resource. -/
  paired : (responses acts).length = (ledger acts).built.length
  /-- It is a resource that has been handed over on the connection. -/
  answers : ∀ name ∈ (ledger acts).built, name ∈ (ledger acts).asked
  /-- All of it happens in a run without any other connection. -/
  alone : ∃ left, Conn.Idle left ∧
    ∃ k, (connection left).Reachable Machine.anyStep k ∧ k.log = acts

/-! ### Readings of a log -/

theorem length_modifyLast {α : Type} (f : α → α) (l : List α) :
    (l.modifyLast f).length = l.length := by
  rcases List.eq_nil_or_concat l with rfl | ⟨init, last, rfl⟩
  · rfl
  · rw [List.concat_eq_append, List.modifyLast_concat, List.length_append, List.length_append]
    rfl

/-- Every response constructed is entered into the account. -/
theorem responses_length (acts : List Action) :
    (responses acts).length = (ledger acts).built.length := by
  have hstep (ps : List (Bytes × Bytes)) (l : Ledger) (h : ps.length = l.built.length)
      (a : Action) : (record ps a).length = (l.enter a).built.length := by
    cases a with
    | built r => simp [record, Ledger.enter, h]
    | sentFile data => exact (length_modifyLast _ ps).trans h
    | _ => exact h
  suffices hall : ∀ (ps : List (Bytes × Bytes)) (l : Ledger), ps.length = l.built.length →
      (acts.foldl record ps).length = (acts.foldl Ledger.enter l).built.length from
    hall [] .empty rfl
  induction acts with
  | nil => exact fun _ _ h => h
  | cons a acts ih => exact fun ps l h => ih _ _ (hstep ps l h a)

/-- What is constructed behind a list of actions is recorded behind what it has constructed. -/
theorem responses_append (xs ys : List Action) :
    responses (xs ++ ys) = ys.foldl record (responses xs) := List.foldl_append

/-- What is on the wire is a beginning of the responses. -/
theorem entryTracks_isPrefix {stream : Bytes} {ps : List (Bytes × Bytes)}
    {response : Option Response} (h : EntryTracks stream ps response) : stream <+: flatten ps := by
  -- where all is delivered, the stream is the responses
  have hdelivered (hd : Delivered stream ps) : stream <+: flatten ps := by
    rw [hd.wire]
  cases response with
  | none => exact hdelivered h
  | some r =>
    -- a response that is not begun, one whose head is being sent, and one whose body is
    cases h.1 with
    | idle _ delivered => exact hdelivered delivered
    | head done qs status sound delivered responses sent wire =>
      rw [wire, responses, flatten_append, flatten_singleton, delivered.wire]
      refine (List.prefix_append_right_inj _).mpr ?_
      exact (List.take_prefix _ _).trans (List.prefix_append _ _)
    | body done qs data status sound delivered responses sent room page wire =>
      rw [wire, responses, flatten_append, flatten_singleton, delivered.wire, List.append_assoc]
      refine (List.prefix_append_right_inj _).mpr ((List.prefix_append_right_inj _).mpr ?_)
      split_ifs with hb
      · exact page hb
      · exact List.prefix_rfl

namespace Conn

/-- Where no response is being sent all of them are on the wire. -/
theorem delivered_of_init {stream : Bytes} {ps : List (Bytes × Bytes)} {response : Option Response}
    (h : EntryTracks stream ps response) (hinit : ∀ r ∈ response, r.status = .handleInit) :
    stream = flatten ps := by
  cases response with
  | none => exact h.wire
  | some r =>
    have hi := hinit r rfl
    cases h.1 with
    | idle _ delivered => exact delivered.wire
    | head _ _ status => cases hi.symm.trans status
    | body _ _ _ status => cases hi.symm.trans status

/-- A call keeps account of what is on the wire. -/
theorem call_tracks {k : Conn} (hk : k.Sound) (h : Handler)
    (ht : EntryTracks (onWire k.log) (responses k.log) k.response) :
    let c := h.call k.request k.response
    EntryTracks (onWire (k.log ++ c.acts)) (responses (k.log ++ c.acts)) c.response := by
  intro c
  rw [onWire_append, responses_append]
  -- `HandleSend` writes and keeps account of it; `HandleRecv` writes nothing
  cases h with
  | send w results => exact process_tracks w results k.request ht
  | recv results fresh =>
    obtain ⟨before, last, hacts, hbefore, hend⟩ :=
      recv_receives results fresh k.response hk.request
    have hsilent (hlast : ∀ a ∈ last, a.Silent) : ∀ a ∈ c.acts, a.Silent := by
      rw [show c.acts = _ from hacts]
      exact fun a ha => (List.mem_append.mp ha).elim (fun hb => (hbefore a hb).silent) (hlast a)
    -- nothing is written, and the entry is the one before or it has got a resource
    have hkeeps (hlast : ∀ a ∈ last, a.Silent)
        (hresponse : EntryTracks (onWire k.log) (responses k.log) c.response) :
        EntryTracks (onWire k.log ++ onWire c.acts) (c.acts.foldl record (responses k.log))
          c.response := by
      rwa [onWire_silent (hsilent hlast), foldl_record_silent (hsilent hlast), List.append_nil]
    have hkept (h : c.response = k.response) :
        EntryTracks (onWire k.log) (responses k.log) c.response := by rwa [h]
    cases hend with
    | waits r crash request live kept => exact hkeeps (by simp [Action.Silent]) (hkept kept)
    | closes rearmed crash request arm kept =>
      refine hkeeps ?_ (hkept kept)
      rcases arm with rfl | rfl <;> simp [Action.Silent]
    | openFails path r crash request live kept =>
      exact hkeeps (by simp [Action.Silent]) (hkept kept)
    | crashes f crash kept => exact hkeeps nofun (hkept kept)
    | asks name logged crash live handed completes =>
      refine hkeeps ?_ ?_
      · rcases completes with rfl | ⟨method, resource, -, -, rfl⟩ <;> simp [Action.Silent]
      · rw [show c.response = _ from handed]
        exact setBodyFileName_tracks fresh name ht

/-- The resource the response in the making is for has been asked for. -/
structure Answers (l : Ledger) (response : Option Response) : Prop where
  current : ∀ name ∈ l.current, name ∈ l.asked
  named : ∀ r ∈ response, r.status = .handleInit → l.current = none →
    r.bodyFileName = [] ∨ r.bodyFileName ∈ l.asked

/-- The resource of a response that is constructed has been asked for. -/
theorem Answers.entry {l : Ledger} {response : Option Response} (h : Answers l response)
    {r : Response} (hr : response = some r) (hi : r.status = .handleInit)
    (hn : r.bodyFileName ≠ []) : l.current.getD r.bodyFileName ∈ l.asked := by
  cases hc : l.current with
  | none => exact (h.named r hr hi hc).resolve_left hn
  | some name => exact h.current name hc

/-- Behind the send loop. -/
theorem answers_of_sends {c : Call} {l l' : Ledger} (h : Sends c l l')
    (hl : ∀ name ∈ l.current, name ∈ l.asked) : Answers l' c.response := by
  cases h with
  | waits r crash response sending =>
    refine ⟨hl, fun q hq hi _ => ?_⟩
    rw [response] at hq
    obtain rfl := Option.some.inj hq
    rcases sending with h | h <;> cases hi.symm.trans h
  | finishes fresh crash response =>
    refine ⟨nofun, fun q hq _ _ => .inl ?_⟩
    rw [response] at hq
    obtain rfl := Option.some.inj hq
    rfl

/-- The send loop asks for nothing and constructs nothing. -/
theorem asked_of_sends {c : Call} {l l' : Ledger} (h : Sends c l l') :
    l'.asked = l.asked ∧ l'.built = l.built := by
  cases h with
  | waits => exact ⟨rfl, rfl⟩
  | finishes => exact ⟨rfl, rfl⟩

/-- Every response that a call constructs is for a resource that has been asked for. -/
theorem built_of_moves {k : Conn} {c : Call} {l : Ledger} (h : Moves k c l)
    (ha : Answers (ledger k.log) k.response)
    (hb : ∀ name ∈ (ledger k.log).built, name ∈ (ledger k.log).asked) :
    ∀ name ∈ l.built, name ∈ l.asked := by
  intro name hn
  cases h with
  | keeps => exact hb name hn
  | asks => exact List.mem_append_left _ (hb name hn)
  | resumes r entry sending sends =>
    obtain ⟨hasked, hbuilt⟩ := asked_of_sends sends
    rw [hbuilt] at hn
    rw [hasked]
    exact hb name hn
  | opens r entry status named sends =>
    obtain ⟨hasked, hbuilt⟩ := asked_of_sends sends
    rw [hbuilt] at hn
    rw [hasked]
    -- a response that was constructed before, or the one of this call
    rcases List.mem_append.mp hn with hn | hn
    · exact hb name hn
    · rw [List.mem_singleton.mp hn]
      exact ha.entry entry status named
  | reenters => exact hb name hn
  | crashes => exact hb name hn

/-- A call that returns keeps this. -/
theorem answers_of_moves {k : Conn} {c : Call} {l : Ledger} (h : Moves k c l)
    (hcrash : c.crash = none) (ha : Answers (ledger k.log) k.response) :
    Answers l c.response := by
  -- a response that has been entered is for the resource it was entered for first
  have hentered {r : Response} (entry : k.response = some r) (status : r.status = .handleInit)
      (named : r.bodyFileName ≠ []) :
      ∀ name ∈ (ledger k.log).current.or (some r.bodyFileName), name ∈ (ledger k.log).asked := by
    intro name hn
    have hmem := ha.entry entry status named
    cases hc : (ledger k.log).current with
    | none =>
      rw [hc] at hn hmem
      rwa [← Option.some.inj hn]
    | some first =>
      rw [hc] at hn hmem
      rwa [← Option.some.inj hn]
  cases h with
  | keeps response =>
    rw [response]
    exact ha
  -- the entry is for the resource that has just been asked for
  | asks name fresh crash response =>
    refine ⟨fun n hn => List.mem_append_left _ (ha.current n hn), fun q hq _ _ => .inr ?_⟩
    rw [response] at hq
    obtain rfl := Option.some.inj hq
    exact List.mem_append_right _ (List.mem_singleton_self name)
  | resumes r entry sending sends => exact answers_of_sends sends ha.current
  | opens r entry status named sends => exact answers_of_sends sends (hentered entry status named)
  -- the entry is replaced, and what it is for is still noted
  | reenters r next entry status named crash response init =>
    refine ⟨hentered entry status named, fun q _ _ hnone => ?_⟩
    rw [Ledger.entered] at hnone
    simp at hnone
  | crashes f r next crash => cases hcrash.symm.trans crash

/-- What holds of a connection that is alone: what is on the wire, and what the responses are
for. -/
structure Own (k : Conn) : Prop where
  tracks : EntryTracks (onWire k.log) (responses k.log) k.response
  built : ∀ name ∈ (ledger k.log).built, name ∈ (ledger k.log).asked
  answers : k.ended = false → Answers (ledger k.log) k.response

/-- A new connection has written nothing, and what it finds under its descriptor was asked for by
nobody. -/
theorem own_start {left : Option Response} (h : Idle left) : Own (connection left).start where
  tracks := by
    cases left with
    | none => exact ⟨rfl, nofun⟩
    | some r =>
      obtain ⟨hi, -⟩ := h r rfl
      exact ⟨.idle (.inl hi) ⟨rfl, nofun⟩, by rw [hi]; exact nofun⟩
  built := nofun
  answers _ := ⟨nofun, fun r hr _ _ => .inl (h r hr).2⟩

/-- **A connection that is alone is isolated.** -/
theorem reachable_own {left : Option Response} (hleft : Idle left) {G : Conn → Handler → Prop}
    {k : Conn} (h : (connection left).Reachable G k) : k.Own := by
  refine h.invariant (own_start hleft) ?_
  intro k h k' hreach hown _ hstep
  obtain ⟨hopen, rfl⟩ := step_eq_some.mp hstep
  have hk := reachable_sound hleft hreach hopen
  -- what the call does to the account is one of the moves of a sound connection
  have hmoves := call_moves hk h
  have ha := hown.answers hopen
  refine ⟨call_tracks hk h hown.tracks, built_of_moves hmoves ha hown.built, fun hover => ?_⟩
  exact answers_of_moves hmoves (crash_of_open hover) ha

end Conn

/-! ### The server -/

namespace Server

/-- **Connections are isolated** in a run that leaves nothing behind. -/
theorem Splits.isolated {G : Conn → Handler → Prop} {s : Server} (h : s.Splits G) (c : ℕ) :
    Isolated (s.log c) := by
  obtain ⟨left, hleft, k, hk, hlog, -⟩ := h.alone c
  have hown := Conn.reachable_own hleft hk
  rw [← hlog]
  exact ⟨entryTracks_isPrefix hown.tracks, responses_length _, hown.built,
    left, hleft, k, hk.mono fun _ _ _ => trivial, rfl⟩

/-- A call leaves no entry: it closes a connection only when `responseStatus` holds nothing for its
descriptor. -/
def Vacant (s : Server) (l : Label) : Prop :=
  s.Clean l ∧ match l with
    | .accept _ => True
    | .call fd h => closes (s.call fd h).acts → s.responseStatus fd = none

instance (s : Server) : (l : Label) → Decidable (s.Vacant l)
  | .accept fd => inferInstanceAs (Decidable (s.Clean (.accept fd) ∧ True))
  | .call fd h => inferInstanceAs (Decidable
      (s.Clean (.call fd h) ∧ (closes (s.call fd h).acts → s.responseStatus fd = none)))

/-- The splitting of a run that leaves nothing behind. -/
theorem splits_of_clean {H : Server → Label → Prop} (hclean : ∀ s l, H s l → s.Clean l) {s : Server}
    (h : server.Reachable H s) : s.Splits Machine.anyStep :=
  splits_of_reachable hclean (fun _ _ _ _ _ _ => trivial) h

/-- A run that leaves no entry has none for a descriptor that is not open. -/
theorem vacant_of_reachable {s : Server} (h : server.Reachable Vacant s) :
    ∀ fd, s.conn fd = none → s.responseStatus fd = none := by
  refine h.invariant (I := fun s => ∀ fd, s.conn fd = none → s.responseStatus fd = none)
    (fun _ _ => rfl) ?_
  intro s l s' hreach hs hl hstep d hd
  have hsplits := splits_of_clean (fun _ _ h => h.1) hreach
  cases l with
  | accept fd =>
    obtain ⟨⟨-, hnone⟩, rfl⟩ := accept_eq_some.mp hstep
    refine hs d ?_
    by_cases hdf : d = fd
    · rwa [hdf]
    · exact (Function.update_of_ne hdf _ _).symm.trans hd
  | call fd x =>
    obtain ⟨c, hr, rfl⟩ := call_eq_some.mp hstep
    have hfd := (ready_eq_some.mp hr).2.1
    obtain ⟨⟨hstray, -⟩, hvacant⟩ := hl
    by_cases hdf : d = fd
    -- the descriptor of the call: it is closed behind it, and the call has closed it
    · subst hdf
      rw [after_responseStatus_self]
      rcases conn_after_eq_none hd with hd | ⟨-, hc⟩ | hd
      · cases hfd.symm.trans (hstray d hd)
      · exact ((hsplits.sound hr).closing_call hc).2.trans (hvacant hc)
      · cases hfd.symm.trans hd
    -- the entries of another descriptor are as they were
    · rw [after_responseStatus_of_ne hdf]
      rcases conn_after_eq_none hd with hd | ⟨hd, -⟩ | hd
      · exact hs d (hstray d hd)
      · exact absurd hd hdf
      · exact hs d hd

/-- **Connection isolation.** In every run in which `HandleRecv` closes a connection only when no
response is owed on it, every connection is isolated, and nothing that has been asked for stays
behind under a descriptor that is not open. Where it closes a connection only when `responseStatus`
holds no entry for it, there is no entry in either table for a descriptor that is not open. -/
theorem isolated_of_clean (s : Server) :
    (server.Reachable Clean s → (∀ c, Isolated (s.log c)) ∧
      ∀ fd, s.conn fd = none → s.requestStatus fd = none ∧ Conn.Idle (s.responseStatus fd)) ∧
    (server.Reachable Vacant s →
      ∀ fd, s.conn fd = none → s.requestStatus fd = none ∧ s.responseStatus fd = none) := by
  -- the two conditions on the calls, each with what it leaves behind
  refine ⟨fun hs => ?_, fun hs fd hfd => ?_⟩
  · have hsplits := splits_of_clean (fun _ _ h => h) hs
    exact ⟨hsplits.isolated, hsplits.free⟩
  · have hsplits := splits_of_clean (fun _ _ h => h.1) hs
    exact ⟨(hsplits.free fd hfd).1, vacant_of_reachable hs fd hfd⟩

/-- A `GET` of the file list in one result of `recv`. -/
def getPage : Handler := .recv [.data (lit "GET / HTTP/1.1\r\n\r\n") true] sampleWorld.fresh

/-- The peer closes. -/
def peerCloses : Handler := .recv [.closed] sampleWorld.fresh

/-- A connection that gets its page, is closed, and whose descriptor is used again. -/
def reuse : List Label :=
  [.accept 5, .call 5 getPage, .call 5 (.send sampleWorld [.accepted 4096 [], .accepted 4096 []]),
    .call 5 peerCloses, .accept 5, .call 5 getPage]

/-- A connection that is closed before it has asked for anything. -/
def visitor : List Label := [.accept 5, .call 5 peerCloses]

theorem isolated_of_clean_sample :
    (∃ s, server.run server.start reuse = some s ∧ Isolated (s.log 0) ∧
      (responses (s.log 0)).length = 1) ∧
    ∃ s, server.run server.start visitor = some s ∧ s.requestStatus 5 = none ∧
      s.responseStatus 5 = none := by
  constructor
  · obtain ⟨s, hs⟩ := Option.isSome_iff_exists.mp
      (show (server.run server.start reuse).isSome by decide +kernel)
    have hlength : (server.run server.start reuse).map (fun s => (responses (s.log 0)).length) =
        some 1 := by decide +kernel
    rw [hs] at hlength
    exact ⟨s, hs, ((isolated_of_clean s).1 (Machine.reachable_of_run .start hs
      (by decide +kernel))).1 0, Option.some.inj hlength⟩
  · obtain ⟨s, hs⟩ := Option.isSome_iff_exists.mp
      (show (server.run server.start visitor).isSome by decide +kernel)
    have hclosed : (server.run server.start visitor).map (fun s => s.conn 5) = some none := by
      decide +kernel
    rw [hs] at hclosed
    exact ⟨s, hs, (isolated_of_clean s).2 (Machine.reachable_of_run .start hs (by decide +kernel)) 5
      (Option.some.inj hclosed)⟩

/-- A `GET` of a file in one result of `recv`. -/
def getNotes : Handler :=
  .recv [.data (lit "GET /downl/notes.txt HTTP/1.1\r\n\r\n") true] sampleWorld.fresh

/-- A connection asks for the file list and is closed when ten bytes of the page have been sent. The
next one under its descriptor asks for a file. -/
def leak : List Label :=
  [.accept 5, .call 5 getPage, .call 5 (.send sampleWorld [.accepted 10 [], .again]),
    .call 5 peerCloses, .accept 5, .call 5 getNotes,
    .call 5 (.send sampleWorld [.accepted 4096 [], .accepted 4096 []])]

/-- The next connection under the descriptor has asked for a file and is sent the rest of the page:
no response has been constructed for it. -/
theorem leaked_response :
    ¬ ∀ s, server.Reachable Machine.anyStep s → (∀ c, Isolated (s.log c)) ∧
      ∀ fd, s.conn fd = none → s.requestStatus fd = none ∧ s.responseStatus fd = none := by
  intro h
  obtain ⟨s, hs⟩ := Option.isSome_iff_exists.mp
    (show (server.run server.start leak).isSome by decide +kernel)
  -- no response has been constructed for the second connection, and it has been sent something
  have hlog : (server.run server.start leak).map (fun s =>
      (responses (s.log 1), (onWire (s.log 1)).isEmpty)) = some ([], false) := by
    decide +kernel
  rw [hs] at hlog
  obtain ⟨hresponses, hwire⟩ := Prod.mk.inj (Option.some.inj hlog)
  have hanystep : server.Reachable Machine.anyStep s :=
    Machine.reachable_of_run .start hs (Machine.along_anyStep _ _)
  have hempty := ((h s hanystep).1 1).stream
  rw [hresponses, flatten_nil, List.prefix_nil] at hempty
  rw [hempty] at hwire
  cases hwire

end Server

end Cherokee
