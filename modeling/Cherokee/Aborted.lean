import Cherokee.StoredFile

/-!
# Uploads that are broken off

When the connection is closed in the middle of an upload, `HandleRecv` erases the `Request` and
closes, and what has been stored stays. The content stage opens the file, which makes it, with the
first chunk that comes to it, and holds back no more than what may be the delimiter.

* `HandleRecv.aborted_iff`: the directory is as it was exactly when nothing had been stored and no
  file made.
-/

namespace Cherokee

namespace HandleRecv

/-- What has been received with each chunk for which the file would open, behind `q`. -/
def openings : Bytes → List RecvResult → List Bytes
  | _, [] => []
  | q, .data buf ofs :: s =>
    if ofs then (q ++ buf) :: openings (q ++ buf) s else openings (q ++ buf) s
  | q, _ :: s => openings q s

/-- What a broken-off upload has done. -/
structure BrokenOff (u : Upload) (q w : Bytes) (s : List RecvResult) (acts : List Action) :
    Prop where
  opened : .openAppend u.path true ∈ acts ↔ ∃ p ∈ openings q s, u.preamble <+: p
  appended : w = [] → (appendedTo u.path acts = [] ↔
    ∀ p ∈ openings q s, u.preamble <+: p → Withheld u.boundary (p.drop u.preamble.length))

theorem mem_openings_data {p q buf : Bytes} {ofs : Bool} {s : List RecvResult} :
    p ∈ openings q (.data buf ofs :: s) ↔
      (ofs = true ∧ p = q ++ buf) ∨ p ∈ openings (q ++ buf) s := by
  rw [openings]
  cases ofs <;> simp

/-- What a turn that is not the last one does to the file: it is opened when it can be and the
preamble has come, and nothing is appended when all of the content is held back. -/
structure TurnOpens (u : Upload) (q w buf : Bytes) (ofs : Bool) (data : Bytes)
    (acts : List Action) :
    Prop where
  opened : .openAppend u.path true ∈ acts ↔ ofs = true ∧ u.preamble <+: q ++ buf
  appended : appendedTo u.path acts = data
  withheld : w = [] → (data = [] ↔ (ofs = true → u.preamble <+: q ++ buf →
    Withheld u.boundary ((q ++ buf).drop u.preamble.length)))

/-- One more turn in front of a broken-off upload. -/
theorem BrokenOff.cons {u : Upload} {q w buf data : Bytes} {ofs : Bool} {s : List RecvResult}
    {as bs : List Action} (hb : BrokenOff u (q ++ buf) (w ++ data) s bs)
    (ha : TurnOpens u q w buf ofs data as) :
    BrokenOff u q w (.data buf ofs :: s) (as ++ bs) where
  opened := by
    simp only [List.mem_append, ha.opened, hb.opened, mem_openings_data]
    constructor
    · rintro (⟨hofs, hpre⟩ | ⟨p, hp, hpre⟩)
      · exact ⟨_, .inl ⟨hofs, rfl⟩, hpre⟩
      · exact ⟨p, .inr hp, hpre⟩
    · rintro ⟨p, ⟨hofs, rfl⟩ | hp, hpre⟩
      · exact .inl ⟨hofs, hpre⟩
      · exact .inr ⟨p, hp, hpre⟩
  appended hw := by
    have hd := ha.withheld hw
    rw [appendedTo_append, ha.appended, List.append_eq_nil_iff, hd]
    constructor
    · rintro ⟨hfirst, hrest⟩ p hp hpre
      rcases mem_openings_data.mp hp with ⟨hofs, rfl⟩ | hp
      · exact hfirst hofs hpre
      · -- nothing has been stored in the turn, so the ones behind it begin with nothing stored
        have hnil : w ++ data = [] := by rw [hw, hd.mpr hfirst, List.append_nil]
        exact (hb.appended hnil).mp hrest p hp hpre
    · intro hall
      have hfirst : ofs = true → u.preamble <+: q ++ buf →
          Withheld u.boundary ((q ++ buf).drop u.preamble.length) :=
        fun hofs => hall _ (mem_openings_data.mpr (.inl ⟨hofs, rfl⟩))
      have hnil : w ++ data = [] := by rw [hw, hd.mpr hfirst, List.append_nil]
      exact ⟨hfirst, (hb.appended hnil).mpr fun p hp => hall p (mem_openings_data.mpr (.inr hp))⟩

theorem Lines.not_opened {buf : Bytes} {lines : List Action} (h : Lines buf lines) (path : Bytes)
    (ok : Bool) : .openAppend path ok ∉ lines := fun hm => h.reading _ hm

theorem Lines.not_closed {buf : Bytes} {lines : List Action} (h : Lines buf lines) :
    .closeClient ∉ lines := fun hm => h.reading _ hm

section Turn

variable {u : Upload} {q w buf : Bytes} {ofs : Bool} {t : Turn}

/-- No turn closes the connection. -/
theorem TurnUploads.not_closed (h : TurnUploads u q w buf ofs t) : .closeClient ∉ t.acts := by
  cases h with
  | reads acts => exact acts.not_closed
  | refused lines hlines acts => simp [acts, hlines.not_closed]
  | stores lines data hlines acts => simp [acts, hlines.not_closed]
  | completes lines data hlines acts => simp [acts, hlines.not_closed]
  | crashes lines data f hlines acts => simp [acts, hlines.not_closed]

/-- **What a turn does to the file** when the upload goes on behind it. -/
theorem TurnUploads.opens (h : TurnUploads u q w buf ofs t)
    (hflow : t.flow = .again ∨ t.flow = .leave) (hlive : t.request.status ≠ .handleComplete) :
    TurnOpens u q w buf ofs (appendedTo u.path t.acts) t.acts := by
  cases h with
  -- in the head, and in the part header, the file is not touched
  | reads acts flow head nothing =>
    refine ⟨?_, rfl, fun _ => ?_⟩
    · exact iff_of_false (acts.not_opened _ _) fun hopen => head.early hopen.2
    · exact iff_of_true acts.brings.appendedTo fun _ hpre => absurd hpre head.early
  -- `ofs` has not opened the file, and the turn has left without storing
  | refused lines hlines acts flow closed content =>
    refine ⟨?_, rfl, fun _ => ?_⟩
    · refine iff_of_false ?_ fun hopen => absurd hopen.1 (by rw [closed]; exact nofun)
      rw [acts]
      simp [hlines.not_opened]
    · refine iff_of_true ?_ fun hopen => absurd hopen (by rw [closed]; exact nofun)
      rw [acts, appendedTo_append, hlines.brings.appendedTo]
      rfl
  | stores lines data hlines acts flow opened content withheld =>
    have hpre : u.preamble <+: q ++ buf := by
      rw [← content.kept, List.append_assoc]
      exact List.prefix_append _ _
    have hb : appendedTo u.path t.acts = data := by
      rw [acts]
      exact (hlines.brings.append (brings_stored u data)).appendedTo
    -- the file has been opened, and what has been added is what is not kept back
    refine ⟨iff_of_true ?_ ⟨opened, hpre⟩, rfl, fun hw => ?_⟩
    · rw [acts]
      simp
    · rw [hb, withheld, hw, List.append_nil]
      exact ⟨fun hheld _ _ => hheld, fun hheld => hheld opened hpre⟩
  | completes lines data hlines acts flow opened status => exact absurd status hlive
  | crashes lines data f hlines acts flow =>
    rcases hflow with hflow | hflow <;> cases flow.symm.trans hflow

end Turn

/-- **What an upload has done when it is broken off.** -/
theorem run_brokenOff {u : Upload} (hlen : u.bytes.length ≤ maxSize) {e : RecvResult} (he : e.Ends)
    {s : List RecvResult} (hs : ∀ x ∈ s, x.Arrives) {q w : Bytes} {r : Request} (h : At u q w r)
    (hq : q ++ stream s <+: u.bytes) (hclose : .closeClient ∈ (run (s ++ [e]) (some r)).acts)
    (hdone : completed (run (s ++ [e]) (some r)).acts = []) :
    BrokenOff u q w s (run (s ++ [e]) (some r)).acts := by
  -- over the results of `recv`: a turn that completes the upload or ends the process is excluded
  induction s generalizing q w r with
  | nil =>
    rw [List.nil_append, run_ends he]
    exact ⟨by simp [openings], fun _ => by simp [openings, Action.appendedTo]⟩
  | cons x s ih =>
    have hs' : ∀ y ∈ s, y.Arrives := fun y hy => hs y (List.mem_cons_of_mem x hy)
    rw [List.cons_append] at hclose hdone ⊢
    cases hs x List.mem_cons_self with
    | again =>
      -- `EAGAIN` opens nothing and adds nothing: the next call goes on from here
      rw [run_cons, Option.getD_some, resume_again _ h.live.1 h.live.2] at hclose hdone ⊢
      obtain ⟨hopened, happended⟩ := ih hs' h hq (by simpa using hclose)
        (by simpa [Action.completed] using hdone)
      exact ⟨by simpa [openings] using hopened, fun hw => by
        simpa [openings, Action.appendedTo] using happended hw⟩
    | data buf ofs hbuf =>
      have hall : q ++ buf ++ stream s <+: u.bytes := by
        rw [List.append_assoc]
        exact hq
      have hturn := recvTurn_uploading hlen h ((List.prefix_append _ _).trans hall) ofs
      cases hturn.next with
      | more data flow brings stands =>
        -- (s ++ [e])) (some r)).acts = (recvTurn buf ofs r).acts ++ :: the turn goes on or leaves;
        -- either way the run behind it begins with what it has left
        have hrun : (run (.data buf ofs :: (s ++ [e])) (some r)).acts = (recvTurn buf ofs r).acts ++
            (run (s ++ [e]) (some (recvTurn buf ofs r).request)).acts := by
          rcases flow with flow | flow
          · have hidle : idling (s ++ [e]) = [] := if_neg (by simp)
            rw [run_turn_again flow stands.live.1 stands.live.2, Call.prepend_acts, hidle,
              List.append_nil]
          · rw [run_turn_leave flow stands.live.1 stands.live.2, Call.prepend_acts]
        rw [hrun] at hclose hdone ⊢
        rw [List.mem_append, or_iff_right hturn.not_closed] at hclose
        rw [completed_append, brings.completed] at hdone
        have hopens := hturn.opens flow stands.live.1
        rw [brings.appendedTo] at hopens
        exact (ih hs' stands hall hclose hdone).cons hopens
      | completes data flow status =>
        rw [run_turn_complete flow status, Call.prepend_acts, completed_append,
          completed_append] at hdone
        simp [Action.completed] at hdone
      | crashes f flow =>
        rw [run_turn_crash flow] at hclose
        exact absurd hclose hturn.not_closed

/-- **An upload that is broken off leaves the directory as it was** exactly when at every result
with which its preamble had come and its file would open, the file existed already and all of the
content received was held back. -/
theorem aborted_iff (u : Upload) (hlen : u.bytes.length ≤ maxSize) {s : List RecvResult}
    (hs : ∀ x ∈ s, x.Arrives) (hq : stream s <+: u.bytes) {e : RecvResult} (he : e.Ends)
    (hclose : .closeClient ∈ (run (s ++ [e]) none).acts)
    (hdone : completed (run (s ++ [e]) none).acts = []) (store : Bytes → File) :
    (∀ path, fileAfter path (store path) (run (s ++ [e]) none).acts = store path) ↔
      ∀ p ∈ openings [] s, u.preamble <+: p →
        store u.path ≠ none ∧ Withheld u.boundary (p.drop u.preamble.length) := by
  have haccounted := upload_accounted hlen hs hq (.inr ⟨e, he, rfl⟩)
  rw [run_none (by simp)] at hclose hdone haccounted ⊢
  obtain ⟨hopened, happended⟩ := run_brokenOff hlen he hs (at_start u) hq hclose hdone
  have htracked : Tracked u.path (store u.path) (run (s ++ [e]) (some Request.init)).acts :=
    haccounted.tracked (tracked_nil u.path _)
  -- an upload works on one file, so every other one is as it was
  have hother : ∀ path ≠ u.path,
      fileAfter path (store path) (run (s ++ [e]) (some Request.init)).acts = store path :=
    fun path hne => haccounted.fileAfter_of_ne hne _
  constructor
  · intro hsame p hp hpre
    have hfile := htracked.opened (hopened.mpr ⟨p, hp, hpre⟩)
    rw [hsame u.path] at hfile
    -- the file has been opened, so it existed, and nothing has been added to it
    cases hf : store u.path with
    | none =>
      rw [hf] at hfile
      cases hfile
    | some content =>
      rw [hf, Option.getD_some, Option.some.injEq, List.self_eq_append_right] at hfile
      exact ⟨nofun, (happended rfl).mp hfile p hp hpre⟩
  · intro hheld path
    by_cases hne : path = u.path
    · subst hne
      -- the file may have been opened, and then it existed and nothing has been added
      by_cases hm : .openAppend u.path true ∈ (run (s ++ [e]) (some Request.init)).acts
      · obtain ⟨p, hp, hpre⟩ := hopened.mp hm
        have hnil := (happended rfl).mpr fun p hp hpre => (hheld p hp hpre).2
        obtain ⟨content, hf⟩ := Option.ne_none_iff_exists'.mp (hheld p hp hpre).1
        rw [htracked.opened hm, hnil, hf]
        exact congrArg some (List.append_nil content)
      · exact (htracked.unopened hm).1
    · exact hother path hne

/-- The sample upload is broken off when the first bytes of its content have been received. -/
def brokenOff : List RecvResult := [.data (sampleUpload.preamble ++ lit "one") true]

/-- The sample upload, with a content that begins like the delimiter. -/
def dashedUpload : Upload :=
  { sampleUpload with content := lit "\r\n--Xy", content_free := by decide }

/-- The upload is broken off when the first bytes of its content have been received, which may still
be those of the delimiter. -/
def brokenOffHeld : List RecvResult :=
  [.data (dashedUpload.preamble ++ lit "\r\n-") true, .data (lit "-X") true]

/-- The file of the upload exists, and is the only one. -/
def oldNotes (path : Bytes) : File := if path = dashedUpload.path then some (lit "old") else none

theorem aborted_iff_sample :
    fileAfter dashedUpload.path (some (lit "old")) (run (brokenOffHeld ++ [.closed]) none).acts =
      some (lit "old") := by
  refine (aborted_iff dashedUpload (by decide +kernel) (s := brokenOffHeld) ?_ ?_ .closed ?_ ?_
    oldNotes).mpr ?_ dashedUpload.path
  · intro x hx
    rcases List.mem_pair.mp hx with rfl | rfl
    · exact .data _ true (by decide +kernel)
    · exact .data _ true (by decide +kernel)
  all_goals decide +kernel

/-- A new file with the first bytes stays behind. -/
theorem left_behind :
    ¬ ∀ (u : Upload) (s : List RecvResult) (e : RecvResult), (∀ x ∈ s, x.Arrives) →
      stream s <+: u.bytes → e.Ends → .closeClient ∈ (run (s ++ [e]) none).acts →
      completed (run (s ++ [e]) none).acts = [] → ∀ (store : Bytes → File) (path : Bytes),
        fileAfter path (store path) (run (s ++ [e]) none).acts = store path := by
  intro h
  have hsame := h sampleUpload brokenOff .closed
    (fun x hx => by rw [List.mem_singleton.mp hx]; exact .data _ true (by decide +kernel))
    (by decide +kernel) .closed (by decide +kernel) (by decide +kernel) (fun _ => none)
    sampleUpload.path
  revert hsame
  decide +kernel

end HandleRecv

end Cherokee
