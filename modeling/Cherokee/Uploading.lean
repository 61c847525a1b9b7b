import Cherokee.Store
import Cherokee.Upload

/-!
# Uploads in progress

What can be said of an upload at every moment, however it is cut, whether or not its file opens, and
whatever the lengths are as `int`s: the content loop neither loses nor makes up a byte, so what has
been appended to the file is the beginning of what has been received behind the preamble.

* `HandleRecv.contentLoop_conserves`: the content loop keeps every byte.
* `HandleRecv.recvTurn_uploading`: what a turn of the receive loop does to an upload.
* `HandleRecv.run_accounted`: every append of a run is accounted for.
-/

open Search DelimScan

namespace Cherokee

namespace HandleRecv

open Request

/-! ### The content loop -/

/-- What the content loop keeps, from a turn on: every byte is either written or still in the
buffer, what has been written stays, and the loop is complete only in front of the delimiter. -/
structure Conserves (boundary? : Option Bytes) (written recvMsg : Bytes) (c : Content) : Prop where
  bytes : c.written ++ c.recvMsg = written ++ recvMsg
  more : written <+: c.written
  complete : c.ended = .complete → ∃ b, boundary? = some b ∧ delimiter b <+: c.recvMsg

/-- A turn that saves moves some bytes from the front of the buffer behind what has been written,
and at least one. -/
theorem save_conserves {written recvMsg : Bytes} {saveLen : ℤ} {p : Bytes × Bytes}
    (h : save written recvMsg saveLen = .inl p) :
    ∃ n, 0 < n ∧ p = (written ++ recvMsg.take n, recvMsg.drop n) := by
  unfold save at h
  split at h
  · cases h
  · split at h
    · cases h
    · cases h
      exact ⟨saveLen.toNat, by omega, rfl⟩

/-- A turn whose length to save makes no sense ends the loop, with everything as it was. -/
theorem save_crashes {written recvMsg : Bytes} {saveLen : ℤ} {c : Content}
    (h : save written recvMsg saveLen = .inr c) :
    c.written = written ∧ c.recvMsg = recvMsg ∧ ∃ f, c.ended = .crash f := by
  unfold save at h
  split at h
  · cases h
    exact ⟨rfl, rfl, _, rfl⟩
  · split at h
    · cases h
      exact ⟨rfl, rfl, _, rfl⟩
    · cases h

/-- How a turn of the content loop ends: it saves, or it leaves with everything as it was, and is
complete only when the delimiter stands in front. -/
theorem contentTurn_cases (boundary? : Option Bytes) (written recvMsg : Bytes) :
    (∃ saveLen, contentTurn boundary? (written, recvMsg) = save written recvMsg saveLen) ∨
    ∃ ended, contentTurn boundary? (written, recvMsg) = .inr ⟨written, recvMsg, ended⟩ ∧
      (ended = .complete → ∃ b, boundary? = some b ∧ delimiter b <+: recvMsg) := by
  unfold contentTurn
  simp only
  split
  · exact .inr ⟨_, rfl, nofun⟩
  -- with no carriage return in the buffer all of it is content
  cases find recvMsg (lit "\r") 0 with
  | none => exact .inl ⟨_, rfl⟩
  | some endIndex =>
    cases boundary? with
    | none => exact .inr ⟨_, rfl, nofun⟩
    -- with a carriage return the bytes behind it are compared, when there are enough of them
    | some b =>
      simp only
      split
      · split
        · next hdelim =>
          split
          · next hi =>
            subst hi
            refine .inr ⟨_, rfl, fun _ => ⟨b, rfl, ?_⟩⟩
            rw [← hdelim, List.drop_zero]
            exact List.take_prefix _ _
          · exact .inl ⟨_, rfl⟩
        · cases find recvMsg (lit "\r") (endIndex + 1) <;> exact .inl ⟨_, rfl⟩
      · split
        · exact .inr ⟨_, rfl, nofun⟩
        · exact .inl ⟨_, rfl⟩

/-- The content loop keeps every byte, from any turn on. By induction on the turns, each of which
saves or is the last one. -/
theorem eval_conserves (boundary? : Option Bytes) (p : Bytes × Bytes) :
    Conserves boundary? p.1 p.2 (Loop.eval (contentTurn_decreasing boundary?) p) := by
  refine Loop.eval_induction (contentTurn_decreasing boundary?)
    (P := fun p c => Conserves boundary? p.1 p.2 c) ?_ ?_ p
  · rintro ⟨written, recvMsg⟩ c hturn
    rcases contentTurn_cases boundary? written recvMsg with ⟨saveLen, hsave⟩ | ⟨ended, hend, hdelim⟩
    · rw [hsave] at hturn
      obtain ⟨hw, hm, f, hf⟩ := save_crashes hturn
      exact ⟨by rw [hw, hm], by rw [hw], by rw [hf]; exact nofun⟩
    · rw [hend] at hturn
      cases hturn
      exact ⟨rfl, List.prefix_rfl, hdelim⟩
  · rintro ⟨written, recvMsg⟩ p hturn ih
    rcases contentTurn_cases boundary? written recvMsg with ⟨saveLen, hsave⟩ | ⟨ended, hend, -⟩
    · rw [hsave] at hturn
      obtain ⟨n, -, rfl⟩ := save_conserves hturn
      refine ⟨?_, (List.prefix_append _ _).trans ih.more, ih.complete⟩
      rw [ih.bytes]
      simp
    · rw [hend] at hturn
      cases hturn

/-- **The content loop keeps every byte**, for any boundary and any buffer, and also where the
lengths do not fit an `int`. -/
theorem contentLoop_conserves (boundary? : Option Bytes) (recvMsg : Bytes) :
    Conserves boundary? [] recvMsg (contentLoop boundary? recvMsg) :=
  eval_conserves boundary? ([], recvMsg)

/-- The content loop holds back all of `m`: nothing stands in the buffer, as far as its length
shows, or `m` begins like the delimiter and is shorter than it, by the lengths that the loop
compares. -/
def Withheld (boundary m : Bytes) : Prop :=
  toInt m.length = 0 ∨
    (m.head? = some cr ∧ m.length < toSize (toInt (boundary.length + 8)))

instance (boundary m : Bytes) : Decidable (Withheld boundary m) :=
  inferInstanceAs (Decidable (_ ∨ _))

/-- Saving is not waiting. -/
theorem save_ne_wait (written recvMsg : Bytes) (saveLen : ℤ) :
    save written recvMsg saveLen ≠ .inr ⟨written, recvMsg, .wait⟩ := by
  intro h
  obtain ⟨-, -, f, hf⟩ := save_crashes h
  cases hf

/-- The search finds a carriage return in the first place exactly when the buffer begins with
one. -/
theorem find_cr_eq_zero {m : Bytes} : find m (lit "\r") 0 = some 0 ↔ m.head? = some cr := by
  rw [find_zero]
  cases m with
  | nil => exact iff_of_false nofun nofun
  | cons c m =>
    by_cases hc : c = cr
    · subst hc
      exact iff_of_true (firstAt_singleton_append (s := []) (by simp) m) rfl
    · refine iff_of_false (fun h => ?_) (fun h => hc (Option.some.inj h))
      obtain ⟨t, ht⟩ := (firstAt_spec h).1
      exact hc (List.cons.inj ht).1.symm

/-- A turn waits exactly on what it holds back, and on nothing else. -/
theorem contentTurn_wait {boundary written m : Bytes} :
    contentTurn (some boundary) (written, m) = .inr ⟨written, m, .wait⟩ ↔ Withheld boundary m := by
  unfold contentTurn Withheld
  simp only
  by_cases h0 : toInt m.length = 0
  · rw [if_pos h0]
    exact iff_of_true rfl (.inl h0)
  rw [if_neg h0, or_iff_right h0, ← find_cr_eq_zero]
  -- by the first carriage return, and by how much stands behind it
  cases find m (lit "\r") 0 with
  | none => exact iff_of_false (save_ne_wait _ _ _) nofun
  | some endIndex =>
    simp only [Option.some.injEq]
    by_cases hlen : toSize (toInt (boundary.length + 8)) ≤ m.length - endIndex
    -- enough bytes stand behind it, so the turn saves or ends the content
    · rw [if_pos hlen]
      refine iff_of_false (fun h => ?_) fun ⟨hi, hlt⟩ => ?_
      · split at h
        · split at h
          · cases h
          · exact save_ne_wait _ _ _ h
        · split at h <;> exact save_ne_wait _ _ _ h
      · rw [hi, Nat.sub_zero] at hlen
        exact absurd hlt (Nat.not_lt.mpr hlen)
    -- it waits when nothing stands in front of the carriage return
    · rw [if_neg hlen]
      by_cases hi : endIndex = 0
      · rw [if_pos hi]
        rw [hi, Nat.sub_zero] at hlen
        exact iff_of_true rfl ⟨hi, Nat.not_le.mp hlen⟩
      · rw [if_neg hi]
        exact iff_of_false (save_ne_wait _ _ _) fun h => hi h.1

/-- The content loop that waits has written nothing exactly when it holds back everything, since any
turn that does not wait writes a byte. -/
theorem contentLoop_written_eq_nil {boundary m : Bytes}
    (h : (contentLoop (some boundary) m).ended = .wait) :
    (contentLoop (some boundary) m).written = [] ↔ Withheld boundary m := by
  have hwait : contentTurn (some boundary) ([], m) = .inr ⟨[], m, .wait⟩ ↔ Withheld boundary m :=
    contentTurn_wait
  rw [← hwait]
  constructor
  · intro hnil
    cases hturn : contentTurn (some boundary) ([], m) with
    | inl p =>
      -- a turn that saves has written something
      have hmore : p.1 <+: (contentLoop (some boundary) m).written := by
        have hrest : contentLoop (some boundary) m =
            Loop.eval (contentTurn_decreasing (some boundary)) p := Loop.eval_of_inl hturn
        rw [hrest]
        exact (eval_conserves (some boundary) p).more
      -- what it saves is not empty, since the buffer gets shorter
      have hless := contentTurn_decreasing (some boundary) _ _ hturn
      rcases contentTurn_cases (some boundary) [] m with ⟨saveLen, hsave⟩ | ⟨ended, hend, -⟩
      · rw [hsave] at hturn
        obtain ⟨n, -, rfl⟩ := save_conserves hturn
        rw [hnil, List.prefix_nil, List.nil_append] at hmore
        have hall := List.take_append_drop n m
        rw [show m.take n = [] from hmore, List.nil_append] at hall
        exact absurd hless (by rw [show m.drop n = m from hall]; exact Nat.lt_irrefl _)
      · rw [hend] at hturn
        cases hturn
    | inr c =>
      -- the first turn ends the loop, and the loop waits
      have hc : contentLoop (some boundary) m = c := Loop.eval_of_inr hturn
      rw [hc] at h
      rcases contentTurn_cases (some boundary) [] m with ⟨saveLen, hsave⟩ | ⟨ended, hend, -⟩
      · rw [hsave] at hturn
        obtain ⟨-, -, f, hf⟩ := save_crashes hturn
        cases hf.symm.trans h
      · rw [hend] at hturn
        cases hturn
        rw [show ended = .wait from h]
  · intro hturn
    have hc : contentLoop (some boundary) m = _ := Loop.eval_of_inr hturn
    rw [hc]

/-! ### Where an upload is -/

/-- The upload is in its content. `q` has been received and `w` has been appended, and what is left
in the buffer is what `q` has behind them. -/
structure InContent (u : Upload) (q w : Bytes) (r : Request) : Prop where
  upload : r.isUpload = true
  stage : r.fileMsgStatus = .fileContent
  boundary : r.boundary? = some u.boundary
  fileName : r.recvFileName = removeSpaces u.fileName
  resource : r.requestResource = u.resource
  kept : u.preamble ++ w ++ r.recvMsg = q

/-- The upload is in front of its content: part of the preamble is still to come, and all lines that
have arrived have been read. -/
structure InHead (u : Upload) (q : Bytes) (r : Request) : Prop where
  early : ¬ u.preamble <+: q
  reads : (Request.init.push q).drained = .ok r
  other : ¬ (r.isUpload = true ∧ r.fileMsgStatus = .fileContent)
  rest : r.AtRest

/-- The boundary stands in an upload twice, so that it is far shorter than the longest string. -/
theorem boundary_lt {u : Upload} (hlen : u.bytes.length ≤ maxSize) :
    u.boundary.length < 2 ^ 62 := by
  have hmem : lit "--" ++ u.boundary ∈ u.headLines ++ u.partLines := by
    refine List.mem_append_right _ ?_
    simp [Upload.partLines]
  have hline : (lit "--" ++ u.boundary ++ crlf).length ≤ u.preamble.length := by
    have hmap : lit "--" ++ u.boundary ++ crlf ∈ (u.headLines ++ u.partLines).map (· ++ crlf) :=
      List.mem_map.mpr ⟨_, hmem, rfl⟩
    rw [Upload.preamble, List.flatMap_def]
    exact (List.sublist_flatten_of_mem hmap).length_le
  have hbytes := congrArg List.length (show u.bytes = _ from rfl)
  rw [Upload.bytes] at hbytes hlen
  simp only [List.length_append, delimiter_length] at hline hlen
  unfold maxSize at hlen
  omega

/-- When the preamble has arrived it has been read, and the upload is in its content with nothing
appended yet. -/
theorem reads_preamble (u : Upload) (hlen : u.bytes.length ≤ maxSize) (m : Bytes) :
    ∃ r, (Request.init.push (u.preamble ++ m)).drained = .ok r ∧
      InContent u (u.preamble ++ m) [] r := by
  obtain ⟨r, hread, hr, hf⟩ := reads_headLines u (boundary_lt hlen)
  have hdrained := drained_of_reads (hread.append (reads_partLines u hr hf)) m
  generalize hr' : ({ r with
    fileMsgStatus := .fileContent, recvFileName := removeSpaces u.fileName } : Request).withMsg m =
      r' at hdrained
  have hu : r'.isUpload = true := by rw [← hr']; exact hr.upload
  have hstage : r'.fileMsgStatus = .fileContent := by rw [← hr']; rfl
  rw [drained_of_content hu hstage] at hdrained
  refine ⟨r', hdrained, hu, hstage, ?_, ?_, ?_, ?_⟩
  · rw [← hr']
    exact hr.boundary
  · rw [← hr']
    rfl
  · rw [← hr']
    exact hr.resource
  · rw [List.append_nil, ← hr']
    rfl

/-- What has been received of an upload has been read: it is in its content, or in front of it, by
whether the preamble has arrived. -/
theorem reads_upload (u : Upload) (hlen : u.bytes.length ≤ maxSize) {q : Bytes}
    (hq : q <+: u.bytes) :
    ∃ r, (Request.init.push q).drained = .ok r ∧ (InContent u q [] r ∨ InHead u q r) := by
  by_cases hpre : u.preamble <+: q
  · obtain ⟨m, rfl⟩ := hpre
    obtain ⟨r, hread, hr⟩ := reads_preamble u hlen m
    exact ⟨r, hread, .inl hr⟩
  -- part of the preamble is still to come
  have hshort : ∃ rest, rest ≠ [] ∧ q ++ rest = u.preamble := by
    have hp : u.preamble <+: u.bytes := by
      rw [Upload.bytes, List.append_assoc]
      exact List.prefix_append _ _
    rcases List.prefix_or_prefix_of_prefix hq hp with ⟨rest, hrest⟩ | hp
    · refine ⟨rest, ?_, hrest⟩
      rintro rfl
      rw [List.append_nil] at hrest
      exact hpre (hrest ▸ List.prefix_rfl)
    · exact absurd hp hpre
  obtain ⟨rest, hne, hrest⟩ := hshort
  obtain ⟨o, hexact, -⟩ := exact_upload u (boundary_lt hlen)
  have hbytes : q ++ (rest ++ (u.content ++ delimiter u.boundary)) = u.bytes := by
    rw [Upload.bytes, ← hrest]
    simp only [List.append_assoc]
  cases hd : (Request.init.push q).drained with
  | error f =>
    have herr : Request.init.absorb q = .error f := absorb_of_refused hd
    -- a refused line would be refused in the whole upload
    have hall := absorb_append_of_error herr (rest ++ (u.content ++ delimiter u.boundary))
    rw [hbytes, hexact.absorbed] at hall
    cases hall
  | ok r =>
    have ho : Request.init.absorb q = .ok r.settle := absorb_of_drained hd
    have hhanded := hexact.pending hbytes
      (fun h => hne (List.append_eq_nil_iff.mp h).1) ho
    have hother : ¬ (r.isUpload = true ∧ r.fileMsgStatus = .fileContent) := by
      -- in the content the rest of the preamble would be left over
      rintro ⟨hu, hf⟩
      obtain ⟨r', hread, hr'⟩ := reads_preamble u hlen []
      rw [List.append_nil, ← hrest, drained_push, hd] at hread
      have hpush : (r.push rest).drained = .ok (r.push rest) :=
        drained_of_content (r := r.push rest) hu hf
      obtain rfl : r.push rest = r' := Except.ok.inj (hpush.symm.trans hread)
      have hkept := hr'.kept
      rw [List.append_nil] at hkept
      exact hne (List.append_eq_nil_iff.mp (List.append_right_eq_self.mp hkept)).2
    have hrest' := absorb_atRest init_atRest.sound ho hhanded
    rw [settle_of_waiting hother hhanded] at hrest'
    exact ⟨r, rfl, .inr ⟨hpre, hd, hother, hrest'⟩⟩

/-- The upload has received `q` and appended `w`. In front of its content there is nothing to
append. -/
inductive At (u : Upload) (q w : Bytes) (r : Request) : Prop where
  | head (h : InHead u q r) (nothing : w = [])
  | content (h : InContent u q w r)

/-- In its content an upload is in the stage of the body. -/
theorem InContent.status {u : Upload} {q w : Bytes} {r : Request} (h : InContent u q w r) :
    r.status = .handleBody := (isUpload_iff.mp h.upload).1

/-- The file of an upload in its content is the one that its part names. -/
theorem InContent.path {u : Upload} {q w : Bytes} {r : Request} (h : InContent u q w r) :
    r.uploadPath = u.path := by
  rw [uploadPath, h.fileName]
  rfl

/-- An upload under way is neither complete nor in error. -/
theorem At.live {u : Upload} {q w : Bytes} {r : Request} (h : At u q w r) :
    r.status ≠ .handleComplete ∧ r.status ≠ .handleError := by
  cases h with
  | head h => exact ⟨h.rest.live, h.rest.sound⟩
  | content h =>
    rw [h.status]
    exact ⟨nofun, nofun⟩

/-- The lines of a chunk of an upload are read: with them it is in its content, or it is still in
front. -/
theorem At.drained {u : Upload} (hlen : u.bytes.length ≤ maxSize) {q w : Bytes} {r : Request}
    (h : At u q w r) {buf : Bytes} (hq : q ++ buf <+: u.bytes) :
    ∃ r', (r.push buf).drained = .ok r' ∧
      (InContent u (q ++ buf) w r' ∨ (InHead u (q ++ buf) r' ∧ w = [])) := by
  cases h with
  | head h nothing =>
    obtain ⟨r', hread, hr'⟩ := reads_upload u hlen hq
    rw [drained_push, h.reads] at hread
    subst nothing
    exact ⟨r', hread, hr'.imp_right fun h => ⟨h, rfl⟩⟩
  | content h =>
    refine ⟨r.push buf, drained_of_content (r := r.push buf) h.upload h.stage, .inl ?_⟩
    refine ⟨h.upload, h.stage, h.boundary, h.fileName, h.resource, ?_⟩
    rw [← h.kept, List.append_assoc _ _ buf]
    rfl

/-! ### One turn -/

/-- An action of the stages that read lines: receiving a chunk, and logging a request line. -/
def Reading : Action → Prop
  | .recvd _ => True
  | .requestLine _ => True
  | _ => False

/-- The actions of a turn in front of the content stage: they only read, and what they have received
is the chunk. -/
structure Lines (buf : Bytes) (acts : List Action) : Prop where
  reading : ∀ a ∈ acts, Reading a
  received : received acts = buf

/-- What a turn of the receive loop does to an upload that has received `q` and appended `w`. -/
inductive TurnUploads (u : Upload) (q w buf : Bytes) (ofs : Bool) (t : Turn) : Prop where
  /-- The preamble is not complete. -/
  | reads (acts : Lines buf t.acts) (flow : t.flow = .again) (head : InHead u (q ++ buf) t.request)
      (nothing : w = [])
  /-- The file does not open. -/
  | refused (lines : List Action) (hlines : Lines buf lines)
      (acts : t.acts = lines ++ [.openAppend u.path false]) (flow : t.flow = .leave)
      (closed : ofs = false) (content : InContent u (q ++ buf) w t.request)
  /-- Content is stored. -/
  | stores (lines : List Action) (data : Bytes) (hlines : Lines buf lines)
      (acts : t.acts = lines ++ [.openAppend u.path true, .append u.path data])
      (flow : t.flow = .again) (opened : ofs = true)
      (content : InContent u (q ++ buf) (w ++ data) t.request)
      (withheld : data = [] ↔ Withheld u.boundary ((q ++ buf).drop (u.preamble ++ w).length))
  /-- The content is complete. -/
  | completes (lines : List Action) (data : Bytes) (hlines : Lines buf lines)
      (acts : t.acts = lines ++ [.openAppend u.path true, .append u.path data,
        .setBodyFileName (lit "/redirect"), .modifyWaitFd true true true])
      (flow : t.flow = .leave) (opened : ofs = true) (status : t.request.status = .handleComplete)
      (method : t.request.requestMethod = lit "POST")
      (resource : t.request.requestResource = u.resource) (whole : q ++ buf = u.bytes)
      (content : w ++ data = u.content)
  /-- The content loop does not return. -/
  | crashes (lines : List Action) (data : Bytes) (f : Fault) (hlines : Lines buf lines)
      (acts : t.acts = lines ++ [.openAppend u.path true, .append u.path data])
      (flow : t.flow = .crash f) (kept : u.preamble ++ w ++ data <+: q ++ buf)

/-- Receiving the chunk and the stage of the request line are of this kind. -/
theorem lines_requestLine (buf : Bytes) (r : Request) :
    Lines buf (.recvd buf :: (requestLineStage r).2) := by
  unfold requestLineStage
  split
  · split
    · exact ⟨by simp [Reading], by simp [Action.received]⟩
    · exact ⟨by simp [Reading], by simp [Action.received]⟩
  · exact ⟨by simp [Reading], by simp [Action.received]⟩

/-- The delimiter is where the content ends: it does not stand inside it, so that the content loop
can only have found the one at the end. -/
theorem content_eq {u : Upload} {w rest : Bytes}
    (h : u.preamble ++ w ++ (delimiter u.boundary ++ rest) <+: u.bytes) :
    w = u.content ∧ rest = [] := by
  rw [Upload.bytes, List.append_assoc, List.append_assoc, List.prefix_append_right_inj] at h
  have hpre : w <+: u.content ++ delimiter u.boundary := (List.prefix_append _ _).trans h
  have hlen := h.length_le
  simp only [List.length_append] at hlen
  have hge : u.content.length ≤ w.length := by
    -- the delimiter does not stand inside the content
    by_contra hlt
    have hscan := scan_content u
    refine scan_not_prefix_of_lt (s := u.content ++ delimiter u.boundary)
      (delimiter_ne_nil u.boundary) (j := w.length) (by rw [hscan]; exact Nat.not_le.mp hlt) ?_
    obtain ⟨t, ht⟩ := h
    rw [← ht, List.append_assoc, List.drop_left, List.append_assoc]
    exact List.prefix_append _ _
  have hlength : w.length = u.content.length := by omega
  refine ⟨?_, List.eq_nil_of_length_eq_zero (by omega)⟩
  rw [List.prefix_iff_eq_take.mp hpre, hlength, List.take_left]

/-- The content stage, when the file opens: it appends what the loop has written, and goes on by how
the loop has ended. -/
theorem contentStage_open {r : Request} (hf : r.fileMsgStatus = .fileContent) {c : Content}
    (hc : contentLoop r.boundary? r.recvMsg = c) :
    contentStage true r =
      (match c.ended with
      | .wait => ⟨{ r with recvMsg := c.recvMsg },
          [.openAppend r.uploadPath true, .append r.uploadPath c.written], .again⟩
      | .complete => (complete { r with recvMsg := c.recvMsg, fileMsgStatus := .fileComplete }
          (lit "/redirect")).prepend [.openAppend r.uploadPath true, .append r.uploadPath c.written]
      | .crash f => ⟨{ r with recvMsg := c.recvMsg },
          [.openAppend r.uploadPath true, .append r.uploadPath c.written], .crash f⟩) := by
  unfold contentStage
  rw [hc, if_pos hf]
  exact if_pos rfl

/-- The content stage of an upload: it refuses a file that does not open, stores what the loop has
written, or is complete with the upload. -/
theorem contentStage_uploading {u : Upload} {q w buf : Bytes} {r : Request} (ofs : Bool)
    (h : InContent u (q ++ buf) w r) (hq : q ++ buf <+: u.bytes) {lines : List Action}
    (hlines : Lines buf lines) :
    TurnUploads u q w buf ofs ((contentStage ofs r).prepend lines) := by
  -- the file opens or not
  cases ofs with
  | false =>
    have hstage : contentStage false r = ⟨r, [.openAppend u.path false], .leave⟩ := by
      rw [contentStage, if_pos h.stage, h.path, if_neg (by decide)]
    rw [hstage]
    exact .refused lines hlines rfl rfl rfl h
  | true =>
    obtain ⟨c, hloop⟩ : ∃ c, contentLoop r.boundary? r.recvMsg = c := ⟨_, rfl⟩
    have hstage := contentStage_open h.stage hloop
    rw [h.path] at hstage
    rw [h.boundary] at hloop
    -- the content loop writes a part of the buffer and keeps the rest
    have hkeeps := contentLoop_conserves (some u.boundary) r.recvMsg
    have hdrop : (q ++ buf).drop (u.preamble ++ w).length = r.recvMsg := by
      rw [← h.kept, List.drop_left]
    have hnil : (contentLoop (some u.boundary) r.recvMsg).ended = .wait →
        ((contentLoop (some u.boundary) r.recvMsg).written = [] ↔ Withheld u.boundary r.recvMsg) :=
      contentLoop_written_eq_nil
    rw [hloop] at hkeeps hnil
    have hsplit : c.written ++ c.recvMsg = r.recvMsg := hkeeps.bytes
    have hkept : u.preamble ++ (w ++ c.written) ++ c.recvMsg = q ++ buf := by
      rw [← h.kept, ← hsplit]
      simp only [List.append_assoc]
    rw [hstage]
    cases hend : c.ended with
    | wait =>
      refine .stores lines c.written hlines rfl rfl rfl ?_ ?_
      · exact ⟨h.upload, h.stage, h.boundary, h.fileName, h.resource, hkept⟩
      · rw [hdrop]
        exact hnil hend
    | complete =>
      obtain ⟨b, hb, rest, hrest⟩ := hkeeps.complete hend
      obtain rfl := Option.some.inj hb
      rw [← hrest] at hkept
      -- the delimiter it has found is the one that ends the upload
      obtain ⟨hcontent, hnone⟩ := content_eq (by rw [hkept]; exact hq)
      subst hnone
      rw [hcontent, List.append_nil] at hkept
      refine .completes lines c.written hlines rfl rfl rfl rfl ?_ h.resource hkept.symm hcontent
      exact (isUpload_iff.mp h.upload).2.1
    | crash f =>
      refine .crashes lines c.written f hlines rfl rfl ⟨c.recvMsg, ?_⟩
      rw [← hkept]
      simp only [List.append_assoc]

/-- **What a turn of the receive loop does to an upload**, by where the upload stands when the lines
of the chunk have been read. -/
theorem recvTurn_uploading {u : Upload} (hlen : u.bytes.length ≤ maxSize) {q w : Bytes}
    {r : Request} (h : At u q w r) {buf : Bytes} (hq : q ++ buf <+: u.bytes) (ofs : Bool) :
    TurnUploads u q w buf ofs (recvTurn buf ofs r) := by
  obtain ⟨r', hd, hr'⟩ := h.drained hlen hq
  have hlines := lines_requestLine buf (r.push buf)
  -- the content stage has work to do, or the turn has only read
  rcases hr' with hr' | ⟨hr', hw⟩
  · rw [recvTurn_of_upload ofs hd hr'.upload]
    exact contentStage_uploading ofs hr' hq hlines
  · have hfit : r'.Fits ofs := fun hu hf => absurd ⟨hu, hf⟩ hr'.other
    have hturn := recvTurn_follows h.live.1 hd hfit
    have hsettle := settle_of_waiting hr'.other hr'.rest.handed
    rw [hsettle] at hturn
    have hreq : (recvTurn buf ofs r).request = r' := hturn.msg hr'.rest.live
    refine .reads ?_ hturn.flow (hreq.symm ▸ hr') hw
    rw [hturn.acts]
    exact (List.append_nil _).symm ▸ hlines

/-! ### Every action is accounted for -/

/-- What an upload may do next, when it has done `before`. It appends to its own file only, and only
what it has received behind the preamble; it is complete when all of it has been received and
stored; it removes and empties nothing. -/
def Allowed (u : Upload) (before : List Action) : Action → Prop
  | .openAppend path _ => path = u.path ∧ completed before = [] ∧ u.preamble <+: received before
  | .append path data => path = u.path ∧ completed before = [] ∧
      .openAppend u.path true ∈ before ∧
      u.preamble ++ appendedTo u.path before ++ data <+: received before
  | .processed method resource => method = lit "POST" ∧ resource = u.resource ∧
      .openAppend u.path true ∈ before ∧
      received before = u.bytes ∧ appendedTo u.path before = u.content
  | .openRead _ _ => False
  | .remove _ _ => False
  | .openTrunc _ _ => False
  | .write _ _ => False
  | _ => True

/-- Every action behind `before` is allowed where it stands. -/
def Accounted (u : Upload) : List Action → List Action → Prop
  | _, [] => True
  | before, a :: acts => Allowed u before a ∧ Accounted u (before ++ [a]) acts

/-- Actions are accounted for when the first ones are, and the others are behind them. -/
theorem accounted_append {u : Upload} {before as bs : List Action} :
    Accounted u before (as ++ bs) ↔ Accounted u before as ∧ Accounted u (before ++ as) bs := by
  induction as generalizing before with
  | nil => simp [Accounted]
  | cons a as ih =>
    simp only [List.cons_append, Accounted, ih, and_assoc, List.append_assoc, List.nil_append]

/-- An action that stands among the accounted ones is allowed behind those in front of it. -/
theorem Accounted.allowed {u : Upload} {before xs ys : List Action} {a : Action}
    (h : Accounted u before (xs ++ a :: ys)) : Allowed u (before ++ xs) a :=
  (accounted_append.mp h).2.1

/-- Actions that touch no file and complete nothing are allowed anywhere. -/
theorem accounted_of_forall {u : Upload} {acts : List Action}
    (h : ∀ a ∈ acts, ∀ before, Allowed u before a) (before : List Action) :
    Accounted u before acts := by
  induction acts generalizing before with
  | nil => trivial
  | cons a acts ih =>
    obtain ⟨ha, hacts⟩ := List.forall_mem_cons.mp h
    exact ⟨ha before, ih hacts _⟩

/-- The actions of the stages that read lines are accounted for anywhere. -/
theorem Lines.accounted {u : Upload} {buf : Bytes} {lines : List Action} (h : Lines buf lines)
    (before : List Action) : Accounted u before lines := by
  refine accounted_of_forall (fun a ha before => ?_) before
  have hr := h.reading a ha
  cases a <;> trivial

/-- The actions receive `buf`, append `data` to the file of the upload and complete nothing. -/
structure Brings (u : Upload) (buf data : Bytes) (acts : List Action) : Prop where
  received : received acts = buf
  appendedTo : appendedTo u.path acts = data
  completed : completed acts = []

/-- What two lists of actions bring is brought by both, one behind the other. -/
theorem Brings.append {u : Upload} {x y c d : Bytes} {as bs : List Action} (ha : Brings u x c as)
    (hb : Brings u y d bs) : Brings u (x ++ y) (c ++ d) (as ++ bs) where
  received := by rw [received_append, ha.received, hb.received]
  appendedTo := by rw [appendedTo_append, ha.appendedTo, hb.appendedTo]
  completed := by rw [completed_append, ha.completed, hb.completed]; rfl

/-- The actions of the stages that read lines bring the chunk, and store nothing. -/
theorem Lines.brings {u : Upload} {buf : Bytes} {lines : List Action} (h : Lines buf lines) :
    Brings u buf [] lines where
  received := h.received
  appendedTo := by
    refine List.flatMap_eq_nil_iff.mpr fun a ha => ?_
    have hr := h.reading a ha
    cases a <;> first | rfl | cases hr
  completed := by
    refine List.filterMap_eq_nil_iff.mpr fun a ha => ?_
    have hr := h.reading a ha
    cases a <;> first | rfl | cases hr

/-- Opening the file and appending brings what is appended. -/
theorem brings_stored (u : Upload) (data : Bytes) :
    Brings u [] data [.openAppend u.path true, .append u.path data] :=
  ⟨rfl, by simp [Action.appendedTo], rfl⟩

/-- Content that has been received behind the preamble may be stored in the file of the upload. -/
theorem accounted_stored {u : Upload} {before : List Action} {data : Bytes}
    (hc : completed before = [])
    (h : u.preamble ++ appendedTo u.path before ++ data <+: received before) :
    Accounted u before [.openAppend u.path true, .append u.path data] := by
  refine ⟨⟨rfl, hc, ?_⟩, ⟨rfl, ?_, ?_, ?_⟩, trivial⟩
  · rw [List.append_assoc] at h
    exact (List.prefix_append _ _).trans h
  · rw [completed_append, hc]
    rfl
  · exact List.mem_append_right before (List.mem_singleton_self _)
  · rw [appendedTo_append, received_append]
    simpa [Action.appendedTo, Action.received] using h

/-- The connection is closed by the peer, or `recv` fails: the answers behind which the call closes
it. -/
inductive RecvResult.Ends : RecvResult → Prop where
  | closed : Ends .closed
  | failed : Ends .failed

/-- The results go on, or the connection is broken off with the one answer that ends it. -/
def Breaks (tail : List RecvResult) : Prop := tail = [] ∨ ∃ e : RecvResult, e.Ends ∧ tail = [e]

/-- An action that waits or closes, and touches no file. -/
def Leaving : Action → Prop
  | .modifyWaitFd _ _ _ => True
  | .deleteWaitFd => True
  | .shutdown => True
  | .closeClient => True
  | _ => False

/-- Waiting and closing are accounted for anywhere. -/
theorem Leaving.accounted {u : Upload} {acts : List Action} (h : ∀ a ∈ acts, Leaving a)
    (before : List Action) : Accounted u before acts := by
  refine accounted_of_forall (fun a ha before => ?_) before
  have hl := h a ha
  cases a <;> trivial

/-- A connection that is broken off closes, and does nothing else. -/
theorem run_ends {e : RecvResult} (he : e.Ends) (entry : Option Request) :
    (run [e] entry).acts = [.deleteWaitFd, .shutdown, .closeClient] := by
  cases he <;> rw [run_cons] <;> rfl

/-- Whether the results just stop or the connection is broken off, nothing is done but to wait or to
close. -/
theorem run_breaks {tail : List RecvResult} (h : Breaks tail) (entry : Option Request) :
    ∀ a ∈ (run tail entry).acts, Leaving a := by
  rcases h with rfl | ⟨e, he, rfl⟩
  · exact nofun
  · rw [run_ends he]
    simp [Leaving]

/-- Where nothing more is received, nothing more is done than to wait or to close. By induction on
the results, which hold no byte. -/
theorem run_idle {s : List RecvResult} (hs : ∀ x ∈ s, x.Arrives) (hnone : stream s = [])
    {tail : List RecvResult} (htail : Breaks tail) {entry : Option Request}
    (hlive : ∀ r ∈ entry, r.status ≠ .handleComplete ∧ r.status ≠ .handleError) :
    ∀ a ∈ (run (s ++ tail) entry).acts, Leaving a := by
  induction s generalizing entry with
  | nil => exact run_breaks htail entry
  | cons x s ih =>
    have hs' : ∀ y ∈ s, y.Arrives := fun y hy => hs y (List.mem_cons_of_mem x hy)
    obtain ⟨hx, hrest⟩ := List.append_eq_nil_iff.mp hnone
    cases hs x List.mem_cons_self with
    | data buf ofs hbuf => exact absurd hx hbuf
    | again =>
      have hentry : (entry.getD Request.init).status ≠ .handleComplete ∧
          (entry.getD Request.init).status ≠ .handleError := by
        cases entry with
        | none => exact ⟨nofun, nofun⟩
        | some r => exact hlive r rfl
      rw [List.cons_append, run_cons, resume_again _ hentry.1 hentry.2]
      intro a ha
      rcases List.mem_cons.mp ha with rfl | ha
      · trivial
      · refine ih hs' hrest ?_ a ha
        rintro r ⟨⟩
        exact hentry

/-! #### Runs, turn by turn -/

/-- The end of a call that has received everything there is: it arms the descriptor for more, unless
another result is there. -/
def idling (s : List RecvResult) : List Action :=
  if s = [] then [.modifyWaitFd true true false] else []

section Turns

variable {buf : Bytes} {ofs : Bool} {s : List RecvResult} {r : Request}

/-- The run behind a turn that receives again: on with the next result, behind arming the descriptor
when there is none. -/
theorem run_turn_again (hflow : (recvTurn buf ofs r).flow = .again)
    (hc : (recvTurn buf ofs r).request.status ≠ .handleComplete)
    (he : (recvTurn buf ofs r).request.status ≠ .handleError) :
    run (.data buf ofs :: s) (some r) = (run s (some (recvTurn buf ofs r).request)).prepend
      ((recvTurn buf ofs r).acts ++ idling s) := by
  rw [run_cons, Option.getD_some, resume_data_again hflow, resume_eq_run s hc he,
    Call.prepend_prepend]
  rfl

/-- The run behind a turn that leaves the receive loop with the request not complete: the next
result is received in another call. -/
theorem run_turn_leave (hflow : (recvTurn buf ofs r).flow = .leave)
    (hc : (recvTurn buf ofs r).request.status ≠ .handleComplete)
    (he : (recvTurn buf ofs r).request.status ≠ .handleError) :
    run (.data buf ofs :: s) (some r) =
      (run s (some (recvTurn buf ofs r).request)).prepend (recvTurn buf ofs r).acts := by
  rw [run_cons, Option.getD_some, resume_data_leave hflow, finish, if_neg hc, if_neg he,
    List.append_nil]

/-- The run behind a turn that completes the request: it is logged and erased, and the next result
begins a new one. -/
theorem run_turn_complete (hflow : (recvTurn buf ofs r).flow = .leave)
    (hc : (recvTurn buf ofs r).request.status = .handleComplete) :
    run (.data buf ofs :: s) (some r) = (run s none).prepend ((recvTurn buf ofs r).acts ++
      [.processed (recvTurn buf ofs r).request.requestMethod
        (recvTurn buf ofs r).request.requestResource]) := by
  rw [run_cons, Option.getD_some, resume_data_leave hflow, finish, if_pos hc]

/-- The run behind a turn that does not return ends there, with the results that are left. -/
theorem run_turn_crash {f : Fault} (hflow : (recvTurn buf ofs r).flow = .crash f) :
    run (.data buf ofs :: s) (some r) =
      ⟨some (recvTurn buf ofs r).request, (recvTurn buf ofs r).acts, some f, s⟩ := by
  rw [run_cons, Option.getD_some, resume_data_crash hflow]

end Turns

/-- Waiting brings nothing. -/
theorem brings_idling (u : Upload) (s : List RecvResult) : Brings u [] [] (idling s) := by
  unfold idling
  split <;> exact ⟨rfl, rfl, rfl⟩

/-- Waiting is accounted for anywhere. -/
theorem accounted_idling {u : Upload} (s : List RecvResult) (before : List Action) :
    Accounted u before (idling s) := by
  unfold idling
  split <;> simp [Accounted, Allowed]

/-- How the upload goes on behind a turn: it stands further on, or is complete, or the process has
ended. -/
inductive TurnNext (u : Upload) (q w buf : Bytes) (t : Turn) : Prop where
  /-- More is to be received, in this call or in another one. -/
  | more (data : Bytes) (flow : t.flow = .again ∨ t.flow = .leave)
      (brings : Brings u buf data t.acts) (stands : At u (q ++ buf) (w ++ data) t.request)
  | completes (data : Bytes) (flow : t.flow = .leave) (status : t.request.status = .handleComplete)
      (method : t.request.requestMethod = lit "POST")
      (resource : t.request.requestResource = u.resource)
      (opened : .openAppend u.path true ∈ t.acts) (brings : Brings u buf data t.acts)
      (whole : q ++ buf = u.bytes) (content : w ++ data = u.content)
  | crashes (f : Fault) (flow : t.flow = .crash f)

section Turn

variable {u : Upload} {q w buf : Bytes} {ofs : Bool} {t : Turn}

/-- **Behind a turn** the upload stands further on, is complete, or has ended the process. -/
theorem TurnUploads.next (h : TurnUploads u q w buf ofs t) : TurnNext u q w buf t := by
  cases h with
  | reads acts flow head nothing =>
    refine .more [] (.inl flow) acts.brings ?_
    rw [nothing]
    exact .head head rfl
  | refused lines hlines acts flow closed content =>
    have hopen : Brings u [] [] [.openAppend u.path false] := ⟨rfl, rfl, rfl⟩
    have hb := hlines.brings.append hopen
    rw [List.append_nil, ← acts] at hb
    refine .more [] (.inr flow) hb ?_
    rw [List.append_nil]
    exact .content content
  | stores lines data hlines acts flow opened content withheld =>
    have hb := hlines.brings.append (brings_stored u data)
    rw [List.append_nil, ← acts] at hb
    exact .more data (.inl flow) hb (.content content)
  | completes lines data hlines acts flow opened status method resource whole content =>
    have hasks : Brings u [] [] [.setBodyFileName (lit "/redirect"),
        .modifyWaitFd true true true] := ⟨rfl, rfl, rfl⟩
    have hb := hlines.brings.append ((brings_stored u data).append hasks)
    rw [List.append_nil, List.append_nil, List.append_nil] at hb
    refine .completes data flow status method resource ?_ ?_ whole content
    · rw [acts]
      exact List.mem_append_right lines List.mem_cons_self
    · rw [acts]
      exact hb
  | crashes lines data f hlines acts flow kept => exact .crashes f flow

variable {before : List Action}

/-- **Every action of a turn is accounted for** behind the actions before it, when these have
received and appended what the turn starts from. -/
theorem TurnUploads.accounted
    (h : TurnUploads u (received before) (appendedTo u.path before) buf ofs t)
    (hc : completed before = []) : Accounted u before t.acts := by
  -- the content a turn stores has been received behind the preamble
  have hstored {lines : List Action} {data : Bytes} (hlines : Lines buf lines)
      (hkept : u.preamble ++ appendedTo u.path before ++ data <+: received before ++ buf) :
      Accounted u before (lines ++ [.openAppend u.path true, .append u.path data]) := by
    have hb := hlines.brings (u := u)
    refine accounted_append.mpr ⟨hlines.accounted before, accounted_stored ?_ ?_⟩
    · rw [completed_append, hc, hb.completed]
      rfl
    · rw [received_append, appendedTo_append, hb.received, hb.appendedTo, List.append_nil]
      exact hkept
  cases h with
  -- by what the turn does to the upload
  | reads acts flow head nothing => exact acts.accounted before
  | refused lines hlines acts flow closed content =>
    have hlb := hlines.brings (u := u)
    rw [acts]
    refine accounted_append.mpr ⟨hlines.accounted before, ⟨rfl, ?_, ?_⟩, trivial⟩
    · rw [completed_append, hc, hlb.completed]
      rfl
    · rw [received_append, hlb.received, ← content.kept, List.append_assoc]
      exact List.prefix_append _ _
  | stores lines data hlines acts flow opened content withheld =>
    rw [acts]
    refine hstored hlines ?_
    rw [← content.kept, List.append_assoc _ _ data]
    exact List.prefix_append _ _
  | completes lines data hlines acts flow opened status method resource whole content =>
    have hsplit : t.acts = lines ++ [.openAppend u.path true, .append u.path data] ++
        [.setBodyFileName (lit "/redirect"), .modifyWaitFd true true true] := by
      rw [acts, List.append_assoc]
      rfl
    rw [hsplit, accounted_append]
    refine ⟨hstored hlines ?_, trivial, trivial, trivial⟩
    rw [List.append_assoc, content, whole, Upload.bytes]
    exact List.prefix_append _ _
  | crashes lines data f hlines acts flow kept =>
    rw [acts]
    exact hstored hlines kept

end Turn

/-- **Every action of an upload is accounted for**, however it is cut and whatever its file does. -/
theorem run_accounted {u : Upload} (hlen : u.bytes.length ≤ maxSize) {s : List RecvResult}
    (hs : ∀ x ∈ s, x.Arrives) {tail : List RecvResult} (htail : Breaks tail)
    {before : List Action} {r : Request}
    (h : At u (received before) (appendedTo u.path before) r) (hc : completed before = [])
    (hq : received before ++ stream s <+: u.bytes) :
    Accounted u before (run (s ++ tail) (some r)).acts := by
  -- over the results of `recv`; what stands in the log is what the request has received and stored
  induction s generalizing before r with
  | nil => exact Leaving.accounted (run_breaks htail _) before
  | cons x s ih =>
    have hs' : ∀ y ∈ s, y.Arrives := fun y hy => hs y (List.mem_cons_of_mem x hy)
    rw [List.cons_append]
    -- an answer without a chunk ends a call, and a chunk is a turn
    cases hs x List.mem_cons_self with
    | again =>
      rw [run_cons, Option.getD_some, resume_again _ h.live.1 h.live.2]
      refine ⟨trivial, ih hs' ?_ ?_ ?_⟩
      · simpa [Action.received, Action.appendedTo] using h
      · simpa [Action.completed] using hc
      · simpa [Action.received, RecvResult.bytes] using hq
    | data buf ofs hbuf =>
      have hall : received before ++ buf ++ stream s <+: u.bytes := by
        rw [List.append_assoc]
        exact hq
      have hturn := recvTurn_uploading hlen h ((List.prefix_append _ _).trans hall) ofs
      have hacts := hturn.accounted hc
      cases hturn.next with
      | more data flow brings stands =>
        -- the run goes on, behind the call when there is nothing more for it
        have hrest {acts : List Action} (hb : Brings u buf data acts) :
            Accounted u (before ++ acts) (run (s ++ tail)
              (some (recvTurn buf ofs r).request)).acts := by
          refine ih hs' ?_ ?_ ?_
          · rw [received_append, appendedTo_append, hb.received, hb.appendedTo]
            exact stands
          · rw [completed_append, hc, hb.completed]
            rfl
          · rw [received_append, hb.received]
            exact hall
        rcases flow with flow | flow
        · have hb := brings.append (brings_idling u (s ++ tail))
          rw [List.append_nil, List.append_nil] at hb
          rw [run_turn_again flow stands.live.1 stands.live.2, Call.prepend_acts, accounted_append]
          exact ⟨accounted_append.mpr ⟨hacts, accounted_idling (s ++ tail) _⟩, hrest hb⟩
        · rw [run_turn_leave flow stands.live.1 stands.live.2, Call.prepend_acts, accounted_append]
          exact ⟨hacts, hrest brings⟩
      | completes data flow status method resource opened brings whole content =>
        -- nothing is left of the upload
        have hnil : stream s = [] := by
          rw [whole] at hall
          exact List.append_right_eq_self.mp (hall.eq_of_length_le (by simp))
        rw [run_turn_complete flow status, Call.prepend_acts, method, resource, accounted_append,
          accounted_append]
        refine ⟨⟨hacts, ⟨rfl, rfl, ?_, ?_, ?_⟩, trivial⟩, ?_⟩
        · exact List.mem_append_right before opened
        · rw [received_append, brings.received, whole]
        · rw [appendedTo_append, brings.appendedTo, content]
        · exact Leaving.accounted (run_idle hs' hnil htail (by rintro r ⟨⟩)) _
      | crashes f flow =>
        rw [run_turn_crash flow]
        exact hacts

/-- An upload starts in front of its content, as its preamble is not empty. -/
theorem at_start (u : Upload) : At u [] [] Request.init := by
  have hne : u.preamble ≠ [] := by
    simp [Upload.preamble, Upload.headLines, crlf]
  refine .head ⟨fun h => hne (List.prefix_nil.mp h), ?_, by decide, init_atRest⟩ rfl
  exact drained_of_rest init_atRest.lines

/-- The calls of an upload, from the first one on, have accounted for all that they do. -/
theorem upload_accounted {u : Upload} (hlen : u.bytes.length ≤ maxSize) {s : List RecvResult}
    (hs : ∀ x ∈ s, x.Arrives) (hq : stream s <+: u.bytes) {tail : List RecvResult}
    (htail : Breaks tail) : Accounted u [] (run (s ++ tail) none).acts := by
  -- with no result at all the connection may still be broken off
  cases s with
  | nil => exact Leaving.accounted (run_breaks htail none) []
  | cons x s =>
    rw [run_none (by simp)]
    exact run_accounted hlen hs htail (at_start u) rfl hq

end HandleRecv

end Cherokee
