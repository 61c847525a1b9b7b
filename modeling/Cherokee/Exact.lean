import Cherokee.Chunking

/-!
# Streams that are one request

`HandleRecv.Exact bytes o`: the stream is one request, no more and no less, and `o` is what is
decided about it. Such a stream is completed by the chunk that brings its last byte, whatever else
that chunk holds (`HandleRecv.run_exact`).

The content of an upload must find room: `HandleRecv.passes_of_roomy` bounds the lengths of the
content loop by the boundary and one chunk.
-/

open Search DelimScan

namespace Cherokee

namespace HandleRecv

open Request

/-! ### The end of a request -/

/-- The upload stages before the content never mark the file complete. -/
theorem drained_fileMsgStatus {x : Bytes} {r : Request}
    (hd : (Request.init.push x).drained = .ok r) : r.fileMsgStatus ≠ .fileComplete := by
  refine drained_induction (P := fun r => r.fileMsgStatus ≠ .fileComplete)
    (fun r r' line rest hr _ _ ho => ?_) (r := Request.init.push x) nofun hd
  change r'.fileMsgStatus ≠ .fileComplete
  cases readLine_cases ho with
  | requestLine => exact hr
  | blank =>
    unfold endHead
    split
    · exact nofun
    · exact hr
  | header head added =>
    obtain ⟨_, _, rfl⟩ := addHeaderOpt_fields added
    exact hr
  | begins => exact nofun
  | mismatch => exact hr
  | partBlank => exact nofun
  | partLine => exact hr
  | nothing => exact hr

/-- A file marked complete leaves the delimiter. -/
theorem settle_fileComplete {r : Request} (hr : r.fileMsgStatus ≠ .fileComplete)
    (h : r.settle.request.fileMsgStatus = .fileComplete) :
    delimiter (r.settle.request.boundary?.getD []) <+: r.settle.request.recvMsg := by
  by_cases hc : r.isUpload = true ∧ r.fileMsgStatus = .fileContent
  · obtain ⟨hu, hf⟩ := hc
    rw [settle_of_content hu hf] at h ⊢
    -- the content stage marks the file complete where its scan has found the delimiter
    unfold scanned at h ⊢
    split at h
    · next hfound =>
      rw [if_pos hfound]
      exact scan_found_isPrefix hfound
    · rw [show r.fileMsgStatus = .fileComplete from h] at hf
      cases hf
  · -- no other exit of the turn touches `fileMsgStatus`
    have hsame : r.settle.request.fileMsgStatus = r.fileMsgStatus := by
      by_cases hn : r.settle.handed = none
      · rw [settle_of_waiting hc hn]
      · have hmsg := settle_withMsg hc r.recvMsg
        unfold settle
        split
        · rfl
        · split_ifs
          · rfl
          · split
            · next hs _ hpost hmul _ hf => exact absurd ⟨isUpload_iff.mpr ⟨hs, hpost, hmul⟩, hf⟩ hc
            · rfl
            · rfl
          · rfl
          · rfl
          · rfl
        · rfl
    rw [hsame] at h
    exact absurd h hr

/-- The stream is one request, no more and no less: it completes, is no `PUT`, and leaves nothing,
or nothing behind the delimiter of an upload. -/
structure Exact (bytes : Bytes) (o : Outcome) : Prop where
  absorbed : Request.init.absorb bytes = .ok o
  complete : o.request.status = .handleComplete
  method : parsedMethod bytes ≠ some (lit "PUT")
  left : o.request.recvMsg = [] ∨ (o.request.fileMsgStatus = .fileComplete ∧
    o.request.recvMsg = delimiter (o.request.boundary?.getD []))

theorem Exact.handed {bytes : Bytes} {o : Outcome} (h : Exact bytes o) : o.handed ≠ none :=
  fun hn => (absorb_atRest init_atRest.sound h.absorbed hn).live h.complete

theorem Exact.ne_nil {bytes : Bytes} {o : Outcome} (h : Exact bytes o) : bytes ≠ [] := by
  rintro rfl
  cases h.absorbed
  cases h.complete

/-- A stream that is one request asks for no response before its end. -/
theorem Exact.pending {bytes : Bytes} {o : Outcome} (h : Exact bytes o) {p q : Bytes}
    (hpq : p ++ q = bytes) (hq : q ≠ []) {o' : Outcome} (ho' : Request.init.absorb p = .ok o') :
    o'.handed = none := by
  by_contra hh
  have hc := complete_of_handed ho'
    (fun hm => h.method (by rw [← hpq]; exact parsedMethod_append hm q)) hh
  have hsplit := absorb_append_of_complete ho' hc q
  rw [hpq, h.absorbed] at hsplit
  obtain rfl : o = { o' with request := o'.request.push q } := Except.ok.inj hsplit
  have hlen := List.length_pos_of_ne_nil hq
  rcases h.left with hnil | ⟨hf, hmsg⟩
  · exact hq (List.append_eq_nil_iff.mp hnil).2
  · -- the delimiter is at the front of what `p` left, and `q` comes behind it
    obtain ⟨r, hd, rfl⟩ := drained_of_absorb ho'
    have hpre := (settle_fileComplete (drained_fileMsgStatus hd) hf).length_le
    have heq := congrArg List.length hmsg
    simp only [push, withMsg_recvMsg, withMsg_boundary?, List.length_append] at heq
    omega

/-! ### Lengths -/

theorem readLine_body {r r' : Request} {line : Bytes}
    (hs : r.status = .handleBody ∨ r.status = .handleComplete) (h : r.readLine line = .ok r') :
    (r'.status = .handleBody ∨ r'.status = .handleComplete) ∧ r'.msgHeader = r.msgHeader := by
  cases readLine_cases h with
  | requestLine init => rcases hs with hs | hs <;> cases hs.symm.trans init
  | blank head => rcases hs with hs | hs <;> cases hs.symm.trans head
  | header head => rcases hs with hs | hs <;> cases hs.symm.trans head
  | begins => exact ⟨hs, rfl⟩
  | mismatch => exact ⟨.inr rfl, rfl⟩
  | partBlank => exact ⟨hs, rfl⟩
  | partLine => exact ⟨hs, rfl⟩
  | nothing => exact ⟨hs, rfl⟩

/-- From the body on the method and the headers stay as they are. -/
theorem absorb_body {r r' : Request} {x y : Bytes} {o : Outcome}
    (hd : (r.push x).drained = .ok r') (hs : r'.status = .handleBody)
    (ho : r.absorb (x ++ y) = .ok o) :
    o.request.msgHeader = r'.msgHeader ∧ o.request.requestMethod = r'.requestMethod := by
  unfold absorb at ho
  rw [drained_push, hd] at ho
  change Except.map settle (r'.push y).drained = _ at ho
  cases hd' : (r'.push y).drained with
  | error f => rw [hd'] at ho; cases ho
  | ok r'' =>
    rw [hd'] at ho
    obtain rfl : r''.settle = o := Except.ok.inj ho
    have hkeep := drained_induction
      (P := fun s => (s.status = .handleBody ∨ s.status = .handleComplete) ∧
        s.msgHeader = r'.msgHeader ∧ s.requestMethod = r'.requestMethod)
      (fun s s' _ _ h _ _ ho => by
        obtain ⟨hs', hm⟩ := readLine_body h.1 ho
        have hi : s.status ≠ .handleInit := by
          intro hi
          rcases h.1 with hb | hb <;> cases hb.symm.trans hi
        exact ⟨hs', hm.trans h.2.1, (readLine_asked hi ho).2.1.trans h.2.2⟩)
      (show _ ∧ (r'.push y).msgHeader = _ ∧ (r'.push y).requestMethod = _ from
        ⟨.inl hs, rfl, rfl⟩) hd'
    obtain ⟨_, _, _, hset⟩ := settle_fields r''
    rw [hset]
    exact hkeep.2

/-- The body is never left for the head. -/
theorem absorb_body_status {r r' : Request} {x y : Bytes} {o : Outcome}
    (hd : (r.push x).drained = .ok r') (hs : r'.status = .handleBody)
    (ho : r.absorb (x ++ y) = .ok o) :
    o.request.status = .handleBody ∨ o.request.status = .handleComplete := by
  unfold absorb at ho
  rw [drained_push, hd] at ho
  change Except.map settle (r'.push y).drained = _ at ho
  cases hd' : (r'.push y).drained with
  | error f => rw [hd'] at ho; cases ho
  | ok r'' =>
    rw [hd'] at ho
    obtain rfl : r''.settle = o := Except.ok.inj ho
    have hkeep := drained_induction
      (P := fun s => s.status = .handleBody ∨ s.status = .handleComplete)
      (fun s s' _ _ h _ _ ho => (readLine_body h ho).1)
      (show (r'.push y).status = _ ∨ _ from .inl hs) hd'
    by_cases hh : r''.settle.handed = none
    · rw [(settle_status hh).1]
      exact hkeep
    · rcases settle_handed hh with hc | ⟨-, hsame, hb⟩
      · exact .inr hc
      · rw [hsame]
        exact .inl hb

/-- A chunk that completes a line leaves less than itself. -/
theorem drained_push_length {r r' : Request} {buf : Bytes}
    (hr : r.wantsLine = false ∨ cutLine r.recvMsg = none) (hd : (r.push buf).drained = .ok r') :
    r' = r.push buf ∨ r'.recvMsg.length < buf.length := by
  by_cases hrest : (r.push buf).wantsLine = false ∨ cutLine (r.push buf).recvMsg = none
  · rw [drained_of_rest hrest] at hd
    exact .inl (Except.ok.inj hd).symm
  · rw [not_or, Bool.not_eq_false] at hrest
    obtain ⟨hw, hc⟩ := hrest
    obtain ⟨⟨line, rest⟩, hcut⟩ := Option.ne_none_iff_exists'.mp hc
    have hno : ¬ crlf <:+: r.recvMsg :=
      cutAfter_eq_none_iff.mp (hr.resolve_left (by rw [show r.wantsLine = true from hw]; decide))
    have hlen : rest.length < buf.length := cutAfter_rest_length_of_not_isInfix hno hcut
    cases ho : (r.push buf).readLine line with
    | error f => rw [drained_of_error hw hcut ho] at hd; cases hd
    | ok r₁ =>
      rw [drained_of_line hw hcut ho] at hd
      refine .inr (drained_induction (P := fun s => s.recvMsg.length < buf.length)
        (fun s s' line' rest' hs _ hc' _ => ?_)
        (show (r₁.withMsg rest).recvMsg.length < _ from hlen) hd)
      have := cutAfter_rest_length hc'
      change rest'.length < _
      omega

/-- What the content of an upload holds back is shorter than the delimiter. -/
theorem content_length {r : Request} (hr : r.AtRest) (hu : r.isUpload = true)
    (hf : r.fileMsgStatus = .fileContent) {b : Bytes} (hb : r.boundary? = some b) :
    r.recvMsg.length < b.length + 8 := by
  have hreq := hr.request
  have hn := hr.handed
  rw [settle_of_content hu hf, hb, Option.getD_some] at hreq hn
  unfold scanned at hreq hn
  split at hn
  · cases hn
  · next hfound =>
    rw [if_neg hfound] at hreq
    have hheld := congrArg Request.recvMsg hreq
    rw [withMsg_recvMsg] at hheld
    rw [← hheld]
    rcases scan_held_of_not_found (by simpa using hfound) with hnil | ⟨-, hlt⟩
    · rw [hnil]
      simp
    · rwa [delimiter_length] at hlt

/-- The conditions on an upload under which every turn passes: every opening of the file succeeds,
no chunk is longer than `2048` bytes, and the boundary leaves room for one in an `int`. -/
structure Roomy (s : List RecvResult) (o : Outcome) : Prop where
  quiet : ∀ x ∈ s, x.Quiet
  chunk : ∀ x ∈ s, x.bytes.length ≤ 2048
  boundary : ∃ b, o.request.boundary? = some b ∧ b.length + 2056 ≤ 2 ^ 31

/-- A script whose stream is absorbed passes, if it has room for an upload, should it be one. -/
theorem passes_of_roomy {s : List RecvResult} (hq : ∀ x ∈ s, x.Arrives) {r : Request}
    (hr : r.AtRest) {o : Outcome} (ho : r.absorb (stream s) = .ok o)
    (hup : o.request.requestMethod = lit "POST" → o.request.isMultipart = true → Roomy s o) :
    Passes s r := by
  induction s generalizing r o with
  | nil => trivial
  | cons x s ih =>
    have hqs : ∀ y ∈ s, y.Arrives := fun y hy => hq y (List.mem_cons_of_mem x hy)
    -- what the chunks behind leave is as roomy
    have htail {o' : Outcome} (ho' : o'.request = o.request)
        (h : o'.request.requestMethod = lit "POST") (h' : o'.request.isMultipart = true) :
        Roomy s o' := by
      rw [ho'] at h h'
      obtain ⟨hquiet, hchunk, hb⟩ := hup h h'
      exact ⟨fun y hy => hquiet y (List.mem_cons_of_mem x hy),
        fun y hy => hchunk y (List.mem_cons_of_mem x hy), by rwa [ho']⟩
    cases hq x List.mem_cons_self with
    | again => exact ih hqs hr ho (htail rfl)
    | data buf ofs hbuf =>
      intro r' hd
      refine ⟨fun hu hf => ?_, fun hn => ?_⟩
      · -- the headers are complete, so the boundary is the one known at the end
        obtain ⟨hs, hm, hmul⟩ := isUpload_iff.mp hu
        obtain ⟨hheader, hmethod⟩ :=
          absorb_body hd hs (show r.absorb (buf ++ stream s) = .ok o from ho)
        have hroom := hup (hmethod.trans hm) (by rw [isMultipart, hheader]; exact hmul)
        obtain ⟨b, hb, hlen⟩ := hroom.boundary
        have hofs : ofs = true := by
          cases hroom.quiet _ List.mem_cons_self
          rfl
        have hbuf' : buf.length ≤ 2048 := hroom.chunk _ List.mem_cons_self
        have hb' : r'.boundary? = some b := by rw [boundary?, ← hheader]; exact hb
        refine ⟨hofs, b, hb', .inr ⟨by omega, ?_⟩⟩
        rcases drained_push_length hr.lines hd with rfl | hlt
        · have hheld := content_length hr hu hf hb'
          rw [push, withMsg_recvMsg, List.length_append]
          omega
        · omega
      · -- the turn ends in the request the chunks behind go on with
        have ho₁ : r.absorb buf = .ok r'.settle := absorb_of_drained hd
        obtain ⟨o₂, ho₂, rfl⟩ :=
          absorb_rest (show r.absorb (buf ++ stream s) = .ok o from ho) ho₁ hn
        exact ih hqs (absorb_atRest hr.sound ho₁ hn) ho₂ (htail rfl)

/-! ### The chunk that completes a request -/

/-- The result that brings the last byte of a beginning of the stream. -/
theorem split_stream {s : List RecvResult} {q rest : Bytes} (hne : q ≠ [])
    (h : stream s = q ++ rest) :
    ∃ s₁ buf ofs s₂ last extra, s = s₁ ++ .data buf ofs :: s₂ ∧ q = stream s₁ ++ last ∧ last ≠ [] ∧
      buf = last ++ extra ∧ rest = extra ++ stream s₂ := by
  induction s generalizing q with
  | nil => exact absurd (List.append_eq_nil_iff.mp h.symm).1 hne
  | cons x s ih =>
    -- a call that reads nothing is passed over
    have hskip (hx : x.bytes = []) : ∃ s₁ buf ofs s₂ last extra,
        x :: s = s₁ ++ .data buf ofs :: s₂ ∧ q = stream s₁ ++ last ∧ last ≠ [] ∧
          buf = last ++ extra ∧ rest = extra ++ stream s₂ := by
      rw [stream_cons, hx, List.nil_append] at h
      obtain ⟨s₁, buf, ofs, s₂, last, extra, rfl, hq, hlast⟩ := ih hne h
      refine ⟨x :: s₁, buf, ofs, s₂, last, extra, rfl, ?_, hlast⟩
      rw [stream_cons, hx, hq]
      rfl
    cases x with
    | data buf ofs =>
      rw [stream_cons] at h
      change buf ++ stream s = q ++ rest at h
      rcases List.append_eq_append_iff.mp h with ⟨q', rfl, hs⟩ | ⟨extra, rfl, hrest⟩
      · -- `q` goes on behind the chunk, or ends with it
        by_cases hq' : q' = []
        · subst hq'
          refine ⟨[], buf, ofs, s, buf, [], rfl, (List.append_nil _), ?_, ?_, ?_⟩
          · rwa [List.append_nil] at hne
          · exact (List.append_nil _).symm
          · exact hs.symm
        · obtain ⟨s₁, buf', ofs', s₂, last, extra, rfl, hq, hlast⟩ := ih hq' hs
          refine ⟨.data buf ofs :: s₁, buf', ofs', s₂, last, extra, rfl, ?_, hlast⟩
          rw [stream_cons, hq]
          exact (List.append_assoc _ _ _).symm
      -- `q` ends inside this chunk
      · exact ⟨[], _, ofs, s, q, extra, rfl, rfl, hne, rfl, hrest⟩
    | again => exact hskip rfl
    | closed => exact hskip rfl
    | failed => exact hskip rfl

/-- **A request is completed by the chunk that brings its last byte.** What else that chunk holds is
gone, and the run goes on behind it with no `Request`. -/
theorem run_exact {q : Bytes} {o : Outcome} (hexact : Exact q o) {s : List RecvResult}
    (hq : ∀ x ∈ s, x.Arrives)
    (hup : o.request.requestMethod = lit "POST" → o.request.isMultipart = true → Roomy s o)
    {rest : Bytes} (hs : stream s = q ++ rest) :
    ∃ s₁ buf ofs s₂ extra acts, s = s₁ ++ .data buf ofs :: s₂ ∧
      stream s₁ ++ buf = q ++ extra ∧ (stream s₁).length < q.length ∧ rest = extra ++ stream s₂ ∧
      run s none = (run s₂ none).prepend
        (acts ++ [.processed o.request.requestMethod o.request.requestResource]) ∧
      Shows acts (q ++ extra) [] o.handed.toList o.writtenTo := by
  obtain ⟨s₁, buf, ofs, s₂, last, extra, rfl, hlast, hne, rfl, hrest⟩ :=
    split_stream hexact.ne_nil hs
  have hq₁ : ∀ x ∈ s₁, x.Arrives := fun x hx => hq x (List.mem_append_left _ hx)
  have hstream : stream s₁ ++ (last ++ extra) = q ++ extra := by
    rw [hlast, List.append_assoc]
  -- the last byte completes the request, and no byte before it does
  have ho := absorb_append_of_complete hexact.absorbed hexact.complete extra
  rw [← hstream] at ho
  cases ho₁ : Request.init.absorb (stream s₁) with
  | error f =>
    rw [absorb_append_of_error ho₁] at ho
    cases ho
  | ok o₁ =>
    -- the chunks before the last leave the request open
    have hn₁ := hexact.pending hlast.symm hne ho₁
    have hsub : ∀ x ∈ s₁ ++ [.data (last ++ extra) ofs],
        x ∈ s₁ ++ .data (last ++ extra) ofs :: s₂ := by
      intro x hx
      rw [List.mem_append] at hx ⊢
      refine hx.imp_right fun h => ?_
      rw [List.mem_singleton.mp h]
      exact List.mem_cons_self
    -- an upload has room for its content, and nothing else needs any
    have hp : Passes (s₁ ++ [.data (last ++ extra) ofs]) Request.init := by
      refine passes_of_roomy (fun x hx => hq x (hsub x hx)) init_atRest
        (o := { o with request := o.request.push extra }) ?_ fun hm hmul => ?_
      · rw [stream_append, stream_cons, stream_nil, List.append_nil]
        exact ho
      · obtain ⟨hquiet, hchunk, hb⟩ := hup hm hmul
        exact ⟨fun x hx => hquiet x (hsub x hx), fun x hx => hchunk x (hsub x hx), hb⟩
    obtain ⟨acts, hrun, hshows⟩ :=
      run_absorb_complete hq₁ init_atRest hp ho₁ hn₁ ho hexact.complete s₂
    refine ⟨s₁, last ++ extra, ofs, s₂, extra, acts, rfl, hstream, ?_, hrest, ?_, ?_⟩
    · rw [hlast, List.length_append]
      have := List.length_pos_of_ne_nil hne
      omega
    · rw [run_none (by simp)]
      exact hrun
    · rw [hstream] at hshows
      exact ⟨hshows.received, hshows.completed, hshows.handedOver, hshows.appendedTo⟩

end HandleRecv

end Cherokee
