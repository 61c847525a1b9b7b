import Cherokee.Upload

/-!
# Requests back to back

A `Request` is erased when it is complete, together with whatever its last chunk holds behind it.
What comes next is read by a new `Request`, from wherever the next chunk begins.

* `HandleRecv.pipeline_iff_aligned`: requests sent back to back are all completed, each from its own
  first byte, exactly when every request ends where a chunk ends.
* `HandleRecv.body_ignored_iff_delivered`: a body that the parser does not read is kept out of the
  requests behind it exactly when it arrives in the chunk that completes its request.
-/

open Search DelimScan

namespace Cherokee

/-! ### Where a `Request` begins -/

/-- Each action with the number of bytes received before its `Request` was created: `start` for the
first one, when `now` bytes have been received already. -/
def stamped : ℕ → ℕ → List Action → List (ℕ × Action)
  | _, _, [] => []
  | start, now, a :: acts =>
    let now := now + a.received.length
    (start, a) :: stamped (if a.completed.isSome then now else start) now acts

/-- The requests completed, each with the place its bytes were read from: where its `Request`
began. -/
def completedAt (start now : ℕ) (acts : List Action) : List (ℕ × Bytes × Bytes) :=
  (stamped start now acts).filterMap fun p => p.2.completed.map (p.1, ·)

/-- The places at which the request lines that were read begin. -/
def lineStarts (start now : ℕ) (acts : List Action) : List ℕ :=
  (stamped start now acts).filterMap fun
    | (p, .requestLine _) => some p
    | _ => none

section Stamped

variable {start now : ℕ} {xs : List Action}

/-- Up to the first completion the actions belong to one `Request`, and have its place. -/
theorem stamped_append (h : completed xs = []) (ys : List Action) :
    stamped start now (xs ++ ys) =
      xs.map (start, ·) ++ stamped start (now + (received xs).length) ys := by
  induction xs generalizing now with
  | nil => rfl
  | cons a xs ih =>
    rw [completed_cons, List.append_eq_nil_iff] at h
    have hnone : a.completed = none := by simpa using h.1
    rw [List.cons_append, stamped, hnone]
    simp only [Option.isSome_none, Bool.false_eq_true, if_false]
    rw [ih h.2, received_cons, List.length_append, Nat.add_assoc]
    rfl

/-- No place is before the one at which the first `Request` begins. -/
theorem start_le_of_mem_stamped (hle : start ≤ now) {p : ℕ × Action}
    (hp : p ∈ stamped start now xs) : start ≤ p.1 := by
  induction xs generalizing start now with
  | nil => cases hp
  | cons a xs ih =>
    rw [stamped] at hp
    rcases List.mem_cons.mp hp with rfl | hp
    · exact le_rfl
    · by_cases hc : a.completed.isSome = true
      · rw [if_pos hc] at hp
        have := ih le_rfl hp
        omega
      · rw [if_neg hc] at hp
        exact ih (by omega) hp

/-- Behind a completion the next `Request` begins, with what has been received by then behind it. -/
theorem stamped_processed (h : completed xs = []) (method resource : Bytes) (ys : List Action) :
    stamped start now (xs ++ .processed method resource :: ys) =
      (xs ++ [Action.processed method resource]).map (start, ·) ++
        stamped (now + (received xs).length) (now + (received xs).length) ys := by
  rw [stamped_append h, List.map_append, List.append_assoc]
  rfl

/-- A completion adds its request at the place of its `Request`, and the others are behind it. -/
theorem completedAt_append (h : completed xs = []) (method resource : Bytes) (ys : List Action) :
    completedAt start now (xs ++ .processed method resource :: ys) =
      (start, method, resource) ::
        completedAt (now + (received xs).length) (now + (received xs).length) ys := by
  have hnone : (xs.map (start, ·)).filterMap
      (fun p : ℕ × Action => p.2.completed.map (p.1, ·)) = [] := by
    rw [List.filterMap_eq_nil_iff]
    intro p hp
    obtain ⟨a, ha, rfl⟩ := List.mem_map.mp hp
    have := List.filterMap_eq_nil_iff.mp h a ha
    simp [this]
  unfold completedAt
  rw [stamped_processed h, List.filterMap_append, List.map_append, List.filterMap_append, hnone]
  rfl

/-- A request line begins at a place when it has been read with that place. -/
theorem mem_lineStarts {p : ℕ} :
    p ∈ lineStarts start now xs ↔ ∃ line, (p, .requestLine line) ∈ stamped start now xs := by
  unfold lineStarts
  rw [List.mem_filterMap]
  constructor
  · rintro ⟨⟨q, a⟩, ha, hp⟩
    cases a with
    | requestLine line =>
      obtain rfl := Option.some.inj hp
      exact ⟨line, ha⟩
    | _ => cases hp
  · rintro ⟨line, h⟩
    exact ⟨_, h, rfl⟩

/-- Without their places, these are the requests completed. -/
theorem completedAt_snd (start now : ℕ) (xs : List Action) :
    (completedAt start now xs).map Prod.snd = completed xs := by
  induction xs generalizing start now with
  | nil => rfl
  | cons a xs ih =>
    unfold completedAt at ih ⊢
    rw [stamped, completed_cons, List.filterMap_cons]
    cases a.completed with
    | none => exact ih _ _
    | some p => exact congrArg (p :: ·) (ih _ _)

end Stamped

namespace HandleRecv

open Request

/-! ### Requests that end with their head -/

/-- A head that closes is read to its end, and the request it leaves is no upload, so that it is
complete there. -/
theorem reads_closing (h : Head) (hc : h.Closes) :
    ∃ r, (Request.init.push h.bytes).drained = .ok r ∧ r.status = .handleBody ∧
      r.requestMethod = h.line.method ∧ r.requestResource = h.line.resource ∧ r.recvMsg = [] ∧
      (r.requestMethod = lit "POST" → r.isMultipart = false) := by
  obtain ⟨m, n, hreq, hread⟩ := h.reads_lines
  generalize hr : ({ h.line.request with msgHeader := m, contentLength := n } : Request).endHead = r
    at hread
  -- the blank line ends the head, and keeps what the request line has set
  have hstatus : r.status = .handleBody := by
    rw [← hr, endHead]
    split <;> rfl
  have hmethod : r.requestMethod = h.line.method := by
    rw [← hr, endHead]
    split <;> rfl
  have hresource : r.requestResource = h.line.resource := by
    rw [← hr, endHead]
    split <;> rfl
  have hmsg : r.recvMsg = [] := reads_recvMsg hread
  -- a `POST` that closes with its head is no upload
  have hplain : r.requestMethod = lit "POST" → r.isMultipart = false := by
    intro hpost
    rcases hc with hget | ⟨-, hno⟩
    · rw [hmethod, hget] at hpost
      exact absurd hpost (by decide)
    · rw [hreq] at hno
      rw [← hr, endHead]
      split
      · exact hno
      · exact hno
  -- an upload would go on with the lines of its body
  have hnup : r.isUpload = false := by
    by_contra hu
    obtain ⟨-, hpost, hmul⟩ := isUpload_iff.mp (by simpa using hu)
    rw [hplain hpost] at hmul
    cases hmul
  refine ⟨r, ?_, hstatus, hmethod, hresource, hmsg, hplain⟩
  have hall := drained_of_reads hread []
  rw [List.append_nil] at hall
  rw [show h.bytes = h.lines.flatMap (· ++ crlf) from rfl, hall,
    show r.withMsg [] = r by rw [← hmsg]; rfl]
  refine drained_of_rest (rest_of_not_upload ?_ ?_ hnup)
  · intro hinit
    rw [hstatus] at hinit
    cases hinit
  · intro hhead
    rw [hstatus] at hhead
    cases hhead

/-- The bytes of the head are one request: no byte less is enough, and nothing is left over. -/
theorem exact_head (h : Head) (hc : h.Closes) :
    ∃ o, Exact h.bytes o ∧ o.request.requestMethod = h.line.method ∧
      o.request.requestResource = h.line.resource ∧
      (o.request.requestMethod = lit "POST" → o.request.isMultipart = false) := by
  obtain ⟨r, hread, hstatus, hmethod, hresource, hmsg, hplain⟩ := reads_closing h hc
  have habsorb := absorb_of_drained hread
  -- the body stage answers a `GET`, and a `POST` that is no upload, at once
  have hsettle : ∃ name, r.settle = r.settled none name := by
    rw [settle_of_body hstatus]
    rcases hc with hget | ⟨hpost, -⟩
    · rw [if_pos (by rw [hmethod, hget])]
      exact ⟨_, rfl⟩
    · have hpost' : r.requestMethod = lit "POST" := by rw [hmethod, hpost]
      rw [if_neg (by rw [hpost']; decide), if_pos hpost', if_neg (by rw [hplain hpost']; decide)]
      exact ⟨_, rfl⟩
  obtain ⟨name, hsettle⟩ := hsettle
  rw [hsettle] at habsorb
  refine ⟨_, ⟨habsorb, rfl, ?_, .inl hmsg⟩, hmethod, hresource, hplain⟩
  rcases absorb_requestMethod habsorb with hi | hparsed
  · cases hi
  · rw [hparsed]
    intro hput
    have hput' : r.requestMethod = lit "PUT" := Option.some.inj hput
    rw [hmethod] at hput'
    rcases hc with hget | ⟨hpost, -⟩
    · rw [hget] at hput'
      exact absurd hput' (by decide)
    · rw [hpost] at hput'
      exact absurd hput' (by decide)

/-! ### The first line -/

/-- As long as no line is complete, a new `Request` takes in what arrives, and nothing else
happens. -/
theorem run_quiet_start {s : List RecvResult} (hq : ∀ x ∈ s, x.Arrives)
    (hline : ¬ crlf <:+: stream s) (tail : List RecvResult) :
    ∃ acts, run (s ++ tail) (some Request.init) =
        (run tail (some (Request.init.push (stream s)))).prepend acts ∧
      Shows acts (stream s) [] [] fun _ => [] := by
  have hdrained : (Request.init.push (stream s)).drained = .ok (Request.init.push (stream s)) :=
    drained_of_rest (.inr (cutAfter_eq_none_iff.mpr hline))
  have habsorb : Request.init.absorb (stream s) = .ok ⟨Request.init.push (stream s), none, none⟩ :=
    absorb_of_drained hdrained
  have hp : Passes s Request.init := passes_of_roomy hq init_atRest habsorb fun hpost =>
    absurd (show ([] : Bytes) = lit "POST" from hpost) (by decide)
  obtain ⟨acts, hrun, hshows⟩ := run_absorb hq init_atRest hp habsorb rfl tail
  refine ⟨acts, hrun, hshows.received, hshows.completed, hshows.handedOver, fun path => ?_⟩
  rw [hshows.appendedTo, Outcome.writtenTo]
  split <;> rfl

/-- A turn begins with receiving the chunk and with the stage of the request line. -/
theorem recvTurn_acts (buf : Bytes) (ofs : Bool) (r : Request) :
    ∃ acts, (recvTurn buf ofs r).acts =
      .recvd buf :: (requestLineStage (r.push buf)).2 ++ acts := by
  rw [recvTurn_eq]
  generalize requestLineStage (r.push buf) = p
  cases headStage p.1 with
  | error f => exact ⟨[], (List.append_nil _).symm⟩
  | ok r' => exact ⟨(bodyStage ofs r').acts, rfl⟩

/-- That stage logs the line it reads. -/
theorem requestLineStage_acts {r : Request} {line rest : Bytes} (hs : r.status = .handleInit)
    (hc : cutLine r.recvMsg = some (line, rest)) :
    (requestLineStage r).2 = [.requestLine line] := by
  rw [requestLineStage, if_pos hs, hc]

/-- A run that begins with a chunk begins with its turn. -/
theorem resume_data_acts (buf : Bytes) (ofs : Bool) (rest : List RecvResult) (r : Request) :
    ∃ acts, (resume (.data buf ofs :: rest) r).acts = (recvTurn buf ofs r).acts ++ acts := by
  cases hflow : (recvTurn buf ofs r).flow with
  | again =>
    rw [resume_data_again hflow]
    exact ⟨_, rfl⟩
  | leave =>
    rw [resume_data_leave hflow, Call.prepend_acts, List.append_assoc]
    exact ⟨_, rfl⟩
  | crash f =>
    rw [resume_data_crash hflow]
    exact ⟨[], (List.append_nil _).symm⟩

/-- A new `Request` reads the first line that arrives, from the first byte that arrives. -/
theorem run_reads_line {s : List RecvResult} (hq : ∀ x ∈ s, x.Arrives)
    (hline : crlf <:+: stream s) (p : ℕ) : p ∈ lineStarts p p (run s none).acts := by
  obtain ⟨⟨line, rest⟩, hcut⟩ :=
    Option.ne_none_iff_exists'.mp fun hnone => cutAfter_eq_none_iff.mp hnone hline
  have hne : line ≠ [] := by
    rintro rfl
    exact absurd (cutAfter_isSuffix hcut) (by decide)
  obtain ⟨s₁, buf, ofs, s₂, last, extra, rfl, hlast, hlast', rfl, -⟩ :=
    split_stream hne (cutAfter_append hcut).symm
  -- the line is not complete before its last chunk
  have hno : ¬ crlf <:+: stream s₁ := by
    intro hi
    obtain ⟨⟨line', rest'⟩, hcut'⟩ :=
      Option.ne_none_iff_exists'.mp fun hnone => cutAfter_eq_none_iff.mp hnone hi
    have hmore := cutAfter_append_of_some hcut' (stream (.data (last ++ extra) ofs :: s₂))
    rw [← stream_append, hcut] at hmore
    obtain rfl : line = line' := congrArg Prod.fst (Option.some.inj hmore)
    have hlen := congrArg List.length (cutAfter_append hcut')
    have hpos := List.length_pos_of_ne_nil hlast'
    rw [hlast] at hlen
    simp only [List.length_append] at hlen
    omega
  obtain ⟨acts, hrun, hshows⟩ := run_quiet_start (fun x hx => hq x (List.mem_append_left _ hx)) hno
    (.data (last ++ extra) ofs :: s₂)
  obtain ⟨⟨line', rest'⟩, hcut'⟩ : ∃ p, cutLine (stream s₁ ++ (last ++ extra)) = some p := by
    refine Option.ne_none_iff_exists'.mp fun hnone => cutAfter_eq_none_iff.mp hnone ?_
    rw [← List.append_assoc, ← hlast]
    exact (cutAfter_isSuffix hcut).isInfix.trans (List.prefix_append line extra).isInfix
  -- the chunk that ends the line begins with it in the buffer
  obtain ⟨acts₂, hacts₂⟩ := resume_data_acts (last ++ extra) ofs s₂ (Request.init.push (stream s₁))
  obtain ⟨acts₁, hacts₁⟩ := recvTurn_acts (last ++ extra) ofs (Request.init.push (stream s₁))
  rw [requestLineStage_acts (by rfl) (by rw [push_push]; exact hcut')] at hacts₁
  refine mem_lineStarts.mpr ⟨line', ?_⟩
  rw [run_none (by simp), hrun, Call.prepend_acts, run_cons, Option.getD_some, hacts₂, hacts₁,
    stamped_append hshows.completed, List.mem_append]
  exact .inr (List.mem_cons_of_mem _ List.mem_cons_self)

/-! ### Requests back to back -/

/-- A request that a client sends: a `GET`, or an upload. -/
inductive Message where
  | get (h : Head) (isGet : h.line.method = lit "GET")
  | upload (u : Upload)

namespace Message

/-- The bytes of the request. -/
def bytes : Message → Bytes
  | get h _ => h.bytes
  | upload u => u.bytes

/-- Its method and its resource, as they are logged when it is complete. -/
def asked : Message → Bytes × Bytes
  | get h _ => (h.line.method, h.line.resource)
  | upload u => (lit "POST", u.resource)

/-- The boundary leaves room for a chunk in an `int`, so that no length of the content loop
overflows. -/
def Roomy : Message → Prop
  | get _ _ => True
  | upload u => u.boundary.length + 2056 ≤ 2 ^ 31

/-- Requests back to back, each with the place it begins at: behind the bytes of those in front of
it. -/
def placed : ℕ → List Message → List (ℕ × Bytes × Bytes)
  | _, [] => []
  | p, m :: ms => (p, m.asked) :: placed (p + m.bytes.length) ms

/-- Without their places, they are what was asked for, in order. -/
theorem placed_snd (p : ℕ) (ms : List Message) : (placed p ms).map Prod.snd = ms.map asked := by
  induction ms generalizing p with
  | nil => rfl
  | cons m ms ih => rw [placed, List.map_cons, List.map_cons, ih]

end Message

/-- Every request ends where a result of `recv` ends, so that none begins within a chunk. -/
def Aligned (ms : List Message) (s : List RecvResult) : Prop :=
  ∀ front back, front ++ back = ms →
    ∃ t t', t ++ t' = s ∧ stream t = front.flatMap Message.bytes

/-- A beginning of the results that brings more than another reaches at least over the next
result. -/
theorem reaches_further {t t' s₁ s₂ : List RecvResult} {x : RecvResult}
    (h : t ++ t' = s₁ ++ x :: s₂) (hlen : (stream s₁).length < (stream t).length) :
    ∃ a, t = s₁ ++ x :: a ∧ a ++ t' = s₂ := by
  rcases List.append_eq_append_iff.mp h with ⟨a, rfl, -⟩ | ⟨a, rfl, ha⟩
  · rw [stream_append, List.length_append] at hlen
    omega
  · cases a with
    | nil => simp at hlen
    | cons y a =>
      obtain ⟨rfl, rfl⟩ := List.cons.inj ha
      exact ⟨a, rfl, rfl⟩

/-- The first request ends where a chunk ends, and the others do behind it. -/
theorem aligned_cons {m : Message} {ms : List Message} {s₁ s₂ : List RecvResult} {buf extra : Bytes}
    {ofs : Bool} (hbuf : stream s₁ ++ buf = m.bytes ++ extra)
    (hlen : (stream s₁).length < m.bytes.length) :
    Aligned (m :: ms) (s₁ ++ .data buf ofs :: s₂) ↔ extra = [] ∧ Aligned ms s₂ := by
  constructor
  · intro h
    -- a chunk boundary behind `m` lies behind the chunk that ends it
    have hcut {front back : List Message} (hms : front ++ back = ms) :
        ∃ a t', a ++ t' = s₂ ∧ extra ++ stream a = front.flatMap Message.bytes := by
      obtain ⟨t, t', ht, hstream⟩ := h (m :: front) back (by rw [← hms]; rfl)
      obtain ⟨a, rfl, ha⟩ := reaches_further ht (by
        rw [hstream, List.flatMap_cons, List.length_append]
        omega)
      refine ⟨a, t', ha, ?_⟩
      rw [stream_append, stream_cons, ← List.append_assoc,
        show stream s₁ ++ RecvResult.bytes (.data buf ofs) = m.bytes ++ extra from hbuf,
        List.append_assoc, List.flatMap_cons] at hstream
      exact List.append_cancel_left hstream
    -- the boundary right behind `m` leaves no room for more of that chunk
    have hextra : extra = [] := by
      obtain ⟨a, -, -, ha⟩ := hcut (List.nil_append ms)
      exact (List.append_eq_nil_iff.mp ha).1
    refine ⟨hextra, fun front back hms => ?_⟩
    obtain ⟨a, t', ha, hstream⟩ := hcut hms
    rw [hextra] at hstream
    exact ⟨a, t', ha, hstream⟩
  · rintro ⟨rfl, h⟩ front back hms
    cases front with
    | nil => exact ⟨[], _, rfl, rfl⟩
    | cons m' front =>
      obtain ⟨rfl, htail⟩ := List.cons.inj hms
      obtain ⟨t, t', rfl, ht⟩ := h front back htail
      refine ⟨s₁ ++ .data buf ofs :: t, t', by simp, ?_⟩
      rw [stream_append, stream_cons, ← List.append_assoc,
        show stream s₁ ++ RecvResult.bytes (.data buf ofs) = m'.bytes ++ [] from hbuf,
        List.append_nil, ht]
      rfl

/-- The bytes of a message are one request, of the method and the resource that it has. -/
theorem exact_message (m : Message) (hm : m.Roomy) :
    ∃ o, Exact m.bytes o ∧ (o.request.requestMethod, o.request.requestResource) = m.asked ∧
      (o.request.requestMethod = lit "POST" → o.request.isMultipart = true →
        ∃ b, o.request.boundary? = some b ∧ b.length + 2056 ≤ 2 ^ 31) := by
  cases m with
  | get h isGet =>
    obtain ⟨o, hexact, hmethod, hresource, hplain⟩ := exact_head h (.inl isGet)
    refine ⟨o, hexact, Prod.ext hmethod hresource, fun hpost hmul => ?_⟩
    rw [hplain hpost] at hmul
    cases hmul
  | upload u =>
    have hb : u.boundary.length + 2056 ≤ 2 ^ 31 := hm
    obtain ⟨o, hexact, hstored⟩ := exact_upload u (by omega)
    exact ⟨o, hexact, Prod.ext hstored.method hstored.resource,
      fun _ _ => ⟨u.boundary, hstored.boundary, hb⟩⟩

/-- Requests are completed from their own first bytes exactly when they end where chunks end,
wherever the first of them begins. -/
theorem completedAt_iff_aligned {ms : List Message} (hm : ∀ m ∈ ms, m.Roomy) {s : List RecvResult}
    (hq : ∀ x ∈ s, x.Quiet) (hchunk : ∀ x ∈ s, x.bytes.length ≤ 2048)
    (hs : stream s = ms.flatMap Message.bytes) (p : ℕ) :
    completedAt p p (run s none).acts = Message.placed p ms ↔ Aligned ms s := by
  induction ms generalizing s p with
  | nil =>
    have hnone : completedAt p p (run s none).acts = [] := by
      rw [← List.map_eq_nil_iff (f := Prod.snd), completedAt_snd]
      obtain ⟨acts, hrun, hshows⟩ := run_quiet_start (fun x hx => (hq x hx).arrives)
        (by rw [hs]; decide) []
      rw [List.append_nil, run_nil] at hrun
      by_cases hnil : s = []
      · rw [hnil]
        rfl
      · rw [run_none hnil, hrun, Call.prepend_acts, List.append_nil, hshows.completed]
    rw [hnone]
    refine ⟨fun _ front back hms => ?_, fun _ => rfl⟩
    obtain ⟨rfl, rfl⟩ := List.append_eq_nil_iff.mp hms
    exact ⟨[], s, rfl, rfl⟩
  | cons m ms ih =>
    -- the run completes `m` in the chunk that holds its last byte
    obtain ⟨o, hexact, hasked, hbound⟩ := exact_message m (hm m List.mem_cons_self)
    obtain ⟨s₁, buf, ofs, s₂, extra, acts, rfl, hbuf, hlen, hrest, hrun, hshows⟩ :=
      run_exact hexact (fun x hx => (hq x hx).arrives)
        (fun hpost hmul => ⟨hq, hchunk, hbound hpost hmul⟩) hs
    rw [aligned_cons hbuf hlen, hrun, Call.prepend_acts, List.append_assoc, List.singleton_append,
      completedAt_append hshows.completed, hshows.received, List.length_append, Message.placed,
      hasked, List.cons.injEq]
    have hmem : ∀ x ∈ s₂, x ∈ s₁ ++ .data buf ofs :: s₂ := fun x hx =>
      List.mem_append_right _ (List.mem_cons_of_mem _ hx)
    by_cases hextra : extra = []
    · subst hextra
      rw [List.length_nil, Nat.add_zero]
      -- the chunk ends with `m`, and the rest of the run is that of the other messages
      have htail := ih (fun x hx => hm x (List.mem_cons_of_mem _ hx)) (fun x hx => hq x (hmem x hx))
        (fun x hx => hchunk x (hmem x hx)) hrest.symm (p + m.bytes.length)
      simpa using htail
    · -- the next request begins inside the chunk, and no `Request` does
      refine iff_of_false (fun ⟨_, htail⟩ => ?_) fun h => hextra h.1
      cases ms with
      | nil => exact hextra (List.append_eq_nil_iff.mp hrest.symm).1
      | cons m' ms =>
        have hhead : (p + m.bytes.length, m'.asked) ∈
            completedAt (p + (m.bytes.length + extra.length)) (p + (m.bytes.length + extra.length))
              (run s₂ none).acts := by
          rw [htail]
          exact List.mem_cons_self
        -- so the first `Request` behind begins later than `m'` does
        obtain ⟨q, hq', hsome⟩ := List.mem_filterMap.mp hhead
        obtain ⟨c, -, hc⟩ := Option.map_eq_some_iff.mp hsome
        have hle := start_le_of_mem_stamped le_rfl hq'
        have hplace : q.1 = p + m.bytes.length := congrArg Prod.fst hc
        have hpos := List.length_pos_of_ne_nil hextra
        omega

/-- **Pipelined requests.** Requests sent back to back are all completed, in order, each once and
from its own first byte, exactly when every one of them ends where a result of `recv` ends. -/
theorem pipeline_iff_aligned {ms : List Message} (hm : ∀ m ∈ ms, m.Roomy) {s : List RecvResult}
    (hq : ∀ x ∈ s, x.Quiet) (hchunk : ∀ x ∈ s, x.bytes.length ≤ 2048)
    (hs : stream s = ms.flatMap Message.bytes) :
    (completedAt 0 0 (run s none).acts = Message.placed 0 ms ↔ Aligned ms s) ∧
      (Aligned ms s → completed (run s none).acts = ms.map Message.asked) := by
  have hiff := completedAt_iff_aligned hm hq hchunk hs 0
  refine ⟨hiff, fun h => ?_⟩
  rw [← completedAt_snd 0 0, hiff.mpr h, Message.placed_snd]

/-- A `GET` without headers, for a resource that is a word. -/
def plainGet (resource : Bytes) (h : IsToken resource) : Message :=
  .get ⟨⟨lit "GET", resource, lit "HTTP/1.1", by decide, h, http_token⟩, [], nofun⟩ rfl

theorem pipeline_iff_aligned_pair :
    completed (run [.data (lit "GET /a HTTP/1.1\r\n\r\n") true, .again,
      .data (lit "GET /b HTTP/1.1\r\n") true, .data (lit "\r\n") true] none).acts =
        [(lit "GET", lit "/a"), (lit "GET", lit "/b")] := by
  refine (@pipeline_iff_aligned [plainGet (lit "/a") (by decide), plainGet (lit "/b") (by decide)]
    ?_ _ ?_ ?_ (by decide +kernel)).2 ?_
  · intro m hm
    simp only [List.mem_cons, List.not_mem_nil, or_false] at hm
    rcases hm with rfl | rfl <;> trivial
  · intro x hx
    simp only [List.mem_cons, List.not_mem_nil, or_false] at hx
    rcases hx with rfl | rfl | rfl | rfl
    · exact .data _ (by decide)
    · exact .again
    · exact .data _ (by decide)
    · exact .data _ (by decide)
  · intro x hx
    simp only [List.mem_cons, List.not_mem_nil, or_false] at hx
    rcases hx with rfl | rfl | rfl | rfl <;> decide +kernel
  · rintro (_ | ⟨a, _ | ⟨b, front⟩⟩) back h
    · exact ⟨[], _, rfl, rfl⟩
    · simp only [List.cons_append, List.cons.injEq] at h
      obtain ⟨rfl, -⟩ := h
      exact ⟨[_], _, rfl, by decide +kernel⟩
    · simp only [List.cons_append, List.cons.injEq, List.append_eq_nil_iff] at h
      obtain ⟨rfl, rfl, rfl, -⟩ := h
      exact ⟨_, [], List.append_nil _, by decide +kernel⟩

/-- Of two requests in one chunk the second is lost: it is erased with the first one's `Request`. -/
theorem pipelined_request_lost :
    ¬ ∀ (ms : List Message) (s : List RecvResult), (∀ m ∈ ms, m.Roomy) → (∀ x ∈ s, x.Quiet) →
      (∀ x ∈ s, x.bytes.length ≤ 2048) → stream s = ms.flatMap Message.bytes →
      completed (run s none).acts = ms.map Message.asked := by
  intro h
  have hlost : completed (run [.data (lit "GET /a HTTP/1.1\r\n\r\nGET /b HTTP/1.1\r\n\r\n") true]
      none).acts = [(lit "GET", lit "/a")] := by
    decide +kernel
  have hboth := h [plainGet (lit "/a") (by decide), plainGet (lit "/b") (by decide)]
    [.data (lit "GET /a HTTP/1.1\r\n\r\nGET /b HTTP/1.1\r\n\r\n") true]
    (by intro m hm; simp only [List.mem_cons, List.not_mem_nil, or_false] at hm
        rcases hm with rfl | rfl <;> trivial)
    (by intro x hx; rw [List.mem_singleton.mp hx]; exact .data _ (by decide))
    (by intro x hx; rw [List.mem_singleton.mp hx]; decide +kernel)
    (by decide +kernel)
  rw [hlost] at hboth
  exact absurd (congrArg List.length hboth) (by decide)

/-! ### Bodies that are not read -/

/-- A body behind a head is kept out of the requests behind it: no request line begins inside the
body, and one begins right behind it. -/
structure BodyIgnored (head body : ℕ) (acts : List Action) : Prop where
  ignored : ∀ p ∈ lineStarts 0 0 acts, p < head ∨ head + body ≤ p
  next : head + body ∈ lineStarts 0 0 acts

/-- The body arrives in the chunk that completes the head: behind that nothing comes. -/
def Delivered (head : Bytes) (s : List RecvResult) : Prop :=
  ∀ t t', t ++ t' = s → head.length ≤ (stream t).length → stream t' = []

/-- The body is delivered with its head when nothing comes behind the chunk that completes the
head. -/
theorem delivered_iff {head extra buf : Bytes} {ofs : Bool} {t a : List RecvResult}
    (hbuf : stream t ++ buf = head ++ extra) (hshort : (stream t).length < head.length) :
    Delivered head (t ++ .data buf ofs :: a) ↔ stream a = [] := by
  constructor
  · intro hd
    refine hd (t ++ [.data buf ofs]) a (by simp) ?_
    have hcut : stream (t ++ [.data buf ofs]) = head ++ extra := by
      rw [stream_append, stream_cons, stream_nil, List.append_nil]
      exact hbuf
    rw [hcut, List.length_append]
    omega
  · intro ha x x' hx hle
    obtain ⟨b, -, rfl⟩ := reaches_further hx (by omega)
    rw [stream_append] at ha
    exact (List.append_eq_nil_iff.mp ha).2

/-- **Bodies that are not read.** The bytes of a body stay out of the requests behind it, and the
next request is read from its own first byte, exactly when the whole body arrives in the chunk that
completes its request. -/
theorem body_ignored_iff_delivered (h : Head) (hc : h.Closes) {body : Bytes}
    (hlen : ∃ x ∈ h.headers, x.key = lit "Content-Length" ∧ decimal x.value = body.length)
    {s₁ s₂ : List RecvResult} (hq₁ : ∀ x ∈ s₁, x.Arrives) (hq₂ : ∀ x ∈ s₂, x.Arrives)
    (hs₁ : stream s₁ = h.bytes ++ body) (hs₂ : crlf <:+: stream s₂) :
    BodyIgnored h.bytes.length body.length (run (s₁ ++ s₂) none).acts ↔ Delivered h.bytes s₁ := by
  obtain ⟨o, hexact, -, -, hplain⟩ := exact_head h hc
  obtain ⟨t, buf, ofs, t', extra, acts, hcut, hbuf, hshort, hrest, hrun, hshows⟩ :=
    run_exact hexact (s := s₁ ++ s₂)
      (fun x hx => (List.mem_append.mp hx).elim (hq₁ x) (hq₂ x))
      (fun hpost hmul => by rw [hplain hpost] at hmul; cases hmul)
      (show stream (s₁ ++ s₂) = h.bytes ++ (body ++ stream s₂) by
        rw [stream_append, hs₁, List.append_assoc])
  obtain ⟨a, rfl, rfl⟩ := reaches_further hcut (by
    rw [hs₁, List.length_append]
    omega)
  -- what the completing chunk holds of the body, and what comes later
  have hbody : body = extra ++ stream a := by
    rw [stream_append, ← List.append_assoc] at hrest
    exact List.append_cancel_right hrest
  -- the log: the lines of the first request, its completion, and what is read behind it
  have hplace : (received acts).length = h.bytes.length + extra.length := by
    rw [hshows.received, List.length_append]
  have hstamped : stamped 0 0 (acts ++ .processed o.request.requestMethod
      o.request.requestResource :: (run (a ++ s₂) none).acts) = _ :=
    stamped_processed hshows.completed _ _ _
  rw [Nat.zero_add, hplace] at hstamped
  have hmem {p : ℕ} (hp : p ∈ lineStarts 0 0 (run ((t ++ .data buf ofs :: a) ++ s₂) none).acts) :
      p = 0 ∨ h.bytes.length + extra.length ≤ p := by
    obtain ⟨line, hp⟩ := mem_lineStarts.mp hp
    rw [hrun, Call.prepend_acts, List.append_assoc, List.singleton_append, hstamped,
      List.mem_append] at hp
    rcases hp with hp | hp
    · obtain ⟨x, -, hx⟩ := List.mem_map.mp hp
      exact .inl (congrArg Prod.fst hx).symm
    · exact .inr (start_le_of_mem_stamped le_rfl hp)
  have hnext : h.bytes.length + extra.length ∈
      lineStarts 0 0 (run ((t ++ .data buf ofs :: a) ++ s₂) none).acts := by
    obtain ⟨line, hline⟩ := mem_lineStarts.mp (run_reads_line (s := a ++ s₂)
      (fun x hx => (List.mem_append.mp hx).elim
        (fun hx => hq₁ x (List.mem_append_right _ (List.mem_cons_of_mem _ hx))) (hq₂ x))
      (by rw [stream_append]; exact hs₂.trans (List.suffix_append _ _).isInfix)
      (h.bytes.length + extra.length))
    refine mem_lineStarts.mpr ⟨line, ?_⟩
    rw [hrun, Call.prepend_acts, List.append_assoc, List.singleton_append, hstamped,
      List.mem_append]
    exact .inr hline
  rw [delivered_iff hbuf hshort]
  constructor
  · intro hi
    -- a chunk with more of the body would be read as a request line
    by_contra ha
    have hpos := List.length_pos_of_ne_nil ha
    have hlen := congrArg List.length hbody
    rw [List.length_append] at hlen
    have := hi.ignored _ hnext
    omega
  · intro ha
    have hlen := congrArg List.length hbody
    rw [ha, List.append_nil] at hlen
    refine ⟨fun p hp => ?_, by rw [hlen]; exact hnext⟩
    have hpos := List.length_pos_of_ne_nil hexact.ne_nil
    rcases hmem hp with rfl | hle
    · exact .inl hpos
    · exact .inr (by omega)

/-- A `GET` whose `Content-Length` announces a body of 28 bytes. -/
def headWithBody : Head where
  line := ⟨lit "GET", lit "/", lit "HTTP/1.1", by decide, slash_token, http_token⟩
  headers := [⟨lit "Content-Length", lit "28", contentLength_token, by decide⟩]
  headers_accepted := by decide +kernel

/-- A body of 28 bytes that is itself a request. -/
def requestAsBody : Bytes := lit "GET /delete/a HTTP/1.1\r\nX: y"

theorem body_ignored_iff_delivered_whole :
    BodyIgnored headWithBody.bytes.length requestAsBody.length
      (run ([.data (headWithBody.bytes ++ requestAsBody) true] ++
        [.again, .data (lit "GET /b HTTP/1.1\r\n\r\n") true]) none).acts := by
  refine (body_ignored_iff_delivered headWithBody (.inl rfl) ?_ ?_ ?_ (List.append_nil _) ?_).mpr ?_
  · exact ⟨_, List.mem_cons_self, rfl, by decide⟩
  · intro x hx
    rw [List.mem_singleton.mp hx]
    exact .data _ _ (by decide +kernel)
  · intro x hx
    simp only [List.mem_cons, List.not_mem_nil, or_false] at hx
    rcases hx with rfl | rfl
    · exact .again
    · exact .data _ _ (by decide)
  · decide +kernel
  · rintro (_ | ⟨x, t⟩) t' ht hle
    · exact absurd hle (by decide +kernel)
    · simp only [List.cons_append, List.cons.injEq, List.append_eq_nil_iff] at ht
      rw [ht.2.2]
      rfl

/-- A body that arrives behind its head is read as a request, and the next request begins inside
it. -/
theorem body_read_as_request :
    ¬ ∀ (h : Head) (body : Bytes) (s₁ s₂ : List RecvResult), h.Closes →
      (∃ x ∈ h.headers, x.key = lit "Content-Length" ∧ decimal x.value = body.length) →
      (∀ x ∈ s₁, x.Arrives) → (∀ x ∈ s₂, x.Arrives) → stream s₁ = h.bytes ++ body →
      crlf <:+: stream s₂ → BodyIgnored h.bytes.length body.length (run (s₁ ++ s₂) none).acts := by
  intro h
  have hread : headWithBody.bytes.length ∈ lineStarts 0 0
      (run ([.data headWithBody.bytes true, .data requestAsBody true] ++
        [.data (lit "GET /b HTTP/1.1\r\n\r\n") true]) none).acts := by
    decide +kernel
  have hignored :=
    (h headWithBody requestAsBody [.data headWithBody.bytes true, .data requestAsBody true]
    [.data (lit "GET /b HTTP/1.1\r\n\r\n") true] (.inl rfl)
    ⟨_, List.mem_cons_self, rfl, by decide⟩ ?_ ?_ (by simp [RecvResult.bytes]) ?_).ignored _ hread
  · exact absurd hignored (by decide +kernel)
  · intro x hx
    simp only [List.mem_cons, List.not_mem_nil, or_false] at hx
    rcases hx with rfl | rfl
    · exact .data _ _ (by decide +kernel)
    · exact .data _ _ (by decide)
  · intro x hx
    rw [List.mem_singleton.mp hx]
    exact .data _ _ (by decide)
  · decide +kernel

end HandleRecv

end Cherokee
