import Cherokee.Absorb

/-!
# The content of an upload, chunk by chunk

While an upload is in `FILE_CONTENT`, every chunk goes behind `recvMsg` and the content loop runs.
Together the runs are one scan of all the chunks for the final delimiter
(`HandleRecv.streamContent_eq_scan`): the status becomes `FILE_COMPLETE` with the first chunk that
brings the delimiter, what stood before it has been written, and until then nothing is lost and
nothing written that may begin it (`HandleRecv.content_streams`).

The lengths of the loop are `int`s. A boundary so long that the length of the delimiter is not exact
leaves room for too few bytes to hold it, and the loop waits as the scan does (`contentTurn_short`).
-/

open Search DelimScan

namespace Cherokee

namespace HandleRecv

open Request

/-! ### The content loop within an `int` -/

/-- With a delimiter too long for an `int`, and for the bytes there are, a turn scans. -/
theorem contentTurn_short {b m : Bytes} (hb : 2 ^ 31 ≤ b.length + 8)
    (hm : b.length + m.length < 2 ^ 31) : TurnScans b m := by
  intro written
  -- the length of the delimiter overflows to a negative `int`, and that is a huge `size_t`
  have hwide : ∀ n, n ≤ m.length → ¬ toSize (toInt (b.length + 8)) ≤ n := by
    intro n hn
    rw [toInt_of_wide hb (by omega)]
    unfold toSize
    omega
  unfold contentTurn
  simp only [toInt_of_lt (show m.length < 2 ^ 31 by omega), lit_cr, find_zero]
  by_cases h0 : m = []
  · subst h0
    exact .inl ⟨rfl, rfl⟩
  have hpos := List.length_pos_of_ne_nil h0
  rw [if_neg (by omega)]
  cases hfind : firstAt [cr] m with
  | none =>
    -- no `'\r'`: everything is saved
    have hno := firstAt_singleton_eq_none_iff.mp hfind
    exact .inr (.inr ⟨m.length, save_inl written m hpos, scan_take b (by rwa [List.take_length])⟩)
  | some e =>
    obtain ⟨hno, t, ht⟩ := firstAt_singleton_spec hfind
    have helen : e < m.length := by
      have := firstAt_length_le hfind
      simp only [List.length_cons, List.length_nil] at this
      omega
    simp only [toInt_of_lt (show e < 2 ^ 31 by omega)]
    rw [if_neg (hwide _ (Nat.sub_le _ _))]
    by_cases he : e = 0
    · -- what begins with `'\r'` is too short to be decided
      subst he
      rw [if_pos rfl]
      refine .inl ⟨rfl, ?_⟩
      rw [List.drop_zero] at ht
      have hshort : (cr :: t).length < (delimiter b).length := by
        rw [← ht, delimiter_length]
        omega
      rw [ht]
      exact scan_cons_of_short (delimiter_head? b) hshort
    · rw [if_neg he]
      -- what stands in front of the `'\r'` is saved
      exact .inr (.inr ⟨e, save_inl written m (Nat.pos_of_ne_zero he), scan_take b hno⟩)

/-- **The content loop is the scan**, when boundary and buffer together are shorter than
`2 ^ 31`. -/
theorem contentLoop_eq_scan_of_add {b m : Bytes} (h : b.length + m.length < 2 ^ 31) :
    contentLoop (some b) m =
      ⟨(scan (delimiter b) m).released, (scan (delimiter b) m).held,
        if (scan (delimiter b) m).found then .complete else .wait⟩ := by
  refine contentLoop_of_turns fun m' hs => ?_
  have hlen := hs.length_le
  by_cases hb : b.length + 8 < 2 ^ 31
  · exact contentTurn_scan hb (by omega)
  · exact contentTurn_short (by omega) (by omega)

/-! ### Chunks -/

/-- What the content stage leaves: the request, the bytes written to its file so far, and whether
the receive loop goes on. -/
structure Streamed where
  request : Request
  written : Bytes
  flow : Flow

/-- One more chunk, received while the request is in `FILE_CONTENT`. -/
def streamTurn (s : Streamed) (chunk : Bytes) : Streamed :=
  if s.request.fileMsgStatus = .fileContent then
    let t := contentStage true (s.request.push chunk)
    ⟨t.request, s.written ++ appendedTo s.request.uploadPath t.acts, t.flow⟩
  else s

/-- The chunks one after the other. -/
def streamContent (r : Request) (chunks : List Bytes) : Streamed :=
  chunks.foldl streamTurn ⟨r, [], .again⟩

theorem streamContent_append (r : Request) (done : List Bytes) (chunk : Bytes) :
    streamContent r (done ++ [chunk]) = streamTurn (streamContent r done) chunk :=
  List.foldl_append

/-- The content stage on a chunk, by the scan of what is held and the chunk. -/
theorem contentStage_scan {r : Request} {b : Bytes} (hf : r.fileMsgStatus = .fileContent)
    (hb : r.boundary? = some b) (hlen : b.length + r.recvMsg.length < 2 ^ 31) :
    contentStage true r =
      if (scan (delimiter b) r.recvMsg).found then
        (complete { r with
          recvMsg := (scan (delimiter b) r.recvMsg).held, fileMsgStatus := .fileComplete }
          (lit "/redirect")).prepend
            [.openAppend r.uploadPath true,
              .append r.uploadPath (scan (delimiter b) r.recvMsg).released]
      else ⟨r.withMsg (scan (delimiter b) r.recvMsg).held,
        [.openAppend r.uploadPath true,
          .append r.uploadPath (scan (delimiter b) r.recvMsg).released],
        .again⟩ := by
  rw [contentStage, if_pos hf, if_pos rfl, hb, contentLoop_eq_scan_of_add hlen]
  cases hfound : (scan (delimiter b) r.recvMsg).found with
  | true => rfl
  | false => rfl

/-- A turn scans the chunk behind what is held. -/
theorem streamTurn_scan {s : Streamed} {chunk b : Bytes}
    (hf : s.request.fileMsgStatus = .fileContent) (hb : s.request.boundary? = some b)
    (hlen : b.length + (s.request.recvMsg ++ chunk).length < 2 ^ 31) :
    streamTurn s chunk =
      let t := scan (delimiter b) (s.request.recvMsg ++ chunk)
      if t.found then
        ⟨{ s.request with
          recvMsg := t.held, fileMsgStatus := .fileComplete, status := .handleComplete },
          s.written ++ t.released, .leave⟩
      else ⟨s.request.withMsg t.held, s.written ++ t.released, .again⟩ := by
  have hstage := contentStage_scan (r := s.request.push chunk) hf hb hlen
  rw [streamTurn, if_pos hf, hstage]
  dsimp only
  rw [show (s.request.push chunk).recvMsg = s.request.recvMsg ++ chunk from rfl]
  split
  · simp [complete, Turn.prepend, Action.appendedTo, Request.push, Request.withMsg,
      Request.uploadPath]
  · simp [Action.appendedTo, Request.push, Request.withMsg, Request.uploadPath]

/-- **Until the delimiter has arrived the runs are one scan of all the chunks.** -/
theorem streamContent_eq_scan {r : Request} {b : Bytes} (hf : r.fileMsgStatus = .fileContent)
    (hb : r.boundary? = some b) (hm : r.recvMsg = []) (chunks : List Bytes)
    (hlen : b.length + chunks.flatten.length < 2 ^ 31)
    (hnone : ¬ delimiter b <:+: chunks.flatten) :
    streamContent r chunks =
      ⟨r.withMsg (scan (delimiter b) chunks.flatten).held,
        (scan (delimiter b) chunks.flatten).released, .again⟩ := by
  -- one more chunk is scanned behind what was held, and `scan_append` makes that one scan
  induction chunks using List.reverseRecOn with
  | nil =>
    have hself : r.withMsg [] = r := by rw [← hm, withMsg_self]
    rw [List.flatten_nil, scan_nil, hself]
    rfl
  | append_singleton done chunk ih =>
    rw [List.flatten_concat] at hnone hlen ⊢
    -- the delimiter has not been complete before this chunk either
    have hdone : ¬ delimiter b <:+: done.flatten := fun h =>
      hnone (h.trans (List.prefix_append _ _).isInfix)
    have hfound := fun s => not_congr (scan_found_iff (delimiter_ne_nil b) s)
    have hheld := congrArg List.length (scan_released_append_held (delimiter b) done.flatten)
    rw [List.length_append] at hlen hheld
    rw [streamContent_append, ih (by omega) hdone,
      streamTurn_scan (show _ = _ from hf) (show _ = _ from hb)
        (by rw [withMsg_recvMsg, List.length_append]; omega)]
    -- two scans, one behind what the other has held, are the scan of both
    have happ := scan_append (D := delimiter b) done.flatten chunk
      (by simpa using (hfound _).mpr hdone)
    have hno := (hfound _).mpr hnone
    rw [happ, Result.releaseAll_found] at hno
    rw [happ]
    dsimp only [withMsg_recvMsg]
    rw [if_neg hno]
    rfl

/-- **Scanning in chunks is searching the stream.** As long as the chunks received do not contain
the final delimiter, the upload stays in `FILE_CONTENT`, no byte of them is lost, and what is kept
back is empty or begins with `'\r'` and is shorter than the delimiter. With the first chunk that
brings the delimiter the status becomes `FILE_COMPLETE`, what has been written is what stands before
its first occurrence, and the rest is kept. -/
theorem content_streams {r : Request} {b : Bytes} (hf : r.fileMsgStatus = .fileContent)
    (hb : r.boundary? = some b) (hm : r.recvMsg = []) (done : List Bytes) (chunk : Bytes)
    (hlen : b.length + (done ++ [chunk]).flatten.length < 2 ^ 31)
    (hnone : ¬ delimiter b <:+: done.flatten) :
    (streamContent r done).request.fileMsgStatus = .fileContent ∧
      (streamContent r done).flow = .again ∧
      (streamContent r done).written ++ (streamContent r done).request.recvMsg = done.flatten ∧
      ((streamContent r done).request.recvMsg = [] ∨
        (streamContent r done).request.recvMsg.head? = some cr ∧
          (streamContent r done).request.recvMsg.length < (delimiter b).length) ∧
    (delimiter b <:+: (done ++ [chunk]).flatten →
      (streamContent r (done ++ [chunk])).request.fileMsgStatus = .fileComplete ∧
      (streamContent r (done ++ [chunk])).flow = .leave ∧
      (streamContent r (done ++ [chunk])).written ++
        (streamContent r (done ++ [chunk])).request.recvMsg = (done ++ [chunk]).flatten ∧
      delimiter b <+: (streamContent r (done ++ [chunk])).request.recvMsg ∧
      ∀ j < (streamContent r (done ++ [chunk])).written.length,
        ¬ delimiter b <+: (done ++ [chunk]).flatten.drop j) := by
  have hD := delimiter_ne_nil b
  rw [List.flatten_concat] at hlen ⊢
  have hadd : (done.flatten ++ chunk).length = done.flatten.length + chunk.length :=
    List.length_append
  -- the chunks before the last leave what a scan of them leaves
  have hstate := streamContent_eq_scan hf hb hm done (by omega) hnone
  have hdone : (scan (delimiter b) done.flatten).found = false := by
    rw [← Bool.not_eq_true, scan_found_iff hD]
    exact hnone
  have hheld := scan_released_append_held (delimiter b) done.flatten
  rw [streamContent_append, hstate]
  refine ⟨hf, rfl, hheld, ?_, fun hin => ?_⟩
  -- what is held back begins like the delimiter, with a carriage return, and is shorter
  · have hkept := scan_held_of_not_found hdone
    rwa [delimiter_head?] at hkept
  · -- the last chunk completes the delimiter: the scan of it is the scan of the whole stream
    have hall := scan_append (D := delimiter b) done.flatten chunk hdone
    have hfound := (scan_found_iff hD _).mpr hin
    have hrest := scan_found_isPrefix hfound
    have hfirst := fun j => scan_not_prefix_of_lt (j := j) (s := done.flatten ++ chunk) hD
    have hsplit := scan_released_append_held (delimiter b) (done.flatten ++ chunk)
    -- the lengths that the last turn works with, which fit an `int`
    have hlens := congrArg List.length hheld
    rw [List.length_append] at hlens
    rw [streamTurn_scan (show _ = _ from hf) (show _ = _ from hb)
      (by rw [withMsg_recvMsg, List.length_append]; omega)]
    rw [hall] at hfound hrest hfirst hsplit
    simp only [Result.releaseAll_found] at hfound
    dsimp only [withMsg_recvMsg]
    rw [if_pos hfound]
    exact ⟨rfl, rfl, hsplit, hrest, fun j => hfirst j⟩

/-- A request whose content is being received. -/
def receivingContent : Request :=
  { Request.init.setHeader (lit "boundary") (lit "z") with fileMsgStatus := .fileContent }

/-- A delimiter cut by a chunk border, behind a false start. -/
theorem content_streams_cut :
    let r := receivingContent
    let done := [lit "a\r\rb\r\n--"]
    let chunk := lit "z--\r\nc"
    (streamContent r done).request.fileMsgStatus = .fileContent ∧
      delimiter (lit "z") <+: (streamContent r (done ++ [chunk])).request.recvMsg :=
  have h := content_streams (r := receivingContent) (b := lit "z") rfl rfl rfl [lit "a\r\rb\r\n--"]
    (lit "z--\r\nc") (by decide) (by decide)
  ⟨h.1, (h.2.2.2.2 (by decide)).2.2.2.1⟩

end HandleRecv

end Cherokee
