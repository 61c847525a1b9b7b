import Cherokee.Dispatch

/-!
# What a response head says

The optional lines of a head are chosen by position: `getMessageHeader` takes the length, the type,
the address of a redirection and the range, the last two with the default `""`. The list page and
the answer to an upload pass neither, and the redirection passes `/` in the third place. A download
passes the last position of the file in the third place too, where the fourth is meant: its head has
a `Location`, no `Content-Range`, and, since the position is computed in `unsigned long`, the
largest number of all for an empty file.

* `HandleSend.built_reply`: every response that is built is one of the four replies, and a file
  exactly for a download.
* `HandleSend.head_describes_iff`: its head describes it exactly when it is not a download.
-/

namespace Cherokee

/-! ### The lines of a head -/

/-- The lines of a head, without their line ends; what stands behind the last line end is one
more. -/
def headLines : Bytes → List Bytes
  | [] => [[]]
  | 13 :: 10 :: rest => [] :: headLines rest
  | c :: rest =>
    match headLines rest with
    | [] => [[c]]
    | l :: lines => (c :: l) :: lines

/-- The first line of a head. -/
theorem headLines_line {l : Bytes} (h : cr ∉ l) (rest : Bytes) :
    headLines (l ++ (cr :: lf :: rest)) = l :: headLines rest := by
  induction l with
  | nil =>
    rw [List.nil_append]
    exact headLines.eq_2 rest
  | cons c l ih =>
    have hc : c ≠ 13 := fun hc => h (hc ▸ List.mem_cons_self)
    rw [List.cons_append, headLines.eq_3 c _ (fun _ hcr => absurd hcr hc),
      ih fun hm => h (List.mem_cons_of_mem c hm)]

/-- A head has the lines it is made of, and the blank one. -/
theorem headLines_headOf {lines : List Bytes} (h : ∀ l ∈ lines, cr ∉ l) :
    headLines (headOf lines) = lines ++ [[], []] := by
  induction lines with
  | nil => rfl
  | cons l lines ih =>
    rw [headOf_cons, headLines_line (h l List.mem_cons_self),
      ih fun x hx => h x (List.mem_cons_of_mem l hx), List.cons_append]

namespace Reply

/-- The reply is a file. -/
def IsFile : Reply → Prop
  | file _ _ => True
  | _ => False

/-- The lines of the head of a reply. -/
def headLines : Reply → List Bytes
  | page body => lit "HTTP/1.1 200 OK" ::
      (lit "Content-Length: " ++ toDecimal body.length) :: HandleSend.htmlLines none
  | file _ size => lit "HTTP/1.1 200 OK" :: (lit "Content-Length: " ++ toDecimal size) ::
      HandleSend.fileLines (toDecimal (toSize ((size : ℤ) - 1)))
  | stored => lit "HTTP/1.1 200 OK" :: lit "Content-Length: 0" :: HandleSend.htmlLines none
  | redirect => lit "HTTP/1.1 302 Moved Temporarily" :: lit "Content-Length: 0" ::
      HandleSend.htmlLines (some (lit "/"))

theorem head_eq_headOf (a : Reply) : a.head = headOf a.headLines := by
  cases a <;> rfl

theorem cr_not_mem_toDecimal (n : ℕ) : cr ∉ toDecimal n := fun hm =>
  absurd (toDecimal_isDigits n cr hm) (by decide)

/-- No line of a head holds a carriage return. -/
theorem headLines_clear (a : Reply) : ∀ l ∈ a.headLines, cr ∉ l := by
  -- a literal, or a literal and a number
  have hnumber (name : Bytes) (hname : cr ∉ name) (n : ℕ) : cr ∉ name ++ toDecimal n := by
    rw [List.mem_append, not_or]
    exact ⟨hname, cr_not_mem_toDecimal n⟩
  cases a with
  | page body =>
    refine List.forall_mem_cons.mpr ⟨by decide, List.forall_mem_cons.mpr ⟨?_, by decide⟩⟩
    exact hnumber _ (by decide) _
  | file fd size =>
    refine List.forall_mem_cons.mpr ⟨by decide, List.forall_mem_cons.mpr ⟨?_, ?_⟩⟩
    · exact hnumber _ (by decide) _
    · refine List.forall_mem_cons.mpr ⟨by decide, List.forall_mem_cons.mpr ⟨?_, by decide⟩⟩
      exact hnumber _ (by decide) _
  | stored => decide
  | redirect => decide

end Reply

namespace HandleSend

/-- What the head of a response is to say: a `Location` exactly in a redirection, the range of a
file that is not empty, and no bound below zero. -/
structure Describes (q : Response) : Prop where
  location : (∃ l ∈ headLines q.beforeBodyMsg, lit "Location:" <+: l) ↔
    lit "HTTP/1.1 302 " <+: q.beforeBodyMsg
  range : q.bodyType = .fileType → 0 < q.msgBodyLen →
    lit "Content-Range: 0-" ++ toDecimal (q.msgBodyLen - 1) ∈ headLines q.beforeBodyMsg
  unwrapped : q.bodyType = .fileType → q.msgBodyLen = 0 →
    ∀ l ∈ headLines q.beforeBodyMsg, ¬ toDecimal (toSize (0 - 1)) <:+ l

/-! ### Every response that is built -/

/-- The stage has built the response as one of the replies, a file exactly for a download. -/
def Answers (r q : Response) : Prop :=
  ∃ a : Reply, a.In q ∧
    (a.IsFile ↔ ∃ filename, splitResource r.bodyFileName = .ok (lit "downl", filename))

/-- The branches build an answer, or none. -/
theorem operaStage_answers (w : World) (request : Option Request) (r : Response) :
    (∃ q r' files, operaStage w request r = built q r' files ∧ (∀ a ∈ files, a.Preparing) ∧
      Answers r r') ∨
    ((operaStage w request r).flow ≠ .proceed ∧
      ∀ a ∈ (operaStage w request r).acts, a.constructed = none) := by
  -- an operation other than `downl`
  have hother {opera filename : Bytes} (hsplit : splitResource r.bodyFileName =
    .ok (opera, filename))
      (hne : opera ≠ lit "downl") {a : Reply} (ha : ¬ a.IsFile) :
      a.IsFile ↔ ∃ filename, splitResource r.bodyFileName = .ok (lit "downl", filename) := by
    refine ⟨fun h => absurd h ha, ?_⟩
    rintro ⟨filename', h⟩
    rw [hsplit] at h
    exact absurd (congrArg Prod.fst (Except.ok.inj h)) hne
  cases hsplit : splitResource r.bodyFileName with
  | error f =>
    rw [operaStage_of_error hsplit]
    exact .inr ⟨nofun, nofun⟩
  | ok p =>
    obtain ⟨opera, filename⟩ := p
    have hend := operaStage_ends hsplit w request
    generalize operaStage w request r = stage at hend
    cases hend with
    | page root page r' reply =>
      exact .inl ⟨_, r', [], rfl, nofun, _, reply, hother hsplit (by rw [root]; decide) fun h => h⟩
    | file downl fd size r' reply =>
      refine .inl ⟨_, r', _, rfl, List.forall_mem_singleton.mpr trivial, _, reply, ?_⟩
      exact ⟨fun _ => ⟨filename, by rw [hsplit, downl]⟩, fun _ => trivial⟩
    | stores put opens r' reply =>
      refine .inl ⟨_, r', _, rfl, fun a ha => ?_, _, reply,
        hother hsplit (by rw [put]; decide) fun h => h⟩
      simp only [List.mem_cons, List.not_mem_nil, or_false] at ha
      rcases ha with rfl | rfl <;> trivial
    | redirects other r' reply =>
      have hdownl : opera ≠ lit "downl" := by
        rintro rfl
        exact other (by decide)
      exact .inl ⟨_, r', [], rfl, nofun, _, reply, hother hsplit hdownl fun h => h⟩
    -- the other ways lead to no response
    | unlisted => exact .inr ⟨nofun, nofun⟩
    | missing => exact .inr ⟨nofun, by simp [reenter, Action.constructed]⟩
    | removes => exact .inr ⟨nofun, by simp [reenter, Action.constructed]⟩
    | unstored => exact .inr ⟨nofun, by simp [reenter, Action.constructed]⟩

/-- **Every response that is built** is one of the four replies. -/
theorem built_reply {w : World} {results : List SendResult} {request : Option Request}
    {r q : Response} (init : r.status = .handleInit)
    (hq : .built q ∈ (process w results request (some r)).acts) : Answers r q := by
  rcases operaStage_answers w request r with ⟨p, r', files, hstage, hfiles, ha⟩ | ⟨hflow, hacts⟩
  · obtain ⟨a, hin, hfile⟩ := ha
    obtain ⟨later, hacts, hlater, -, -⟩ := process_built results init hstage hin.status
    rw [hacts] at hq
    simp only [List.cons_append, List.mem_cons, reduceCtorEq, List.mem_append, Action.built.injEq,
      false_or] at hq
    rcases hq with hq | rfl | hq
    · cases preparing_constructed hfiles _ hq
    · exact ⟨a, hin, hfile⟩
    · cases (hlater _ hq).constructed
  · -- the call leaves in front of the send loop
    have hall : (process w results request (some r)).acts =
        .dispatch r.bodyFileName :: (operaStage w request r).acts := by
      cases hs : (operaStage w request r).flow with
      | proceed => exact absurd hs hflow
      | leave =>
        rw [process_leave (initStage_of_init init) hs]
        rfl
      | crash f =>
        rw [process_crash (initStage_of_init init) hs]
        rfl
    rw [hall] at hq
    rcases List.mem_cons.mp hq with hq | hq
    · cases hq
    · cases hacts _ hq

/-! ### Heads -/

/-- The lines of the head of a response that has been built. -/
theorem headLines_of_in {a : Reply} {q : Response} (h : a.In q) :
    headLines q.beforeBodyMsg = a.headLines ++ [[], []] := by
  rw [h.head, a.head_eq_headOf, headLines_headOf a.headLines_clear]

/-- A line that begins otherwise than `p` does not begin with `p`. -/
theorem not_isPrefix_of_head? {p l : Bytes} (hp : p ≠ []) (h : l.head? ≠ p.head?) : ¬ p <+: l := by
  rintro ⟨t, rfl⟩
  obtain ⟨c, p, rfl⟩ := List.exists_cons_of_ne_nil hp
  exact h rfl

/-- The status of a head stands in its first line. -/
theorem status_isPrefix_iff {p line : Bytes} (h : p.length ≤ line.length) (lines : List Bytes) :
    p <+: headOf (line :: lines) ↔ p <+: line := by
  have hline : line <+: headOf (line :: lines) := by
    rw [headOf_cons]
    exact List.prefix_append _ _
  exact ⟨fun hp => List.prefix_of_prefix_length_le hp hline h, fun hp => hp.trans hline⟩

/-- Only the head of a file has a range. -/
theorem describes_of_not_file {q : Response} (hbody : q.bodyType ≠ .fileType)
    (hloc : (∃ l ∈ headLines q.beforeBodyMsg, lit "Location:" <+: l) ↔
      lit "HTTP/1.1 302 " <+: q.beforeBodyMsg) : Describes q :=
  ⟨hloc, fun h => absurd h hbody, fun h => absurd h hbody⟩

/-- A reply describes itself, but for a file: its head has a `Location` and the status `200`. -/
theorem describes_iff {a : Reply} {q : Response} (h : a.In q) : Describes q ↔ ¬ a.IsFile := by
  have hlines := headLines_of_in h
  have hstatus := h.head.trans a.head_eq_headOf
  have hbody := h.body
  cases a with
  | page body =>
    have hnot : q.bodyType ≠ .fileType := by
      rw [hbody.1]
      exact nofun
    refine ⟨fun _ hfile => hfile, fun _ => describes_of_not_file hnot (iff_of_false ?_ ?_)⟩
    · rw [hlines]
      rintro ⟨l, hl, hpre⟩
      simp only [Reply.headLines, htmlLines, Option.map_none, Option.toList_none,
        List.cons_append, List.nil_append, List.mem_cons, List.not_mem_nil, or_false] at hl
      -- no line of a page begins with an `L`
      refine not_isPrefix_of_head? (by decide) ?_ hpre
      rcases hl with rfl | rfl | rfl | rfl | rfl | rfl
      · decide
      · change some 67 ≠ _
        decide
      all_goals decide
    · rw [hstatus, Reply.headLines, status_isPrefix_iff (by decide)]
      decide
  -- an answer to a `PUT` has no body, no `Location` and no redirecting status
  | stored =>
    have hnot : q.bodyType ≠ .fileType := by
      rw [show q.bodyType = .emptyType from hbody]
      exact nofun
    refine ⟨fun _ hfile => hfile, fun _ => describes_of_not_file hnot (iff_of_false ?_ ?_)⟩
    · rw [hlines]
      decide
    · rw [hstatus, Reply.headLines, status_isPrefix_iff (by decide)]
      decide
  -- a redirect has both the address and the status
  | redirect =>
    have hnot : q.bodyType ≠ .fileType := by
      rw [show q.bodyType = .emptyType from hbody]
      exact nofun
    refine ⟨fun _ hfile => hfile, fun _ => describes_of_not_file hnot (iff_of_true ?_ ?_)⟩
    · rw [hlines]
      decide
    · rw [hstatus, Reply.headLines, status_isPrefix_iff (by decide)]
      decide
  | file fd size =>
    refine ⟨fun hdesc _ => ?_, fun hnot => absurd trivial hnot⟩
    -- the third argument is the address of a redirection
    have hloc : ∃ l ∈ headLines q.beforeBodyMsg, lit "Location:" <+: l := by
      refine ⟨lit "Location: " ++ toDecimal (toSize ((size : ℤ) - 1)), ?_, _, rfl⟩
      rw [hlines]
      simp [Reply.headLines, fileLines]
    have hredirects := hdesc.location.mp hloc
    rw [hstatus, Reply.headLines, status_isPrefix_iff (by decide)] at hredirects
    exact absurd hredirects (by decide)

/-- **A head describes its response exactly when it is not the head of a download.** Take any call
that builds a response `q` for a new entry `r`. A download of any size has a `Location` without
being a redirection; no other response is wrong. -/
theorem head_describes_iff {w : World} {results : List SendResult} {request : Option Request}
    {r q : Response} (init : r.status = .handleInit)
    (hq : .built q ∈ (process w results request (some r)).acts) :
    (Describes q ↔ ∀ filename, splitResource r.bodyFileName ≠ .ok (lit "downl", filename)) ∧
      ∀ filename, splitResource r.bodyFileName = .ok (lit "downl", filename) →
        headLines q.beforeBodyMsg =
          [lit "HTTP/1.1 200 OK", lit "Content-Length: " ++ toDecimal q.msgBodyLen,
            lit "Content-Type: application/octet-stream",
            lit "Location: " ++ toDecimal (toSize ((q.msgBodyLen : ℤ) - 1)),
            lit "Connection: keep-alive", [], []] := by
  obtain ⟨a, hin, hfile⟩ := built_reply init hq
  constructor
  · rw [describes_iff hin, hfile, not_exists]
  · intro filename hsplit
    have hlines := headLines_of_in hin
    have hbody := hin.body
    cases a with
    | file fd size =>
      rw [hlines, hbody.2.2]
      rfl
    | page body => exact (hfile.mpr ⟨filename, hsplit⟩).elim
    | stored => exact (hfile.mpr ⟨filename, hsplit⟩).elim
    | redirect => exact (hfile.mpr ⟨filename, hsplit⟩).elim

/-- A resource that is redirected. -/
def elsewhere : Response :=
  { Response.init sampleWorld.fresh with bodyFileName := lit "/redirect" }

theorem head_describes_iff_redirect : Describes (redirectStage none elsewhere).response :=
  (@head_describes_iff sampleWorld [] none elsewhere _ rfl (by decide +kernel)).1.mpr
    fun filename h =>
      absurd (congrArg Prod.fst (Except.ok.inj
        ((show splitResource (lit "/redirect") = .ok (lit "redirect", []) by decide).symm.trans h)))
        (show lit "redirect" ≠ lit "downl" by decide)

/-- The download of an empty file is sent to the end of a file of all the sizes there are. -/
theorem head_of_download :
    ¬ ∀ (w : World) (results : List SendResult) (request : Option Request) (r q : Response),
      r.status = .handleInit → .built q ∈ (process w results request (some r)).acts →
      Describes q := by
  intro h
  let r : Response := { Response.init emptyFiles.fresh with bodyFileName := lit "/downl/a.txt" }
  have hdesc :=
    h emptyFiles [] none r (operaStage emptyFiles none r).response rfl (by decide +kernel)
  have hbound : lit "Location: 18446744073709551615" ∈
      headLines (operaStage emptyFiles none r).response.beforeBodyMsg := by decide +kernel
  have hstatus :
    ¬ lit "HTTP/1.1 302 " <+: (operaStage emptyFiles none r).response.beforeBodyMsg := by
    decide +kernel
  exact hstatus (hdesc.location.mp ⟨_, hbound, by decide⟩)

end HandleSend

end Cherokee
