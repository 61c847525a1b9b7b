import Cherokee.Dispatch

/-!
# The loops of the file list page

`HandleSend::getFileListPage` copies the template up to its label line, writes the rows, and copies
what is left. `HandleSend.getFileListPage` gives the result; here are its two loops, one turn at a
time (`labelTurn`, `restTurn`), on the stream they share.

Only the second loop tests whether `getline` has read something. The first one tests the line alone,
so that behind the end of the template it goes on with a line that does not change any more.

* `HandleSend.pageLoops_of_label`: with a label line the loops return the page.
* `HandleSend.pageLoops_of_no_label`: without one they do not return.
* `HandleSend.page_produced_iff`: the page is produced exactly when a line of the template is the
  label.
-/

open Search

namespace Cherokee

namespace HandleSend

/-! ### The loops -/

/-- `std::ifstream` on a file; one that does not open has `failbit` set. -/
def openStream (page : Option Bytes) : IStringStream :=
  match page with
  | some content => ⟨content, true⟩
  | none => ⟨[], false⟩

/-- What the loops work on. -/
structure PageState where
  fileListStream : IStringStream
  tempLine : Bytes
  fileListHtml : Bytes

/-- `getline(fileListStream, tempLine)` -/
def PageState.getline (s : PageState) : PageState :=
  let (tempLine, fileListStream) := s.fileListStream.getline s.tempLine
  { s with fileListStream, tempLine }

theorem PageState.getline_fileListStream (s : PageState) :
    s.getline.fileListStream = (s.fileListStream.getline s.tempLine).2 := rfl

theorem PageState.getline_tempLine (s : PageState) :
    s.getline.tempLine = (s.fileListStream.getline s.tempLine).1 := rfl

/-- `fileListHtml += tempLine + "\n"` -/
def PageState.append (s : PageState) : PageState :=
  { s with fileListHtml := s.fileListHtml ++ (s.tempLine ++ lit "\n") }

/-- A turn of the loop in front of the rows. -/
def labelTurn (s : PageState) : PageState ⊕ PageState :=
  let s := s.getline
  if s.tempLine = filelistLabel then .inr s else .inl s.append

/-- The row of every file. -/
def appendRows (fileVec : List Bytes) (s : PageState) : PageState :=
  { s with fileListHtml := s.fileListHtml ++ fileVec.flatMap fileRow }

/-- `failbit` is not set by the next `getline`: something is left to read. -/
def getlineOk (stream : IStringStream) : Bool := stream.good && stream.rest ≠ []

/-- A turn of the loop behind the rows, which ends with the stream. -/
def restTurn (s : PageState) : PageState ⊕ Bytes :=
  if getlineOk s.fileListStream then .inl s.getline.append else .inr s.fileListHtml

/-- `HandleSend::getFileListPage` on the files of the directory, with at most `n` turns of each
loop. -/
def pageLoops (n : ℕ) (page : Option Bytes) (fileVec : List Bytes) (fileListHtml : Bytes) :
    Option Bytes := do
  let s ← Loop.iter labelTurn n ⟨openStream page, [], fileListHtml⟩
  Loop.iter restTurn n (appendRows fileVec s)

/-! ### The lines of a stream -/

section Lines

variable {line rest : Bytes}

theorem linesOf_cons_line (h : lf ∉ line) :
    linesOf (line ++ lf :: rest) = line :: linesOf rest := by
  unfold linesOf
  rw [List.splitOn_append_cons_self_of_not_mem h]
  obtain ⟨first, others, hrest⟩ := List.exists_cons_of_ne_nil (List.splitOn_ne_nil lf rest)
  -- the last piece is one of what is behind the line feed
  simp only [hrest, List.getLast?_cons_cons, List.dropLast_cons_cons]
  split <;> rfl

theorem linesOf_line (h : lf ∉ line) (hne : line ≠ []) : linesOf line = [line] := by
  unfold linesOf
  rw [List.splitOn_eq_singleton h]
  simp [hne]

end Lines

/-- The lines still to be read; nothing is read from a stream that is not good. -/
def pending (stream : IStringStream) : List Bytes :=
  if stream.good then linesOf stream.rest else []

theorem pending_openStream (page : Option Bytes) :
    pending (openStream page) = linesOf (page.getD []) := by
  cases page <;> rfl

/-- What `getline` does to the lines still to be read: it takes the first one, and behind the last
one it leaves the string as it is or makes it empty. -/
theorem getline_pending (stream : IStringStream) (str : Bytes) :
    (pending stream = [] ∧ getlineOk stream = false ∧ pending (stream.getline str).2 = [] ∧
      ((stream.getline str).1 = str ∨ (stream.getline str).1 = [])) ∨
    (pending stream = (stream.getline str).1 :: pending (stream.getline str).2 ∧
      getlineOk stream = true) := by
  obtain ⟨content, good⟩ := stream
  cases good with
  | false => exact .inl ⟨rfl, rfl, rfl, .inl rfl⟩
  | true =>
    cases hlf : firstAt [lf] content with
    | some i =>
      obtain ⟨hno, behind, hbehind⟩ := firstAt_singleton_spec hlf
      have hsplit : content = content.take i ++ lf :: behind := by
        rw [← hbehind, List.take_append_drop]
      have hread : IStringStream.getline ⟨content.take i ++ lf :: behind, true⟩ str =
          (content.take i, ⟨behind, true⟩) := IStringStream.getline_lf hno str
      rw [hsplit, hread]
      refine .inr ⟨linesOf_cons_line hno, ?_⟩
      simp [getlineOk]
    | none =>
      have hread : IStringStream.getline ⟨content, true⟩ str = (content, ⟨[], false⟩) := by
        unfold IStringStream.getline
        simp [hlf]
      rw [hread]
      by_cases hempty : content = []
      · subst hempty
        exact .inl ⟨rfl, rfl, rfl, .inr rfl⟩
      · refine .inr ⟨linesOf_line (firstAt_singleton_eq_none_iff.mp hlf) hempty, ?_⟩
        simp [getlineOk, hempty]

section Turns

variable {s : PageState} {line : Bytes} {lines : List Bytes}

theorem PageState.getline_of_cons (h : pending s.fileListStream = line :: lines) :
    s.getline.tempLine = line ∧ pending s.getline.fileListStream = lines ∧
      s.getline.fileListHtml = s.fileListHtml ∧ getlineOk s.fileListStream = true := by
  rcases getline_pending s.fileListStream s.tempLine with ⟨hnil, -⟩ | ⟨hcons, hok⟩
  · rw [hnil] at h
    cases h
  · rw [hcons] at h
    obtain ⟨hline, hlines⟩ := List.cons.inj h
    exact ⟨hline, hlines, rfl, hok⟩

/-- The first loop, with a label line ahead. -/
theorem labelLoop_of_label {before after : List Bytes}
    (hlines : pending s.fileListStream = before ++ filelistLabel :: after)
    (hbefore : filelistLabel ∉ before) :
    ∃ t, Loop.iter labelTurn (before.length + 1) s = some t ∧ pending t.fileListStream = after ∧
      t.fileListHtml = s.fileListHtml ++ before.flatMap (· ++ lit "\n") := by
  induction before generalizing s with
  | nil =>
    obtain ⟨hline, hafter, hhtml, -⟩ := PageState.getline_of_cons hlines
    refine ⟨s.getline, ?_, hafter, by rw [hhtml, List.flatMap_nil, List.append_nil]⟩
    simp [Loop.iter, labelTurn, hline]
  | cons line before ih =>
    obtain ⟨hline, hrest, hhtml, -⟩ := PageState.getline_of_cons hlines
    obtain ⟨hne, hbefore⟩ := List.ne_and_not_mem_of_not_mem_cons hbefore
    obtain ⟨t, hiter, hafter, hpage⟩ := ih (s := s.getline.append) hrest hbefore
    refine ⟨t, ?_, hafter, ?_⟩
    · have hturn : labelTurn s = .inl s.getline.append :=
        if_neg (by rw [hline]; exact fun h => hne h.symm)
      rw [List.length_cons, Loop.iter, hturn]
      exact hiter
    · rw [hpage, PageState.append, hhtml, hline, List.flatMap_cons, List.append_assoc]

/-- **The first loop, with no label line ahead, does not leave.** Behind the last line the string is
empty or stays as it is, and neither is the label. -/
theorem labelLoop_of_no_label (hlines : filelistLabel ∉ pending s.fileListStream)
    (htemp : s.tempLine ≠ filelistLabel) (n : ℕ) : Loop.iter labelTurn n s = none := by
  refine Loop.iter_eq_none_of_forall
    (P := fun s => filelistLabel ∉ pending s.fileListStream ∧ s.tempLine ≠ filelistLabel)
    ?_ ⟨hlines, htemp⟩ n
  rintro s ⟨hlines, htemp⟩
  have hnext : filelistLabel ∉ pending s.getline.fileListStream ∧
    s.getline.tempLine ≠ filelistLabel := by
    rcases getline_pending s.fileListStream s.tempLine with ⟨-, -, hpending, hline⟩ | ⟨hcons, -⟩
    · rw [PageState.getline_fileListStream, PageState.getline_tempLine, hpending]
      refine ⟨List.not_mem_nil, ?_⟩
      rcases hline with hline | hline
      · rwa [hline]
      · rw [hline]
        decide
    · rw [hcons] at hlines
      obtain ⟨hne, hrest⟩ := List.ne_and_not_mem_of_not_mem_cons hlines
      exact ⟨hrest, fun h => hne h.symm⟩
  exact ⟨s.getline.append, if_neg hnext.2, hnext⟩

/-- The second loop copies what is left. -/
theorem restLoop (hlines : pending s.fileListStream = lines) :
    Loop.iter restTurn (lines.length + 1) s =
      some (s.fileListHtml ++ lines.flatMap (· ++ lit "\n")) := by
  induction lines generalizing s with
  | nil =>
    have hend : getlineOk s.fileListStream = false := by
      rcases getline_pending s.fileListStream s.tempLine with ⟨-, hend, -⟩ | ⟨hcons, -⟩
      · exact hend
      · rw [hcons] at hlines
        cases hlines
    simp [Loop.iter, restTurn, hend]
  | cons line lines ih =>
    obtain ⟨hline, hrest, hhtml, hok⟩ := PageState.getline_of_cons hlines
    have hturn : restTurn s = .inl s.getline.append := if_pos hok
    rw [List.length_cons, Loop.iter, hturn]
    change Loop.iter restTurn (lines.length + 1) s.getline.append = _
    rw [ih (s := s.getline.append) hrest, PageState.append, hhtml, hline, List.flatMap_cons,
      List.append_assoc]

end Turns

/-! ### The page -/

/-- The first label line is where the template is split. -/
theorem span_label {before after : List Bytes} (h : filelistLabel ∉ before) :
    (before ++ filelistLabel :: after).span (· ≠ filelistLabel) =
    (before, filelistLabel :: after) := by
  have hpos : ∀ line ∈ before, decide (line ≠ filelistLabel) = true := by
    intro line hline
    simpa using fun heq : line = filelistLabel => h (heq ▸ hline)
  rw [List.span_eq_takeWhile_dropWhile, List.takeWhile_append_of_pos hpos,
    List.dropWhile_append_of_pos hpos, List.takeWhile_cons, List.dropWhile_cons]
  simp

section Page

variable {page : Option Bytes} {before after : List Bytes}

/-- **The loops return the page** when the template has a label line. -/
theorem pageLoops_of_label (hlines : linesOf (page.getD []) = before ++ filelistLabel :: after)
    (hbefore : filelistLabel ∉ before) (fileVec : List Bytes) (fileListHtml : Bytes) :
    ∃ n, ∀ k, pageLoops (n + k) page fileVec fileListHtml =
      some (fileListHtml ++ before.flatMap (· ++ lit "\n") ++ fileVec.flatMap fileRow ++
        after.flatMap (· ++ lit "\n")) := by
  obtain ⟨t, hlabel, hafter, hhtml⟩ :=
    labelLoop_of_label (s := ⟨openStream page, [], fileListHtml⟩)
      ((pending_openStream page).trans hlines) hbefore
  have hrest := restLoop (s := appendRows fileVec t) hafter
  refine ⟨before.length + 1 + (after.length + 1), fun k => ?_⟩
  -- each loop has more turns than it needs
  have hlabel := Loop.iter_mono hlabel (after.length + 1 + k)
  have hrest := Loop.iter_mono hrest (before.length + 1 + k)
  rw [show before.length + 1 + (after.length + 1 + k) =
    before.length + 1 + (after.length + 1) + k by omega] at hlabel
  rw [show after.length + 1 + (before.length + 1 + k) =
    before.length + 1 + (after.length + 1) + k by omega] at hrest
  unfold pageLoops
  rw [hlabel]
  simp only [bind, Option.bind]
  rw [hrest, appendRows, hhtml]

/-- **Without a label line the loops do not return.** -/
theorem pageLoops_of_no_label (h : filelistLabel ∉ linesOf (page.getD [])) (n : ℕ)
    (fileVec : List Bytes) (fileListHtml : Bytes) :
    pageLoops n page fileVec fileListHtml = none := by
  have hnever := labelLoop_of_no_label (s := ⟨openStream page, [], fileListHtml⟩)
    (by rw [pending_openStream]; exact h) nofun n
  unfold pageLoops
  rw [hnever]
  rfl

/-- `getFileListPage` has the result of the loops, as long as a string can hold it. -/
theorem getFileListPage_loops {w : World} {fileVec : List Bytes}
    (hvec : getFileVec w.filedir = .ok fileVec) (fileListHtml : Bytes) :
    (∃ n html, pageLoops n w.page fileVec fileListHtml = some html ∧
      getFileListPage w fileListHtml =
        if html.length ≤ maxSize then .ok html else .error .lengthError) ∨
    ((∀ n, pageLoops n w.page fileVec fileListHtml = none) ∧
      getFileListPage w fileListHtml = .error .diverges) := by
  by_cases hlabel : filelistLabel ∈ linesOf (w.page.getD [])
  · obtain ⟨before, after, hlines, hbefore⟩ := List.eq_append_cons_of_mem hlabel
    obtain ⟨n, hloops⟩ := pageLoops_of_label hlines hbefore fileVec fileListHtml
    refine .inl ⟨n, _, hloops 0, ?_⟩
    unfold getFileListPage
    rw [hvec]
    simp only [bind, Except.bind, hlines, span_label hbefore]
  · refine .inr ⟨fun n => pageLoops_of_no_label hlabel n fileVec fileListHtml, ?_⟩
    have hall : (linesOf (w.page.getD [])).dropWhile (· ≠ filelistLabel) = [] := by
      refine List.dropWhile_eq_nil_iff.mpr fun line hline => ?_
      simpa using fun h : line = filelistLabel => hlabel (h ▸ hline)
    unfold getFileListPage
    rw [hvec]
    simp only [bind, Except.bind, List.span_eq_takeWhile_dropWhile, hall]

end Page

/-! ### When the page is produced -/

/-- The function returns, and with a line that is the label it returns the lines in front of the
first such line, a row for every entry but `.` and `..`, and the lines behind it, each with a line
feed. -/
def Produces (page : Option Bytes) (entries : List Bytes) : Prop :=
  ∃ n fileVec html, getFileVec (some entries) = .ok fileVec ∧
    pageLoops n page fileVec [] = some html ∧
    ∀ before after, linesOf (page.getD []) = before ++ filelistLabel :: after →
      filelistLabel ∉ before →
      html = before.flatMap (· ++ lit "\n") ++
        (entries.filter fun name => name ≠ lit "." ∧ name ≠ lit "..").flatMap fileRow ++
        after.flatMap (· ++ lit "\n")

/-- **The page is produced exactly for the templates with a label line**, whatever the directory
holds. -/
theorem page_produced_iff (page : Option Bytes) (entries : List Bytes) :
    Produces page entries ↔ filelistLabel ∈ linesOf (page.getD []) := by
  constructor
  · rintro ⟨n, fileVec, html, -, hreturns, -⟩
    by_contra hno
    rw [pageLoops_of_no_label hno] at hreturns
    cases hreturns
  · intro hlabel
    obtain ⟨before, after, hlines, hbefore⟩ := List.eq_append_cons_of_mem hlabel
    obtain ⟨n, hloops⟩ := pageLoops_of_label hlines hbefore
      (entries.filter fun name => name ≠ lit "." ∧ name ≠ lit "..") []
    refine ⟨n, _, _, rfl, hloops 0, fun before' after' hlines' hbefore' => ?_⟩
    -- the first label line is in one place
    have hspan : (before ++ filelistLabel :: after).span (· ≠ filelistLabel) = _ :=
      span_label hbefore
    rw [hlines.symm.trans hlines', span_label hbefore'] at hspan
    obtain ⟨rfl, hbehind⟩ := Prod.mk.inj hspan
    obtain ⟨-, rfl⟩ := List.cons.inj hbehind
    rfl

/-- A template that does not open, one without the label line, and one whose lines end with CR
LF. -/
theorem page_not_produced :
    ¬ Produces none [lit "a.txt"] ∧
    ¬ Produces (some (lit "<html>\n</html>\n")) [lit "a.txt"] ∧
    ¬ Produces (some (lit "<html>\r\n<!--filelist_label-->\r\n</html>\r\n")) [lit "a.txt"] := by
  have hnever : ∀ page, filelistLabel ∉ linesOf (page.getD []) → ¬ Produces page [lit "a.txt"] := by
    rintro page hno ⟨n, fileVec, html, -, hreturns, -⟩
    rw [pageLoops_of_no_label hno] at hreturns
    cases hreturns
  refine ⟨hnever _ ?_, hnever _ ?_, hnever _ ?_⟩
  · decide
  · decide
  · decide

end HandleSend

end Cherokee
