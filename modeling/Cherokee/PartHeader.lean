import Cherokee.Upload
import Mathlib.Data.List.Forall2

/-!
# The file name of an upload

The `FILE_HEAD` stage looks for the bare text `filename` in every line of a part's header, skips ten
characters from there and copies what follows up to the next double quote.

* `Request.scanName_inside_iff`: the copying stays inside its line exactly when there is a double
  quote where it starts or behind, within the reach of an `int`.
* `HandleRecv.storedName_iff`: what is left as the file name, for any field name, file name and
  further lines. `Copies` says what is copied from a line.
-/

open Search

namespace Cherokee

namespace Request

/-! ### The scan -/

/-- **The scan stays inside its line exactly when a double quote stands in reach.** For every line
with the text `filename`, first at `endIndex`: the loop stops at a character of the line, and the
line is taken, if and only if there is a double quote ten characters behind `endIndex` or further,
by less than `2 ^ 31`. -/
theorem scanName_inside_iff {strLine : Bytes} {endIndex : ℕ}
    (hfind : find strLine (lit "filename") 0 = some endIndex) (r : Request) :
    ((∃ i name, scanName (strLine.drop (endIndex + 10)) r.recvFileName = .ok (i, name) ∧
        endIndex + 10 + i < strLine.length) ↔
      ∃ j, endIndex + 10 ≤ j ∧ j < endIndex + 10 + 2 ^ 31 ∧ strLine[j]? = some 34) ∧
    ((∃ r', r.addPartLine strLine = .ok r') ↔
      ∃ j, endIndex + 10 ≤ j ∧ j < endIndex + 10 + 2 ^ 31 ∧ strLine[j]? = some 34) := by
  have hscan := scanName_eq (strLine.drop (endIndex + 10)) r.recvFileName
  -- the line is taken where the scan returns
  have hline : r.addPartLine strLine =
      (scanName (strLine.drop (endIndex + 10)) r.recvFileName).map fun p =>
        { r with recvFileName := removeSpaces p.2 } := by
    have hmark : endIndex + (lit "filename=\"").length = endIndex + 10 := rfl
    rw [addPartLine, hfind]
    simp only [hmark]
    cases scanName (strLine.drop (endIndex + 10)) r.recvFileName with
    | ok p => rfl
    | error f => rfl
  rw [hline, hscan]
  cases hquote : firstAt [34] (strLine.drop (endIndex + 10)) with
  | none =>
    -- no quote is left to stop at
    have hno := firstAt_singleton_eq_none_iff.mp hquote
    have hnot : ¬ ∃ j, endIndex + 10 ≤ j ∧ j < endIndex + 10 + 2 ^ 31 ∧ strLine[j]? = some 34 := by
      rintro ⟨j, hj, -, hget⟩
      refine hno (List.mem_iff_getElem?.mpr ⟨j - (endIndex + 10), ?_⟩)
      rw [List.getElem?_drop, Nat.add_sub_cancel' hj, hget]
    refine ⟨⟨?_, fun h => absurd h hnot⟩, ⟨?_, fun h => absurd h hnot⟩⟩
    · rintro ⟨i, name, h, -⟩
      cases h
    · rintro ⟨r', h⟩
      cases h
  | some i =>
    obtain ⟨hbefore, t, ht⟩ := firstAt_singleton_spec hquote
    -- the first quote behind the mark is where the scan stops
    have hget : strLine[endIndex + 10 + i]? = some 34 := by
      rw [← List.getElem?_drop, ← List.head?_drop, ht]
      rfl
    have hlen : endIndex + 10 + i < strLine.length := (List.getElem?_eq_some_iff.mp hget).1
    by_cases hi : i < 2 ^ 31
    · have hreach : ∃ j, endIndex + 10 ≤ j ∧ j < endIndex + 10 + 2 ^ 31 ∧ strLine[j]? = some 34 :=
        ⟨endIndex + 10 + i, Nat.le_add_right _ _, by omega, hget⟩
      simp only [if_pos hi]
      exact ⟨⟨fun _ => hreach, fun _ => ⟨i, _, rfl, hlen⟩⟩, ⟨fun _ => hreach, fun _ => ⟨_, rfl⟩⟩⟩
    · -- the first quote is out of reach, and so are the others
      have hnot : ¬ ∃ j, endIndex + 10 ≤ j ∧ j < endIndex + 10 + 2 ^ 31 ∧
        strLine[j]? = some 34 := by
        rintro ⟨j, hj, hj', hget'⟩
        refine hbefore (List.mem_iff_getElem?.mpr ⟨j - (endIndex + 10), ?_⟩)
        rw [List.getElem?_take_of_lt (by omega), List.getElem?_drop, Nat.add_sub_cancel' hj, hget']
      simp only [if_neg hi]
      refine ⟨⟨?_, fun h => absurd h hnot⟩, ⟨?_, fun h => absurd h hnot⟩⟩
      · rintro ⟨_, _, h, -⟩
        cases h
      · rintro ⟨_, h⟩
        cases h

theorem scanName_inside_iff_quoted :
    ((∃ i name, scanName ((lit "X: filename=\"a\"\r\n").drop (3 + 10)) [] = .ok (i, name) ∧
        3 + 10 + i < (lit "X: filename=\"a\"\r\n").length) ↔
      ∃ j, 3 + 10 ≤ j ∧ j < 3 + 10 + 2 ^ 31 ∧ (lit "X: filename=\"a\"\r\n")[j]? = some 34) ∧
    ((∃ r', Request.init.addPartLine (lit "X: filename=\"a\"\r\n") = .ok r') ↔
      ∃ j, 3 + 10 ≤ j ∧ j < 3 + 10 + 2 ^ 31 ∧ (lit "X: filename=\"a\"\r\n")[j]? = some 34) :=
  scanName_inside_iff (by decide +kernel) Request.init

/-- A file name in no quotes is scanned past the end of its line: the loop looks for a double quote,
and nothing bounds its index. -/
theorem scan_past_line :
    ¬ ∀ (recvMsg strLine rest name : Bytes) (endIndex : ℕ),
      cutLine recvMsg = some (strLine, rest) → find strLine (lit "filename") 0 = some endIndex →
      ∃ i name', scanName (strLine.drop (endIndex + 10)) name = .ok (i, name') ∧
        endIndex + 10 + i < strLine.length := by
  intro h
  obtain ⟨i, name, hscan, -⟩ := h (lit "Content-Disposition: form-data; filename=a.txt\r\n")
    (lit "Content-Disposition: form-data; filename=a.txt\r\n") [] [] 32 (by decide +kernel)
    (by decide +kernel)
  have hfault : scanName ((lit "Content-Disposition: form-data; filename=a.txt\r\n").drop (32 + 10))
      [] = .error .undefined := by decide +kernel
  rw [hfault] at hscan
  cases hscan

end Request

/-! ### What is copied from a line -/

/-- What relates to a list in two parts falls into two parts. -/
theorem forall₂_append_left_iff {α β : Type} {R : α → β → Prop} {xs ys : List α} {zs : List β} :
    List.Forall₂ R (xs ++ ys) zs ↔
      ∃ us vs, zs = us ++ vs ∧ List.Forall₂ R xs us ∧ List.Forall₂ R ys vs := by
  constructor
  · intro h
    induction xs generalizing zs with
    | nil => exact ⟨[], zs, rfl, .nil, h⟩
    | cons x xs ih =>
      obtain ⟨z, zs, hz, hzs, rfl⟩ := List.forall₂_cons_left_iff.mp h
      obtain ⟨us, vs, rfl, hus, hvs⟩ := ih hzs
      exact ⟨z :: us, vs, rfl, .cons hz hus, hvs⟩
  · rintro ⟨us, vs, rfl, hus, hvs⟩
    exact List.rel_append hus hvs

/-- Two characters behind the first `filename` of the line stands `text`, and then a double quote.
The two characters are the equals sign and the opening quote in a line that is well formed; the scan
does not look at them. -/
def Quoted (l text : Bytes) : Prop :=
  ∃ before skip behind : Bytes, l = before ++ (lit "filename" ++ (skip ++ (text ++ 34 :: behind))) ∧
    ¬ lit "filename" <:+: before ++ (lit "filename").dropLast ∧ skip.length = 2 ∧ 34 ∉ text

/-- What the stage copies from a line: nothing when the text `filename` does not occur, and
otherwise what stands up to the next double quote, when an `int` counts that far. -/
def Copies (l text : Bytes) : Prop :=
  (¬ lit "filename" <:+: l ∧ text = []) ∨ (Quoted l text ∧ text.length < 2 ^ 31)

theorem lit_filename_ne_nil : lit "filename" ≠ [] := by decide

/-- A line that is quoted holds the text `filename`. -/
theorem Quoted.isInfix {l text : Bytes} (h : Quoted l text) : lit "filename" <:+: l := by
  obtain ⟨before, skip, behind, rfl, -⟩ := h
  exact ⟨before, skip ++ (text ++ 34 :: behind), by rw [List.append_assoc]⟩

/-- A line is copied from in one way: the first `filename` and the first double quote behind it
decide. -/
theorem Quoted.unique {l text text' : Bytes} (h : Quoted l text) (h' : Quoted l text') :
    text = text' := by
  obtain ⟨before, skip, behind, rfl, hfirst, hskip, htext⟩ := h
  obtain ⟨before', skip', behind', heq, hfirst', hskip', htext'⟩ := h'
  have hpos := firstAt_append_self hfirst (skip ++ (text ++ 34 :: behind))
  rw [heq, firstAt_append_self hfirst'] at hpos
  obtain ⟨-, hrest⟩ := List.append_inj heq (Option.some.inj hpos).symm
  obtain ⟨-, hrest⟩ := List.append_inj (List.append_cancel_left hrest) (hskip.trans hskip'.symm)
  exact (append_cons_inj htext htext' hrest).1

@[simp] theorem removeSpaces_nil : removeSpaces [] = [] := rfl

/-- White space is taken out character by character. -/
theorem removeSpaces_append (s t : Bytes) :
    removeSpaces (s ++ t) = removeSpaces s ++ removeSpaces t :=
  List.filter_append ..

/-- Taking white space out a second time changes nothing, which is what happens to a name that grows
line by line. -/
theorem removeSpaces_idem (s : Bytes) : removeSpaces (removeSpaces s) = removeSpaces s := by
  simp [removeSpaces, List.filter_filter]

namespace Request

/-- A line that is copied from is taken, and what is copied goes behind the file name. -/
theorem addPartLine_of_copies {l text : Bytes} (h : Copies l text) {r : Request}
    (hname : removeSpaces r.recvFileName = r.recvFileName) :
    r.addPartLine (l ++ crlf) =
      .ok { r with recvFileName := r.recvFileName ++ removeSpaces text } := by
  rcases h with ⟨hno, rfl⟩ | ⟨⟨before, skip, behind, rfl, hfirst, hskip, htext⟩, hshort⟩
  · rw [HandleRecv.addPartLine_plain r hno, removeSpaces_nil, List.append_nil]
  · have hline : before ++ (lit "filename" ++ (skip ++ (text ++ 34 :: behind))) ++ crlf =
        before ++ (lit "filename" ++ (skip ++ (text ++ 34 :: (behind ++ crlf)))) := by
      simp
    have hfind : find (before ++ (lit "filename" ++ (skip ++ (text ++ 34 :: (behind ++ crlf)))))
        (lit "filename") 0 = some before.length := by
      rw [find_zero]
      exact firstAt_append_self hfirst _
    have hdrop : (before ++ (lit "filename" ++ (skip ++ (text ++ 34 :: (behind ++ crlf))))).drop
        (before.length + (lit "filename=\"").length) = text ++ 34 :: (behind ++ crlf) := by
      have hlen : (lit "filename=\"").length = (lit "filename").length + skip.length := by
        rw [hskip]
        rfl
      rw [hlen, ← List.drop_drop, List.drop_left, ← List.drop_drop, List.drop_left, List.drop_left]
    -- the scan stops at the quote behind `text`
    have hscan : scanName (text ++ 34 :: (behind ++ crlf)) r.recvFileName =
        .ok (text.length, r.recvFileName ++ text) := by
      rw [scanName_eq, firstAt_singleton_append htext]
      simp only [List.take_left]
      rw [if_pos hshort]
    unfold addPartLine
    rw [hline, hfind]
    simp only [hdrop, hscan, removeSpaces_append, hname]

/-- A line that is taken is copied from, in one of the two ways: no `filename`, or a quoted one. -/
theorem copies_of_addPartLine {l : Bytes} {r r' : Request}
    (h : r.addPartLine (l ++ crlf) = .ok r') :
    ∃ text, Copies l text := by
  by_cases hno : lit "filename" <:+: l
  swap
  · exact ⟨[], .inl ⟨hno, rfl⟩⟩
  obtain ⟨i, hi⟩ := exists_firstAt (hno.trans (List.prefix_append l crlf).isInfix)
  obtain ⟨hsplit, hfirst⟩ := firstAt_split lit_filename_ne_nil hi
  -- the scan begins two characters behind `filename`, for `=` and the quote
  unfold addPartLine at h
  rw [find_zero, hi] at h
  simp only [scanName_eq] at h
  rw [show i + (lit "filename=\"").length = i + (lit "filename").length + 2 from rfl,
    ← List.drop_drop] at h
  generalize (l ++ crlf).drop (i + (lit "filename").length) = behind at h hsplit
  cases hquote : firstAt [34] (behind.drop 2) with
  | none =>
    rw [hquote] at h
    cases h
  | some k =>
    rw [hquote] at h
    have hshort : k < 2 ^ 31 := by
      by_contra hk
      simp only [if_neg hk] at h
      cases h
    obtain ⟨htext, t, ht⟩ := firstAt_singleton_spec hquote
    have hkeep : behind = behind.take 2 ++ ((behind.drop 2).take k ++ 34 :: t) := by
      rw [← ht, List.take_append_drop, List.take_append_drop]
    -- there is a quote behind them, so the two characters are there
    have hlong : 2 ≤ behind.length := by
      have := firstAt_length_le hquote
      rw [List.length_drop] at this
      simp only [List.length_cons, List.length_nil] at this
      omega
    -- the quote does not belong to the terminator
    have hwhole : l ++ crlf = ((l ++ crlf).take i ++ (lit "filename" ++ (behind.take 2 ++
        (behind.drop 2).take k))) ++ 34 :: t := by
      conv_lhs => rw [hsplit, hkeep]
      simp
    rcases List.append_eq_append_iff.mp hwhole with ⟨z, -, hz⟩ | ⟨z, hz, hz'⟩
    · have hmem : (34 : UInt8) ∈ crlf := by
        rw [hz]
        simp
      exact absurd hmem (by decide)
    · cases z with
      | nil => cases hz'
      | cons q z =>
        obtain ⟨rfl, -⟩ := List.cons.inj hz'
        -- so it stands in the line, and what is copied is the text up to it
        refine ⟨(behind.drop 2).take k, .inr ⟨⟨(l ++ crlf).take i, behind.take 2, z, ?_, hfirst, ?_,
          htext⟩, ?_⟩⟩
        · conv_lhs => rw [hz]
          simp
        · rw [List.length_take]
          omega
        · rw [List.length_take]
          omega

end Request

namespace HandleRecv

open Request

/-! ### The part header, line by line -/

/-- The request in the part header, with this file name and these lines to read. Everything else
about it stays as it is in `r`. -/
def inPart (r : Request) (recvFileName recvMsg : Bytes) : Request :=
  { r with fileMsgStatus := .fileHead, recvFileName, recvMsg }

/-- A line of a part's header, without its terminator: it is not blank and holds no terminator
itself. -/
def IsPartLine (l : Bytes) : Prop := l ≠ [] ∧ ¬ crlf <:+: l

theorem IsPartLine.ne_crlf {l : Bytes} (h : IsPartLine l) : l ++ crlf ≠ crlf :=
  fun heq => h.1 (List.append_left_eq_self.mp heq)

/-- Such a line is what the loop cuts off next. -/
theorem IsPartLine.cut {l : Bytes} (h : IsPartLine l) (m : Bytes) :
    cutLine (l ++ crlf ++ m) = some (l ++ crlf, m) := by
  rw [List.append_assoc]
  exact cutLine_append (not_crlf_isInfix h.2) m

/-- What the part header loop makes of lines that are copied from, by induction on the lines: the
name grows by each copy, and white space is taken out of it each time. -/
theorem partLoop_of_copies {lines texts : List Bytes} (hlines : ∀ l ∈ lines, IsPartLine l)
    (h : List.Forall₂ Copies lines texts) (r : Request) {name : Bytes}
    (hname : removeSpaces name = name) (m : Bytes) :
    Loop.eval partTurn_decreasing (inPart r name (lines.flatMap (· ++ crlf) ++ (crlf ++ m))) =
      .ok { inPart r (name ++ removeSpaces texts.flatten) m with fileMsgStatus :=
        .fileContent } := by
  induction h generalizing name with
  | nil =>
    rw [List.flatten_nil, removeSpaces_nil, List.append_nil]
    exact Loop.eval_of_inr (lineTurn_of_blank (r := inPart r name (crlf ++ m)) (cutLine_crlf m))
  | @cons l text lines texts hcopies hrest ih =>
    have hl := hlines l List.mem_cons_self
    have hturn :
      partTurn (inPart r name (l ++ crlf ++ (lines.flatMap (· ++ crlf) ++ (crlf ++ m)))) =
        .inl (inPart r (name ++ removeSpaces text) (lines.flatMap (· ++ crlf) ++ (crlf ++ m))) := by
      refine lineTurn_of_option (hl.cut _) hl.ne_crlf ?_
      exact addPartLine_of_copies (r := inPart r name _) hcopies hname
    have hname' : removeSpaces (name ++ removeSpaces text) = name ++ removeSpaces text := by
      rw [removeSpaces_append, hname, removeSpaces_idem]
    have htail := ih (fun x hx => hlines x (List.mem_cons_of_mem l hx)) hname'
    rw [List.flatMap_cons, List.append_assoc, Loop.eval_of_inl hturn, htail, List.flatten_cons,
      removeSpaces_append, List.append_assoc]

/-- When the part header loop leaves, every line was copied from: a line that is scanned past its
end would have ended the process. -/
theorem copies_of_partLoop {lines : List Bytes} (hlines : ∀ l ∈ lines, IsPartLine l)
    (r : Request) (name m : Bytes) {r' : Request}
    (h : Loop.eval partTurn_decreasing (inPart r name (lines.flatMap (· ++ crlf) ++ (crlf ++ m))) =
      .ok r') : ∃ texts, List.Forall₂ Copies lines texts := by
  induction lines generalizing name with
  | nil => exact ⟨[], .nil⟩
  | cons l lines ih =>
    have hl := hlines l List.mem_cons_self
    have hls : ∀ x ∈ lines, IsPartLine x := fun x hx => hlines x (List.mem_cons_of_mem l hx)
    rw [List.flatMap_cons, List.append_assoc] at h
    cases ho : (inPart r name (lines.flatMap (· ++ crlf) ++ (crlf ++ m))).addPartLine
      (l ++ crlf) with
    | error f =>
      have hturn : partTurn (inPart r name
          (l ++ crlf ++ (lines.flatMap (· ++ crlf) ++ (crlf ++ m)))) = .inr (.error f) :=
        lineTurn_of_error (hl.cut _) hl.ne_crlf ho
      rw [Loop.eval_of_inr hturn] at h
      cases h
    | ok r₁ =>
      -- the line is accepted, so the scan has copied something from it
      obtain ⟨text, hcopies⟩ := copies_of_addPartLine ho
      obtain ⟨name', rfl⟩ := addPartLine_fields ho
      have hturn : partTurn (inPart r name
          (l ++ crlf ++ (lines.flatMap (· ++ crlf) ++ (crlf ++ m)))) =
            .inl (inPart r name' (lines.flatMap (· ++ crlf) ++ (crlf ++ m))) :=
        lineTurn_of_option (hl.cut _) hl.ne_crlf ho
      rw [Loop.eval_of_inl hturn] at h
      obtain ⟨texts, htexts⟩ := ih hls name' h
      exact ⟨text :: texts, .cons hcopies htexts⟩

/-- **The stored name is what is copied from the lines, without white space.** -/
theorem partStage_name_iff {lines : List Bytes} (hlines : ∀ l ∈ lines, IsPartLine l) (r : Request)
    (m name : Bytes) :
    (∃ r', partStage (inPart r [] (lines.flatMap (· ++ crlf) ++ (crlf ++ m))) = .ok r' ∧
        r'.fileMsgStatus = .fileContent ∧ r'.recvFileName = name) ↔
      ∃ texts, List.Forall₂ Copies lines texts ∧ removeSpaces texts.flatten = name := by
  have hstage (n : Bytes) : partStage (inPart r [] n) =
      Loop.eval partTurn_decreasing (inPart r [] n) := if_pos rfl
  rw [hstage]
  constructor
  · rintro ⟨r', hr', -, hname⟩
    obtain ⟨texts, htexts⟩ := copies_of_partLoop hlines r [] m hr'
    refine ⟨texts, htexts, ?_⟩
    rw [partLoop_of_copies hlines htexts r removeSpaces_nil m] at hr'
    obtain rfl := Except.ok.inj hr'
    exact hname
  · rintro ⟨texts, htexts, rfl⟩
    exact ⟨_, partLoop_of_copies hlines htexts r removeSpaces_nil m, rfl, rfl⟩

/-! ### The line with the file name -/

/-- `Content-Disposition: form-data; name="name"; filename="fileName"` -/
def dispositionLine (name fileName : Bytes) : Bytes :=
  dispositionHead name ++ lit "filename=\"" ++ fileName ++ lit "\""

/-- What is copied behind the text `filename` in a field name that goes on with `behind`: two
characters are skipped, be they of the field name or behind its end. -/
def copiedBehind : Bytes → Bytes
  | [] => lit " filename="
  | [_] => lit "; filename="
  | _ :: _ :: text => text

/-- What is copied from the line with the file name: the file name, when the field name does not
hold the text `filename`, and otherwise what stands behind that. -/
def NameCopies (name fileName text : Bytes) : Prop :=
  text.length < 2 ^ 31 ∧
    ((¬ lit "filename" <:+: name ∧ text = fileName) ∨
      ∃ before behind, name = before ++ lit "filename" ++ behind ∧
        ¬ lit "filename" <:+: before ++ (lit "filename").dropLast ∧ text = copiedBehind behind)

/-- The line with the file name is quoted from its parameter, when the field name does not come
first with the same text. -/
theorem quoted_parameter {name fileName : Bytes} (hname : ¬ lit "filename" <:+: name)
    (hfile : 34 ∉ fileName) : Quoted (dispositionLine name fileName) fileName := by
  refine ⟨dispositionHead name, lit "=\"", [], ?_, dispositionHead_plain hname, rfl, hfile⟩
  simp [dispositionLine, lit]

/-- With the text `filename` in the field name, the line is quoted from there: the scan takes the
first place of the text. -/
theorem quoted_fieldName {before behind fileName : Bytes} (hname : 34 ∉ before ++ behind)
    (hfirst : ¬ lit "filename" <:+: before ++ (lit "filename").dropLast) :
    Quoted (dispositionLine (before ++ lit "filename" ++ behind) fileName)
      (copiedBehind behind) := by
  -- no `filename` stands in front of the one in the field name
  have hfront : ¬ lit "filename" <:+:
      lit "Content-Disposition: form-data; name=\"" ++ before ++ (lit "filename").dropLast := by
    intro hi
    have heq : lit "Content-Disposition: form-data; name=\"" ++ before ++
      (lit "filename").dropLast =
        lit "Content-Disposition: form-data; name=" ++ 34 ::
        (before ++ (lit "filename").dropLast) := by
      simp [lit]
    rw [heq] at hi
    rcases infix_append_cons (by decide) hi with hi | hi
    · exact absurd hi (by decide)
    · exact hfirst hi
  have hbehind : 34 ∉ behind := fun h => hname (List.mem_append_right _ h)
  rcases behind with _ | ⟨c, _ | ⟨d, text⟩⟩
  · refine ⟨_, lit "\";", fileName ++ lit "\"", ?_, hfront, rfl, by decide⟩
    simp [dispositionLine, dispositionHead, copiedBehind, lit]
  · have hcopied : 34 ∉ copiedBehind [c] := show 34 ∉ lit "; filename=" by decide
    refine ⟨_, [c, 34], fileName ++ lit "\"", ?_, hfront, rfl, hcopied⟩
    simp [dispositionLine, dispositionHead, copiedBehind, lit]
  · refine ⟨_, [c, d], lit "; filename=\"" ++ fileName ++ lit "\"", ?_, hfront, rfl,
      fun h => hbehind (List.mem_cons_of_mem c (List.mem_cons_of_mem d h))⟩
    simp [dispositionLine, dispositionHead, copiedBehind, lit]

/-- **What is copied from the line with the file name**: both directions, since the first `filename`
and the first quote behind it are unique. -/
theorem copies_disposition_iff {name fileName : Bytes} (hname : 34 ∉ name) (hfile : 34 ∉ fileName)
    {text : Bytes} : Copies (dispositionLine name fileName) text ↔
      NameCopies name fileName text := by
  by_cases hn : lit "filename" <:+: name
  · -- the first `filename` is in the field name
    obtain ⟨i, hi⟩ := exists_firstAt hn
    obtain ⟨hsplit, hfirst⟩ := firstAt_split lit_filename_ne_nil hi
    generalize name.take i = before at hsplit hfirst
    generalize name.drop (i + (lit "filename").length) = behind at hsplit
    rw [← List.append_assoc] at hsplit
    -- the scan begins behind it, so the text runs on into what follows the name
    have hquoted : Quoted (dispositionLine name fileName) (copiedBehind behind) := by
      rw [hsplit]
      refine quoted_fieldName (fun h => hname ?_) hfirst
      rw [hsplit]
      rcases List.mem_append.mp h with h | h
      · exact List.mem_append_left _ (List.mem_append_left _ h)
      · exact List.mem_append_right _ h
    constructor
    · rintro (⟨hno, -⟩ | ⟨hq, hshort⟩)
      · exact absurd hquoted.isInfix hno
      · exact ⟨hshort, .inr ⟨before, behind, hsplit, hfirst, hq.unique hquoted⟩⟩
    · rintro ⟨hshort, ⟨hno, -⟩ | ⟨before', behind', heq, hfirst', rfl⟩⟩
      · exact absurd hn hno
      · refine .inr ⟨?_, hshort⟩
        -- another place for the text in the field name would be the same one
        rw [heq]
        refine quoted_fieldName (fun h => hname ?_) hfirst'
        rw [heq]
        rcases List.mem_append.mp h with h | h
        · exact List.mem_append_left _ (List.mem_append_left _ h)
        · exact List.mem_append_right _ h
  · -- the first `filename` is the parameter's own
    have hquoted := quoted_parameter hn hfile
    constructor
    · rintro (⟨hno, -⟩ | ⟨hq, hshort⟩)
      · exact absurd hquoted.isInfix hno
      · exact ⟨hshort, .inl ⟨hn, hq.unique hquoted⟩⟩
    · rintro ⟨hshort, ⟨-, rfl⟩ | ⟨before, behind, rfl, -⟩⟩
      · exact .inr ⟨hquoted, hshort⟩
      · exact absurd ⟨before, behind, rfl⟩ hn

/-- The line with the file name is a line of the header, when neither name holds a line feed. -/
theorem isPartLine_disposition {name fileName : Bytes} (hname : lf ∉ name) (hfile : lf ∉ fileName) :
    IsPartLine (dispositionLine name fileName) := by
  refine ⟨by simp [dispositionLine, lit], fun hi => ?_⟩
  have hmem : lf ∈ dispositionLine name fileName := hi.subset (by decide)
  revert hmem
  simp only [dispositionLine, dispositionHead, List.mem_append, not_or, imp_false]
  exact ⟨⟨⟨⟨⟨by decide, hname⟩, by decide⟩, by decide⟩, hfile⟩, by decide⟩

/-- The name of a part: the characters of a field or file name, without double quotes and line
ends. -/
def IsPartName (s : Bytes) : Prop := 34 ∉ s ∧ cr ∉ s ∧ lf ∉ s

/-- The lines of a part's header around the one with the file name, as they arrive with `m`
behind. -/
def partHeader (before : List Bytes) (name fileName : Bytes) (after : List Bytes) (m : Bytes) :
    Bytes :=
  (before ++ [dispositionLine name fileName] ++ after).flatMap (· ++ crlf) ++ (crlf ++ m)

/-- **Which file name is stored.** For every field name, file name and further lines, the part
header leaves the file name without white space if and only if that is what the copies from the
lines make up; and so it is when neither the field name nor another line holds the text
`filename`. -/
theorem storedName_iff {name fileName : Bytes} (hname : IsPartName name)
    (hfile : IsPartName fileName)
    {before after : List Bytes} (hlines : ∀ l ∈ before ++ after, IsPartLine l) (r : Request)
    (m : Bytes) :
    ((∃ r', partStage (inPart r [] (partHeader before name fileName after m)) = .ok r' ∧
        r'.fileMsgStatus = .fileContent ∧ r'.recvFileName = removeSpaces fileName) ↔
      ∃ texts text texts', List.Forall₂ Copies before texts ∧ NameCopies name fileName text ∧
        List.Forall₂ Copies after texts' ∧
        removeSpaces (texts.flatten ++ text ++ texts'.flatten) = removeSpaces fileName) ∧
    (¬ lit "filename" <:+: name → (∀ l ∈ before ++ after, ¬ lit "filename" <:+: l) →
      fileName.length < 2 ^ 31 →
      ∃ r', partStage (inPart r [] (partHeader before name fileName after m)) = .ok r' ∧
        r'.fileMsgStatus = .fileContent ∧ r'.recvFileName = removeSpaces fileName) := by
  -- the header is read line by line, the one with the file name among the others
  have hall : ∀ l ∈ before ++ [dispositionLine name fileName] ++ after, IsPartLine l := by
    intro l hl
    rcases List.mem_append.mp hl with hl | hl
    · rcases List.mem_append.mp hl with hl | hl
      · exact hlines l (List.mem_append_left _ hl)
      · rw [List.mem_singleton.mp hl]
        exact isPartLine_disposition hname.2.2 hfile.2.2
    · exact hlines l (List.mem_append_right _ hl)
  have hcopies {text : Bytes} :
      Copies (dispositionLine name fileName) text ↔ NameCopies name fileName text :=
    copies_disposition_iff hname.1 hfile.1
  -- the texts of all lines, split at the line of the disposition
  have hiff : (∃ r', partStage (inPart r [] (partHeader before name fileName after m)) = .ok r' ∧
        r'.fileMsgStatus = .fileContent ∧ r'.recvFileName = removeSpaces fileName) ↔
      ∃ texts text texts', List.Forall₂ Copies before texts ∧ NameCopies name fileName text ∧
        List.Forall₂ Copies after texts' ∧
        removeSpaces (texts.flatten ++ text ++ texts'.flatten) = removeSpaces fileName := by
    refine (partStage_name_iff hall r m (removeSpaces fileName)).trans ?_
    constructor
    · rintro ⟨all, h, hsum⟩
      obtain ⟨front, texts', rfl, hfront, hafter⟩ := forall₂_append_left_iff.mp h
      obtain ⟨texts, middle, rfl, hbefore, hmiddle⟩ := forall₂_append_left_iff.mp hfront
      obtain ⟨text, none, hline, hnone, rfl⟩ := List.forall₂_cons_left_iff.mp hmiddle
      obtain rfl := List.forall₂_nil_left_iff.mp hnone
      refine ⟨texts, text, texts', hbefore, hcopies.mp hline, hafter, ?_⟩
      rw [← hsum]
      simp
    · rintro ⟨texts, text, texts', hbefore, hline, hafter, hsum⟩
      refine ⟨texts ++ [text] ++ texts', ?_, ?_⟩
      · exact List.rel_append (List.rel_append hbefore (.cons (hcopies.mpr hline) .nil)) hafter
      · rw [← hsum]
        simp
  refine ⟨hiff, fun hno hothers hshort => hiff.mpr ?_⟩
  -- the other lines are copied nothing from
  have hnone (ls : List Bytes) (h : ∀ l ∈ ls, ¬ lit "filename" <:+: l) :
      List.Forall₂ Copies ls (ls.map fun _ => []) ∧
      (ls.map fun _ => ([] : Bytes)).flatten = [] := by
    refine ⟨?_, by simp⟩
    rw [List.forall₂_map_right_iff, List.forall₂_same]
    exact fun l hl => .inl ⟨h l hl, rfl⟩
  obtain ⟨hb, hb'⟩ := hnone before fun l hl => hothers l (List.mem_append_left _ hl)
  obtain ⟨ha, ha'⟩ := hnone after fun l hl => hothers l (List.mem_append_right _ hl)
  refine ⟨_, fileName, _, hb, ⟨hshort, .inl ⟨hno, rfl⟩⟩, ha, ?_⟩
  rw [hb', ha', List.nil_append, List.append_nil]

theorem storedName_iff_notes :
    ((∃ r', partStage (inPart Request.init [] (partHeader [lit "X: \"a\""] (lit "file")
          (lit "my notes.txt") [] [])) = .ok r' ∧
        r'.fileMsgStatus = .fileContent ∧ r'.recvFileName = removeSpaces (lit "my notes.txt")) ↔
      ∃ texts text texts', List.Forall₂ Copies [lit "X: \"a\""] texts ∧
        NameCopies (lit "file") (lit "my notes.txt") text ∧ List.Forall₂ Copies [] texts' ∧
        removeSpaces (texts.flatten ++ text ++ texts'.flatten) = removeSpaces
          (lit "my notes.txt")) ∧
    (¬ lit "filename" <:+: lit "file" →
      (∀ l ∈ [lit "X: \"a\""] ++ [], ¬ lit "filename" <:+: l) →
      (lit "my notes.txt").length < 2 ^ 31 →
      ∃ r', partStage (inPart Request.init [] (partHeader [lit "X: \"a\""] (lit "file")
          (lit "my notes.txt") [] [])) = .ok r' ∧
        r'.fileMsgStatus = .fileContent ∧ r'.recvFileName = removeSpaces (lit "my notes.txt")) := by
  refine storedName_iff ⟨by decide, by decide, by decide⟩ ⟨by decide, by decide, by decide⟩
    (fun l hl => ?_) Request.init []
  simp only [List.append_nil, List.mem_singleton] at hl
  subst hl
  exact ⟨by decide, by decide⟩

/-- A field with the name `filename` is stored under another name, the one that stands two
characters behind the text. -/
theorem stored_under_field :
    ¬ ∀ (name fileName : Bytes) (before after : List Bytes) (r : Request) (m : Bytes),
      IsPartName name → IsPartName fileName → (∀ l ∈ before ++ after, IsPartLine l) →
      (∀ l ∈ before ++ after, ¬ lit "filename=" <:+: l) →
      ∃ r', partStage (inPart r [] (partHeader before name fileName after m)) = .ok r' ∧
        r'.recvFileName = removeSpaces fileName := by
  intro h
  obtain ⟨r', hr', hname⟩ := h (lit "filename") (lit "a") [] [] Request.init []
    ⟨by decide, by decide, by decide⟩ ⟨by decide, by decide, by decide⟩ nofun nofun
  have hstored : ((partStage (inPart Request.init []
      (partHeader [] (lit "filename") (lit "a") [] []))).map Request.recvFileName).toOption =
        some (lit "filename=") := by decide +kernel
  rw [hr'] at hstored
  have heq : removeSpaces (lit "a") = lit "filename=" := by
    rw [← hname]
    exact Option.some.inj hstored
  exact absurd heq (by decide)

end HandleRecv

end Cherokee
