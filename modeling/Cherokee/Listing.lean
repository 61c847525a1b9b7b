import Cherokee.Lib.Records
import Cherokee.Linear
import Cherokee.PageMarkup
import Cherokee.WhiteSpace

/-!
# What the list page says

The list of the files is sent as a page: the template, with a row for each file in the place of its
label. The page can be read back (`pageRows`): the rows are found again for all names a file can
have, and in each of them the address of the link `downl` and the argument of `confirmDelete`, up to
the quote that ends them.

A name stands in its row three times as it is, so a quote in it ends the address or the argument too
early. Such a file is in the list, but its row does not lead to it.

* `pageRows_eq_some_iff`: the pages that are read are those that are made, with the same names.
* `downloads_iff`, `removes_iff`: the names whose rows lead to their files.
* `FileServer.Named`: white space is in no name of the directory.
* `FileServer.listing_of_reachable`: in a run, the page lists the directory, and the rows lead to
  the files, but for the names with a quote.
-/

namespace Cherokee

open HandleSend HandleRecv Search

/-! ### Reading the page -/

/-- What stands in front of the name in a row. -/
def rowStart : Bytes := lit "            <tr><td class=\"col1\">"

/-- What stands in a row behind `start`, up to one of the bytes `stops`. -/
def quoted (start stops row : Bytes) : Bytes :=
  ((cutAfter start row).map fun cut => cut.2.takeWhile (· ∉ stops)).getD []

/-- A row, as it is read from the page. -/
structure Row where
  /-- What stands in the first cell. -/
  name : Bytes
  /-- The address of the link. -/
  href : Bytes
  /-- The argument of `confirmDelete`. -/
  filename : Bytes
deriving DecidableEq

/-- The row with this name and this text. The address goes up to the double quote that ends the
attribute. The argument goes up to a single quote, and stands in an attribute as well, so that a
double quote ends it too. Both are read as they stand: no escape is resolved in them. -/
def Row.ofText (name text : Bytes) : Row where
  name
  href := quoted (lit "<a href=\"") (lit "\"") text
  filename := quoted (lit "confirmDelete('") (lit "'\"") text

/-- The row at the front of a text, and what is behind it. The name goes up to `</`. -/
def readRow (text : Bytes) : Option (Row × Bytes) :=
  let name := ((text.drop rowStart.length).takeWhile (· ≠ 47)).dropLast
  let length := (fileRow name).length
  if fileRow name <+: text then some (Row.ofText name (text.take length),
    text.drop length) else none

/-- The row of a file, as it is read where it stands on the page. -/
def rowOf (name : Bytes) : Row := Row.ofText name (fileRow name)

/-- The name is found again in its row. -/
theorem name_fileRow {name : Bytes} (h : 47 ∉ name) (rest : Bytes) :
    (((fileRow name ++ rest).drop rowStart.length).takeWhile (· ≠ 47)).dropLast = name := by
  -- the first slash behind the start of the row is the one of `</td>`
  have hrow : ∃ more, fileRow name ++ rest = rowStart ++ (name ++ lit "<" ++ 47 :: more) := by
    refine ⟨lit "td> <td class=\"col2\"><a href=\"downl/" ++ name ++
      lit "\">downl</a></td> <td class=\"col3\"><a href=\"#\" onclick=\"return confirmDelete('" ++
      name ++ lit "');\">remov</a></td></tr>" ++ lit "\n" ++ rest, ?_⟩
    unfold fileRow
    simp only [List.append_assoc]
    rfl
  obtain ⟨more, hmore⟩ := hrow
  have hfront : ∀ c ∈ name ++ lit "<", decide (c ≠ 47) = true := by
    intro c hc
    rcases List.mem_append.mp hc with hc | hc
    · exact decide_eq_true fun heq => h (heq ▸ hc)
    · rw [List.mem_singleton.mp hc]
      rfl
  rw [hmore, List.drop_left, List.takeWhile_append_of_pos hfront,
    List.takeWhile_cons_of_neg (by decide),
    List.append_nil]
  exact List.dropLast_concat

/-- **A row is read exactly when it stands there.** -/
theorem readRow_eq_some_iff {text rest : Bytes} {row : Row} :
    readRow text = some (row, rest) ↔
      (47 ∉ row.name ∧ row = rowOf row.name) ∧ text = fileRow row.name ++ rest := by
  unfold readRow
  simp only [Option.ite_none_right_eq_some, Option.some.injEq, Prod.mk.injEq]
  constructor
  -- what is read stands at the front of the text
  · rintro ⟨⟨behind, hbehind⟩, rfl, hrest⟩
    generalize hname : ((text.drop rowStart.length).takeWhile (· ≠ 47)).dropLast = name at *
    -- the name was taken up to a slash
    have hslash : 47 ∉ name := by
      rw [← hname]
      intro hmem
      simpa using List.mem_takeWhile_imp (List.dropLast_subset _ hmem)
    refine ⟨⟨hslash, ?_⟩, ?_⟩
    · rw [← hbehind, List.take_left]
      rfl
    · rw [← hrest, ← hbehind, List.drop_left]
      rfl
  · rintro ⟨⟨hslash, hrow⟩, rfl⟩
    rw [name_fileRow hslash]
    refine ⟨List.prefix_append _ _, ?_, List.drop_left⟩
    rw [List.take_left]
    exact hrow.symm

/-- Rows are read as records, one behind the other. -/
theorem reads_rows : Records.Reads readRow (fun row => fileRow row.name)
    (fun row => 47 ∉ row.name ∧ row = rowOf row.name) where
  read_iff _ _ _ := readRow_eq_some_iff
  write_ne_nil _ := List.append_ne_nil_of_right_ne_nil _ (by decide)

/-- The rows on a page that was made of the template `page`. -/
def pageRows (page text : Bytes) : Option (List Row) :=
  let lines := linesOf page
  (Records.unframe ((lines.takeWhile (· ≠ filelistLabel)).flatMap (· ++ lit "\n"))
    ((lines.dropWhile (· ≠ filelistLabel)).tail.flatMap (· ++ lit "\n")) text).bind fun rows =>
      Records.readAll readRow rows.length rows

/-- **The pages that are read are those that are made**, of the same names. -/
theorem pageRows_eq_some_iff {page text : Bytes} {rows : List Row} :
    pageRows page text = some rows ↔
      (∀ row ∈ rows, 47 ∉ row.name ∧ row = rowOf row.name) ∧
        text = pageWith page (rows.map Row.name) := by
  have hrows : rows.flatMap (fun row => fileRow row.name) = (rows.map Row.name).flatMap fileRow :=
    (List.flatMap_map ..).symm
  unfold pageRows pageWith
  simp only [Option.bind_eq_some_iff, Records.unframe_eq_some_iff, reads_rows.readAll_eq_some_iff,
    hrows]
  constructor
  · rintro ⟨text', htext, hread, rfl⟩
    exact ⟨hread, htext⟩
  · rintro ⟨hread, htext⟩
    exact ⟨_, htext, hread, rfl⟩

/-! ### The address and the argument -/

/-- What stands behind the first `start` is read up to the first of the `stops`. -/
theorem quoted_of_first {start stops before text rest : Bytes} {stop : UInt8}
    (hfirst : ¬ start <:+: before ++ start.dropLast) (htext : ∀ c ∈ text, c ∉ stops)
    (hstop : stop ∈ stops) :
    quoted start stops (before ++ (start ++ (text ++ stop :: rest))) = text := by
  rw [quoted, cutAfter_of_not_isInfix hfirst]
  change List.takeWhile _ _ = _
  rw [List.takeWhile_append_of_pos fun c hc => decide_eq_true (htext c hc),
    List.takeWhile_cons_of_neg (by simpa using hstop), List.append_nil]

/-- What is read up to a byte does not have it. -/
theorem not_mem_quoted {start stops : Bytes} {stop : UInt8} (hstop : stop ∈ stops) (row : Bytes) :
    stop ∉ quoted start stops row := by
  unfold quoted
  cases cutAfter start row with
  | none => exact List.not_mem_nil
  | some cut =>
    intro hmem
    -- what is read stops in front of such a byte
    have hread := List.mem_takeWhile_imp hmem
    exact of_decide_eq_true hread hstop

/-- The row up to the end of the address. -/
theorem fileRow_address (name : Bytes) : ∃ rest, fileRow name =
    (rowStart ++ name ++ lit "</td> <td class=\"col2\">") ++
      (lit "<a href=\"" ++ (lit "downl/" ++ name ++ 34 :: rest)) := by
  have hcell : lit "</td> <td class=\"col2\"><a href=\"downl/" =
      lit "</td> <td class=\"col2\">" ++ (lit "<a href=\"" ++ lit "downl/") := by
    decide
  -- behind the name the attribute ends with a double quote
  have hquote :
    lit "\">downl</a></td> <td class=\"col3\"><a href=\"#\" onclick=\"return confirmDelete('" =
      34 ::
      lit ">downl</a></td> <td class=\"col3\"><a href=\"#\" onclick=\"return confirmDelete('" := by
    decide
  refine ⟨lit ">downl</a></td> <td class=\"col3\"><a href=\"#\" onclick=\"return confirmDelete('" ++
    (name ++ (lit "');\">remov</a></td></tr>" ++ lit "\n")), ?_⟩
  rw [fileRow, hcell, hquote, rowStart]
  simp only [List.append_assoc, List.cons_append]

/-- **The address of the link** is read whole when there is no double quote in the name. -/
theorem href_rowOf {name : Bytes} (h : 34 ∉ name) : (rowOf name).href = lit "downl/" ++ name := by
  obtain ⟨rest, hrow⟩ := fileRow_address name
  -- the link is the first thing in the row that looks like one: `="` is not in a name
  have hfirst : ¬ lit "<a href=\"" <:+:
      (rowStart ++ name ++ lit "</td> <td class=\"col2\">") ++ (lit "<a href=\"").dropLast := by
    intro hinfix
    have hcells : (rowStart ++ name ++ lit "</td> <td class=\"col2\">") ++
        (lit "<a href=\"").dropLast =
          lit "            <tr><td class=\"col1\"" ++ 62 :: (name ++ lit "</td" ++ 62 ::
          lit " <td class=\"col2\"><a href=") := by
      have hstart : rowStart = lit "            <tr><td class=\"col1\"" ++ [62] := by decide
      have hcell : lit "</td> <td class=\"col2\">" ++ (lit "<a href=\"").dropLast =
          lit "</td" ++ 62 :: lit " <td class=\"col2\"><a href=" := by
        decide
      rw [List.append_assoc, hcell, hstart]
      simp only [List.append_assoc, List.cons_append, List.nil_append]
    rw [hcells] at hinfix
    -- the mark would stand in the cell before the name, in the name, or in the one behind it
    rcases infix_append_cons (by decide) hinfix with hstart | hinfix
    · exact absurd hstart (by decide)
    rcases infix_append_cons (by decide) hinfix with hname | hcell
    · have hquote : (34 : UInt8) ∈ name ++ lit "</td" := hname.subset (by decide)
      rcases List.mem_append.mp hquote with hquote | hquote
      · exact h hquote
      · exact absurd hquote (by decide)
    · exact absurd hcell (by decide)
  -- the address ends at the first quote, and there is none in it
  have haddress : ∀ c ∈ lit "downl/" ++ name, c ∉ lit "\"" := by
    intro c hc hstop
    obtain rfl := List.mem_singleton.mp hstop
    rcases List.mem_append.mp hc with hc | hc
    · exact absurd hc (by decide)
    · exact h hc
  change quoted _ _ (fileRow name) = _
  rw [hrow]
  exact quoted_of_first hfirst haddress (by decide)

/-- The row up to the end of the argument. -/
theorem fileRow_argument (name : Bytes) : ∃ rest, fileRow name =
    (rowStart ++ name ++ lit "</td> <td class=\"col2\"><a href=\"downl/" ++ name ++
      lit "\">downl</a></td> <td class=\"col3\"><a href=\"#\" onclick=\"return ") ++
        (lit "confirmDelete('" ++ (name ++ 39 :: rest)) := by
  have hcall :
    lit "\">downl</a></td> <td class=\"col3\"><a href=\"#\" onclick=\"return confirmDelete('" =
      lit "\">downl</a></td> <td class=\"col3\"><a href=\"#\" onclick=\"return " ++
        lit "confirmDelete('" := by
    decide
  -- behind the name the argument ends with a single quote
  have hquote : lit "');\">remov</a></td></tr>" = 39 :: lit ");\">remov</a></td></tr>" := by decide
  refine ⟨lit ");\">remov</a></td></tr>" ++ lit "\n", ?_⟩
  rw [fileRow, hcall, hquote, rowStart]
  simp only [List.append_assoc, List.cons_append]

/-- **The argument of `confirmDelete`** is read whole when there is no quote in the name. -/
theorem filename_rowOf {name : Bytes} (hdouble : 34 ∉ name) (h : 39 ∉ name) :
    (rowOf name).filename = name := by
  obtain ⟨rest, hrow⟩ := fileRow_argument name
  -- there is no single quote in front of the call
  have hfirst : ¬ lit "confirmDelete('" <:+: (rowStart ++ name ++
      lit "</td> <td class=\"col2\"><a href=\"downl/" ++ name ++
        lit "\">downl</a></td> <td class=\"col3\"><a href=\"#\" onclick=\"return ") ++
          (lit "confirmDelete('").dropLast := by
    -- the quote of the call would be in what stands in front of it
    intro hinfix
    have hquote := hinfix.subset (show (39 : UInt8) ∈ lit "confirmDelete('" by decide)
    simp only [List.mem_append, h, or_false] at hquote
    revert hquote
    decide
  have hname : ∀ c ∈ name, c ∉ lit "'\"" := by
    intro c hc hstop
    rcases List.mem_pair.mp hstop with rfl | rfl
    · exact h hc
    · exact hdouble hc
  change quoted _ _ (fileRow name) = _
  rw [hrow]
  exact quoted_of_first hfirst hname (by decide)

/-- What `readdir` gives, without the two entries that are no files. -/
def listing (v : FileServer.View) : List Bytes :=
  v.order.filter fun name => name ≠ lit "." ∧ name ≠ lit ".."

/-- The page the server builds. -/
theorem page_of_world {fs : FileSystem} {page text : Bytes} {v : FileServer.View}
    (h : getFileListPage (fs.world page v) [] = .ok text) : text = pageWith page (listing v) :=
  getFileListPage_eq_listPage h

/-! ### Following a link -/

/-- The path of a file in `filedir`. -/
theorem cStr_plain {name : Bytes} (h : PlainName name) :
    cStr (lit "filedir/" ++ name) = filedir ++ name := by
  rw [cStr_filedir]
  refine congrArg (filedir ++ ·) (List.takeWhile_eq_self_iff.mpr fun c hc => decide_eq_true ?_)
  rintro rfl
  exact h.2.1 hc

/-- A link is split into its operation and its file. -/
theorem splitResource_link (op name : Bytes) (hop : 47 ∉ op) (hname : PlainName name)
    (hint : op.length + 1 < 2 ^ 31) (hlong : op.length + name.length + 2 ≤ maxSize) :
    splitResource (47 :: (op ++ 47 :: name)) = .ok (op, name) := by
  have hlen : (47 :: (op ++ 47 :: name)).length = op.length + name.length + 2 := by
    rw [List.length_cons, List.length_append, List.length_cons]
    omega
  rw [splitResource_slash 47 hop name hint (hlen ▸ hlong), if_neg hname.1]

/-- The link of a row asks for its file, and can stand in a request line. -/
structure Row.Downloads (row : Row) : Prop where
  token : IsToken (lit "/" ++ row.href)
  query : Query.of (lit "/" ++ row.href) = some (.read (filedir ++ row.name))

/-- What `deleteFile` fetches for a row asks for the removal of its file, and can stand in a request
line. -/
structure Row.Removes (row : Row) : Prop where
  token : IsToken (lit "/del/" ++ row.filename)
  query : Query.of (lit "/del/" ++ row.filename) = some (.remove (filedir ++ row.name))

/-- What a query is about is a part of the resource. -/
theorem subset_of_query {resource path name : Bytes} {query : Query}
    (h : Query.of resource = some query) (hquery : query = .read path ∨ query = .remove path)
    (hpath : path = filedir ++ name) : name ⊆ resource := by
  unfold Query.of at h
  cases hsplit : splitResource resource with
  | error f =>
    rw [hsplit] at h
    cases h
  | ok parts =>
    obtain ⟨opera, filename⟩ := parts
    rw [hsplit] at h
    -- both queries are about the file that the resource names
    have hfile : path = cStr (lit "filedir/" ++ filename) := by
      simp only [Option.some.injEq] at h
      split_ifs at h <;> subst h <;> rcases hquery with hq | hq <;> cases hq <;> rfl
    rw [hpath, cStr_filedir] at hfile
    rw [List.append_cancel_left hfile]
    exact List.Subset.trans (List.takeWhile_subset _) (splitResource_subset hsplit)

section Links

variable {name : Bytes}

/-- **The link of a row leads to its file** exactly when there is no double quote in the name. -/
theorem downloads_iff (hplain : PlainName name) (hword : IsWord name)
    (hlong : name.length + 7 ≤ maxSize) : (rowOf name).Downloads ↔ 34 ∉ name := by
  constructor
  -- the address ends at the quote, so it cannot name the file
  · rintro ⟨-, hquery⟩ hquote
    have hmem := subset_of_query hquery (.inl rfl) rfl hquote
    rcases List.mem_append.mp hmem with hmem | hmem
    · exact absurd hmem (by decide)
    · exact not_mem_quoted (by decide) _ hmem
  · intro hquote
    have hsplit : splitResource (lit "/downl/" ++ name) = .ok (lit "downl", name) :=
      splitResource_link (lit "downl") name (by decide) hplain (by decide)
        (by change 5 + _ + 2 ≤ _; omega)
    -- without one the address is the whole name behind `downl/`
    have hhref : lit "/" ++ (rowOf name).href = lit "/downl/" ++ name := by
      rw [href_rowOf hquote]
      rfl
    refine ⟨?_, ?_⟩ <;> rw [hhref]
    · exact ⟨List.cons_ne_nil _ _, isWord_append.mpr ⟨by decide, hword⟩⟩
    · unfold Query.of
      rw [hsplit]
      simp only [cStr_plain hplain]
      rfl

/-- **The button of a row removes its file** exactly when there is no quote in the name: the
argument stands in single quotes, and the call in double ones. -/
theorem removes_iff (hplain : PlainName name) (hword : IsWord name)
    (hlong : name.length + 7 ≤ maxSize) : (rowOf name).Removes ↔ 34 ∉ name ∧ 39 ∉ name := by
  constructor
  · rintro ⟨-, hquery⟩
    have hsubset := subset_of_query hquery (.inr rfl) rfl
    -- a quote of the name would be in the argument that was read
    have hstop {stop : UInt8} (hstop : stop ∈ lit "'\"") (hpath : stop ∉ lit "/del/") :
        stop ∉ name := by
      intro hmem
      rcases List.mem_append.mp (hsubset hmem) with hmem | hmem
      · exact hpath hmem
      · exact not_mem_quoted hstop _ hmem
    exact ⟨hstop (by decide) (by decide), hstop (by decide) (by decide)⟩
  -- without them the argument is the whole name
  · rintro ⟨hdouble, hsingle⟩
    have hsplit : splitResource (lit "/del/" ++ name) = .ok (lit "del", name) :=
      splitResource_link (lit "del") name (by decide) hplain (by decide)
        (by change 3 + _ + 2 ≤ _; omega)
    refine ⟨?_, ?_⟩ <;> rw [filename_rowOf hdouble hsingle]
    · exact ⟨List.cons_ne_nil _ _, isWord_append.mpr ⟨by decide, hword⟩⟩
    · unfold Query.of
      rw [hsplit]
      simp only [cStr_plain hplain]
      rfl

end Links

/-- A name on the page is shorter than the page. -/
theorem length_of_mem_page {page name : Bytes} {names : List Bytes} (h : name ∈ names) :
    name.length + 7 ≤ (pageWith page names).length := by
  -- the row alone is longer than the name
  have hrow : name.length + 7 ≤ (fileRow name).length := by
    have hstart : 7 ≤ (lit "            <tr><td class=\"col1\">").length := by decide
    unfold fileRow
    simp only [List.length_append]
    omega
  obtain ⟨before, after, rfl⟩ := List.append_of_mem h
  unfold pageWith
  simp only [List.flatMap_append, List.flatMap_cons, List.length_append]
  omega

namespace FileServer

/-! ### The names of the directory -/

/-- The calls of a step touch files in `filedir` only. -/
def Plain (page : Bytes) (s : FileServer) (l : Label) : Prop :=
  ∀ p ∈ s.callOf page l, ∀ a ∈ p.2.acts, ∀ path ∈ a.touched, PlainPath path

instance (page : Bytes) (s : FileServer) (l : Label) : Decidable (s.Plain page l) :=
  inferInstanceAs (Decidable (∀ p ∈ s.callOf page l, _))

/-- White space is in no name of the directory, and in none that is to come. -/
structure Named (s : FileServer) : Prop where
  base : s.base.Words
  names : ∀ name ∈ s.disk.names, IsWord name

section Steps

variable {page : Bytes} {s t : FileServer} {l : Label}

/-- A file that is there behind some actions was there before, or one of them is about it. -/
theorem file_of_afterAll {fs : FileSystem} {acts : List Action}
    (hplain : ∀ a ∈ acts, ∀ path ∈ a.touched, PlainPath path) {path : Bytes}
    (h : (fs.afterAll acts).file path ≠ none) :
    fs.file path ≠ none ∨ ∃ a ∈ acts, a.name = some path := by
  -- no action makes or changes the file, or one does
  by_cases hnone : ∀ a ∈ acts, a.alters ≠ some path
  · rw [fs.file_afterAll fun a ha p hp => hplain a ha p (Action.touched_of_alters hp),
      fileAfter_of_not_alters hnone] at h
    exact .inl h
  · obtain ⟨a, ha, hp⟩ : ∃ a ∈ acts, a.alters = some path := by simpa using hnone
    refine .inr ⟨a, ha, ?_⟩
    have htouched := Action.touched_of_alters hp
    cases a <;> first | exact htouched | cases htouched

/-- Every step keeps white space out of the names: what a step names was read from a request, and a
word there has none. -/
theorem Named.step (hs : s.Named) (hplain : s.Plain page l) (hstep : s.step page l = some t) :
    t.Named := by
  rcases step_cases hstep with ⟨fd, base, rfl, hbase, rfl⟩ | ⟨fd, h, c, hhandler, hready, rfl⟩
  · exact ⟨hs.base.step hbase, hs.names⟩
  · have hbase : s.base.step (.call fd h) = some (s.base.after fd c (s.base.call fd h)) :=
      Server.call_eq_some.mpr ⟨c, hready, rfl⟩
    refine ⟨hs.base.step hbase, fun name hname => ?_⟩
    rw [FileSystem.mem_names] at hname
    rcases file_of_afterAll (hplain _ (mem_callOf hhandler hready)) hname with hbefore
      | ⟨a, ha, hpath⟩
    · exact hs.names name ((s.disk.mem_names name).mpr hbefore)
    · -- a new name is the one of an action, behind `filedir/`
      obtain ⟨-, -, hacts⟩ := h.call_words (hs.base.request fd) (hs.base.response fd)
      exact (isWord_append.mp (hacts a ha _ hpath)).2

end Steps

/-- White space is in no name in every run, if it was in none at the start. -/
theorem named_of_reachable {page : Bytes} {fs : FileSystem} (hfs : ∀ name ∈ fs.names, IsWord name)
    {s : FileServer} (h : (fileServer page fs).Reachable (Plain page) s) : s.Named :=
  h.invariant ⟨Server.words_init, hfs⟩ fun _ _ _ _ hs hplain hstep => hs.step hplain hstep

/-- **The page lists the directory, and its rows lead to the files**, but for the names with a
quote: each file has one row, and the link and the button of a row are for its file exactly when the
name does not end them early. -/
theorem listing_of_reachable {page : Bytes} {fs : FileSystem} (hfs : ∀ name ∈ fs.names, IsWord name)
    {s : FileServer} (h : (fileServer page fs).Reachable (Plain page) s) {v : View}
    (hv : s.Offers v) {text : Bytes} (htext : getFileListPage (s.disk.world page v) [] = .ok text) :
    ∃ rows, pageRows page text = some rows ∧ (rows.map Row.name).Nodup ∧
      (∀ name, name ∈ rows.map Row.name ↔ s.disk.file (filedir ++ name) ≠ none) ∧
      ∀ row ∈ rows, (row.Downloads ↔ 34 ∉ row.name) ∧
        (row.Removes ↔ 34 ∉ row.name ∧ 39 ∉ row.name) := by
  have hnamed := named_of_reachable hfs h
  have hpage := page_of_world htext
  have hperm : (listing v).Perm s.disk.names := hv.perm_names
  have hplain : ∀ name ∈ listing v, PlainName name :=
    fun name hname => s.disk.plain_of_mem_names (hperm.mem_iff.mp hname)
  -- the names of the rows are those that are listed
  have hnames : ((listing v).map rowOf).map Row.name = listing v := by
    rw [List.map_map]
    exact List.map_id _
  refine ⟨(listing v).map rowOf, pageRows_eq_some_iff.mpr ⟨?_, hnames.symm ▸ hpage⟩,
    hnames.symm ▸ hperm.nodup_iff.mpr s.disk.nodup_names, fun name => ?_, ?_⟩
  · rintro row hrow
    obtain ⟨name, hname, rfl⟩ := List.mem_map.mp hrow
    exact ⟨(hplain name hname).2.2.1, rfl⟩
  · rw [hnames, hperm.mem_iff, s.disk.mem_names]
  · rintro row hrow
    obtain ⟨name, hname, rfl⟩ := List.mem_map.mp hrow
    have hword := hnamed.names name (hperm.mem_iff.mp hname)
    -- the name is on a page that a string holds, so a string holds its links as well
    have hlong : name.length + 7 ≤ maxSize := by
      refine le_trans ?_ (getFileListPage_length htext)
      rw [hpage]
      exact length_of_mem_page hname
    exact ⟨downloads_iff (hplain name hname) hword hlong,
      removes_iff (hplain name hname) hword hlong⟩

/-- The list behind the upload of a file. -/
def notesView : View := ⟨[lit ".", lit "mynotes.txt", lit ".."], 7, true, sampleWorld.fresh⟩

theorem listing_of_reachable_notes :
    ∃ s text rows row, (fileServer labelPage .empty).run (fileServer labelPage .empty).start
        [.accept 5, chunkOn 5 sampleUpload.bytes] = some s ∧
      getFileListPage (s.disk.world labelPage notesView) [] = .ok text ∧
      pageRows labelPage text = some rows ∧ row ∈ rows ∧ row.name = lit "mynotes.txt" ∧
      row.Downloads ∧ row.Removes := by
  -- the upload is run, and the page is made
  have hrun : ((fileServer labelPage .empty).run (fileServer labelPage .empty).start
      [.accept 5, chunkOn 5 sampleUpload.bytes]).map (fun s => (decide (s.Offers notesView),
        (s.disk.file (filedir ++ lit "mynotes.txt")).isSome,
        (getFileListPage (s.disk.world labelPage notesView) []).toOption.isSome)) =
      some (true, true, true) := by
    decide +kernel
  have halong : (fileServer labelPage .empty).Along (Plain labelPage)
      (fileServer labelPage .empty).start [.accept 5, chunkOn 5 sampleUpload.bytes] := by
    decide +kernel
  obtain ⟨s, hs, hwhat⟩ := Option.map_eq_some_iff.mp hrun
  obtain ⟨hoffers, hwhat⟩ := Prod.mk.inj hwhat
  obtain ⟨hfile, hpage⟩ := Prod.mk.inj hwhat
  cases htext : getFileListPage (s.disk.world labelPage notesView) [] with
  | error f =>
    rw [htext] at hpage
    cases hpage
  | ok text =>
    obtain ⟨rows, hrows, -, hmem, hlinks⟩ := listing_of_reachable (List.forall_mem_nil _)
      (Machine.reachable_of_run .start hs halong) (of_decide_eq_true hoffers) htext
    obtain ⟨row, hrow, hname⟩ := List.mem_map.mp
      ((hmem (lit "mynotes.txt")).mpr (Option.isSome_iff_ne_none.mp hfile))
    obtain ⟨hdownloads, hremoves⟩ := hlinks row hrow
    exact ⟨s, text, rows, row, hs, htext, hrows, hrow, hname, hdownloads.mpr (hname ▸ by decide),
      hremoves.mpr (hname ▸ by decide)⟩

end FileServer

end Cherokee
