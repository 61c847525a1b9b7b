import Cherokee.FileList
import Cherokee.GetEffects

/-!
# File names in the page

A row of the file list page holds the name of its file three times: as text, inside a double-quoted
`href`, and inside a single-quoted argument of a script. The name is pasted as it is. What a browser
makes of the page is decided by `<`, `>` and the two quotes, in their order: the `markup` of the
page.

* `HandleSend.markup_fileRow`: what a name adds to the markup of its row.
* `HandleSend.markup_plain_iff`: the names leave the markup of the page alone exactly when none of
  them has one of the four characters.
-/

open Search

namespace Cherokee

/-! ### The characters that make the markup -/

/-- `<`, `>`, `"` and `'` -/
def isMarkup (c : UInt8) : Bool := c = 60 || c = 62 || c = 34 || c = 39

/-- The characters of a page that make its markup, in their order. -/
def markup (text : Bytes) : Bytes := text.filter isMarkup

/-- A letter. -/
def isLetter (c : UInt8) : Bool := (65 ≤ c && c ≤ 90) || (97 ≤ c && c ≤ 122)

theorem markup_append (s t : Bytes) : markup (s ++ t) = markup s ++ markup t :=
  List.filter_append s t

theorem markup_eq_nil_iff {text : Bytes} : markup text = [] ↔ ∀ c ∈ text, isMarkup c = false := by
  unfold markup
  rw [List.filter_eq_nil_iff]
  exact forall₂_congr fun _ _ => Bool.eq_false_iff.symm

theorem isMarkup_of_isLetter {c : UInt8} (h : isLetter c = true) : isMarkup c = false := by
  by_contra hm
  have hm : c = 60 ∨ c = 62 ∨ c = 34 ∨ c = 39 := by
    simpa only [isMarkup, Bool.or_eq_true, decide_eq_true_eq, or_assoc, Bool.not_eq_false] using hm
  rcases hm with rfl | rfl | rfl | rfl <;> exact absurd h (by decide)

theorem markup_letters {name : Bytes} (h : ∀ c ∈ name, isLetter c = true) : markup name = [] :=
  markup_eq_nil_iff.mpr fun c hc => isMarkup_of_isLetter (h c hc)

namespace HandleSend

/-! ### Rows -/

/-- **A name adds its own markup to that of its row**, in three places. -/
theorem markup_fileRow (name : Bytes) :
    markup (fileRow name) = lit "<><\"\">" ++ markup name ++ lit "<><\"\"><\"" ++ markup name ++
      lit "\"><><><\"\"><\"\"\"'" ++ markup name ++ lit "'\"><><><>" := by
  have htext : markup (lit "            <tr><td class=\"col1\">") = lit "<><\"\">" := by decide
  have hhref : markup (lit "</td> <td class=\"col2\"><a href=\"downl/") = lit "<><\"\"><\"" := by
    decide
  have hscript :
    markup
    (lit "\">downl</a></td> <td class=\"col3\"><a href=\"#\" onclick=\"return confirmDelete('") =
      lit "\"><><><\"\"><\"\"\"'" := by
    decide
  have hend : markup (lit "');\">remov</a></td></tr>") = lit "'\"><><><>" := by decide
  have hnewline : markup (lit "\n") = [] := by decide
  unfold fileRow
  simp only [markup_append, htext, hhref, hscript, hend, hnewline, List.append_nil]

/-- The markup of the rows is as long as that of rows without names, and three times that of the
names. -/
theorem markup_rows_length (names : List Bytes) :
    (markup (names.flatMap fileRow)).length =
      names.length * (markup (fileRow [])).length + 3 * (markup names.flatten).length := by
  induction names with
  | nil => rfl
  | cons name names ih =>
    have hrow : (markup (fileRow name)).length =
        (markup (fileRow [])).length + 3 * (markup name).length := by
      simp only [markup_fileRow, List.length_append, show markup [] = [] from rfl, List.length_nil]
      omega
    rw [List.flatMap_cons, List.flatten_cons, markup_append, markup_append, List.length_append,
      List.length_append, List.length_cons, ih, hrow, Nat.add_one_mul names.length]
    omega

/-- Names without markup leave the rows with that of rows without names. -/
theorem markup_rows_plain {names : List Bytes} (h : ∀ name ∈ names, markup name = []) :
    markup (names.flatMap fileRow) =
      (List.replicate names.length (markup (fileRow []))).flatten := by
  induction names with
  | nil => rfl
  | cons name names ih =>
    have hrow : markup (fileRow name) = markup (fileRow []) := by
      rw [markup_fileRow, markup_fileRow, h name List.mem_cons_self]
      rfl
    rw [List.flatMap_cons, markup_append, hrow, ih fun n hn => h n (List.mem_cons_of_mem _ hn)]
    rfl

/-! ### The page -/

/-- A page that has been built is the one of the directory. -/
theorem getFileListPage_eq_listPage {w : World} {page : Bytes}
    (h : getFileListPage w [] = .ok page) :
    page = listPage w :=
  Except.ok.inj (h.symm.trans (getFileListPage_lists ((getFileListPage_isOk_iff w).mp ⟨page, h⟩)))

/-- The parts of the page around the rows are those of the template. -/
theorem listPage_parts (w : World) :
    ∃ before after, ∀ entries names, getFileVec (some entries) = .ok names →
      listPage { w with filedir := some entries } = before ++ names.flatMap fileRow ++ after := by
  let lines := linesOf (w.page.getD [])
  refine ⟨(lines.takeWhile (· ≠ filelistLabel)).flatMap (· ++ lit "\n"),
    (lines.dropWhile (· ≠ filelistLabel)).tail.flatMap (· ++ lit "\n"),
    fun entries names hnames => ?_⟩
  rw [← Except.ok.inj hnames]
  rfl

/-- **Names leave the markup of the page alone exactly when they have no character of it**: the page
for them has the markup of the page for equally many names of letters. -/
theorem markup_plain_iff {w : World} {entries entries' names letters : List Bytes}
    {page page' : Bytes}
    (hnames : getFileVec (some entries) = .ok names)
    (hletters : getFileVec (some entries') = .ok letters)
    (hlength : names.length = letters.length)
    (halpha : ∀ name ∈ letters, ∀ c ∈ name, isLetter c = true)
    (hpage : getFileListPage { w with filedir := some entries } [] = .ok page)
    (hpage' : getFileListPage { w with filedir := some entries' } [] = .ok page') :
    markup page = markup page' ↔ ∀ name ∈ names, ∀ c ∈ name, isMarkup c = false := by
  obtain ⟨before, after, hparts⟩ := listPage_parts w
  rw [getFileListPage_eq_listPage hpage, getFileListPage_eq_listPage hpage',
    hparts entries names hnames, hparts entries' letters hletters]
  simp only [markup_append]
  constructor
  · intro hsame
    -- the pages are equally long, and only the markup of the names can make the first one longer
    have hlen := congrArg List.length hsame
    simp only [List.length_append, markup_rows_length, hlength] at hlen
    -- letters are no markup
    have hnone : (markup letters.flatten).length = 0 := by
      refine List.length_eq_zero_iff.mpr (markup_letters fun c hc => ?_)
      obtain ⟨name, hname, hc⟩ := List.mem_flatten.mp hc
      exact halpha name hname c hc
    have hnames : markup names.flatten = [] := List.length_eq_zero_iff.mp (by omega)
    intro name hname c hc
    exact markup_eq_nil_iff.mp hnames c (List.mem_flatten.mpr ⟨name, hname, hc⟩)
  · intro hnone
    have hnone : ∀ name ∈ names, markup name = [] :=
      fun name hname => markup_eq_nil_iff.mpr (hnone name hname)
    -- without markup in the names both pages have that of the template and of the rows
    have hplain : ∀ name ∈ letters, markup name = [] :=
      fun name hname => markup_letters (halpha name hname)
    rw [markup_rows_plain hnone, markup_rows_plain hplain, hlength]

theorem markup_plain_iff_text :
    markup (listPage { sampleWorld with filedir := some [lit ".", lit "..", lit "a-1.txt"] }) =
      markup (listPage { sampleWorld with filedir := some [lit "b"] }) :=
  (@markup_plain_iff sampleWorld _ _ [lit "a-1.txt"] [lit "b"] _ _ rfl rfl rfl (by decide +kernel)
    (getFileListPage_lists ⟨by decide, rfl, by decide +kernel⟩)
    (getFileListPage_lists ⟨by decide, rfl, by decide +kernel⟩)).mpr (by decide +kernel)

/-! ### Names that a request can store -/

/-- The name of a file in a directory. -/
structure IsFileName (name : Bytes) : Prop where
  nonempty : name ≠ []
  no_slash : 47 ∉ name
  no_zero : 0 ∉ name

/-- An upload or a `PUT` request opens the file with the name for writing. -/
def Storable (name : Bytes) : Prop :=
  IsFileName name ∧ ∃ (recvs : List (List HandleRecv.RecvResult)) (fresh : Uninit) (w : World)
    (results : List SendResult),
    let c := HandleRecv.receives recvs none
    .openAppend (lit "filedir/" ++ name) true ∈ c.acts ∨
      c.request.map (·.requestMethod) = some (lit "PUT") ∧
        .openTrunc (lit "filedir/" ++ name) true ∈
          (sends [(w, results)] c.request (handOver fresh none c.acts)).acts

theorem storable_quote : Storable (lit "a'b") := by
  refine ⟨⟨by decide, by decide, by decide⟩,
    [[.data (lit "PUT /put/a'b HTTP/1.1\r\nContent-Length: 0\r\n\r\n") true]], sampleWorld.fresh,
    sampleWorld, [.accepted 4096 []], .inr ⟨?_, ?_⟩⟩
  · decide +kernel
  · decide +kernel

/-- A stored name with a quote of the script. -/
theorem markup_changed :
    ¬ ∀ (w : World) (entries entries' names letters : List Bytes) (page page' : Bytes),
      (∀ name ∈ names, Storable name) → getFileVec (some entries) = .ok names →
      getFileVec (some entries') = .ok letters → names.length = letters.length →
      (∀ name ∈ letters, ∀ c ∈ name, isLetter c = true) →
      getFileListPage { w with filedir := some entries } [] = .ok page →
      getFileListPage { w with filedir := some entries' } [] = .ok page' →
      markup page = markup page' := by
  intro h
  have hsame := h sampleWorld [lit "a'b"] [lit "ab"] [lit "a'b"] [lit "ab"] _ _
    (List.forall_mem_singleton.mpr storable_quote) rfl rfl rfl (by decide +kernel)
    (getFileListPage_lists ⟨by decide, rfl, by decide +kernel⟩)
    (getFileListPage_lists ⟨by decide, rfl, by decide +kernel⟩)
  revert hsame
  decide +kernel

end HandleSend

end Cherokee
