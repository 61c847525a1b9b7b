import Cherokee.HeaderLines
import Cherokee.PartHeader

/-!
# The boundary of a media type

`Request::addHeaderOpt` cuts a `Content-Type` at fixed places: the value begins one character behind
the colon, and there is one parameter, whose name begins two characters behind the first semicolon
and whose value is all that stands behind the equals sign. It is entered beside the header fields,
where a line with the same name replaces it, or is replaced.

Here a header section holds one `Content-Type` line in the form that HTTP gives it: any number of
parameters, with optional white space (`ContentType`), between any other lines (`HeaderSection`).

* `HeaderSection.entered`: what the two entries of an upload hold behind the section.
* `HandleRecv.delimiter_is_boundary_iff`: the delimiter is the parameter `boundary` exactly when the
  line has the form the parser is made for and no other line interferes (`HeaderSection.Delimits`).
-/

open Search LastWins

namespace Cherokee

open Request HandleRecv

/-! ### The last line with a name -/

/-- The value of the last line with this name, which is the one that stays in the table. -/
def lastNamed (key : Bytes) (lines : List Bytes) : Option Bytes :=
  (lines.filter fun line => lineKey line = key).getLast?.map lineValue

/-- A line in front counts when no line behind it has the name. -/
theorem lastNamed_cons (key line : Bytes) (lines : List Bytes) :
    lastNamed key (line :: lines) =
      (lastNamed key lines).or (if lineKey line = key then some (lineValue line) else none) := by
  unfold lastNamed
  rw [List.filter_cons]
  by_cases h : lineKey line = key
  · rw [if_pos (decide_eq_true h), if_pos h, List.getLast?_cons]
    cases (lines.filter fun line => lineKey line = key).getLast? <;> rfl
  · rw [if_neg (by simpa using h), if_neg h, Option.or_none]

/-- An entry behind lines without a media type is that of the last line with its name. -/
theorem enter_linePairs {key : Bytes} (hkey : key ≠ lit "Content-Length") {lines : List Bytes}
    (hlines : ∀ line ∈ lines, lineKey line ≠ lit "Content-Type") (m : Bytes → Option Bytes) :
    enter m (lines.flatMap linePairs) key = (lastNamed key lines).or (m key) := by
  induction lines generalizing m with
  | nil => rfl
  | cons line lines ih =>
    have hline := hlines line List.mem_cons_self
    rw [List.flatMap_cons, enter_append, ih fun x hx => hlines x (List.mem_cons_of_mem line hx),
      lastNamed_cons, Option.or_assoc]
    congr 1
    -- one line enters its own name, or nothing
    unfold linePairs
    by_cases hlen : lineKey line = lit "Content-Length"
    · rw [if_pos hlen, if_neg (by rw [hlen]; exact hkey.symm)]
      rfl
    · rw [if_neg hlen, if_neg hline, enter_cons, enter_nil, Function.update_apply]
      by_cases h : lineKey line = key
      · rw [if_pos h, if_pos h.symm]
        rfl
      · rw [if_neg h, if_neg fun heq => h heq.symm]
        rfl

/-- Without a line of that name there is no value. -/
theorem lastNamed_eq_none {key : Bytes} {lines : List Bytes}
    (h : ∀ line ∈ lines, lineKey line ≠ key) :
    lastNamed key lines = none := by
  unfold lastNamed
  rw [List.filter_eq_nil_iff.mpr fun line hline => by simpa using h line hline]
  rfl

/-! ### A media type with parameters -/

/-- Optional white space: spaces and tabs. -/
def IsBlank (s : Bytes) : Prop := ∀ c ∈ s, c = 32 ∨ c = 9

instance (s : Bytes) : Decidable (IsBlank s) := List.decidableBAll _ s

/-- A parameter of a media type: `;`, white space, the name, `=` and the value. -/
structure Parameter where
  space : Bytes
  name : Bytes
  value : Bytes
  blank : IsBlank space
  token : IsToken name
  equals : 61 ∉ name
  line : lf ∉ value

/-- The bytes of a parameter, with its semicolon in front. -/
def Parameter.bytes (p : Parameter) : Bytes := 59 :: (p.space ++ p.name ++ 61 :: p.value)

/-- The name the parser reads: it begins two characters behind the semicolon. -/
def Parameter.readName (p : Parameter) : Bytes := (p.space ++ p.name).tail

/-- The `Content-Type` line of an upload: the white space behind the colon, the media type, and the
parameters. -/
structure ContentType where
  space : Bytes
  parameters : List Parameter
  blank : IsBlank space

/-- The media type of an upload. -/
def multipart : Bytes := lit "multipart/form-data"

/-- The line without its terminator. -/
def ContentType.line (t : ContentType) : Bytes :=
  lit "Content-Type:" ++ (t.space ++ (multipart ++ t.parameters.flatMap Parameter.bytes))

/-- A header section with one `Content-Type` line. -/
structure HeaderSection where
  before : List Bytes
  type : ContentType
  after : List Bytes
  /-- The other lines are not blank and have other names. -/
  others : ∀ l ∈ before ++ after, IsPartLine l ∧ lineKey (l ++ crlf) ≠ lit "Content-Type"
  /-- A string holds no more. -/
  size : ((before ++ type.line :: after).flatMap (· ++ crlf) ++ crlf).length ≤ maxSize

namespace HeaderSection

/-- The lines of the section. -/
def lines (s : HeaderSection) : List Bytes := s.before ++ s.type.line :: s.after

/-- The bytes of the section, with the blank line that ends it. -/
def bytes (s : HeaderSection) : Bytes := s.lines.flatMap (· ++ crlf) ++ crlf

end HeaderSection

/-- It is white space for the parser as well. -/
theorem isSpace_of_isBlank {s : Bytes} (h : IsBlank s) {c : UInt8} (hc : c ∈ s) :
    isspace c = true := by
  rcases h c hc with rfl | rfl <;> rfl

/-- No other character is among it. -/
theorem IsBlank.not_mem {s : Bytes} (h : IsBlank s) {c : UInt8} (h32 : c ≠ 32) (h9 : c ≠ 9) :
    c ∉ s := by
  intro hc
  rcases h c hc with rfl | rfl
  · exact h32 rfl
  · exact h9 rfl

/-- No line feed stands in a parameter. -/
theorem Parameter.lf_not_mem (p : Parameter) : lf ∉ p.bytes := by
  have hspace : lf ∉ p.space := p.blank.not_mem (by decide) (by decide)
  have hname : lf ∉ p.name := p.token.2.not_mem (by decide)
  simp only [Parameter.bytes, List.mem_cons, List.mem_append, not_or]
  exact ⟨by decide, ⟨hspace, hname⟩, by decide, p.line⟩

/-- No line feed stands in the line. -/
theorem ContentType.lf_not_mem (t : ContentType) : lf ∉ t.line := by
  have hspace : lf ∉ t.space := t.blank.not_mem (by decide) (by decide)
  have hparameters : lf ∉ t.parameters.flatMap Parameter.bytes := by
    intro h
    obtain ⟨p, -, hp⟩ := List.mem_flatMap.mp h
    exact p.lf_not_mem hp
  simp only [ContentType.line, List.mem_append, not_or]
  exact ⟨by decide, hspace, by decide, hparameters⟩

/-- So it is a line that the header loop cuts off as a whole. -/
theorem ContentType.isPartLine (t : ContentType) : IsPartLine t.line := by
  exact ⟨nofun, fun h => t.lf_not_mem (h.subset (by decide))⟩

/-! ### What the parser makes of the line -/

/-- A line that begins with a word: the word ends at the first white space, and what is behind
begins with that. -/
theorem firstWord_append {word : Bytes} (hword : IsToken word) {c : UInt8} (hc : isspace c = true)
    (rest : Bytes) : firstWord (word ++ c :: rest) = word ∧ behindWord (word ++ c :: rest) =
      c :: rest := by
  obtain ⟨d, t, rfl⟩ := List.exists_cons_of_ne_nil hword.1
  have hd : isspace d = false := hword.2 d List.mem_cons_self
  have hdrop : (d :: t ++ c :: rest).dropWhile isspace = d :: t ++ c :: rest := by
    rw [List.cons_append, List.dropWhile_cons_of_neg (by rw [hd]; exact Bool.false_ne_true)]
  have hpos : ∀ x ∈ d :: t, (!isspace x) = true := by
    intro x hx
    rw [hword.2 x hx]
    rfl
  unfold firstWord behindWord
  rw [hdrop, List.takeWhile_append_of_pos hpos, List.dropWhile_append_of_pos hpos,
    List.takeWhile_cons, List.dropWhile_cons, hc]
  simp

namespace ContentType

variable {t : ContentType}

/-- Behind the colon comes white space: its first character is taken for the separator. -/
theorem line_of_space {c : UInt8} {space : Bytes} (h : t.space = c :: space) :
    lineKey (t.line ++ crlf) = lit "Content-Type" ∧
      lineValue (t.line ++ crlf) =
        space ++ (multipart ++ t.parameters.flatMap Parameter.bytes) := by
  have hc : isspace c = true := isSpace_of_isBlank t.blank (by rw [h]; exact List.mem_cons_self)
  have hlf := t.lf_not_mem
  unfold line at hlf ⊢
  rw [h] at hlf ⊢
  generalize multipart ++ t.parameters.flatMap Parameter.bytes = value at hlf ⊢
  rw [List.append_assoc, List.cons_append, List.cons_append, List.append_assoc]
  -- the key is the first word, which ends at the first blank behind the colon
  obtain ⟨hword, hbehind⟩ :=
    firstWord_append (show IsToken (lit "Content-Type:") by decide) hc (space ++ (value ++ crlf))
  refine ⟨by rw [lineKey, hword]; rfl, ?_⟩
  -- the value is what is left of the line, up to its line feed and without the carriage return
  have hread : (space ++ (value ++ crlf)).takeWhile (· ≠ lf) = space ++ value ++ [cr] := by
    -- in front of the terminator there is no line feed
    have hpos : ∀ x ∈ space ++ value ++ [cr], decide (x ≠ lf) = true := by
      intro x hx
      refine decide_eq_true fun hxlf => ?_
      subst hxlf
      rcases List.mem_append.mp hx with hx | hx
      · refine hlf (List.mem_append_right _ ?_)
        exact List.mem_cons_of_mem c hx
      · exact absurd hx (by decide)
    have hsplit : space ++ (value ++ crlf) = space ++ value ++ [cr] ++ [lf] := by
      simp [crlf]
    rw [hsplit, List.takeWhile_append_of_pos hpos]
    simp
  unfold lineValue
  rw [hbehind, List.tail_cons, hread]
  simp

/-- Without white space behind the colon the first word goes on, and the line has another name,
which is longer. -/
theorem length_lineKey_of_no_space (h : t.space = []) : 31 ≤ (lineKey (t.line ++ crlf)).length := by
  have hpos : ∀ x ∈ lit "Content-Type:" ++ multipart, (!isspace x) = true := by decide +kernel
  obtain ⟨rest, hline⟩ : ∃ rest, t.line ++ crlf = lit "Content-Type:" ++ multipart ++ rest := by
    refine ⟨t.parameters.flatMap Parameter.bytes ++ crlf, ?_⟩
    unfold line
    rw [h]
    simp only [List.nil_append, List.append_assoc]
  have hdrop : (t.line ++ crlf).dropWhile isspace = lit "Content-Type:" ++ multipart ++ rest := by
    rw [hline]
    rfl
  unfold lineKey firstWord
  rw [hdrop, List.takeWhile_append_of_pos hpos, List.length_dropLast, List.length_append]
  have hlen : (lit "Content-Type:" ++ multipart).length = 32 := by decide
  omega

/-- **The pairs of the line**: the media type with the white space that is left in front of it, and
what is read as the first parameter, with all other parameters in its value. -/
theorem linePairs_of_space {c : UInt8} {space : Bytes} (h : t.space = c :: space) {p : Parameter}
    {ps : List Parameter} (hps : t.parameters = p :: ps) :
    linePairs (t.line ++ crlf) =
      [(lit "Content-Type", space ++ multipart),
        (p.readName, p.value ++ ps.flatMap Parameter.bytes)] := by
  obtain ⟨hkey, hvalue⟩ := line_of_space h
  have hblank : IsBlank space := fun x hx => t.blank x (by rw [h]; exact List.mem_cons_of_mem c hx)
  have htype : (59 : UInt8) ∉ space ++ multipart := by
    rw [List.mem_append, not_or]
    exact ⟨hblank.not_mem (by decide) (by decide), by decide⟩
  -- what stands behind the semicolon, and its first character
  have hno : (61 : UInt8) ∉ p.space ++ p.name := by
    rw [List.mem_append, not_or]
    exact ⟨p.blank.not_mem (by decide) (by decide), p.equals⟩
  have hne : p.space ++ p.name ≠ [] := List.append_ne_nil_of_right_ne_nil _ p.token.1
  obtain ⟨d, name, hname⟩ := List.exists_cons_of_ne_nil hne
  have hsplit : space ++ (multipart ++ t.parameters.flatMap Parameter.bytes) =
      space ++ multipart ++
        59 :: d :: (name ++ 61 :: (p.value ++ ps.flatMap Parameter.bytes)) := by
    rw [hps, List.flatMap_cons, Parameter.bytes, hname]
    simp only [List.append_assoc, List.cons_append]
  rw [hname, List.mem_cons, not_or] at hno
  have hpos : ∀ x ∈ d :: name, decide (x ≠ 61) = true := by
    intro x hx
    refine decide_eq_true fun heq => ?_
    subst heq
    rcases List.mem_cons.mp hx with hx | hx
    · exact hno.1 hx
    · exact hno.2 hx
  have hread : parameterName d (name ++ 61 :: (p.value ++ ps.flatMap Parameter.bytes)) =
    p.readName := by
    unfold parameterName Parameter.readName
    rw [if_neg fun heq => hno.1 heq.symm, hname, List.tail_cons,
      List.takeWhile_append_of_pos fun x hx => hpos x (List.mem_cons_of_mem d hx)]
    simp
  have hbehind (value : Bytes) :
      parameterValue value d (name ++ 61 :: (p.value ++ ps.flatMap Parameter.bytes)) =
        p.value ++ ps.flatMap Parameter.bytes := by
    unfold parameterValue
    rw [if_pos (by simp), ← List.cons_append, List.dropWhile_append_of_pos hpos]
    simp
  have hlength : lineKey (t.line ++ crlf) ≠ lit "Content-Length" := by
    rw [hkey]
    decide
  unfold linePairs
  rw [if_neg hlength, if_pos hkey, hkey, hvalue, hsplit, contentTypePairs_behind htype,
    hread, hbehind]

end ContentType

/-! ### What the section leaves in the table -/

namespace HeaderSection

/-- The delimiter of the upload is the parameter: one character of white space stands behind the
colon, the first parameter is not entered as the media type, and the last entry `boundary` is right.
That is the one of a line behind the media type; else the first parameter, when it is read as
`boundary`, and then it must be the only one; else that of a line before. -/
def Delimits (s : HeaderSection) (b : Bytes) : Prop :=
  s.type.space.length = 1 ∧
    ∃ p ps, s.type.parameters = p :: ps ∧ p.readName ≠ lit "Content-Type" ∧
      match lastNamed (lit "boundary") (s.after.map (· ++ crlf)) with
      | some value => value = b
      | none =>
        if p.readName = lit "boundary" then ps = []
        else lastNamed (lit "boundary") (s.before.map (· ++ crlf)) = some b

variable {s : HeaderSection}

/-- The lines in front are no media types. -/
theorem not_type_before (s : HeaderSection) :
    ∀ line ∈ s.before.map (· ++ crlf), lineKey line ≠ lit "Content-Type" := by
  intro line hline
  obtain ⟨l, hl, rfl⟩ := List.mem_map.mp hline
  exact (s.others l (List.mem_append_left _ hl)).2

/-- Nor are the lines behind. -/
theorem not_type_after (s : HeaderSection) :
    ∀ line ∈ s.after.map (· ++ crlf), lineKey line ≠ lit "Content-Type" := by
  intro line hline
  obtain ⟨l, hl, rfl⟩ := List.mem_map.mp hline
  exact (s.others l (List.mem_append_right _ hl)).2

/-- The entries that the section makes in the table, from none. -/
def entries (s : HeaderSection) : Bytes → Option Bytes :=
  enter (fun _ => none) ((s.lines.map (· ++ crlf)).flatMap linePairs)

/-- An entry comes from the lines behind the media type, or from it, or from the lines in front. -/
theorem entries_apply (s : HeaderSection) {key : Bytes} (hkey : key ≠ lit "Content-Length") :
    s.entries key = (lastNamed key (s.after.map (· ++ crlf))).or
      (enter (enter (fun _ => none) ((s.before.map (· ++ crlf)).flatMap linePairs))
        (linePairs (s.type.line ++ crlf)) key) := by
  unfold entries lines
  rw [List.map_append, List.map_cons, List.flatMap_append, List.flatMap_cons, enter_append,
    enter_append, enter_linePairs hkey s.not_type_after]

/-- In front of the media type it is that of the last line with its name. -/
theorem entries_before (s : HeaderSection) {key : Bytes} (hkey : key ≠ lit "Content-Length") :
    enter (fun _ => none) ((s.before.map (· ++ crlf)).flatMap linePairs) key =
      lastNamed key (s.before.map (· ++ crlf)) := by
  rw [enter_linePairs hkey s.not_type_before, Option.or_none]

/-- **An entry behind the section** is that of the last line with its name, where the media type
stands for its first parameter, and for itself. -/
theorem entries_of_space {c : UInt8} {space : Bytes} (h : s.type.space = c :: space) {p : Parameter}
    {ps : List Parameter} (hps : s.type.parameters = p :: ps) {key : Bytes}
    (hkey : key ≠ lit "Content-Length") :
    s.entries key = (lastNamed key (s.after.map (· ++ crlf))).or
      (if key = p.readName then some (p.value ++ ps.flatMap Parameter.bytes)
      else if key = lit "Content-Type" then some (space ++ multipart)
      else lastNamed key (s.before.map (· ++ crlf))) := by
  rw [s.entries_apply hkey, ContentType.linePairs_of_space h hps, enter_cons, enter_cons, enter_nil,
    Function.update_apply, Function.update_apply, s.entries_before hkey]

/-- Without white space behind the colon no media type is entered. -/
theorem entries_of_no_space (h : s.type.space = []) : s.entries (lit "Content-Type") = none := by
  have hlong := ContentType.length_lineKey_of_no_space h
  have htype : lineKey (s.type.line ++ crlf) ≠ lit "Content-Type" := by
    intro heq
    rw [heq] at hlong
    exact absurd hlong (by decide)
  have hlength : lineKey (s.type.line ++ crlf) ≠ lit "Content-Length" := by
    intro heq
    rw [heq] at hlong
    exact absurd hlong (by decide)
  have hpairs : linePairs (s.type.line ++ crlf) =
      [(lineKey (s.type.line ++ crlf), lineValue (s.type.line ++ crlf))] := by
    rw [linePairs, if_neg hlength, if_neg htype]
  rw [s.entries_apply (by decide), lastNamed_eq_none s.not_type_after, Option.none_or,
    hpairs, enter_cons,
    enter_nil, Function.update_apply, if_neg htype.symm, s.entries_before (by decide),
    lastNamed_eq_none s.not_type_before]

/-- A value with another parameter behind it has a semicolon, so that one without is the last. -/
theorem value_without_semicolon {p : Parameter} {ps : List Parameter}
    (h : 59 ∉ p.value ++ ps.flatMap Parameter.bytes) : ps = [] := by
  cases ps with
  | nil => rfl
  | cons q ps => exact absurd (List.mem_append_right _ List.mem_cons_self) h

/-- A parameter `boundary` is not read as the media type, whatever its first character is taken
for. -/
theorem readName_of_boundary {p : Parameter} (h : p.name = lit "boundary") :
    p.readName ≠ lit "Content-Type" := by
  unfold Parameter.readName
  rw [h]
  intro heq
  cases hspace : p.space with
  | nil =>
    rw [hspace] at heq
    exact absurd heq (by decide)
  | cons c space =>
    rw [hspace, List.cons_append, List.tail_cons] at heq
    -- the names end with different letters
    have hlast := congrArg List.getLast? heq
    rw [List.getLast?_append, show (lit "boundary").getLast? = some 121 by decide, Option.some_or]
      at hlast
    exact absurd hlast (by decide)

/-- The media type is entered as it is when one white-space character stands in front of it, and the
first parameter does not take its place. -/
theorem mediaType_iff {space : Bytes} {p : Parameter} {ps : List Parameter}
    (hsole : ps = [] → p.name = lit "boundary") :
    (if lit "Content-Type" = p.readName then some (p.value ++ ps.flatMap Parameter.bytes)
      else some (space ++ multipart)) = some multipart ↔
      space = [] ∧ p.readName ≠ lit "Content-Type" := by
  split
  · next heq =>
    refine iff_of_false (fun h => ?_) fun h => h.2 heq.symm
    -- the media type has no semicolon, so no parameter stands behind the first one
    have hclear : (59 : UInt8) ∉ p.value ++ ps.flatMap Parameter.bytes := by
      rw [Option.some.inj h]
      decide
    exact readName_of_boundary (hsole (value_without_semicolon hclear)) heq.symm
  · next hne =>
    rw [Option.some.injEq, List.append_left_eq_self]
    exact ⟨fun h => ⟨h, fun heq => hne heq.symm⟩, fun h => h.1⟩

/-- The value of the first parameter is the rest of the line. -/
theorem firstValue_iff {b : Bytes} (hb : 59 ∉ b) {p : Parameter} {ps : List Parameter}
    (hsole : ps = [] → p.value = b) :
    some (p.value ++ ps.flatMap Parameter.bytes) = some b ↔ ps = [] := by
  rw [Option.some.injEq]
  constructor
  · rintro rfl
    exact value_without_semicolon hb
  · intro hnil
    rw [hsole hnil, hnil, List.flatMap_nil, List.append_nil]

/-- **What an upload finds behind the section**: its own media type and the parameter `boundary`,
exactly when the section delimits it. -/
theorem entries_iff {b : Bytes} (hb : 59 ∉ b)
    (hmem : ∃ p ∈ s.type.parameters, p.name = lit "boundary" ∧ p.value = b) :
    (s.entries (lit "Content-Type") = some multipart ∧ s.entries (lit "boundary") = some b) ↔
      s.Delimits b := by
  obtain ⟨q, hq, hname, hvalue⟩ := hmem
  obtain ⟨p, ps, hps⟩ := List.exists_cons_of_ne_nil (List.ne_nil_of_mem hq)
  unfold Delimits
  cases hspace : s.type.space with
  | nil =>
    rw [entries_of_no_space hspace]
    refine iff_of_false (fun h => ?_) fun h => ?_
    · cases h.1
    · cases h.1
  | cons c space =>
    -- the only parameter is the boundary
    have hsole (hnil : ps = []) : p.name = lit "boundary" ∧ p.value = b := by
      rw [hps, hnil, List.mem_singleton] at hq
      rw [← hq]
      exact ⟨hname, hvalue⟩
    have htype : s.entries (lit "Content-Type") = some multipart ↔
        space = [] ∧ p.readName ≠ lit "Content-Type" := by
      rw [entries_of_space hspace hps (by decide), lastNamed_eq_none s.not_type_after,
        Option.none_or,
        if_pos rfl]
      exact mediaType_iff fun hnil => (hsole hnil).1
    have hboundary : s.entries (lit "boundary") = some b ↔
        match lastNamed (lit "boundary") (s.after.map (· ++ crlf)) with
        | some value => value = b
        | none =>
          if p.readName = lit "boundary" then ps = []
          else lastNamed (lit "boundary") (s.before.map (· ++ crlf)) = some b := by
      rw [entries_of_space hspace hps (by decide)]
      cases lastNamed (lit "boundary") (s.after.map (· ++ crlf)) with
      | some value => exact Option.some_inj
      | none =>
        rw [Option.none_or]
        by_cases heq : p.readName = lit "boundary"
        · rw [if_pos heq.symm]
          simp only [if_pos heq]
          exact firstValue_iff hb fun hnil => (hsole hnil).2
        · rw [if_neg fun h => heq h.symm, if_neg (by decide)]
          simp only [if_neg heq]
    rw [htype, hboundary, hps]
    constructor
    · rintro ⟨⟨rfl, hread⟩, hrest⟩
      exact ⟨rfl, p, ps, rfl, hread, hrest⟩
    · rintro ⟨hlen, p', ps', heq, hread, hrest⟩
      obtain ⟨rfl, rfl⟩ := List.cons.inj heq
      exact ⟨⟨List.length_eq_zero_iff.mp (Nat.succ.inj hlen), hread⟩, hrest⟩

end HeaderSection

/-! ### The header loop on the section -/

namespace HandleRecv

/-- The header loop hands the lines to the parser, one after the other, up to the blank one. By
induction on the lines. -/
theorem headLoop_lines {lines : List Bytes} (hlines : ∀ l ∈ lines, IsPartLine l) (r : Request)
    (m : Bytes) :
    Loop.eval headTurn_decreasing (r.withMsg (lines.flatMap (· ++ crlf) ++ (crlf ++ m))) =
      ((lines.map (· ++ crlf)).foldlM addHeaderOpt r).map fun r' => r'.endHead.withMsg m := by
  induction lines generalizing r with
  | nil =>
    have hturn : headTurn (r.withMsg (crlf ++ m)) = .inr (.ok (r.endHead.withMsg m)) := by
      rw [← endHead_withMsg]
      exact lineTurn_of_blank (cutLine_crlf m)
    exact Loop.eval_of_inr hturn
  | cons l lines ih =>
    have hl := hlines l List.mem_cons_self
    have ih := ih fun x hx => hlines x (List.mem_cons_of_mem l hx)
    rw [List.flatMap_cons, List.append_assoc, List.map_cons, List.foldlM_cons]
    have hcut := hl.cut (lines.flatMap (· ++ crlf) ++ (crlf ++ m))
    cases ho : r.addHeaderOpt (l ++ crlf) with
    | error f =>
      have hturn : headTurn (r.withMsg (l ++ crlf ++ (lines.flatMap (· ++ crlf) ++ (crlf ++ m)))) =
          .inr (.error f) := by
        refine lineTurn_of_error hcut hl.ne_crlf ?_
        rw [withMsg_withMsg, addHeaderOpt_withMsg, ho]
        rfl
      rw [Loop.eval_of_inr hturn]
      rfl
    | ok r₁ =>
      have hturn : headTurn (r.withMsg (l ++ crlf ++ (lines.flatMap (· ++ crlf) ++ (crlf ++ m)))) =
          .inl (r₁.withMsg (lines.flatMap (· ++ crlf) ++ (crlf ++ m))) := by
        refine lineTurn_of_option hcut hl.ne_crlf ?_
        rw [withMsg_withMsg, addHeaderOpt_withMsg, ho]
        rfl
      rw [Loop.eval_of_inl hturn, ih]
      rfl

/-- Behind the header section of a request its headers are the entries of the section. -/
theorem headStage_section {s : HeaderSection} {requestLine m : Bytes} {r : Request}
    (h : headStage ((behindRequestLine requestLine).withMsg (s.bytes ++ m)) = .ok r) :
    r.msgHeader = s.entries := by
  have hlines : ∀ l ∈ s.lines, IsPartLine l := by
    intro l hl
    rcases List.mem_append.mp hl with hl | hl
    · exact (s.others l (List.mem_append_left _ hl)).1
    · rcases List.mem_cons.mp hl with rfl | hl
      · exact s.type.isPartLine
      · exact (s.others l (List.mem_append_right _ hl)).1
  rw [headStage_of_head rfl, HeaderSection.bytes, List.append_assoc, headLoop_lines hlines] at h
  cases hfold : (s.lines.map (· ++ crlf)).foldlM addHeaderOpt (behindRequestLine requestLine) with
  | error f =>
    rw [hfold] at h
    cases h
  | ok r₁ =>
    rw [hfold] at h
    -- no line is longer than the section
    have hcuttable : ∀ line ∈ s.lines.map (· ++ crlf), Cuttable line := by
      intro line hline
      obtain ⟨l, hl, rfl⟩ := List.mem_map.mp hline
      refine ⟨l ++ crlf, [], ?_, ?_, (hlines l hl).ne_crlf⟩
      · have hsub : (l ++ crlf).length ≤ (s.lines.flatMap (· ++ crlf)).length := by
          obtain ⟨before, after, hsplit⟩ := List.append_of_mem hl
          rw [hsplit, List.flatMap_append, List.flatMap_cons]
          simp only [List.length_append]
          omega
        have hsize := s.size
        rw [List.length_append] at hsize
        exact le_trans hsub (le_trans (Nat.le_add_right _ _) hsize)
      · have hcut := (hlines l hl).cut []
        rwa [List.append_nil] at hcut
    have hentries : r₁.msgHeader = s.entries := foldlM_addHeaderOpt hcuttable hfold
    rw [← Except.ok.inj h, withMsg_msgHeader, ← hentries]
    unfold endHead
    split <;> rfl

/-- **The delimiter of an upload is the boundary parameter exactly when the section delimits it.**
For every request line and header section that the parser comes to the end of: the recorded
`Content-Type` is `multipart/form-data` and the boundary is `b`, if and only if the `Content-Type`
line and the other lines are as `Delimits` says. -/
theorem delimiter_is_boundary_iff {s : HeaderSection} {b : Bytes} (hb : 59 ∉ b)
    (hmem : ∃ p ∈ s.type.parameters, p.name = lit "boundary" ∧ p.value = b)
    {requestLine m : Bytes} {r : Request}
    (h : headStage ((behindRequestLine requestLine).withMsg (s.bytes ++ m)) = .ok r) :
    (r.msgHeader (lit "Content-Type") = some (lit "multipart/form-data") ∧ r.boundary? = some b) ↔
      s.Delimits b := by
  rw [boundary?, headStage_section h]
  exact HeaderSection.entries_iff hb hmem

/-- `; boundary=b` -/
def boundaryParameter : Parameter where
  space := lit " "
  name := lit "boundary"
  value := lit "b"
  blank := by decide
  token := by decide
  equals := by decide
  line := by decide

/-- `; charset=utf-8` -/
def charsetParameter : Parameter where
  space := lit " "
  name := lit "charset"
  value := lit "utf-8"
  blank := by decide
  token := by decide
  equals := charset_equals
  line := by decide

/-- A section with these parameters. -/
def sectionOf (parameters : List Parameter)
    (size : (([lit "Host: a"] ++ ContentType.line ⟨lit " ", parameters, by decide⟩ :: []).flatMap
      (· ++ crlf) ++ crlf).length ≤ maxSize) : HeaderSection where
  before := [lit "Host: a"]
  type := ⟨lit " ", parameters, by decide⟩
  after := []
  others := by
    intro l hl
    rw [List.append_nil, List.mem_singleton] at hl
    subst hl
    exact ⟨⟨by decide, by decide⟩, by decide +kernel⟩
  size := size

/-- The section of a browser: the boundary is the only parameter. -/
def browserSection : HeaderSection := sectionOf [boundaryParameter] (by decide +kernel)

/-- A section with another parameter in front of the boundary. -/
def charsetSection : HeaderSection :=
  sectionOf [charsetParameter, boundaryParameter] (by decide +kernel)

theorem delimiter_is_boundary_iff_browser :
    ∃ r, headStage ((behindRequestLine uploadLine).withMsg (browserSection.bytes ++ [])) = .ok r ∧
      r.boundary? = some (lit "b") := by
  cases hr : headStage ((behindRequestLine uploadLine).withMsg (browserSection.bytes ++ [])) with
  | error f =>
    have hok : (headStage ((behindRequestLine uploadLine).withMsg
        (browserSection.bytes ++ []))).toOption.isSome = true := by decide +kernel
    rw [hr] at hok
    cases hok
  | ok r =>
    have hdelimits : browserSection.Delimits (lit "b") := by
      refine ⟨rfl, boundaryParameter, [], rfl, by decide, ?_⟩
      change if boundaryParameter.readName = lit "boundary" then ([] : List Parameter) = [] else _
      rw [if_pos (show boundaryParameter.readName = lit "boundary" by decide)]
    exact ⟨r, rfl, ((delimiter_is_boundary_iff (by decide)
      ⟨boundaryParameter, List.mem_cons_self, rfl, rfl⟩ hr).mpr hdelimits).2⟩

/-- A parameter in front of the boundary is entered with the rest of the line as its value, and no
boundary is. -/
theorem boundary_behind_charset :
    ¬ ∀ (s : HeaderSection) (b requestLine m : Bytes) (r : Request), 59 ∉ b →
      (∃ p ∈ s.type.parameters, p.name = lit "boundary" ∧ p.value = b) →
      headStage ((behindRequestLine requestLine).withMsg (s.bytes ++ m)) = .ok r →
      r.msgHeader (lit "Content-Type") = some (lit "multipart/form-data") ∧
        r.boundary? = some b := by
  intro h
  have hread :
    ((headStage ((behindRequestLine uploadLine).withMsg (charsetSection.bytes ++ []))).map
      fun r => r.boundary?).toOption = some none := by decide +kernel
  cases hr : headStage ((behindRequestLine uploadLine).withMsg (charsetSection.bytes ++ [])) with
  | error f =>
    rw [hr] at hread
    cases hread
  | ok r =>
    rw [hr] at hread
    have hnone : r.boundary? = none := Option.some.inj hread
    have hsome := (h charsetSection (lit "b") uploadLine [] r (by decide)
      ⟨boundaryParameter, List.mem_cons_of_mem _ List.mem_cons_self, rfl, rfl⟩ hr).2
    rw [hnone] at hsome
    cases hsome

end HandleRecv

end Cherokee
