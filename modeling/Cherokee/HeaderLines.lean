import Cherokee.HeadTrip
import Mathlib.Data.List.TakeWhile

/-!
# Header lines as a client may send them

The header loop hands every line but the blank one to `Request::addHeaderOpt`, which takes it apart
without asking whether it is a header: the first word without its last character is the key
(`lineKey`), and what stands one character behind the word is the value (`lineValue`).

* `Request.addHeaderOpt_safe_iff`: the parser returns exactly from the lines that hold a word, a
  number behind `Content-Length` and a byte behind the semicolon of a `Content-Type`
  (`SafeHeaderLine`).
* `HandleRecv.boundary_iff_named`: an upload has a boundary exactly when one of its header lines
  names it (`namedKeys`).
-/

open Search LastWins

namespace Cherokee

/-! ### The parts of a line -/

/-- The first word of a line: what extraction with `>>` reads from it, behind the white space in
front and up to the next white space. -/
def firstWord (line : Bytes) : Bytes := (line.dropWhile isspace).takeWhile (!isspace ·)

/-- What stands behind the first word of a line, and is left in the stream when the word has been
extracted. -/
def behindWord (line : Bytes) : Bytes := (line.dropWhile isspace).dropWhile (!isspace ·)

/-- The key of a header line: its first word without the last character, which is taken for the
colon whatever it is. -/
def lineKey (line : Bytes) : Bytes := (firstWord line).dropLast

/-- The value of a header line: what stands behind the first word and the one character that `get`
drops, up to a line feed, without a carriage return at its end. -/
def lineValue (line : Bytes) : Bytes :=
  let value := (behindWord line).tail.takeWhile (· ≠ lf)
  if value.getLast? = some cr then value.dropLast else value

/-- White space, the first word and what stands behind it make up the line. -/
theorem firstWord_append_behindWord (line : Bytes) :
    line.takeWhile isspace ++ (firstWord line ++ behindWord line) = line := by
  unfold firstWord behindWord
  rw [List.takeWhile_append_dropWhile, List.takeWhile_append_dropWhile]

/-- No white space stands in the first word. -/
theorem isspace_of_mem_firstWord {line : Bytes} {c : UInt8} (h : c ∈ firstWord line) :
    isspace c = false := by
  have hc := List.mem_takeWhile_imp h
  simpa using hc

/-- There is no first word exactly when the whole line is white space. -/
theorem firstWord_eq_nil_iff {line : Bytes} :
    firstWord line = [] ↔ line.dropWhile isspace = [] := by
  constructor
  · intro h
    cases hdrop : line.dropWhile isspace with
    | nil => rfl
    | cons c t =>
      -- the first character left is no white space, so it begins a word
      have hc : isspace c = false := by
        have := List.head?_dropWhile_not isspace line
        rw [hdrop] at this
        simpa using this
      rw [firstWord, hdrop, List.takeWhile_cons, hc] at h
      cases h
  · intro h
    rw [firstWord, h]
    rfl

/-- A line with a word and a terminator has something behind the word, so that the stream is still
good and `get` takes a character. -/
theorem behindWord_ne_nil {line : Bytes} (hend : crlf <:+ line) (hword : firstWord line ≠ []) :
    behindWord line ≠ [] := by
  intro hnil
  obtain ⟨s, hs⟩ := hend
  have hsplit := firstWord_append_behindWord line
  rw [hnil, List.append_nil] at hsplit
  -- then the line feed at its end would belong to the word
  have hlast : (firstWord line).getLast? = some lf := by
    have hline : line.getLast? = some lf := by
      rw [← hs]
      simp [crlf]
    rw [← hsplit, List.getLast?_append_of_ne_nil _ hword] at hline
    exact hline
  have hspace := isspace_of_mem_firstWord (List.mem_of_getLast? hlast)
  cases hspace

namespace IStringStream

/-- Extraction from a fresh stream reads the first word. Without one it fails and leaves the string
as it was. -/
theorem extract_line (line str : Bytes) :
    extract ⟨line, true⟩ str =
      if firstWord line = [] then (str, ⟨[], false⟩)
      else (firstWord line, ⟨behindWord line, behindWord line ≠ []⟩) := by
  simp only [firstWord_eq_nil_iff]
  rfl

/-- `getline` reads what stands before the line feed, or everything when there is none. -/
theorem getline_takeWhile (s str : Bytes) :
    (getline ⟨s, true⟩ str).1 = s.takeWhile (· ≠ lf) := by
  unfold getline
  simp only [if_true]
  -- there is a line feed or not
  cases hfind : firstAt [lf] s with
  | none =>
    have hno := firstAt_singleton_eq_none_iff.mp hfind
    rw [List.takeWhile_eq_self_iff.mpr]
    intro c hc
    simpa using fun h : c = lf => hno (h ▸ hc)
  | some i =>
    obtain ⟨hno, t, ht⟩ := firstAt_singleton_spec hfind
    have hsplit : s = s.take i ++ lf :: t := by rw [← ht, List.take_append_drop]
    have hbefore : ∀ c ∈ s.take i, decide (c ≠ lf) = true := by
      intro c hc
      simpa using fun h : c = lf => hno (h ▸ hc)
    conv_rhs => rw [hsplit, List.takeWhile_append_of_pos hbefore]
    simp

end IStringStream

namespace Request

/-- **What `addHeaderOpt` makes of a line** that ends in CR LF, by its first word: nothing without
one, a number, a media type with its parameter, or a header as it stands. -/
theorem addHeaderOpt_line {line : Bytes} (hend : crlf <:+ line) (r : Request) :
    r.addHeaderOpt line =
      if firstWord line = [] then .error .undefined
      else if lineKey line = lit "Content-Length" then
        (stoll (lineValue line)).map fun contentLength => { r with contentLength }
      else if lineKey line = lit "Content-Type" then
        r.addContentType (lineKey line) (lineValue line)
      else .ok (r.setHeader (lineKey line) (lineValue line)) := by
  unfold addHeaderOpt
  simp only [IStringStream.extract_line]
  by_cases hword : firstWord line = []
  · simp [hword]
  · -- `get` takes one character of what stands behind the first word
    obtain ⟨c, behind, hbehind⟩ := List.exists_cons_of_ne_nil (behindWord_ne_nil hend hword)
    have hvalue : lineValue line =
        if (behind.takeWhile (· ≠ lf)).getLast? = some cr then (behind.takeWhile (· ≠ lf)).dropLast
        else behind.takeWhile (· ≠ lf) := by
      unfold lineValue
      rw [hbehind]
      rfl
    have hget : (IStringStream.mk (c :: behind) true).get = ⟨behind, true⟩ := rfl
    simp only [if_neg hword, hbehind, ne_eq, List.cons_ne_nil, not_false_eq_true, decide_true, hget,
      IStringStream.getline_takeWhile]
    rw [hvalue]
    unfold lineKey
    split
    · cases stoll _ <;> rfl
    · rfl

end Request

/-! ### Numbers `stoll` takes -/

/-- The sign of a number: none, `+` or `-`, of which `stoll` takes one at most. -/
def IsSign (s : Bytes) : Prop := s = [] ∨ s = [43] ∨ s = [45]

/-- The number that a sign and digits denote together. -/
def signed (sign digits : Bytes) : ℤ :=
  if sign = [45] then -(decimal digits : ℤ) else decimal digits

/-- A string that begins with a number which fits a `long long`: white space, a sign, digits, and
anything that does not go on with a digit. -/
def IsLongLong (s : Bytes) : Prop :=
  ∃ space sign digits rest : Bytes, s = space ++ (sign ++ (digits ++ rest)) ∧
    (∀ c ∈ space, isspace c = true) ∧ IsSign sign ∧ digits ≠ [] ∧ IsDigits digits ∧
    (∀ c ∈ rest.head?, isDigit c = false) ∧
    -2 ^ 63 ≤ signed sign digits ∧ signed sign digits < 2 ^ 63

/-- A digit is neither white space nor a sign, so that the parts of a number are told apart by their
first characters. -/
theorem isDigit_not_sign {c : UInt8} (h : isDigit c = true) :
    isspace c = false ∧ c ≠ 45 ∧ c ≠ 43 := by
  have hc : 48 ≤ c := by
    simp only [isDigit, Bool.and_eq_true, decide_eq_true_eq] at h
    exact h.1
  have hne : c ≠ 45 ∧ c ≠ 43 := by
    constructor <;> rintro rfl <;> exact absurd hc (by decide)
  have h13 : ¬ c ≤ 13 := fun h' => absurd (UInt8.le_trans hc h') (by decide)
  have h32 : c ≠ 32 := by
    rintro rfl
    exact absurd hc (by decide)
  exact ⟨by simp [isspace, h13, h32], hne⟩

/-- `stoll` on the parts of a number gives the number when a `long long` holds it, and is out of
range otherwise. -/
theorem stoll_parts {space sign digits rest : Bytes} (hspace : ∀ c ∈ space, isspace c = true)
    (hsign : IsSign sign) (hne : digits ≠ []) (hdigits : IsDigits digits)
    (hrest : ∀ c ∈ rest.head?, isDigit c = false) :
    stoll (space ++ (sign ++ (digits ++ rest))) =
      if -2 ^ 63 ≤ signed sign digits ∧ signed sign digits < 2 ^ 63 then .ok (signed sign digits)
      else .error .outOfRange := by
  obtain ⟨d, ds, hds⟩ := List.exists_cons_of_ne_nil hne
  obtain ⟨hdspace, hd45, hd43⟩ :=
    isDigit_not_sign (hdigits d (by rw [hds]; exact List.mem_cons_self))
  -- the digits are read up to the rest, which does not begin with one
  have htake : (digits ++ rest).takeWhile isDigit = digits := by
    rw [List.takeWhile_append_of_pos hdigits]
    cases rest with
    | nil => simp
    | cons c t => rw [List.takeWhile_cons, hrest c rfl]; simp
  have hdrop : (space ++ (sign ++ (digits ++ rest))).dropWhile isspace =
    sign ++ (digits ++ rest) := by
    rw [List.dropWhile_append_of_pos hspace]
    -- neither a sign nor a digit is white space
    rcases hsign with rfl | rfl | rfl
    · rw [List.nil_append, hds, List.cons_append, List.dropWhile_cons, hdspace]
      rfl
    · rfl
    · rfl
  unfold stoll
  simp only [hdrop]
  -- the sign is looked at and passed over, if there is one
  rcases hsign with rfl | rfl | rfl
  · have hhead : (digits ++ rest).head? = some d := by rw [hds]; rfl
    simp only [List.nil_append, hhead, Option.some.injEq, hd45, hd43, or_self, if_false, htake, hne,
      signed]
    simp
  · simp only [List.singleton_append, List.head?_cons, or_true, if_true, List.tail_cons, htake, hne,
      if_false, signed]
    simp
  · simp only [List.singleton_append, List.head?_cons, true_or, if_true, List.tail_cons, htake, hne,
      if_false, signed]

/-- A string falls into white space, a sign, digits and the rest. Without digits there is no number,
and `stoll` refuses the string. -/
theorem stoll_cases (s : Bytes) :
    (∃ space sign digits rest : Bytes, s = space ++ (sign ++ (digits ++ rest)) ∧
      (∀ c ∈ space, isspace c = true) ∧ IsSign sign ∧ digits ≠ [] ∧ IsDigits digits ∧
      ∀ c ∈ rest.head?, isDigit c = false) ∨ stoll s = .error .invalidArgument := by
  have hspace : ∀ c ∈ s.takeWhile isspace, isspace c = true := fun c hc => List.mem_takeWhile_imp hc
  -- the digits stop where the first other character is
  have hparts (t : Bytes) : IsDigits (t.takeWhile isDigit) ∧
      ∀ c ∈ (t.dropWhile isDigit).head?, isDigit c = false := by
    refine ⟨fun c hc => List.mem_takeWhile_imp hc, fun c hc => ?_⟩
    have hnot := List.head?_dropWhile_not isDigit t
    rw [Option.mem_def.mp hc] at hnot
    simpa using hnot
  -- the first character behind the white space is a sign or not
  by_cases hsign : (s.dropWhile isspace).head? = some 45 ∨ (s.dropWhile isspace).head? = some 43
  · obtain ⟨c, t, ht⟩ : ∃ c t, s.dropWhile isspace = c :: t := by
      refine List.exists_cons_of_ne_nil fun hnil => ?_
      rw [hnil] at hsign
      rcases hsign with h | h <;> cases h
    by_cases hdigits : t.takeWhile isDigit = []
    · refine .inr ?_
      unfold stoll
      simp only [if_pos hsign]
      simp [ht, hdigits]
    · refine .inl ⟨s.takeWhile isspace, [c], t.takeWhile isDigit, t.dropWhile isDigit,
        ?_, hspace, ?_, hdigits, hparts t⟩
      · rw [List.takeWhile_append_dropWhile, List.singleton_append, ← ht,
          List.takeWhile_append_dropWhile]
      · rw [ht] at hsign
        rcases hsign with h | h
        · exact .inr (.inr (by rw [Option.some.inj h]))
        · exact .inr (.inl (by rw [Option.some.inj h]))
  · by_cases hdigits : (s.dropWhile isspace).takeWhile isDigit = []
    · refine .inr ?_
      unfold stoll
      simp only [if_neg hsign]
      simp [hdigits]
    · refine .inl ⟨s.takeWhile isspace, [], _, _, ?_, hspace, .inl rfl, hdigits, hparts _⟩
      rw [List.nil_append, List.takeWhile_append_dropWhile, List.takeWhile_append_dropWhile]

/-- **`stoll` returns exactly from a number that fits** into a `long long`, with anything behind
it. -/
theorem stoll_isOk_iff {s : Bytes} : (∃ n, stoll s = .ok n) ↔ IsLongLong s := by
  constructor
  · rintro ⟨n, hn⟩
    rcases stoll_cases s with ⟨space, sign, digits, rest, rfl, hspace, hsign, hne, hdig, hrest⟩
      | herr
    · refine ⟨space, sign, digits, rest, rfl, hspace, hsign, hne, hdig, hrest, ?_⟩
      rw [stoll_parts hspace hsign hne hdig hrest] at hn
      by_contra hrange
      rw [if_neg hrange] at hn
      cases hn
    · rw [herr] at hn
      cases hn
  · rintro ⟨space, sign, digits, rest, rfl, hspace, hsign, hne, hdig, hrest, hrange⟩
    exact ⟨_, by rw [stoll_parts hspace hsign hne hdig hrest, if_pos hrange]⟩

/-! ### The value of `Content-Type` -/

/-- The name of the parameter behind a semicolon: what stands from the second character `c :: tail`
on up to the equals sign. Without one, and with one at the first character, the length wraps around
and everything is taken. -/
def parameterName (c : UInt8) (tail : Bytes) : Bytes :=
  if c = 61 then tail else tail.takeWhile (· ≠ 61)

/-- The value of the parameter behind a semicolon: what stands behind the equals sign. Without one
the position wraps around to the front of the whole value. -/
def parameterValue (value : Bytes) (c : UInt8) (tail : Bytes) : Bytes :=
  if 61 ∈ c :: tail then ((c :: tail).dropWhile (· ≠ 61)).tail else value

namespace Request

/-- The first semicolon of a value ends its media type. -/
theorem find_semicolon {type : Bytes} (h : (59 : UInt8) ∉ type) (behind : Bytes) :
    find (type ++ 59 :: behind) (lit ";") 0 = some type.length := by
  rw [find_zero]
  exact firstAt_singleton_append h behind

/-- A media type without a semicolon is entered as it stands, without a parameter. -/
theorem addContentType_plain {value : Bytes} (h : (59 : UInt8) ∉ value) (r : Request)
    (key : Bytes) :
    r.addContentType key value = .ok (r.setHeader key value) := by
  have hno : find value (lit ";") 0 = none := by
    rw [find_zero]
    exact firstAt_singleton_eq_none_iff.mpr h
  rw [addContentType, hno]

/-- A semicolon at the end of the value is one byte short: the name would start behind the end, and
`substr` throws. -/
theorem addContentType_cut {type : Bytes} (h : (59 : UInt8) ∉ type) (r : Request) (key : Bytes) :
    r.addContentType key (type ++ [59]) = .error .outOfRange := by
  unfold addContentType
  rw [find_semicolon h]
  simp only [bind, Except.bind]
  rw [substr, if_neg (by simp)]

/-- Where the equals sign behind the semicolon stands: the search starts at the semicolon, and may
find it in the byte that is dropped as a space. -/
theorem find_equals (type : Bytes) (c : UInt8) (tail : Bytes) :
    find (type ++ 59 :: c :: tail) (lit "=") type.length =
      if c = 61 then some (type.length + 1)
      else (firstAt [61] tail).map (· + (type.length + 2)) := by
  have hsem : ¬ [(61 : UInt8)] <+: 59 :: c :: tail := by
    intro h
    have := (List.cons_prefix_cons.mp h).1
    cases this
  rw [find, List.drop_left, show lit "=" = [61] from rfl, firstAt_cons_of_not_isPrefix hsem,
    Option.map_map]
  -- the byte behind the semicolon is the equals sign itself, or the first one comes later
  by_cases hc : c = 61
  · have hpre : [(61 : UInt8)] <+: c :: tail := ⟨tail, by rw [hc]; rfl⟩
    rw [if_pos hc, firstAt_of_isPrefix hpre]
    simp [Nat.add_comm]
  · have hpre : ¬ [(61 : UInt8)] <+: c :: tail := fun h => hc (List.cons_prefix_cons.mp h).1.symm
    rw [if_neg hc, firstAt_cons_of_not_isPrefix hpre, Option.map_map]
    refine congrArg (Option.map · _) (funext fun i => ?_)
    simp only [Function.comp_apply]
    omega

/-- With a byte behind the semicolon the parser returns, whatever the byte is and whether there is
an equals sign or not. -/
theorem addContentType_isOk {type : Bytes} (h : (59 : UInt8) ∉ type) (c : UInt8) (tail : Bytes)
    (r : Request) (key : Bytes) :
    ∃ r', r.addContentType key (type ++ 59 :: c :: tail) = .ok r' := by
  have hlen : (type ++ 59 :: c :: tail).length = type.length + (tail.length + 2) := by simp
  -- the parameter starts behind the equals sign, or at the front when there is none
  have hparam : ∃ parameter, substr (type ++ 59 :: c :: tail)
      (toSize (((find (type ++ 59 :: c :: tail) (lit "=") type.length).getD npos : ℕ) + 1)) npos =
        .ok parameter := by
    unfold substr
    rw [if_pos]
    · exact ⟨_, rfl⟩
    · cases heq : find (type ++ 59 :: c :: tail) (lit "=") type.length with
      | none => exact Nat.zero_le _
      | some i =>
        have hi : i + 1 ≤ (type ++ 59 :: c :: tail).length := find_length_le (by omega) heq
        rw [Option.getD_some, toSize]
        omega
  obtain ⟨parameter, hparam⟩ := hparam
  unfold addContentType
  simp only [find_semicolon h, bind, Except.bind, hparam]
  rw [substr, if_pos (by omega)]
  exact ⟨_, rfl⟩

section Behind

variable {type : Bytes} {c : UInt8} {tail : Bytes}

/-- What stands two bytes behind the media type: the semicolon and the byte behind it are
dropped. -/
theorem drop_behind (type : Bytes) (c : UInt8) (tail : Bytes) :
    (type ++ 59 :: c :: tail).drop (type.length + 2) = tail := by
  rw [← List.drop_drop, List.drop_left]
  rfl

/-- The name starts two bytes behind the media type, and is as long as the parser has computed. -/
theorem substr_behind (type : Bytes) (c : UInt8) (tail : Bytes) (n : ℕ) :
    substr (type ++ 59 :: c :: tail) (type.length + 2) n = .ok (tail.take n) := by
  rw [substr, if_pos (by simp), drop_behind]

/-- The two strings the parser cuts off when it takes the equals sign to be at `eqIndex` are the
name and the value of the parameter. -/
structure CutAt (type : Bytes) (c : UInt8) (tail : Bytes) (eqIndex : ℕ) : Prop where
  name : tail.take (toSize ((eqIndex : ℤ) - type.length - 2)) = parameterName c tail
  value : substr (type ++ 59 :: c :: tail) (toSize ((eqIndex : ℤ) + 1)) npos =
    .ok (parameterValue (type ++ 59 :: c :: tail) c tail)

/-- Right behind the semicolon an equals sign makes the length of the name `-1`, which as a `size_t`
takes everything. -/
theorem cutAt_front (hlen : type.length + (tail.length + 2) ≤ maxSize) :
    CutAt type 61 tail (type.length + 1) where
  name := by
    refine List.take_of_length_le ?_
    unfold toSize
    unfold maxSize at hlen
    omega
  value := by
    have hpos : toSize (((type.length + 1 : ℕ) : ℤ) + 1) = type.length + 2 := by
      unfold toSize
      unfold maxSize at hlen
      omega
    have hall : tail.length ≤ npos := by
      unfold maxSize at hlen
      unfold npos
      omega
    rw [hpos, substr_behind, List.take_of_length_le hall, parameterValue, if_pos List.mem_cons_self]
    rfl

/-- Without an equals sign `npos` stands for its place: the name is everything behind, and the value
begins at the front of the whole string. -/
theorem cutAt_nowhere (hlen : type.length + (tail.length + 2) ≤ maxSize) (hc : c ≠ 61)
    (hno : 61 ∉ tail) : CutAt type c tail npos where
  name := by
    have hself : tail.takeWhile (· ≠ 61) = tail := by
      refine List.takeWhile_eq_self_iff.mpr fun x hx => ?_
      simpa using fun hx61 : x = 61 => hno (hx61 ▸ hx)
    rw [parameterName, if_neg hc, hself]
    refine List.take_of_length_le ?_
    unfold maxSize at hlen
    unfold toSize npos
    omega
  value := by
    have hmem : (61 : UInt8) ∉ c :: tail := by
      rw [List.mem_cons, not_or]
      exact ⟨fun h => hc h.symm, hno⟩
    have hall : (type ++ 59 :: c :: tail).length ≤ npos := by
      unfold maxSize at hlen
      unfold npos
      simpa using by omega
    -- `npos + 1` is the front of the value
    rw [show toSize ((npos : ℤ) + 1) = 0 from rfl, substr, if_pos (Nat.zero_le _), List.drop_zero,
      List.take_of_length_le hall, parameterValue, if_neg hmem]

/-- An equals sign further behind is found where it stands: the name ends in front of it, and the
value begins behind it. -/
theorem cutAt_equals (hlen : type.length + (tail.length + 2) ≤ maxSize) (hc : c ≠ 61) {i : ℕ}
    (hfind : firstAt [61] tail = some i) : CutAt type c tail (i + (type.length + 2)) := by
  obtain ⟨hno, t, ht⟩ := firstAt_singleton_spec hfind
  have hi : i + 1 ≤ tail.length := firstAt_length_le hfind
  -- the name stops at the first `=`
  have hbefore : ∀ x ∈ tail.take i, decide (x ≠ 61) = true := by
    intro x hx
    simpa using fun hx61 : x = 61 => hno (hx61 ▸ hx)
  have hsplit : tail = tail.take i ++ 61 :: t := by rw [← ht, List.take_append_drop]
  refine ⟨?_, ?_⟩
  · have hpos : toSize (((i + (type.length + 2) : ℕ) : ℤ) - type.length - 2) = i := by
      unfold maxSize at hlen
      unfold toSize
      omega
    have hself : tail.takeWhile (· ≠ 61) = tail.take i := by
      conv_lhs => rw [hsplit, List.takeWhile_append_of_pos hbefore]
      simp
    rw [hpos, parameterName, if_neg hc, hself]
  · have hpos : toSize (((i + (type.length + 2) : ℕ) : ℤ) + 1) = type.length + 2 + (i + 1) := by
      unfold maxSize at hlen
      unfold toSize
      omega
    have hdrop : tail.drop (i + 1) = t := by
      rw [← List.drop_drop, ht]
      rfl
    -- the value is what comes behind it
    have hbehind : ((c :: tail).dropWhile (· ≠ 61)).tail = t := by
      rw [List.dropWhile_cons, if_pos (by simpa using hc)]
      conv_lhs => rw [hsplit, List.dropWhile_append_of_pos hbefore]
      simp
    have hmem : (61 : UInt8) ∈ c :: tail := by
      rw [hsplit]
      simp
    have htlen : t.length ≤ npos := by
      have hsum := congrArg List.length hsplit
      rw [List.length_append, List.length_cons] at hsum
      unfold maxSize at hlen
      unfold npos
      omega
    rw [hpos, substr, if_pos (by simp; omega), ← List.drop_drop, drop_behind, hdrop,
      List.take_of_length_le htlen, parameterValue, if_pos hmem, hbehind]

/-- **What the parser enters for a media type with something behind the semicolon**: the type under
its own key, and one parameter under the name that is cut off there. -/
theorem addContentType_behind (h : (59 : UInt8) ∉ type)
    (hsize : (type ++ 59 :: c :: tail).length ≤ maxSize) (r : Request) (key : Bytes) :
    r.addContentType key (type ++ 59 :: c :: tail) =
      .ok ((r.setHeader key type).setHeader (parameterName c tail)
        (parameterValue (type ++ 59 :: c :: tail) c tail)) := by
  have hlen : type.length + (tail.length + 2) ≤ maxSize := by simpa using hsize
  have hcut : CutAt type c tail
      ((find (type ++ 59 :: c :: tail) (lit "=") type.length).getD npos) := by
    rw [find_equals]
    -- the equals sign at once, or none at all, or one further behind
    by_cases hc : c = 61
    · rw [if_pos hc, hc]
      exact cutAt_front hlen
    · rw [if_neg hc]
      cases hfind : firstAt [61] tail with
      | none => exact cutAt_nowhere hlen hc (firstAt_singleton_eq_none_iff.mp hfind)
      | some i => exact cutAt_equals hlen hc hfind
  unfold addContentType
  simp only [find_semicolon h, bind, Except.bind, substr_behind, List.take_left,
    hcut.name, hcut.value]
  rfl

end Behind

/-! ### Lines at which the parser returns -/

/-- A line that the parser returns from: it has a word, and where its key asks for a number or a
parameter, these can be taken from the value. -/
structure SafeHeaderLine (line : Bytes) : Prop where
  /-- There is a word whose last character can be taken for the colon. -/
  word : ∃ c ∈ line, isspace c = false
  /-- A content length is a number. -/
  length : lineKey line = lit "Content-Length" → IsLongLong (lineValue line)
  /-- Something stands behind the first semicolon of a media type. -/
  type : lineKey line = lit "Content-Type" → ∀ type behind, lineValue line = type ++ 59 :: behind →
    59 ∉ type → behind ≠ []

/-- There is a first word exactly when some character of the line is no white space. -/
theorem firstWord_ne_nil_iff {line : Bytes} :
    firstWord line ≠ [] ↔ ∃ c ∈ line, isspace c = false := by
  rw [ne_eq, firstWord_eq_nil_iff, List.dropWhile_eq_nil_iff]
  simp

/-- A value has no semicolon, or it is split at the first one. -/
theorem semicolon_cases (value : Bytes) :
    59 ∉ value ∨ ∃ type behind, value = type ++ 59 :: behind ∧ 59 ∉ type := by
  by_cases h : (59 : UInt8) ∈ value
  · obtain ⟨type, behind, rfl, hno⟩ := List.eq_append_cons_of_mem h
    exact .inr ⟨type, behind, rfl, hno⟩
  · exact .inl h

/-- The parser returns from a media type unless its first semicolon is its last byte. -/
theorem addContentType_isOk_iff (r : Request) (key value : Bytes) :
    (∃ r', r.addContentType key value = .ok r') ↔
      ∀ type behind, value = type ++ 59 :: behind → 59 ∉ type → behind ≠ [] := by
  rcases semicolon_cases value with hno | ⟨type, behind, rfl, hno⟩
  · refine ⟨fun _ type behind heq => ?_, fun _ => ⟨_, addContentType_plain hno r key⟩⟩
    rw [heq] at hno
    exact absurd (List.mem_append_right type List.mem_cons_self) hno
  · cases behind with
    | nil =>
      refine ⟨fun ⟨r', h⟩ => ?_, fun h => absurd rfl (h type [] rfl hno)⟩
      rw [addContentType_cut hno] at h
      cases h
    | cons c tail =>
      refine ⟨fun _ type' behind' heq hno' hnil => ?_, fun _ =>
        addContentType_isOk hno c tail r key⟩
      -- the first semicolon is not the last byte
      obtain ⟨-, hbehind⟩ := append_cons_inj hno hno' heq
      rw [hnil] at hbehind
      cases hbehind

/-- **Header parsing returns exactly from the safe lines.** For every line that the header loop cuts
from a client's stream, `addHeaderOpt` takes no character from an empty key, no substring past the
end and no number that is none, if and only if the line is a `SafeHeaderLine`. -/
theorem addHeaderOpt_safe_iff {recvMsg line rest : Bytes}
    (hc : cutLine recvMsg = some (line, rest)) (r : Request) :
    (∃ r', r.addHeaderOpt line = .ok r') ↔ SafeHeaderLine line := by
  rw [addHeaderOpt_line (cutAfter_isSuffix hc)]
  by_cases hword : firstWord line = []
  -- without a word the key is empty, and `pop_back` on it is undefined
  · rw [if_pos hword]
    refine ⟨fun ⟨r', h⟩ => (by cases h), fun h => absurd hword (firstWord_ne_nil_iff.mpr h.word)⟩
  · have hw := firstWord_ne_nil_iff.mp hword
    rw [if_neg hword]
    by_cases hlen : lineKey line = lit "Content-Length"
    · -- the number decides, and the line is no `Content-Type`
      have htype : lineKey line ≠ lit "Content-Type" := by
        rw [hlen]
        decide
      rw [if_pos hlen]
      constructor
      · rintro ⟨r', h⟩
        refine ⟨hw, fun _ => stoll_isOk_iff.mp ?_, fun ht => absurd ht htype⟩
        cases hs : stoll (lineValue line) with
        | ok n => exact ⟨n, rfl⟩
        | error f => rw [hs] at h; cases h
      · intro h
        obtain ⟨n, hn⟩ := stoll_isOk_iff.mpr (h.length hlen)
        exact ⟨_, by rw [hn]; rfl⟩
    · rw [if_neg hlen]
      by_cases htype : lineKey line = lit "Content-Type"
      · -- the first semicolon decides
        rw [if_pos htype, addContentType_isOk_iff]
        exact ⟨fun h => ⟨hw, fun hl => absurd hl hlen, fun _ => h⟩, fun h => h.type htype⟩
      · rw [if_neg htype]
        -- any other line is entered as it is
        exact ⟨fun _ => ⟨hw, fun hl => absurd hl hlen, fun ht => absurd ht htype⟩,
          fun _ => ⟨_, rfl⟩⟩

theorem addHeaderOpt_safe_iff_length :
    (∃ r', Request.init.addHeaderOpt (lit "Content-Length: 12\r\n") = .ok r') ↔
      SafeHeaderLine (lit "Content-Length: 12\r\n") :=
  addHeaderOpt_safe_iff
    (show cutLine (lit "Content-Length: 12\r\nX") = some (lit "Content-Length: 12\r\n", lit "X") by
      decide +kernel) Request.init

/-- A line of one space has no key to take the colon from: the word is empty, and `back` on it is
undefined. -/
theorem header_line_of_space :
    ¬ ∀ (recvMsg line rest : Bytes) (r : Request), cutLine recvMsg = some (line, rest) →
      line ≠ crlf → ∃ r', r.addHeaderOpt line = .ok r' := by
  intro h
  obtain ⟨r', hr'⟩ := h (lit " \r\n") (lit " \r\n") [] Request.init (by decide +kernel) (by decide)
  rw [show Request.init.addHeaderOpt (lit " \r\n") = .error .undefined from rfl] at hr'
  cases hr'

/-! ### The pairs a line says -/

/-- The pairs that a value of `Content-Type` says: the media type, and one parameter when something
stands behind the semicolon. -/
def contentTypePairs (key value : Bytes) : List (Bytes × Bytes) :=
  match value.dropWhile (· ≠ 59) with
  | _ :: c :: tail =>
    [(key, value.takeWhile (· ≠ 59)), (parameterName c tail, parameterValue value c tail)]
  | _ => [(key, value)]

/-- The pairs that a header line says. A content length says none, as it is entered as a number and
not as a header. -/
def linePairs (line : Bytes) : List (Bytes × Bytes) :=
  if lineKey line = lit "Content-Length" then []
  else if lineKey line = lit "Content-Type" then contentTypePairs (lineKey line) (lineValue line)
  else [(lineKey line, lineValue line)]

/-- Without a semicolon the value says one pair, with itself. -/
theorem contentTypePairs_plain {value : Bytes} (h : (59 : UInt8) ∉ value) (key : Bytes) :
    contentTypePairs key value = [(key, value)] := by
  have hnil : value.dropWhile (· ≠ 59) = [] := by
    refine List.dropWhile_eq_nil_iff.mpr fun x hx => ?_
    simpa using fun hx59 : x = 59 => h (hx59 ▸ hx)
  rw [contentTypePairs, hnil]

/-- With nothing behind the semicolon the value would say one pair; the parser does not return from
it. -/
theorem contentTypePairs_cut {type : Bytes} (h : (59 : UInt8) ∉ type) (key : Bytes) :
    contentTypePairs key (type ++ [59]) = [(key, type ++ [59])] := by
  have hbefore : ∀ x ∈ type, decide (x ≠ 59) = true := by
    intro x hx
    simpa using fun hx59 : x = 59 => h (hx59 ▸ hx)
  have hdrop : (type ++ [59]).dropWhile (· ≠ 59) = [59] := by
    rw [List.dropWhile_append_of_pos hbefore]
    rfl
  rw [contentTypePairs, hdrop]

/-- With something behind the first semicolon the value says two pairs: the media type in front of
it, and the parameter. -/
theorem contentTypePairs_behind {type : Bytes} (h : (59 : UInt8) ∉ type) (c : UInt8) (tail : Bytes)
    (key : Bytes) :
    contentTypePairs key (type ++ 59 :: c :: tail) =
      [(key, type),
        (parameterName c tail, parameterValue (type ++ 59 :: c :: tail) c tail)] := by
  have hbefore : ∀ x ∈ type, decide (x ≠ 59) = true := by
    intro x hx
    simpa using fun hx59 : x = 59 => h (hx59 ▸ hx)
  have hdrop : (type ++ 59 :: c :: tail).dropWhile (· ≠ 59) = 59 :: c :: tail := by
    rw [List.dropWhile_append_of_pos hbefore]
    rfl
  have htake : (type ++ 59 :: c :: tail).takeWhile (· ≠ 59) = type := by
    rw [List.takeWhile_append_of_pos hbefore]
    simp
  rw [contentTypePairs, hdrop, htake]

/-- A line that the header loop can cut from a string which a client fills: a line with its
terminator, and not the blank one. -/
def Cuttable (line : Bytes) : Prop :=
  ∃ recvMsg rest : Bytes, recvMsg.length ≤ maxSize ∧ cutLine recvMsg = some (line, rest) ∧
    line ≠ crlf

/-- A value is no longer than its line. -/
theorem lineValue_length_le (line : Bytes) : (lineValue line).length ≤ line.length := by
  have hvalue : ((behindWord line).tail.takeWhile (· ≠ lf)).length ≤ line.length := by
    -- each part is cut from the one before it
    calc ((behindWord line).tail.takeWhile (· ≠ lf)).length
        ≤ (behindWord line).tail.length := (List.takeWhile_prefix _).length_le
      _ ≤ (behindWord line).length := by rw [List.length_tail]; exact Nat.sub_le _ _
      _ ≤ (line.dropWhile isspace).length := (List.dropWhile_suffix _).length_le
      _ ≤ line.length := (List.dropWhile_suffix _).length_le
  unfold lineValue
  simp only
  split
  · rw [List.length_dropLast]
    omega
  · exact hvalue

/-- A line that has been cut ends in its terminator. -/
theorem Cuttable.isSuffix {line : Bytes} (h : Cuttable line) : crlf <:+ line := by
  obtain ⟨recvMsg, rest, -, hc, -⟩ := h
  exact cutAfter_isSuffix hc

/-- Its value is no longer than a string can be, so that positions in it do not wrap around. -/
theorem Cuttable.value_length {line : Bytes} (h : Cuttable line) :
    (lineValue line).length ≤ maxSize := by
  obtain ⟨recvMsg, rest, hlen, hc, -⟩ := h
  have hline := congrArg List.length (cutAfter_append hc)
  have hvalue := lineValue_length_le line
  rw [List.length_append] at hline
  omega

/-- **The parser enters the pairs of every line it returns from**, each over what has been entered
under its key before. -/
theorem addHeaderOpt_pairs {line : Bytes} (hline : Cuttable line) {r r' : Request}
    (h : r.addHeaderOpt line = .ok r') : r'.msgHeader = enter r.msgHeader (linePairs line) := by
  rw [addHeaderOpt_line hline.isSuffix] at h
  split at h
  · cases h
  · unfold linePairs
    split at h
    · next hlen =>
      rw [if_pos hlen]
      -- the number is refused, or it changes no header
      cases hs : stoll (lineValue line) with
      | error f => rw [hs] at h; cases h
      | ok n =>
        rw [hs] at h
        cases h
        rfl
    · next hlen =>
      rw [if_neg hlen]
      split at h
      · next htype =>
        rw [if_pos htype]
        have hsize := hline.value_length
        -- the value of a `Content-Type` line, by its first `;`
        rcases semicolon_cases (lineValue line) with hno | ⟨type, behind, heq, hno⟩
        · rw [contentTypePairs_plain hno]
          rw [addContentType_plain hno] at h
          cases h
          rfl
        · rw [heq] at h hsize ⊢
          cases behind with
          | nil =>
            rw [addContentType_cut hno] at h
            cases h
          | cons c tail =>
            rw [contentTypePairs_behind hno]
            rw [addContentType_behind hno hsize] at h
            cases h
            rfl
      · next htype =>
        rw [if_neg htype]
        cases h
        rfl

/-- The headers of a request are the pairs of its header lines, entered from left to right. By
induction on the lines. -/
theorem foldlM_addHeaderOpt {lines : List Bytes} (hlines : ∀ line ∈ lines, Cuttable line)
    {r r' : Request} (h : lines.foldlM addHeaderOpt r = .ok r') :
    r'.msgHeader = enter r.msgHeader (lines.flatMap linePairs) := by
  induction lines generalizing r with
  | nil =>
    cases h
    rfl
  | cons line lines ih =>
    rw [List.foldlM_cons] at h
    cases ho : r.addHeaderOpt line with
    | error f => rw [ho] at h; cases h
    | ok r₁ =>
      rw [ho] at h
      have hrest := ih (fun x hx => hlines x (List.mem_cons_of_mem line hx)) h
      rw [hrest, addHeaderOpt_pairs (hlines line List.mem_cons_self) ho, List.flatMap_cons,
        enter_append]

/-! ### The boundary of an upload -/

/-- The header line names the key `boundary`: it is its key, or the name of the parameter behind the
semicolon of a `Content-Type`. Nothing else enters that key. -/
def NamesBoundary (line : Bytes) : Prop :=
  lineKey line = lit "boundary" ∨
    (lineKey line = lit "Content-Type" ∧ ∃ type c tail,
      lineValue line = type ++ 59 :: c :: tail ∧ 59 ∉ type ∧
        parameterName c tail = lit "boundary")

/-- A line names the boundary exactly when one of its pairs has that key. -/
theorem namesBoundary_iff {line : Bytes} :
    NamesBoundary line ↔ lit "boundary" ∈ (linePairs line).map Prod.fst := by
  unfold NamesBoundary linePairs
  by_cases hlen : lineKey line = lit "Content-Length"
  · -- a `Content-Length` line fills in no header field
    have hne : lineKey line ≠ lit "boundary" ∧ lineKey line ≠ lit "Content-Type" := by
      rw [hlen]
      exact ⟨by decide, by decide⟩
    rw [if_pos hlen]
    refine ⟨?_, fun h => absurd h List.not_mem_nil⟩
    rintro (h | ⟨h, -⟩)
    · exact absurd h hne.1
    · exact absurd h hne.2
  rw [if_neg hlen]
  by_cases htype : lineKey line = lit "Content-Type"
  · have hne : lineKey line ≠ lit "boundary" := by
      rw [htype]
      decide
    rw [if_pos htype]
    -- a `Content-Type` line names it in the parameter behind its `;`, if there is one
    rcases semicolon_cases (lineValue line) with hno | ⟨type, behind, heq, hno⟩
    · rw [contentTypePairs_plain hno]
      constructor
      · rintro (h | ⟨-, type, c, tail, heq, -⟩)
        · exact absurd h hne
        · rw [heq] at hno
          exact absurd (List.mem_append_right type List.mem_cons_self) hno
      · intro h
        exact absurd (List.mem_singleton.mp h) hne.symm
    · rw [heq]
      cases behind with
      | nil =>
        -- the `;` ends the value, and no parameter stands behind it
        rw [contentTypePairs_cut hno]
        constructor
        · rintro (h | ⟨-, type', c, tail, heq', hno', -⟩)
          · exact absurd h hne
          · obtain ⟨-, hbehind⟩ := append_cons_inj hno hno' heq'
            cases hbehind
        · intro h
          exact absurd (List.mem_singleton.mp h) hne.symm
      | cons c tail =>
        rw [contentTypePairs_behind hno]
        constructor
        · rintro (h | ⟨-, type', c', tail', heq', hno', hname⟩)
          · exact absurd h hne
          · obtain ⟨-, hbehind⟩ := append_cons_inj hno hno' heq'
            -- the first `;` cuts both values in the same place
            obtain ⟨rfl, rfl⟩ := List.cons.inj hbehind
            rw [← hname]
            exact List.mem_cons_of_mem _ List.mem_cons_self
        · intro h
          rcases List.mem_cons.mp h with h | h
          · exact absurd h.symm hne
          · exact .inr ⟨htype, type, c, tail, rfl, hno, (List.mem_singleton.mp h).symm⟩
  · rw [if_neg htype]
    constructor
    · rintro (h | ⟨h, -⟩)
      · -- any other line fills in the field of its key
        exact List.mem_singleton.mpr h.symm
      · exact absurd h htype
    · intro h
      exact .inl (List.mem_singleton.mp h).symm

end Request

namespace HandleRecv

open Request

/-- The request behind a request line, before any header. -/
def behindRequestLine (requestLine : Bytes) : Request :=
  { Request.init.setRequestLine requestLine with status := .handleHead }

/-- A turn of the part header stage throws nothing: where it is refused it runs past its line. -/
theorem partTurn_error {r : Request} {f : Fault} (h : partTurn r = .inr (.error f)) :
    f = .undefined := by
  cases lineTurn_inr_cases h with
  | fails cut ne refused => exact addPartLine_error refused

/-- The part header stage throws nothing: it may only run past its line. -/
theorem partStage_error {r : Request} {f : Fault} (h : partStage r = .error f) :
    f = .undefined := by
  unfold partStage at h
  split at h
  · refine Loop.eval_induction partTurn_decreasing (P := fun _ o => o = .error f → f = .undefined)
      ?_ ?_ r h
    · rintro r o hturn rfl
      exact partTurn_error hturn
    · intro r r' _ ih
      exact ih
  · cases h

/-- Part headers leave the headers of the request alone, so that the boundary stays what it is. -/
theorem partStage_msgHeader {r r' : Request} (h : partStage r = .ok r') :
    r'.msgHeader = r.msgHeader := by
  unfold partStage at h
  split at h
  · refine lineLoop_leaves (P := fun r₁ => r₁.msgHeader = r.msgHeader) (fun _ hr => hr)
      (fun _ _ hr => hr) ?_ partTurn_decreasing rfl h
    intro r₁ r₂ m line hr ho
    obtain ⟨name, rfl⟩ := addPartLine_fields ho
    exact hr
  · cases h
    rfl

/-- Saving a part of the content throws nothing. -/
theorem save_throws_nothing {written m : Bytes} {n : ℤ} {c : Content}
    (h : save written m n = .inr c) : c.ended ≠ .crash .outOfRange := by
  unfold save at h
  split at h
  · cases h
    exact nofun
  · split at h
    · cases h
      exact nofun
    · cases h

/-- With a boundary to look up the content loop throws nothing, in any of its turns. -/
theorem contentLoop_throws_nothing (b m : Bytes) :
    (contentLoop (some b) m).ended ≠ .crash .outOfRange := by
  refine Loop.eval_induction (contentTurn_decreasing (some b))
    (P := fun _ c => c.ended ≠ .crash .outOfRange) ?_ ?_ ([], m)
  · -- the boundary is there: what is left is to save, to wait or to complete
    rintro ⟨written, m⟩ c hturn
    unfold contentTurn at hturn
    simp only at hturn
    split at hturn
    · cases hturn
      exact nofun
    · split at hturn
      · exact save_throws_nothing hturn
      · split at hturn
        · split at hturn
          · split at hturn
            · cases hturn
              exact nofun
            · exact save_throws_nothing hturn
          · split at hturn
            · exact save_throws_nothing hturn
            · exact save_throws_nothing hturn
        · split at hturn
          · cases hturn
            exact nofun
          · exact save_throws_nothing hturn
  · intro p p' _ ih
    exact ih

/-- With a boundary to look up the content stage throws nothing, whether the file opens or not. -/
theorem contentStage_throws_nothing {r : Request} {b : Bytes} (hb : r.boundary? = some b)
    (ofs : Bool) : (contentStage ofs r).flow ≠ .crash .outOfRange := by
  unfold contentStage
  rw [hb]
  have hloop := contentLoop_throws_nothing b r.recvMsg
  generalize contentLoop (some b) r.recvMsg = content at hloop
  obtain ⟨written, recvMsg, ended⟩ := content
  split
  · split
    -- the loop waits, or is complete, or does not return
    · cases ended with
      | wait =>
        intro h
        cases h
      | complete =>
        intro h
        cases h
      | crash f =>
        intro h
        exact hloop (congrArg ContentEnd.crash (Flow.crash.inj h))
    · intro h
      cases h
  · split <;> intro h <;> cases h

/-- With a boundary to look up the stages of an upload throw nothing. -/
theorem postStage_throws_nothing {r : Request} {b : Bytes} (hb : r.boundary? = some b)
    (ofs : Bool) :
    (postStage ofs r).flow ≠ .crash .outOfRange := by
  unfold postStage
  split
  · -- the begin stage only looks the boundary up, and keeps the fields
    have hbegin : ∃ o, beginStage r = .ok o ∧ ∀ r', o = some r' → r'.boundary? = some b := by
      unfold beginStage
      split
      · split
        · rw [hb]
          simp only
          split
          · refine ⟨_, rfl, ?_⟩
            rintro r' ⟨⟩
            exact hb
          · refine ⟨_, rfl, ?_⟩
            rintro r' ⟨⟩
        · refine ⟨_, rfl, ?_⟩
          rintro r' ⟨⟩
          exact hb
      · refine ⟨_, rfl, ?_⟩
        rintro r' ⟨⟩
        exact hb
    obtain ⟨o, ho, hkeep⟩ := hbegin
    rw [ho]
    cases o with
    -- the first boundary line is another one, and the browser is redirected
    | none =>
      intro h
      cases h
    | some r₁ =>
      simp only
      cases hpart : partStage r₁ with
      | error f =>
        rw [partStage_error hpart]
        intro h
        cases h
      | ok r₂ =>
        -- the part header sets no header of the request, so the boundary is still there
        have hb₂ : r₂.boundary? = some b := by
          rw [boundary?, partStage_msgHeader hpart]
          exact hkeep r₁ rfl
        exact contentStage_throws_nothing hb₂ ofs
  · intro h
    cases h

/-- The stages of an upload throw exactly when there is no boundary to look up: the first complete
line makes the start boundary stage call `at()`. -/
theorem bodyStage_throws_nothing_iff {r : Request} (hs : r.status = .handleBody)
    (hf : r.fileMsgStatus = .fileBeginFlag) (hpost : r.requestMethod = lit "POST")
    (hmulti : r.isMultipart = true) :
    (∀ ofs m, (bodyStage ofs (r.withMsg m)).flow ≠ .crash .outOfRange) ↔ r.boundary? ≠ none := by
  have hstage (ofs : Bool) (m : Bytes) :
      bodyStage ofs (r.withMsg m) = postStage ofs (r.withMsg m) := by
    have hget : r.requestMethod ≠ lit "GET" := by
      rw [hpost]
      decide
    rw [bodyStage, if_pos (show (r.withMsg m).status = _ from hs),
      if_neg (show (r.withMsg m).requestMethod ≠ _ from hget),
      if_pos (show (r.withMsg m).requestMethod = _ from hpost)]
  constructor
  · -- a complete line makes the start boundary stage look
    intro h hno
    refine h true crlf ?_
    have hfind : find (r.withMsg crlf).recvMsg crlf 0 = some 0 := rfl
    have hbegin : beginStage (r.withMsg crlf) = .error .outOfRange := by
      rw [beginStage, if_pos (show (r.withMsg crlf).fileMsgStatus = _ from hf), hfind,
        withMsg_boundary?, hno]
    rw [hstage, postStage, if_pos (show (r.withMsg crlf).isMultipart = true from hmulti), hbegin]
  · intro hb ofs m
    obtain ⟨b, hb⟩ := Option.ne_none_iff_exists'.mp hb
    rw [hstage]
    exact postStage_throws_nothing (r := r.withMsg m) hb ofs

/-- **An upload has a boundary exactly when a header line names it.** For every sequence of header
lines that a client can send and the parser accepts, behind which the method is `POST` and the
`Content-Type` is `multipart/form-data`: the key `boundary` is there, and the stages of the upload
throw at no input, if and only if one of the lines is a header `boundary` or a `Content-Type` whose
parameter has that name. -/
theorem boundary_iff_named {requestLine : Bytes} {lines : List Bytes}
    (hlines : ∀ line ∈ lines, Cuttable line) {r : Request}
    (hr : lines.foldlM addHeaderOpt (behindRequestLine requestLine) = .ok r)
    (hpost : r.requestMethod = lit "POST") (hmulti : r.isMultipart = true) :
    (r.boundary? ≠ none ↔ ∃ line ∈ lines, NamesBoundary line) ∧
      ((∀ ofs m, (bodyStage ofs (r.endHead.withMsg m)).flow ≠ .crash .outOfRange) ↔
        ∃ line ∈ lines, NamesBoundary line) := by
  have hheader := foldlM_addHeaderOpt hlines hr
  have hnamed : r.boundary? ≠ none ↔ ∃ line ∈ lines, NamesBoundary line := by
    rw [boundary?, hheader, enter_ne_none_iff]
    simp only [namesBoundary_iff, List.mem_map, List.mem_flatMap]
    constructor
    · rintro (h | ⟨p, ⟨line, hline, hp⟩, hkey⟩)
      · exact absurd rfl h
      · exact ⟨line, hline, p, hp, hkey⟩
    · rintro ⟨line, hline, p, hp, hkey⟩
      exact .inr ⟨p, ⟨line, hline, hp⟩, hkey⟩
  refine ⟨hnamed, ?_⟩
  rw [← hnamed]
  -- the end of the head leaves the upload at its start boundary
  have hend : r.endHead = { r with status := .handleBody, fileMsgStatus := .fileBeginFlag } := by
    rw [endHead, if_pos hmulti]
  rw [hend]
  exact bodyStage_throws_nothing_iff rfl rfl hpost hmulti

/-- The request line of an upload. -/
def uploadLine : Bytes := lit "POST / HTTP/1.1\r\n"

/-- The `Content-Type` line of an upload, with the parameter `name=value`. -/
def typeLine (parameter : String) : Bytes :=
  lit "Content-Type: multipart/form-data; " ++ lit parameter ++ crlf

/-- A line of its own, with nothing behind it, can be cut. -/
theorem cuttable_of_cut {line : Bytes} (hlen : line.length ≤ maxSize)
    (hc : cutLine line = some (line, [])) (hne : line ≠ crlf) : Cuttable line :=
  ⟨line, [], hlen, hc, hne⟩

theorem boundary_iff_named_type :
    ∃ r, [typeLine "boundary=b"].foldlM addHeaderOpt (behindRequestLine uploadLine) = .ok r ∧
      (r.boundary? ≠ none ↔ ∃ line ∈ [typeLine "boundary=b"], NamesBoundary line) ∧
      ((∀ ofs m, (bodyStage ofs (r.endHead.withMsg m)).flow ≠ .crash .outOfRange) ↔
        ∃ line ∈ [typeLine "boundary=b"], NamesBoundary line) := by
  have hlines : ∀ line ∈ [typeLine "boundary=b"], Cuttable line := by
    intro line hline
    rw [List.mem_singleton.mp hline]
    exact cuttable_of_cut (by decide +kernel) (by decide +kernel) (by decide +kernel)
  cases hr : [typeLine "boundary=b"].foldlM addHeaderOpt (behindRequestLine uploadLine) with
  | error f =>
    have hok : ([typeLine "boundary=b"].foldlM addHeaderOpt
        (behindRequestLine uploadLine)).toOption.isSome = true := by decide +kernel
    rw [hr] at hok
    cases hok
  | ok r =>
    have hread : (([typeLine "boundary=b"].foldlM addHeaderOpt
        (behindRequestLine uploadLine)).map fun r => (r.requestMethod, r.isMultipart)).toOption =
          some (lit "POST", true) := by decide +kernel
    rw [hr] at hread
    obtain ⟨hpost, hmulti⟩ := Prod.mk.inj (Option.some.inj hread)
    exact ⟨r, rfl, boundary_iff_named hlines hr hpost hmulti⟩

/-- A parameter with another name leaves an upload without a boundary, although its request line and
media type are those of one. -/
theorem upload_without_boundary :
    ¬ ∀ (requestLine : Bytes) (lines : List Bytes) (r : Request), (∀ line ∈ lines, Cuttable line) →
      lines.foldlM addHeaderOpt (behindRequestLine requestLine) = .ok r →
      r.requestMethod = lit "POST" → r.isMultipart = true → r.boundary? ≠ none := by
  intro h
  have hlines : ∀ line ∈ [typeLine "charset=b"], Cuttable line := by
    intro line hline
    rw [List.mem_singleton.mp hline]
    exact cuttable_of_cut (by decide +kernel) (by decide +kernel) (by decide +kernel)
  have hread : (([typeLine "charset=b"].foldlM addHeaderOpt (behindRequestLine uploadLine)).map
      fun r => (r.requestMethod, r.isMultipart, r.boundary?)).toOption =
        some (lit "POST", true, none) := by decide +kernel
  cases hr : [typeLine "charset=b"].foldlM addHeaderOpt (behindRequestLine uploadLine) with
  | error f =>
    rw [hr] at hread
    cases hread
  | ok r =>
    rw [hr] at hread
    obtain ⟨hpost, hrest⟩ := Prod.mk.inj (Option.some.inj hread)
    obtain ⟨hmulti, hnone⟩ := Prod.mk.inj hrest
    exact h uploadLine _ r hlines hr hpost hmulti hnone

end HandleRecv

end Cherokee
