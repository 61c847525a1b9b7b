import Cherokee.Lib.Search
import Mathlib.Algebra.Group.Int.Defs
import Mathlib.Algebra.Group.Nat.Defs
import Mathlib.Data.Int.Notation

/-!
# Byte strings and the standard library the server uses

`std::string` is a list of bytes. The operations are the ones `message.h` and `myevent.cpp` call,
with the documented behaviour of the standard library: positions are `size_t`, `npos` is the
largest one, a position past the end makes `substr` throw, and stream extraction skips white space
of the C locale. Whatever ends the process, an exception nobody catches or an operation outside its
contract, is a `Fault`.
-/

open Search

namespace Cherokee

/-- The type `std::string`, as its bytes: the source handles what it receives without decoding
it. -/
abbrev Bytes := List UInt8

/-- The bytes of a string literal of the source, all of which are ASCII. -/
def lit (s : String) : Bytes := s.toList.map fun c => c.toNat.toUInt8

/-- `'\r'` -/
def cr : UInt8 := 13

/-- `'\n'` -/
def lf : UInt8 := 10

/-- `"\r\n"` -/
def crlf : Bytes := [cr, lf]

/-- What ends the whole server process in the middle of a handler. -/
inductive Fault where
  /-- `std::out_of_range`, thrown by `substr`, `at` and `stoll`. -/
  | outOfRange
  /-- `std::invalid_argument`, thrown by `stoll`. -/
  | invalidArgument
  /-- `std::length_error`, thrown when a string would grow beyond `max_size`. -/
  | lengthError
  /-- An operation outside its contract: `pop_back` on an empty string, an index past the end, a
  negative count. -/
  | undefined
  /-- A loop that never leaves. -/
  | diverges
deriving DecidableEq, Repr

/-! ### Integer conversions -/

/-- Conversion of a `size_t` to `int`, modulo `2 ^ 32` into the signed range. -/
def toInt (n : ℕ) : ℤ := ((n + 2 ^ 31) % 2 ^ 32 : ℕ) - 2 ^ 31

/-- Conversion of a signed integer to `size_t`, modulo `2 ^ 64`. -/
def toSize (z : ℤ) : ℕ := (z % 2 ^ 64).toNat

/-- The constant `std::string::npos`, the largest `size_t`. -/
def npos : ℕ := 2 ^ 64 - 1

theorem toInt_of_lt {n : ℕ} (h : n < 2 ^ 31) : toInt n = n := by
  have hmod : (n + 2 ^ 31) % 2 ^ 32 = n + 2 ^ 31 := Nat.mod_eq_of_lt (by omega)
  rw [toInt, hmod]
  omega

theorem toSize_natCast {n : ℕ} (h : n < 2 ^ 64) : toSize n = n := by
  unfold toSize
  omega

/-- From `2 ^ 31` to `2 ^ 32` a length comes out negative. -/
theorem toInt_of_wide {n : ℕ} (h : 2 ^ 31 ≤ n) (h' : n < 2 ^ 32) : toInt n = (n : ℤ) - 2 ^ 32 := by
  unfold toInt
  omega

/-! ### `std::string` -/

/-- The value of `std::string::max_size()`, which no string is longer than. -/
def maxSize : ℕ := 2 ^ 63 - 1

/-- The call `s.find(p, pos)`, the first place of `p` from `pos` on; `none` is `npos`. -/
def find (s p : Bytes) (pos : ℕ) : Option ℕ :=
  (firstAt p (s.drop pos)).map (· + pos)

/-- The call `s.substr(pos, n)`, which throws when `pos` is behind the end and takes what there is
otherwise. -/
def substr (s : Bytes) (pos n : ℕ) : Except Fault Bytes :=
  if pos ≤ s.length then .ok ((s.drop pos).take n) else .error .outOfRange

/-- `s.c_str()` as a system call reads it: up to the first zero byte. -/
def cStr (s : Bytes) : Bytes := s.takeWhile (· ≠ 0)

/-- The function `isspace` in the C locale: the blank, and the five control characters from tab to
carriage return. -/
def isspace (c : UInt8) : Bool := c == 32 || (9 ≤ c && c ≤ 13)

/-- `removeSpaces`: the characters of a file name that are no white space. -/
def removeSpaces (str : Bytes) : Bytes := str.filter fun c => !isspace c

theorem find_zero (s p : Bytes) : find s p 0 = firstAt p s := by
  simp [find]

theorem find_length_le {s p : Bytes} {pos i : ℕ} (hpos : pos ≤ s.length)
    (h : find s p pos = some i) : i + p.length ≤ s.length := by
  obtain ⟨j, hj, rfl⟩ := Option.map_eq_some_iff.mp h
  have hlen := firstAt_length_le hj
  rw [List.length_drop] at hlen
  omega

/-! ### `std::istringstream` -/

/-- A string stream: what has not been read, and whether neither `eofbit` nor `failbit` is set. -/
structure IStringStream where
  rest : Bytes
  good : Bool := true

namespace IStringStream

/-- `stream >> str`: skip white space, then read up to the next. A failed extraction leaves
`str`. -/
def extract (stream : IStringStream) (str : Bytes) : Bytes × IStringStream :=
  if stream.good then
    let rest := stream.rest.dropWhile isspace
    if rest = [] then (str, ⟨[], false⟩)
    else
      let left := rest.dropWhile (!isspace ·)
      (rest.takeWhile (!isspace ·), ⟨left, left ≠ []⟩)
  else (str, stream)

/-- The call `stream.get()`: one character is taken, and a stream at its end is no longer good. -/
def get (stream : IStringStream) : IStringStream :=
  if stream.good then
    match stream.rest with
    | [] => ⟨[], false⟩
    | _ :: rest => ⟨rest, true⟩
  else stream

/-- The call `getline(stream, str)`: up to the next line feed, or to the end. A stream that is not
good leaves `str` alone. -/
def getline (stream : IStringStream) (str : Bytes) : Bytes × IStringStream :=
  if stream.good then
    match firstAt [lf] stream.rest with
    | some i => (stream.rest.take i, ⟨stream.rest.drop (i + 1), true⟩)
    | none => (stream.rest, ⟨[], false⟩)
  else (str, stream)

end IStringStream

/-! ### Numbers -/

/-- A decimal digit. -/
def isDigit (c : UInt8) : Bool := 48 ≤ c && c ≤ 57

/-- The number a string of decimal digits denotes, read from the left. -/
def decimal (s : Bytes) : ℕ := s.foldl (fun n c => 10 * n + (c.toNat - 48)) 0

/-- `std::stoll`: leading white space, an optional sign, digits; whatever follows is ignored. -/
def stoll (s : Bytes) : Except Fault ℤ :=
  let s := s.dropWhile isspace
  let negative := s.head? = some 45
  let s := if s.head? = some 45 ∨ s.head? = some 43 then s.tail else s
  let digits := s.takeWhile isDigit
  if digits = [] then .error .invalidArgument
  else
    let value : ℤ := if negative then -(decimal digits : ℤ) else decimal digits
    if -2 ^ 63 ≤ value ∧ value < 2 ^ 63 then .ok value else .error .outOfRange

/-- The function `std::to_string` of an unsigned number: its decimal digits without leading
zeros. -/
def toDecimal (n : ℕ) : Bytes := (Nat.toDigits 10 n).map fun c => c.toNat.toUInt8

end Cherokee
