import Dbms18.Lib.Fault
import Dbms18.Lib.Text

/-!
# CSV files (`include/common/minicsv.h`)

The stream that an export writes its rows to, with the delimiter and the escape string that
`Export::Prepare` sets, the lines of a file as `std::getline` gives them, and the stream that a load reads
its rows from. The options on quotes are off in both.
-/

namespace Dbms18

def newline : UInt8 := 0x0a

namespace MiniCsv

/-- `mini::csv::ofstream`: what has been written, and whether the next field is the first of its line. -/
structure OutStream where
  out : Bytes := []
  afterNewline : Bool := true

def delimiter : UInt8 := 0x2c

/-- `replace` of every delimiter by the escape string `$$`. -/
def escape (src : Bytes) : Bytes := src.flatMap fun b => if b = delimiter then ascii "$$" else [b]

/-- `<<` of a value, given its text. -/
def OutStream.put (s : OutStream) (text : Bytes) : OutStream where
  out := s.out ++ (if s.afterNewline then [] else [delimiter]) ++ escape text
  afterNewline := false

/-- `<<` of `NEWLINE`. -/
def OutStream.endLine (s : OutStream) : OutStream where
  out := s.out ++ [newline]
  afterNewline := true

end MiniCsv

/-- The lines that `std::getline` reads from a file, with what has been read of the next line. -/
def getLinesFrom (line : Bytes) : Bytes → List Bytes
  | [] => if line.isEmpty then [] else [line]
  | b :: bs => if b = newline then line :: getLinesFrom [] bs else getLinesFrom (line ++ [b]) bs

def getLines (content : Bytes) : List Bytes := getLinesFrom [] content

theorem flatten_getLinesFrom (line content : Bytes) (h : content = [] ∧ line = [] ∨ content.getLast? = some newline) :
    ((getLinesFrom line content).map fun l => l ++ [newline]).flatten = line ++ content := by
  induction content generalizing line with
  | nil => simp_all [getLinesFrom]
  | cons b bs ih =>
    have hlast : (b :: bs).getLast? = some newline := by simpa using h
    by_cases hb : b = newline
    · have hrest := ih [] (by
        cases bs with
        | nil => exact .inl ⟨rfl, rfl⟩
        | cons b' bs => exact .inr (by rwa [List.getLast?_cons_cons] at hlast))
      simp [getLinesFrom, hb, hrest]
    · have hbs : bs ≠ [] := by
        rintro rfl
        exact hb (Option.some.inj hlast)
      obtain ⟨b', bs', rfl⟩ := List.exists_cons_of_ne_nil hbs
      have hrest := ih (line ++ [b]) (.inr (by rwa [List.getLast?_cons_cons] at hlast))
      simpa [getLinesFrom, hb] using hrest

theorem flatten_getLines {content : Bytes} (h : content = [] ∨ content.getLast? = some newline) :
    ((getLines content).map fun l => l ++ [newline]).flatten = content :=
  flatten_getLinesFrom [] content (h.imp_left fun h => ⟨h, rfl⟩)

theorem getLines_eq_nil_iff {content : Bytes} : getLines content = [] ↔ content = [] := by
  have hfrom : ∀ (bs line : Bytes), getLinesFrom line bs = [] → line = [] ∧ bs = [] := by
    intro bs
    induction bs with
    | nil =>
      intro line h
      simpa [getLinesFrom] using h
    | cons b bs ih =>
      intro line h
      simp only [getLinesFrom] at h
      split at h
      · cases h
      · exact absurd (ih _ h).1 (by simp)
  exact ⟨fun h => (hfrom content [] h).2, fun h => h ▸ rfl⟩

/-! ## Reading -/

namespace MiniCsv

/-- `read_bom`: one of the three bytes is enough for a byte order mark. -/
def hasBom (content : Bytes) : Bool :=
  content[0]? = some 0xef ∨ content[1]? = some 0xbb ∨ content[2]? = some 0xbf

/-- The lines that `read_line` gives one after the other, up to the first blank one. `read_bom` reads three
bytes, so a stream over a shorter file has failed before its first line is read. A byte order mark is
cut off with `substr(3)`, which throws if the line is shorter. -/
def readLines (content : Bytes) : Res (List Bytes) := do
  let lines := if content.length < 3 then [] else getLines content
  if hasBom content then
    Res.check (3 ≤ (lines.headD []).length) .outOfBounds
    return ((lines.headD []).drop 3 :: lines.tail).takeWhile (· ≠ [])
  return lines.takeWhile (· ≠ [])

/-- The loop of `get_delimited_str`: the characters of the next field, and what is left of the line. -/
def delimited (delimiter : UInt8) : Bytes → Bytes × Bytes
  | [] => ([], [])
  | ch :: line =>
    if ch = delimiter ∨ ch = 0x0d ∨ ch = newline then ([], line)
    else (ch :: (delimited delimiter line).1, (delimited delimiter line).2)

/-- `replace` of every `$$` by the delimiter. -/
def unescape (delimiter : UInt8) : Bytes → Bytes
  | 0x24 :: 0x24 :: src => delimiter :: unescape delimiter src
  | ch :: src => ch :: unescape delimiter src
  | [] => []

def getDelimitedStr (delimiter : UInt8) (line : Bytes) : Bytes × Bytes :=
  (unescape delimiter (delimited delimiter line).1, (delimited delimiter line).2)

def isSpace (ch : UInt8) : Bool := ch = 0x20 ∨ 0x09 ≤ ch ∧ ch ≤ 0x0d

def isDigit (ch : UInt8) : Bool := 0x30 ≤ ch ∧ ch ≤ 0x39

def ofDigits (digits : Bytes) : Nat := digits.foldl (fun n ch => 10 * n + (ch.toNat - 0x30)) 0

/-- `>>` of an `int64_t` from an `std::istringstream`: blanks, a sign and digits; what follows them is not
looked at. It fails if there are no digits or the number does not fit. -/
def parseInteger (text : Bytes) : Option Int64 :=
  let text := text.dropWhile isSpace
  let negative := text.head? = some 0x2d
  let digits := (if negative ∨ text.head? = some 0x2b then text.tail else text).takeWhile isDigit
  let value : Int := if negative then -ofDigits digits else ofDigits digits
  if digits ≠ [] ∧ -2 ^ 63 ≤ value ∧ value < 2 ^ 63 then some (Int64.ofInt value) else none

end MiniCsv

end Dbms18
