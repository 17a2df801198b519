import Clausal.Span
import Clausal.Text.Bytes

/-!
Lines and columns of a source. The byte offsets at which the lines start are found once, in a table
that is in order; the line of an offset is then looked up by halving the table. Lines and columns
count from one, and a column counts characters. A count that is no number of 32 bits is replaced
before one is added to it.
-/

namespace Clausal.Report

/-- The place of a number in a table that is in order: that of an entry equal to it, or that at
which it would have to be put in. -/
inductive Place
  | exact (index : Nat)
  | before (index : Nat)

namespace Place

/-- Halves the stretch of a table from an index on in which the last entry that is not above the
number is looked for, until one entry is left. -/
def narrow (table : Array Nat) (n base size : Nat) : Nat :=
  if size ≤ 1 then base
  else
    let half := size / 2
    let next := if n < table.getD (base + half) 0 then base else base + half
    narrow table n next (size - half)
termination_by size

def find (table : Array Nat) (n : Nat) : Place :=
  if table.size = 0 then before 0
  else
    let base := narrow table n 0 table.size
    let entry := table.getD base 0
    if entry = n then exact base
    else before (if entry < n then base + 1 else base)

/-- The index of the last entry that is not above the number; the first index if there is none. -/
def lastIndex : Place → Nat
  | exact index => index
  | before index => index - 1

end Place

structure Lines where
  text : List Char
  starts : Array Nat

namespace Lines

open Text

/-- The offsets after the line ends of a text that starts at an offset. -/
def startsAfter (offset : Nat) : List Char → List Nat
  | [] => []
  | c :: cs =>
    if c = '\n' then clampOffset (offset + 1) :: startsAfter (offset + 1) cs
    else startsAfter (offset + c.utf8Size) cs

def ofSource (source : String) : Lines :=
  ⟨source.toList, (0 :: startsAfter 0 source.toList).toArray⟩

/-- A count from one, of something counted from zero. The largest number of 32 bits is not
replaced, and what is counted from one is then larger than that. -/
def ordinal (n : Nat) : Nat := (if n ≤ maxOffset then n else maxOffset - 1) + 1

/-- The line that an offset lies on. Offsets past the end lie on the last line. -/
def lineAt (ls : Lines) (offset : Nat) : Nat :=
  ordinal (Place.find ls.starts offset).lastIndex

def lineStart (ls : Lines) (line : Nat) : Nat := ls.starts[line - 1]?.getD 0

/-- The line and the column of an offset. An offset inside a character has the first column. -/
def position (ls : Lines) (offset : Nat) : Nat × Nat :=
  let line := ls.lineAt offset
  let before := slice? ls.text (ls.lineStart line) (min offset (byteLength ls.text))
  (line, ordinal (before.getD []).length)

def isLineEnd (c : Char) : Bool := c == '\n' || c == '\r'

/-- A line without the line ends that it closes with. -/
def trimmed (line : List Char) : List Char := (line.reverse.dropWhile isLineEnd).reverse

def lineText? (ls : Lines) (line : Nat) : Option (List Char) :=
  if line = 0 ∨ ls.starts.size < line then none
  else
    let stop := ls.starts[line]?.getD (byteLength ls.text)
    (slice? ls.text (ls.lineStart line) stop).map trimmed

end Lines

end Clausal.Report
