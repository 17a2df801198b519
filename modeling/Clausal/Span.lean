/-!
Places in a source text. A span is a half-open range of byte offsets. Offsets are recorded in
32 bits: an offset that does not fit is recorded as the largest one, so a span never wraps.
-/

namespace Clausal

def maxOffset : Nat := UInt32.size - 1

def clampOffset (n : Nat) : Nat := min n maxOffset

theorem clampOffset_le (n : Nat) : clampOffset n ≤ maxOffset := Nat.min_le_right _ _

theorem clampOffset_of_le {n : Nat} (h : n ≤ maxOffset) : clampOffset n = n :=
  Nat.min_eq_left h

structure Span where
  start : Nat
  stop : Nat
  deriving DecidableEq, Inhabited

namespace Span

/-- The span of a range of the source, each end recorded as far as 32 bits reach. -/
def ofRange (start stop : Nat) : Span := ⟨clampOffset start, clampOffset stop⟩

/-- The empty span at an offset, used for the end of the input. -/
def point (offset : Nat) : Span := ⟨offset, offset⟩

/-- The smallest span that covers both. -/
def merge (a b : Span) : Span := ⟨min a.start b.start, max a.stop b.stop⟩

def text (s : Span) : String := toString s.start ++ ".." ++ toString s.stop

end Span

end Clausal
