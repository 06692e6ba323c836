/-!
Byte ranges of a source text. Offsets are capped at the largest 32-bit number, so a range built
from larger offsets stays a range; two ranges are merged into the smallest one covering both.
-/

namespace Reckon

/-- The bytes from `start` up to, not including, `stop`. -/
structure Span where
  start : Nat
  stop : Nat
deriving DecidableEq

namespace Span

/-- The largest offset a span holds. -/
def maxOffset : Nat := 4294967295

/-- The span of a node that stands for no source text. -/
def unplaced : Span := ⟨0, 0⟩

/-- Each end is capped at `maxOffset`. -/
def ofRange (start stop : Nat) : Span := ⟨min start maxOffset, min stop maxOffset⟩

/-- The empty span at one offset. -/
def point (offset : Nat) : Span := ofRange offset offset

/-- Zero for a span whose ends are reversed. -/
def length (s : Span) : Nat := s.stop - s.start

def isEmpty (s : Span) : Bool := decide (s.stop ≤ s.start)

/-- The smallest span covering both. -/
def merge (a b : Span) : Span := ⟨min a.start b.start, max a.stop b.stop⟩

def text (s : Span) : String := toString s.start ++ ".." ++ toString s.stop

/-- The part of the span inside a text of `size` bytes, its end not before its start. -/
def clamp (s : Span) (size : Nat) : Span :=
  let start := min s.start size
  ⟨start, min (max s.stop start) size⟩

theorem merge_assoc (a b c : Span) : (a.merge b).merge c = a.merge (b.merge c) := by
  simp [merge, Nat.min_assoc, Nat.max_assoc]

theorem clamp_bounds (s : Span) (size : Nat) :
    (s.clamp size).start ≤ (s.clamp size).stop ∧ (s.clamp size).stop ≤ size := by
  simp only [clamp]
  omega

end Span

end Reckon
