/-! # Spans of bytes

An offset counts the bytes before it. Offsets that come from outside are brought into the range
of 32 bits, the largest of which stands for everything past it.
-/

namespace ClassHoist

/-- The largest offset that is told apart from those beyond it. -/
def Offset.limit : Nat := 4294967295

/-- The offset that stands for a byte count: itself up to the limit, the limit beyond it. -/
def Offset.saturate (value : Nat) : Nat := min value Offset.limit

/-- The bytes from `start` up to, but not including, `stop`. -/
structure Span where
  start : Nat
  stop : Nat
  deriving DecidableEq, Repr, Inhabited

namespace Span

/-- The span between two byte counts, each saturated. -/
def saturated (start stop : Nat) : Span :=
  ⟨Offset.saturate start, Offset.saturate stop⟩

/-- The empty span at an offset. -/
def empty (offset : Nat) : Span := ⟨offset, offset⟩

/-- The number of bytes in the span. -/
def length (span : Span) : Nat := span.stop - span.start

/-- The span has no bytes. -/
def isEmpty (span : Span) : Bool := span.start == span.stop

/-- The byte at the offset lies in the span. -/
def contains (span : Span) (offset : Nat) : Bool :=
  span.start ≤ offset && offset < span.stop

/-- Each span starts before the other stops. -/
def overlaps (first second : Span) : Bool :=
  first.start < second.stop && second.start < first.stop

end Span

end ClassHoist
