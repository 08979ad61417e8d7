import ParamLowering.Text.Offset
set_option autoImplicit false

/-!
Half-open ranges of byte offsets into one source text. A span is plain data: it may be inverted
or reach past the text, and only `text?` asks for more.
-/

namespace ParamLowering

/-- The range `[start, stop)` of byte offsets. -/
structure Span where
  start : Nat
  stop : Nat
  deriving DecidableEq, Repr, Inhabited

namespace Span

/-- The empty range at one offset. -/
def point (offset : Nat) : Span := ⟨offset, offset⟩

/-- The same range counted from `base`; an offset before `base` becomes zero. -/
def rebase (s : Span) (base : Nat) : Span := ⟨s.start - base, s.stop - base⟩

/-- The number of bytes covered; an inverted range covers none. -/
def length (s : Span) : Nat := s.stop - s.start

def isEmpty (s : Span) : Bool := s.stop ≤ s.start

/-- Whether `inner` begins and ends inside `outer`. -/
def contains (outer inner : Span) : Bool := outer.start ≤ inner.start && inner.stop ≤ outer.stop

/-- Whether two non-empty ranges share a byte. -/
def overlaps (a b : Span) : Bool :=
  !a.isEmpty && !b.isEmpty && (a.start < b.stop && b.start < a.stop)

/-- Order by start, then by end. -/
def precedes (a b : Span) : Bool :=
  a.start < b.start || (a.start == b.start && a.stop ≤ b.stop)

/-- The covered text, if the range is in order, in bounds and on character boundaries. -/
def text? (s : Span) (source : List Char) : Option (List Char) :=
  Text.slice? source s.start s.stop

end Span

end ParamLowering
