/-!
# Places in the query text

A span is a half-open stretch of the text that a query was read from.
-/

namespace QueryPipeline

/-- The stretch of text from `start` up to but not including `stop`. -/
structure Span where
  start : Nat
  stop : Nat
deriving DecidableEq, Inhabited, Repr

namespace Span

/-- The span of something that stands nowhere in the text. -/
def nowhere : Span := ⟨0, 0⟩

/-- The smallest span that covers both. -/
def merge (a b : Span) : Span := ⟨min a.start b.start, max a.stop b.stop⟩

/-- Whether the span covers no text. -/
def isEmpty (s : Span) : Bool := s.start == s.stop

/-- Both ends, with two dots between. -/
def text (s : Span) : String := s!"{s.start}..{s.stop}"

end Span

end QueryPipeline
