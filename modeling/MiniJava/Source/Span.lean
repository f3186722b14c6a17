/-!
Ranges of source lines.
-/
namespace MiniJava

/-- The lines from `first` to `last`, both included. -/
structure Span where
  first : Int
  last : Int
  deriving DecidableEq, Repr, Inhabited

namespace Span

def line (n : Int) : Span := ⟨n, n⟩

def through (s t : Span) : Span := ⟨s.first, t.last⟩

def describe (s : Span) : String :=
  if s.first = s.last then s!"line {s.first}" else s!"lines {s.first}-{s.last}"

end Span

end MiniJava
