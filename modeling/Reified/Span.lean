/-!
# Places in a source text

A span runs from a line and column to another. Line zero stands for "no place known".
-/

namespace Reified

/-- A stretch of source text. -/
structure Span where
  line : Nat
  column : Nat
  endLine : Nat
  endColumn : Nat
  deriving DecidableEq

namespace Span

/-- No place is known. -/
def unknown : Span := ⟨0, 0, 0, 0⟩

instance : Inhabited Span := ⟨unknown⟩

/-- The span of a single character position. -/
def point (line column : Nat) : Span := ⟨line, column, line, column⟩

/-- The position `(l, c)` does not come after `(l', c')`. -/
def before (l c l' c' : Nat) : Bool :=
  l < l' || (l = l' && c ≤ c')

/-- The least span that covers both; an unknown span covers nothing. -/
def union (a b : Span) : Span :=
  if a.line = 0 then b
  else if b.line = 0 then a
  else
    let start := if before a.line a.column b.line b.column then a else b
    let stop := if before b.endLine b.endColumn a.endLine a.endColumn then a else b
    ⟨start.line, start.column, stop.endLine, stop.endColumn⟩

end Span

end Reified
