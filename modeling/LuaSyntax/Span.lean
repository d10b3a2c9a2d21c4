/-! # Spans

A span is a range of one-based byte positions, both ends included. Nothing forces
`pos ≤ endPos`; parsed trees have it.
-/
namespace LuaSyntax

structure Span where
  pos : Nat
  endPos : Nat
  deriving DecidableEq, Repr, Inhabited

namespace Span

/-- The one-byte span at a position. -/
def point (pos : Nat) : Span := ⟨pos, pos⟩

/-- From the start of the first span to the end of the last. -/
def between (first last : Span) : Span := ⟨first.pos, last.endPos⟩

def contains (outer inner : Span) : Bool :=
  outer.pos ≤ inner.pos && inner.endPos ≤ outer.endPos

/-- The span that covers a list of spans in order, if there is any. -/
def cover? : List Span → Option Span
  | [] => none
  | first :: rest => some (between first ((first :: rest).getLast (by simp)))

end Span

end LuaSyntax
