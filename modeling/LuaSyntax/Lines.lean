import Std.Data.HashSet
import LuaSyntax.Node.Preorder

/-! # Lines

A line index finds the line of a byte position in a text. The executable lines of a
tree are those where its statements and the conditions of its branches and `repeat`
loops start, which a line tracer can stop on.
-/
namespace LuaSyntax

/-- The offsets at which the lines of a text start, ascending. -/
structure LineIndex where
  starts : Array Nat

namespace LineIndex

/-- Add the starts of the lines after those line feeds that follow an offset. -/
def startsFrom (offset : Nat) (starts : Array Nat) : Bytes → Array Nat
  | [] => starts
  | b :: rest =>
    startsFrom (offset + 1) (if b == lineFeed then starts.push (offset + 1) else starts) rest

def ofText (text : Bytes) : LineIndex := ⟨startsFrom 0 #[0] text⟩

/-- The number of ascending values up to a bound, if those below `low` are and those
from `high` on are not. -/
def countUpTo (values : Array Nat) (bound low high : Nat) : Nat :=
  if low < high then
    let middle := (low + high) / 2
    if values[middle]?.any (· ≤ bound) then countUpTo values bound (middle + 1) high
    else countUpTo values bound low middle
  else low
termination_by high - low

/-- The one-based line of a one-based position; position zero counts as one. -/
def line (index : LineIndex) (pos : Nat) : Nat :=
  countUpTo index.starts (pos - 1) 0 index.starts.size

end LineIndex

/-- The children of a form at which execution can stop. Labels are not executed. -/
def Form.stops : Form Node → List Node
  | .block statements => statements.filter (!·.form.isLabel)
  | .conditional branches _ => branches.map Prod.fst
  | .repeatLoop _ condition => [condition]
  | _ => []

/-- A set of lines. -/
structure ExecutableLines where
  lines : Std.HashSet Nat

namespace ExecutableLines

def ofList (lines : List Nat) : ExecutableLines := ⟨.ofList lines⟩

def contains (executable : ExecutableLines) (line : Nat) : Bool := executable.lines.contains line

def size (executable : ExecutableLines) : Nat := executable.lines.size

def isEmpty (executable : ExecutableLines) : Bool := executable.lines.isEmpty

/-- The lines, ascending. -/
def sorted (executable : ExecutableLines) : List Nat := executable.lines.toList.mergeSort

end ExecutableLines

/-- The executable lines of a tree, its positions taken in a text. -/
def executableLines (root : Node) (text : Bytes) : ExecutableLines :=
  let index := LineIndex.ofText text
  .ofList ((root.preorder.flatMap fun node => node.form.stops).map fun node =>
    index.line node.span.pos)

end LuaSyntax
