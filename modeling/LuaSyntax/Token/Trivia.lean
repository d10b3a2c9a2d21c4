import LuaSyntax.Token.LongBracket

/-! # Trivia

White space and comments. A comment that opens a long bracket ends with it, any other
at the end of its line.
-/
namespace LuaSyntax

def startsComment : Bytes → Bool
  | first :: second :: _ => first == '-'.toUInt8 && second == '-'.toUInt8
  | _ => false

namespace Scan

/-- The rest of a line, without the line feed. -/
def restOfLine : Scan Unit := do
  let _ ← takeWhile (· != lineFeed)

/-- A run of white space or a comment. -/
def trivium : Scan (Option Unit) := do
  let source ← rest
  if source.head?.any isSpace then
    let _ ← takeWhile isSpace
    return some ()
  else if startsComment source then
    advance 2
    if let none ← longBracket then restOfLine
    return some ()
  else
    return none

end Scan

end LuaSyntax
