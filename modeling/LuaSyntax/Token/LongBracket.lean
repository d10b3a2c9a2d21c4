import LuaSyntax.Token.Place

/-! # Long brackets

`[[` and `]]`, with the same number of equals signs between the two brackets of each.
Nothing inside has a meaning but the first closing bracket of the same level, and one
line break right after the opening bracket is dropped.
-/
namespace LuaSyntax

namespace LongBracket

/-- The level of the long bracket that the source opens, its number of equals signs. -/
def level? : Bytes → Option Nat
  | [] => none
  | b :: inner =>
    let level := (inner.takeWhile (· == '='.toUInt8)).length
    if b == '['.toUInt8 && (inner.drop level).head? == some '['.toUInt8 then some level
    else none

def closing (level : Nat) : Bytes :=
  ']'.toUInt8 :: List.replicate level '='.toUInt8 ++ [']'.toUInt8]

/-- The bytes before the first occurrence of a mark, given those already passed in
reverse. -/
def contentBefore? (mark passed : Bytes) : Bytes → Option Bytes
  | [] => none
  | b :: tail =>
    if mark.isPrefixOf (b :: tail) then some passed.reverse
    else contentBefore? mark (b :: passed) tail

end LongBracket

def Scan.longBracket : Scan (Option Bytes) := do
  let some level := LongBracket.level? (← rest) | return none
  advance (level + 2)
  advance (lineBreakLength (← rest))
  let place ← get
  match LongBracket.contentBefore? (LongBracket.closing level) [] place.rest with
  | some content =>
    advance (content.length + level + 2)
    return some content
  | none => failAt .longBracketClose place.sourceEnd

end LuaSyntax
