import LuaSyntax.Token.Place

/-! # Words and symbols

Names, reserved words and symbols. A reserved word is never part of a longer name, and
a name is never a reserved word.
-/
namespace LuaSyntax

/-- The words that cannot be names. -/
def reservedWords : List String := [
  "and", "break", "do", "else", "elseif", "end", "false", "for", "function", "goto", "if",
  "in", "local", "nil", "not", "or", "repeat", "return", "then", "true", "until", "while"]

/-- The reserved words as they stand in source. -/
def reservedBytes : List Bytes := reservedWords.map .ofString

def isReserved (word : Bytes) : Bool := reservedBytes.contains word

def never : UInt8 → Bool := fun _ => false

def isByte (c : Char) : UInt8 → Bool := fun b => b == c.toUInt8

/-- The source goes on with a text, and not with a barred byte after it. -/
def startsWith (text : Bytes) (barred : UInt8 → Bool) (source : Bytes) : Bool :=
  text.isPrefixOf source && !(source.drop text.length).head?.any barred

def startsWithKeyword (word : String) (source : Bytes) : Bool :=
  startsWith (.ofString word) isNamePart source

def startsName (source : Bytes) : Bool := source.head?.any isNameStart

namespace Scan

/-- A text that no barred byte follows. -/
def text (bytes : Bytes) (barred : UInt8 → Bool) : Scan (Option Unit) := do
  if startsWith bytes barred (← rest) then
    advance bytes.length
    return some ()
  else
    return none

/-- A name, as long as it gets. -/
def name : Scan (Option Bytes) := do
  let source ← rest
  if startsName source && !isReserved (source.takeWhile isNamePart) then
    return some (← takeWhile isNamePart)
  else
    return none

end Scan

end LuaSyntax
