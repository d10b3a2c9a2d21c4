/-! # Source bytes

Lua source is read byte by byte: every position counts bytes, and only ASCII bytes
have a meaning of their own outside strings and comments. The classes below are
Lua's lexical classes.
-/
namespace LuaSyntax

/-- A run of bytes, of source text or of a string value. -/
abbrev Bytes := List UInt8

namespace Bytes

/-- The UTF-8 bytes of a text. -/
def ofString (text : String) : Bytes := text.toUTF8.data.toList

/-- The text of ASCII bytes. -/
def toText (bytes : Bytes) : String := String.ofList (bytes.map Char.ofUInt8)

/-- The text that the bytes encode, if they are valid UTF-8. -/
def decode? (bytes : Bytes) : Option String := String.fromUTF8? ⟨bytes.toArray⟩

end Bytes

def lineFeed : UInt8 := 0x0A
def carriageReturn : UInt8 := 0x0D

/-- Space, tab, line feed, vertical tab, form feed and carriage return. -/
def isSpace (b : UInt8) : Bool := b == 0x20 || (0x09 ≤ b && b ≤ 0x0D)

def isLineBreak (b : UInt8) : Bool := b == lineFeed || b == carriageReturn

def isDigit (b : UInt8) : Bool := 0x30 ≤ b && b ≤ 0x39

def isLetter (b : UInt8) : Bool := (0x41 ≤ b && b ≤ 0x5A) || (0x61 ≤ b && b ≤ 0x7A)

/-- Names start with a letter or an underscore. -/
def isNameStart (b : UInt8) : Bool := isLetter b || b == 0x5F

/-- Names go on with letters, digits and underscores. -/
def isNamePart (b : UInt8) : Bool := isNameStart b || isDigit b

/-- The value of a hexadecimal digit of either case. -/
def hexDigit? (b : UInt8) : Option Nat :=
  if isDigit b then some (b.toNat - 0x30)
  else if 0x61 ≤ b && b ≤ 0x66 then some (b.toNat - 0x61 + 10)
  else if 0x41 ≤ b && b ≤ 0x46 then some (b.toNat - 0x41 + 10)
  else none

def isHexDigit (b : UInt8) : Bool := (hexDigit? b).isSome

/-- The number written by digits of a base; bytes that are no digits count as zero. -/
def digitsValue (base : Nat) (digits : Bytes) : Nat :=
  digits.foldl (fun value b => value * base + (hexDigit? b).getD 0) 0

/-- Length of the line break at the front: a line feed and a carriage return
next to each other, in either order, are one break. -/
def lineBreakLength : Bytes → Nat
  | [] => 0
  | [b] => if isLineBreak b then 1 else 0
  | b :: c :: _ => if isLineBreak b then if isLineBreak c && c != b then 2 else 1 else 0

end LuaSyntax
