import LuaSyntax.Token.Numeral
import LuaSyntax.Token.LongBracket
import LuaSyntax.Token.CodePoint

/-! # Quoted strings

A quoted string ends at its opening quote or fails at the end of its line. Its escape
sequences stand for single bytes, for line breaks, for nothing, or for the extended
UTF-8 encoding of a code point.
-/
namespace LuaSyntax

/-- The escapes of one letter or mark, with the bytes they stand for. -/
def simpleEscapes : List (UInt8 × UInt8) := [
  ('a'.toUInt8, 0x07), ('b'.toUInt8, 0x08), ('f'.toUInt8, 0x0C), ('n'.toUInt8, 0x0A),
  ('r'.toUInt8, 0x0D), ('t'.toUInt8, 0x09), ('v'.toUInt8, 0x0B), ('\\'.toUInt8, 0x5C),
  ('"'.toUInt8, 0x22), ('\''.toUInt8, 0x27)]

def openBrace : UInt8 := 0x7B
def closeBrace : UInt8 := 0x7D

namespace Scan

/-- Two hexadecimal digits. -/
def hexEscape : Scan Bytes := do
  match (← rest).take 2 |>.map hexDigit? with
  | [some high, some low] =>
    advance 2
    return [UInt8.ofNat (high * 16 + low)]
  | _ => fail .hexEscape

/-- Up to three decimal digits, as many as there are. -/
def decimalEscape : Scan Bytes := do
  let digits := ((← rest).take 3).takeWhile isDigit
  let value := digitsValue 10 digits
  if 255 < value then fail .decimalEscape
  advance digits.length
  return [UInt8.ofNat value]

/-- Hexadecimal digits in braces. -/
def codePointEscape : Scan Bytes := do
  if (← rest).head? != some openBrace then fail .codePointOpen
  advance 1
  let start := (← get).offset
  let some code := CodePoint.ofDigits? (← digits isHexDigit .codePointDigit)
    | failAt .codePointTooLarge start
  if (← rest).head? != some closeBrace then fail .codePointClose
  advance 1
  return CodePoint.emit code

/-- What follows a backslash, and the bytes it stands for. -/
def escape : Scan Bytes := do
  let source ← rest
  let b :: _ := source | fail .escape
  if let some value := simpleEscapes.lookup b then
    advance 1
    return [value]
  else if isLineBreak b then
    advance (lineBreakLength source)
    return [lineFeed]
  else if b == 'z'.toUInt8 then
    advance 1
    let _ ← takeWhile isSpace
    return []
  else if b == 'x'.toUInt8 then
    advance 1
    hexEscape
  else if b == 'u'.toUInt8 then
    advance 1
    codePointEscape
  else if isDigit b then
    decimalEscape
  else
    fail .escape

/-- One item of a quoted string and the bytes it stands for, up to the closing quote. -/
def quotedItem (quote : UInt8) : Scan (Option Bytes) := do
  let b :: _ := (← rest) | fail .stringClose
  if b == quote then
    return none
  else if isLineBreak b then
    fail .stringClose
  else
    advance 1
    if b == '\\'.toUInt8 then some <$> escape else return some [b]

/-- The items of a quoted string, after those decoded so far in reverse. -/
def quotedItems (quote : UInt8) : Scan Bytes := do
  let decoded ← iterate (fun decoded => do
    let some bytes ← quotedItem quote | return none
    return some (bytes.reverse ++ decoded)) []
  return decoded.reverse

def quoted (quote : UInt8) : Scan Bytes := do
  advance 1
  let value ← quotedItems quote
  advance 1
  return value

/-- A quoted string or a long bracket. -/
def string : Scan (Option Bytes) := do
  match (← rest).head? with
  | some b =>
    if b == '"'.toUInt8 || b == '\''.toUInt8 then some <$> quoted b else longBracket
  | none => return none

end Scan

end LuaSyntax
