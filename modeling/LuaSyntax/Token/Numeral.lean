import LuaSyntax.Token.Place
import LuaSyntax.Number

/-! # Numerals

A numeral is `0x` and hexadecimal digits, or decimal digits with an optional fraction
and an optional exponent, or a fraction alone. A dot with no digit before it opens a
numeral unless another dot follows.
-/
namespace LuaSyntax

def startsHexadecimal : Bytes → Bool
  | zero :: mark :: _ => zero == '0'.toUInt8 && (mark == 'x'.toUInt8 || mark == 'X'.toUInt8)
  | _ => false

def startsDecimal : Bytes → Bool
  | [] => false
  | b :: next => isDigit b || (b == '.'.toUInt8 && next.head? != some '.'.toUInt8)

namespace Scan

/-- A nonempty run of digits of a class. -/
def digits (p : UInt8 → Bool) (missing : Label) : Scan Bytes := do
  let run ← takeWhile p
  if run.isEmpty then fail missing
  return run

def hexadecimal : Scan Number := do
  advance 2
  return .ofHexadecimal (← digits isHexDigit .hexDigit)

/-- A dot and the digits after it. There may be none if there were some before. -/
def fraction (whole : Bytes) : Scan (Option Bytes) := do
  if (← rest).head? != some '.'.toUInt8 then return none
  advance 1
  if whole.isEmpty then
    return some (← digits isDigit .fractionDigit)
  return some (← takeWhile isDigit)

/-- `e` or `E`, an optional sign and digits. -/
def exponent : Scan (Option Int) := do
  unless (← rest).head?.any fun b => b == 'e'.toUInt8 || b == 'E'.toUInt8 do return none
  advance 1
  let sign := (← rest).head?
  if sign == some '+'.toUInt8 || sign == some '-'.toUInt8 then advance 1
  let magnitude := digitsValue 10 (← digits isDigit .exponentDigit)
  return some (if sign == some '-'.toUInt8 then -magnitude else magnitude)

def decimal : Scan Number := do
  let whole ← takeWhile isDigit
  let fraction ← fraction whole
  let exponent ← exponent
  match fraction, exponent with
  | none, none => return .ofDecimal whole
  | _, _ => return .ofFloating whole (fraction.getD []) (exponent.getD 0)

def numeral : Scan (Option Number) := do
  let source ← rest
  if startsHexadecimal source then some <$> hexadecimal
  else if startsDecimal source then some <$> decimal
  else return none

end Scan

end LuaSyntax
