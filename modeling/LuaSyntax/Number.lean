import LuaSyntax.Bytes
import LuaSyntax.Binary64

/-! # Numbers

A numeral is a 64-bit integer or a double. The two never equal each other, and
doubles are compared as numbers, of which no numeral makes a negative one or a NaN.
-/
namespace LuaSyntax

inductive Number where
  | integer (value : Int64)
  | float (value : Binary64)
  deriving DecidableEq, Repr

namespace Number

def equals : Number → Number → Bool
  | integer value, integer value' => value == value'
  | float value, float value' => value.equals value'
  | _, _ => false

/-- A word with one more hexadecimal digit. What does not fit is lost. -/
def withHexDigit (value : UInt64) (b : UInt8) : UInt64 := value * 16 + UInt64.ofNat ((hexDigit? b).getD 0)

/-- Hexadecimal digits of any length, read in a word that wraps around, and the word as a signed one. -/
def ofHexadecimal (digits : Bytes) : Number := .integer (digits.foldl withHexDigit 0).toInt64

/-- A plain decimal numeral is an integer where it fits one, else a double. -/
def ofDecimal (digits : Bytes) : Number :=
  let value := digitsValue 10 digits
  if value < Nat.pow 2 63 then .integer (Int64.ofNat value) else .float (.ofDecimal value 0)

/-- A numeral with a fraction or an exponent. -/
def ofFloating (whole fraction : Bytes) (exponent : Int) : Number :=
  .float (.ofDecimal (digitsValue 10 (whole ++ fraction)) (exponent - fraction.length))

end Number

end LuaSyntax
