/-! # Rounding to binary64

A nonnegative rational number is rounded to the nearest IEEE 754 double, ties going
to the even significand. The arithmetic is exact, on natural numbers; the result is
the 64-bit word. A word whose value is finite and has no sign stands for
`m * 2 ^ (q - 1074)`, and its number is `q * 2 ^ 52 + m`, for normal and subnormal
significands alike.
-/
namespace LuaSyntax

/-- A double, as its bits. -/
structure Binary64 where
  bits : UInt64
  deriving DecidableEq, Repr, Inhabited

namespace Binary64

def infinity : Binary64 := ⟨0x7FF0000000000000⟩

def zero : Binary64 := ⟨0⟩

/-- The bits without the sign. -/
def magnitude (x : Binary64) : Nat := x.bits.toNat % 0x8000000000000000

def isNaN (x : Binary64) : Bool := infinity.magnitude < x.magnitude

/-- Equality of doubles as numbers: a NaN equals nothing, and zero equals negative zero. -/
def equals (x y : Binary64) : Bool :=
  !x.isNaN && !y.isNaN && (x.bits == y.bits || (x.magnitude == 0 && y.magnitude == 0))

/-- The integer nearest to `num / den`, the even one of two. -/
def roundDiv (num den : Nat) : Nat :=
  let quotient := num / den
  let remainder := num % den
  if 2 * remainder < den then quotient
  else if den < 2 * remainder then quotient + 1
  else quotient + quotient % 2

/-- The number of doubles between a power of two and the next, `2 ^ 52`. -/
def binade : Nat := 0x10000000000000

/-- The exponent `unit` for which `num / den` has 53 significant bits in units of
`2 ^ (unit - 1074)`, or zero where even the smallest unit leaves fewer. -/
def unitOf (num den : Nat) : Nat :=
  (num * Nat.pow 2 1074 / den).log2 - 52

/-- The nearest double to `num / den`. Values from halfway beyond the largest
finite double go to infinity. -/
def ofRatio (num den : Nat) : Binary64 :=
  let unit := unitOf num den
  let word := unit * binade + roundDiv (num * Nat.pow 2 1074) (den * Nat.pow 2 unit)
  if word < infinity.bits.toNat then ⟨UInt64.ofNat word⟩ else infinity

/-- The nearest double to `significand * 10 ^ exponent`. Exponents that decide the
result by their size alone are never raised to a power. -/
def ofDecimal (significand : Nat) (exponent : Int) : Binary64 :=
  if significand = 0 then zero
  else match exponent with
    | .ofNat e => if 400 ≤ e then infinity else ofRatio (significand * Nat.pow 10 e) 1
    | .negSucc e =>
      let scale := e + 1
      if significand.log2 + 1081 < 3 * scale then zero else ofRatio significand (Nat.pow 10 scale)

end Binary64

end LuaSyntax
