import LuaSyntax.Bytes

/-! # Code points

Values of up to 31 bits and their bytes. A value is read from hexadecimal digits one at a
time, and written as one to six bytes of extended UTF-8: a leading byte tells the length,
and each further byte carries six bits. All arithmetic is on 32-bit words.
-/
namespace LuaSyntax

namespace CodePoint

/-- The largest value that has an encoding. -/
def max : Nat := 0x7FFFFFFF

/-- A value with one more hexadecimal digit, if it has an encoding then. -/
def shiftIn? (code : UInt32) (digit : UInt8) : Option UInt32 :=
  if (0x7FFFFFFF : UInt32) >>> 4 < code then none
  else some (code <<< 4 ||| UInt32.ofNat ((hexDigit? digit).getD 0))

def ofDigits? (digits : Bytes) : Option UInt32 := digits.foldlM shiftIn? 0

/-- A value on its way into bytes: what is left of it, the largest value that fits the
leading byte, and the bytes behind that. -/
structure Spill where
  left : UInt32
  room : UInt32
  tail : Bytes

/-- Move six bits into a byte of their own. The leading byte has half the room then. -/
def Spill.next (spill : Spill) : Spill :=
  ⟨spill.left >>> 6, spill.room >>> 1, (0x80 ||| (spill.left &&& 0x3F)).toUInt8 :: spill.tail⟩

/-- Move bits until the rest fits the leading byte: once, and at most a number of times more. -/
def Spill.settle : Nat → Spill → Spill
  | 0, spill => spill.next
  | more + 1, spill =>
    if spill.next.left ≤ spill.next.room then spill.next else settle more spill.next

/-- A value that does not fit a single byte. Six times six bits are all there are in a word. -/
def spilled (code : UInt32) : Spill := Spill.settle 5 ⟨code, 0x3F, []⟩

def emit (code : UInt32) : Bytes :=
  if code < 0x80 then [code.toUInt8]
  else (~~~(spilled code).room <<< 1 ||| (spilled code).left).toUInt8 :: (spilled code).tail

end CodePoint

end LuaSyntax
