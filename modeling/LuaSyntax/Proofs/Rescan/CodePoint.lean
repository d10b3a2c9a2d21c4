import Mathlib.Algebra.Group.Nat.Defs
import LuaSyntax.Proofs.Rescan.Quoted

/-! # Code points and their bytes

A leading byte tells how many bytes are behind it, and each of those carries six bits.
Bytes are read by that scheme to the value that they were written for, no fewer bytes are
read to it, and for Unicode scalar values they are the bytes of UTF-8.
-/
namespace LuaSyntax

namespace CodePoint

variable {value count : Nat}

section Reading

/-- The number of bytes that a leading byte announces, and the bits that it carries itself. -/
def leading? (b : UInt8) : Option (Nat × Nat) :=
  if b < 0x80 then some (0, b.toNat)
  else if b < 0xC0 then none
  else if b < 0xE0 then some (1, b.toNat - 0xC0)
  else if b < 0xF0 then some (2, b.toNat - 0xE0)
  else if b < 0xF8 then some (3, b.toNat - 0xF0)
  else if b < 0xFC then some (4, b.toNat - 0xF8)
  else if b < 0xFE then some (5, b.toNat - 0xFC)
  else none

/-- The two highest bits of a byte are 10. -/
def IsContinuation (b : UInt8) : Prop := 0x80 ≤ b.toNat ∧ b.toNat < 0xC0

instance (b : UInt8) : Decidable (IsContinuation b) := inferInstanceAs (Decidable (_ ∧ _))

/-- The bits read so far with those of a number of continuation bytes, and what is behind these. -/
def more? : Nat → Nat → Bytes → Option (Nat × Bytes)
  | 0, bits, text => some (bits, text)
  | _ + 1, _, [] => none
  | count + 1, bits, b :: text =>
    if IsContinuation b then more? count (bits * 64 + (b.toNat - 0x80)) text else none

/-- The value in front of a text, and what is behind it. -/
def decode? : Bytes → Option (Nat × Bytes)
  | [] => none
  | b :: text => (leading? b).bind fun (count, bits) => more? count bits text

end Reading

section Encoded

theorem isContinuation_ofNat {bits : Nat} (h : bits < 64) :
    IsContinuation (UInt8.ofNat (0x80 + bits)) ∧ (UInt8.ofNat (0x80 + bits)).toNat - 0x80 = bits := by
  rw [IsContinuation, UInt8.toNat_ofNat']
  omega

theorem isContinuation_of_mem (value count : Nat) : ∀ b ∈ continuation value count, IsContinuation b := by
  induction count with
  | zero => exact List.forall_mem_nil _
  | succ count ih => exact List.forall_mem_cons.mpr ⟨(isContinuation_ofNat (Nat.mod_lt _ (by decide))).1, ih⟩

/-- Continuation bytes give the lowest digits of their value back. -/
theorem more?_continuation (bits value count : Nat) (tail : Bytes) :
    more? count bits (continuation value count ++ tail) = some (bits * 64 ^ count + value % 64 ^ count, tail) := by
  induction count generalizing bits with
  | zero => rw [continuation, List.nil_append, more?, Nat.pow_zero, Nat.mod_one, Nat.mul_one, Nat.add_zero]
  | succ count ih =>
    have hlow : value / 64 ^ count % 64 < 64 := Nat.mod_lt _ (by decide)
    obtain ⟨hmark, hbits⟩ := isContinuation_ofNat hlow
    have hpow : Nat.pow 64 count = 64 ^ count := rfl
    have hvalue : (bits * 64 + value / 64 ^ count % 64) * 64 ^ count + value % 64 ^ count =
        bits * 64 ^ (count + 1) + value % 64 ^ (count + 1) := by
      rw [Nat.pow_succ, Nat.mod_mul, Nat.add_mul, Nat.mul_assoc, Nat.mul_comm 64, Nat.mul_comm (value / 64 ^ count % 64)]
      omega
    rw [continuation, List.cons_append, more?, hpow, if_pos hmark, hbits, ih, hvalue]

theorem leading?_low (hlow : value < 0x80) : leading? (UInt8.ofNat value) = some (0, value) := by
  have hbyte : (UInt8.ofNat value).toNat = value := UInt8.toNat_ofNat_of_lt' (Nat.lt_trans hlow (by decide))
  rw [leading?, if_pos (UInt8.lt_iff_toNat_lt.mpr (hbyte.symm ▸ hlow)), hbyte]

theorem leading?_mark {bits : Nat} (hpos : 0 < count) (hle : count ≤ 5) (h : bits ≤ 0x3F / 2 ^ count) :
    leading? (UInt8.ofNat (mark count + bits)) = some (count, bits) := by
  have hall : ∀ count < 6, 0 < count → ∀ bits < 0x3F / 2 ^ count + 1,
      leading? (UInt8.ofNat (mark count + bits)) = some (count, bits) := by decide
  exact hall count (Nat.lt_succ_of_le hle) hpos bits (Nat.lt_succ_of_le h)

theorem decode?_multibyte {tail : Bytes} (hpos : 0 < count) (hle : count ≤ 5) (hfits : Fits value count) :
    decode? (multibyte (mark count) count value ++ tail) = some (value, tail) := by
  have hpow : Nat.pow 64 count = 64 ^ count := rfl
  have hlead := leading?_mark hpos hle hfits
  have hvalue : value / 64 ^ count * 64 ^ count + value % 64 ^ count = value := Nat.div_add_mod' value _
  rw [multibyte, List.cons_append, decode?, hpow, hlead]
  exact (more?_continuation _ value count tail).trans (by rw [hvalue])

theorem decode?_encode (hv : value ≤ max) (tail : Bytes) : decode? (encode value ++ tail) = some (value, tail) := by
  by_cases hlow : value < 0x80
  · rw [encode, if_pos hlow, List.singleton_append, decode?, leading?_low hlow]
    rfl
  · obtain ⟨hpos, hle⟩ := further_bounds value
    rw [encode_multibyte (Nat.not_lt.mp hlow), decode?_multibyte hpos hle (fits_further hv).1]

theorem eq_of_encode_front {other : Nat} (hv : value ≤ max) (ho : other ≤ max) (h : encode value <+: encode other) :
    value = other := by
  obtain ⟨tail, htail⟩ := h
  have hvalue := decode?_encode hv tail
  have hother := decode?_encode ho []
  rw [List.append_nil, ← htail, hvalue] at hother
  exact congrArg Prod.fst (Option.some.inj hother)

theorem encode_char (c : Char) : encode c.toNat = Bytes.ofString (String.singleton c) := by
  have hbytes : Bytes.ofString (String.singleton c) = String.utf8EncodeChar c := by
    rw [Bytes.ofString, String.toUTF8, String.toByteArray_singleton, List.utf8Encode_singleton, List.data_toByteArray]
  have hvalue : c.toNat < 0x110000 := by
    rcases c.valid with h | h
    · exact Nat.lt_trans h (by decide)
    · exact h.2
  rw [hbytes, encode, String.utf8EncodeChar, Char.toNat_val]
  generalize c.toNat = value at hvalue
  simp only [multibyte, continuation, Nat.pow_eq, Nat.reducePow, Nat.div_one, ← Nat.lt_succ_iff (n := 0x7F),
    ← Nat.lt_succ_iff (n := 0x7FF), ← Nat.lt_succ_iff (n := 0xFFFF), Nat.add_comm (_ % 64),
    Nat.add_comm (_ % 32), Nat.add_comm (_ % 16), Nat.add_comm (_ % 8)]
  by_cases hone : value < 0x80
  · rw [if_pos hone, if_pos hone]
  rw [if_neg hone, if_neg hone]
  by_cases htwo : value < 0x800
  · rw [if_pos htwo, if_pos htwo, Nat.mod_eq_of_lt (b := 32) (by omega)]
  rw [if_neg htwo, if_neg htwo]
  by_cases hthree : value < 0x10000
  · rw [if_pos hthree, if_pos hthree, Nat.mod_eq_of_lt (b := 16) (by omega)]
  rw [if_neg hthree, if_neg hthree, if_pos (Nat.lt_trans hvalue (by decide)), Nat.mod_eq_of_lt (b := 8) (by omega)]

end Encoded

section Shortest

/-- The number of bytes of a value. -/
def size (value : Nat) : Nat :=
  if value < 0x80 then 1 else if value < 0x800 then 2 else if value < 0x10000 then 3
  else if value < 0x200000 then 4 else if value < 0x4000000 then 5 else 6

theorem size_eq (hlow : 0x80 ≤ value) : size value = further value + 1 := by
  rw [size, if_neg (Nat.not_lt.mpr hlow)]
  grind [further]

theorem size_le (h : value ≤ largest count) : size value ≤ count + 1 := by
  by_cases hlow : value < 0x80
  · rw [size, if_pos hlow]
    exact Nat.le_add_left 1 count
  · have hlow := Nat.not_lt.mp hlow
    have hpos : 0 < count := by
      refine Nat.pos_of_ne_zero ?_
      rintro rfl
      exact absurd (Nat.le_trans hlow h) (by decide)
    rw [size_eq hlow]
    exact Nat.succ_le_succ (further_le hpos h)

theorem encode_length (value : Nat) : (encode value).length = size value := by
  by_cases hlow : value < 0x80
  · rw [encode, if_pos hlow, size, if_pos hlow]
    rfl
  · have hlow := Nat.not_lt.mp hlow
    rw [encode_multibyte hlow, size_eq hlow, multibyte, List.length_cons, continuation_length]

/-- What continuation bytes add to the bits that are there stays below the next multiple. -/
theorem lt_of_more? {bits : Nat} {text tail : Bytes} (h : more? count bits text = some (value, tail)) :
    value < (bits + 1) * 64 ^ count ∧ text.length = tail.length + count := by
  induction count generalizing bits text with
  | zero =>
    obtain ⟨rfl, rfl⟩ := Prod.mk.inj (Option.some.inj h)
    omega
  | succ count ih =>
    cases text with
    | nil => cases h
    | cons b text =>
      rw [more?] at h
      split at h
      · next hb =>
        obtain ⟨hlt, hlen⟩ := ih h
        have hbits : bits * 64 + (b.toNat - 0x80) + 1 ≤ (bits + 1) * 64 := by
          have := hb.2
          omega
        have hle := Nat.mul_le_mul_right (64 ^ count) hbits
        rw [Nat.mul_assoc, Nat.mul_comm 64, ← Nat.pow_succ] at hle
        exact ⟨Nat.lt_of_lt_of_le hlt hle, by rw [List.length_cons, hlen, Nat.add_assoc]⟩
      · cases h

/-- The bits of a leading byte are the highest of a value that has room in as many bytes as it announces. -/
theorem le_largest_of_leading? {b : UInt8} {bits : Nat} (h : leading? b = some (count, bits)) :
    count ≤ 5 ∧ (bits + 1) * 64 ^ count ≤ largest count + 1 := by
  unfold leading? at h
  have hb := b.toNat_lt
  simp only [UInt8.lt_iff_toNat_lt, UInt8.reduceToNat] at h
  split at h
  · obtain ⟨rfl, rfl⟩ := Prod.mk.inj (Option.some.inj h)
    simp only [largest]
    omega
  split at h
  · cases h
  split at h
  · obtain ⟨rfl, rfl⟩ := Prod.mk.inj (Option.some.inj h)
    simp only [largest]
    omega
  split at h
  · obtain ⟨rfl, rfl⟩ := Prod.mk.inj (Option.some.inj h)
    simp only [largest]
    omega
  split at h
  · obtain ⟨rfl, rfl⟩ := Prod.mk.inj (Option.some.inj h)
    simp only [largest]
    omega
  split at h
  · obtain ⟨rfl, rfl⟩ := Prod.mk.inj (Option.some.inj h)
    simp only [largest]
    omega
  split at h
  · obtain ⟨rfl, rfl⟩ := Prod.mk.inj (Option.some.inj h)
    simp only [largest, max]
    omega
  · cases h

theorem size_le_of_decode? {text tail : Bytes} (h : decode? text = some (value, tail)) :
    size value + tail.length ≤ text.length := by
  cases text with
  | nil => cases h
  | cons b text =>
    obtain ⟨⟨count, bits⟩, hlead, hmore⟩ := Option.bind_eq_some_iff.mp h
    obtain ⟨hcount, hbits⟩ := le_largest_of_leading? hlead
    obtain ⟨hlt, hlen⟩ := lt_of_more? hmore
    have hle : value ≤ largest count := Nat.le_of_lt_succ (Nat.lt_of_lt_of_le hlt hbits)
    have hsize : size value ≤ count + 1 := size_le hle
    rw [List.length_cons, hlen]
    omega

end Shortest

/-- What it is for bytes to be those of a value. -/
structure Encodes (value : Nat) (bytes : Bytes) : Prop where
  /-- There are as many bytes as the value needs. -/
  length : bytes.length = size value
  /-- The leading byte announces the others, and these are continuation bytes. -/
  marked : ∃ b tail bits, bytes = b :: tail ∧ leading? b = some (tail.length, bits) ∧ ∀ c ∈ tail, IsContinuation c
  /-- Read in front of any text, the bytes give the value. -/
  decoded : ∀ text, decode? (bytes ++ text) = some (value, text)
  /-- No fewer bytes give the value. -/
  shortest : ∀ text tail, decode? text = some (value, tail) → bytes.length + tail.length ≤ text.length
  /-- The bytes of another value are not in front of these, nor these in front of those. -/
  unprefixed : ∀ other ≤ max, other ≠ value → ¬ encode other <+: bytes ∧ ¬ bytes <+: encode other
  /-- The bytes of a Unicode scalar value are its UTF-8. -/
  scalar : ∀ c : Char, c.toNat = value → bytes = Bytes.ofString (String.singleton c)

theorem encodes_encode (hv : value ≤ max) : Encodes value (encode value) where
  length := encode_length value
  marked := by
    by_cases hlow : value < 0x80
    · refine ⟨_, [], value, ?_, leading?_low hlow, List.forall_mem_nil _⟩
      rw [encode, if_pos hlow]
    · obtain ⟨hpos, hle⟩ := further_bounds value
      have hlead := leading?_mark hpos hle (fits_further hv).1
      rw [encode_multibyte (Nat.not_lt.mp hlow)]
      refine ⟨_, _, value / 64 ^ further value, rfl, ?_, isContinuation_of_mem value _⟩
      rw [continuation_length]
      exact hlead
  decoded := decode?_encode hv
  shortest text tail h := encode_length value ▸ size_le_of_decode? h
  unprefixed other ho hne := ⟨fun h => hne (eq_of_encode_front ho hv h), fun h => hne (eq_of_encode_front hv ho h).symm⟩
  scalar c h := h ▸ encode_char c

theorem ofDigits?_eq_some {digits : Bytes} {code : UInt32} (h : ofDigits? digits = some code) :
    code.toNat = digitsValue 16 digits ∧ code.toNat ≤ max := by
  rw [ofDigits?_eq] at h
  split at h
  · next hmax =>
    have hcode : code.toNat = digitsValue 16 digits := by
      rw [← Option.some.inj h]
      exact UInt32.toNat_ofNat_of_lt' (Nat.lt_of_le_of_lt hmax (by decide))
    exact ⟨hcode, hcode ▸ hmax⟩
  · cases h

end CodePoint

namespace Scan

open CodePoint

/-- Hexadecimal digits between braces, however many, are read to the bytes of their value if it is at most the
largest one, and fail at the first of them if it is not. On the way the value is always that of the digits
so far, and at most the largest one, and no more than five bytes wait behind the leading one. -/
theorem codePointEscape_exact {digits : Bytes} (hd : ∀ b ∈ digits, isHexDigit b) (hne : digits ≠ []) (tail : Bytes)
    (offset : Nat) :
    (digitsValue 16 digits ≤ CodePoint.max → ∃ bytes, Encodes (digitsValue 16 digits) bytes ∧
      codePointEscape ⟨openBrace :: digits ++ closeBrace :: tail, offset⟩ =
        .ok (bytes, ⟨tail, offset + (digits.length + 2)⟩)) ∧
    (CodePoint.max < digitsValue 16 digits →
      codePointEscape ⟨openBrace :: digits ++ closeBrace :: tail, offset⟩ =
        .error (.expected .codePointTooLarge (offset + 1))) ∧
    ∀ count code, ofDigits? (digits.take count) = some code →
      code.toNat = digitsValue 16 (digits.take count) ∧ code.toNat ≤ CodePoint.max ∧
        (spilled code).tail.length ≤ 5 := by
  refine ⟨fun hmax => ⟨_, encodes_encode hmax, ?_⟩, fun hmax => ?_, fun count code h => ?_⟩
  · refine codePointEscape_of_passes ⟨?_, ?_⟩ hd hne hmax
    · simp
    · simp
  · have hend : ∀ b ∈ (closeBrace :: tail).head?, ¬ isHexDigit b := by
      rintro b ⟨⟩
      exact not_isHexDigit_closeBrace
    exact codePointEscape_of_run hd hne hend (.inl ⟨hmax, rfl⟩)
  · obtain ⟨hcode, hmax⟩ := ofDigits?_eq_some h
    exact ⟨hcode, hmax, spilled_tail_length hmax⟩

theorem codePointEscape_exact_largest :
    ∃ bytes, Encodes CodePoint.max bytes ∧
      codePointEscape ⟨Bytes.ofString "\x7b07fFFffff\x7d", 3⟩ = .ok (bytes, ⟨[], 14⟩) :=
  have hdigits : ∀ b ∈ Bytes.ofString "07fFFffff", isHexDigit b := List.all_eq_true.mp rfl
  (codePointEscape_exact hdigits (by decide) [] 3).1 (by decide)

end Scan

end LuaSyntax
