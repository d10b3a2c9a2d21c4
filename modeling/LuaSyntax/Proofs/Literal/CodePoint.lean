import Mathlib.Algebra.Group.Nat.Defs
import LuaSyntax.Token.Quoted

/-! # The encoding of code points

The bytes of a value by arithmetic: a length mark with the leading digits of the value to
the base of sixty-four, and the other digits as continuation bytes. The words that are
shifted and masked come to the same, and none of them is too small.
-/
namespace LuaSyntax

namespace CodePoint

/-- The lowest sixty-fourth digits of a value, highest first, as continuation bytes. -/
def continuation (value : Nat) : Nat → Bytes
  | 0 => []
  | count + 1 => UInt8.ofNat (0x80 + value / Nat.pow 64 count % 64) :: continuation value count

/-- A leading byte with a length mark, and continuation bytes. -/
def multibyte (mark count value : Nat) : Bytes :=
  UInt8.ofNat (mark + value / Nat.pow 64 count) :: continuation value count

/-- The shortest encoding of a value. -/
def encode (value : Nat) : Bytes :=
  if value < 0x80 then [UInt8.ofNat value]
  else if value < 0x800 then multibyte 0xC0 1 value
  else if value < 0x10000 then multibyte 0xE0 2 value
  else if value < 0x200000 then multibyte 0xF0 3 value
  else if value < 0x4000000 then multibyte 0xF8 4 value
  else multibyte 0xFC 5 value

section Digits

theorem hexDigit?_lt (b : UInt8) : (hexDigit? b).getD 0 < 16 := by
  simp only [hexDigit?, isDigit, Bool.and_eq_true, decide_eq_true_eq, UInt8.le_iff_toNat_le, UInt8.reduceToNat]
  split
  · next h => simp only [Option.getD_some]; omega
  split
  · next h => simp only [Option.getD_some]; omega
  split
  · next h => simp only [Option.getD_some]; omega
  · exact Nat.zero_lt_succ _

/-- The words of shifted bits and the bits that come in. -/
theorem toNat_shiftLeft_or {code digit : UInt32} (hc : code.toNat < 0x10000000) (hd : digit.toNat < 16) :
    (code <<< 4 ||| digit).toNat = code.toNat * 16 + digit.toNat := by
  have hshift : (code <<< 4).toNat = 2 ^ 4 * code.toNat := by
    have hword : code.toNat * 2 ^ 4 < 2 ^ 32 := by omega
    rw [UInt32.toNat_shiftLeft, Nat.shiftLeft_eq]
    change code.toNat * 2 ^ 4 % 2 ^ 32 = _
    rw [Nat.mod_eq_of_lt hword, Nat.mul_comm]
  rw [UInt32.toNat_or, hshift, ← Nat.two_pow_add_eq_or_of_lt (by omega)]
  omega

theorem shiftIn?_eq {code : UInt32} (h : code.toNat ≤ max) (b : UInt8) :
    shiftIn? code b = if code.toNat * 16 + (hexDigit? b).getD 0 ≤ max
      then some (UInt32.ofNat (code.toNat * 16 + (hexDigit? b).getD 0)) else none := by
  have hdigit := hexDigit?_lt b
  have hmax : max = 0x7FFFFFFF := rfl
  have hroom : (0x7FFFFFFF : UInt32) >>> 4 < code ↔ 0x7FFFFFF < code.toNat := UInt32.lt_iff_toNat_lt
  have hbyte : (UInt32.ofNat ((hexDigit? b).getD 0)).toNat = (hexDigit? b).getD 0 :=
    UInt32.toNat_ofNat_of_lt' (by simp only [UInt32.size]; omega)
  unfold shiftIn?
  by_cases hlarge : (0x7FFFFFFF : UInt32) >>> 4 < code
  · rw [if_pos hlarge, if_neg]
    have := hroom.mp hlarge
    omega
  · have hsmall := mt hroom.mpr hlarge
    rw [if_neg hlarge, if_pos (by omega), Option.some.injEq, ← UInt32.toNat_inj,
      toNat_shiftLeft_or (by omega) (by omega), hbyte, UInt32.toNat_ofNat_of_lt']
    simp only [UInt32.size]
    omega

/-- One more digit of a number. -/
def withDigit (value : Nat) (b : UInt8) : Nat := value * 16 + (hexDigit? b).getD 0

/-- More digits do not make a value smaller. -/
theorem le_foldl_withDigit (value : Nat) (digits : Bytes) : value ≤ digits.foldl withDigit value := by
  induction digits generalizing value with
  | nil => exact Nat.le_refl value
  | cons b digits ih =>
    have hstep : value ≤ withDigit value b := by
      unfold withDigit
      omega
    exact Nat.le_trans hstep (ih _)

/-- A value is kept in a word as long as it has an encoding, and refused from then on. -/
theorem foldlM_shiftIn? {code : UInt32} (h : code.toNat ≤ max) (digits : Bytes) :
    digits.foldlM shiftIn? code = if digits.foldl withDigit code.toNat ≤ max
      then some (UInt32.ofNat (digits.foldl withDigit code.toNat)) else none := by
  induction digits generalizing code with
  | nil =>
    rw [List.foldl_nil, if_pos h, UInt32.ofNat_toNat]
    rfl
  | cons b digits ih =>
    rw [List.foldlM_cons, List.foldl_cons, shiftIn?_eq h, withDigit]
    split
    · next hle =>
      have hword : (UInt32.ofNat (code.toNat * 16 + (hexDigit? b).getD 0)).toNat = code.toNat * 16 + (hexDigit? b).getD 0 := by
        rw [UInt32.toNat_ofNat_of_lt']
        simp only [max, UInt32.size] at *
        omega
      have hrest := ih (hword.symm ▸ hle)
      rw [hword] at hrest
      exact hrest
    · next hlarge =>
      have hle := le_foldl_withDigit (code.toNat * 16 + (hexDigit? b).getD 0) digits
      rw [if_neg (by omega)]
      rfl

theorem ofDigits?_eq (digits : Bytes) :
    ofDigits? digits = if digitsValue 16 digits ≤ max then some (UInt32.ofNat (digitsValue 16 digits)) else none :=
  foldlM_shiftIn? (Nat.zero_le _) digits

end Digits

section Words

/-- What has been moved into bytes of their own after a number of times. -/
def Spill.after (value count : Nat) : Spill :=
  ⟨UInt32.ofNat (value / 64 ^ count), UInt32.ofNat (0x3F / 2 ^ count), continuation value count⟩

/-- What is left of a value fits the leading byte. -/
def Fits (value count : Nat) : Prop := value / 64 ^ count ≤ 0x3F / 2 ^ count

variable {value count : Nat}

theorem toNat_left (hv : value < 2 ^ 32) (count : Nat) :
    (UInt32.ofNat (value / 64 ^ count)).toNat = value / 64 ^ count :=
  UInt32.toNat_ofNat_of_lt' (Nat.lt_of_le_of_lt (Nat.div_le_self _ _) hv)

theorem toNat_room (count : Nat) : (UInt32.ofNat (0x3F / 2 ^ count)).toNat = 0x3F / 2 ^ count :=
  UInt32.toNat_ofNat_of_lt' (Nat.lt_of_le_of_lt (Nat.div_le_self _ _) (by decide))

/-- A byte with the mark of a continuation byte and the lowest six bits of a word. -/
theorem continuation_byte (word : UInt32) :
    (0x80 ||| (word &&& 0x3F)).toUInt8 = UInt8.ofNat (0x80 + word.toNat % 64) := by
  have hlow : (word &&& 0x3F).toNat = word.toNat % 64 := by
    rw [UInt32.toNat_and]
    exact Nat.and_two_pow_sub_one_eq_mod word.toNat 6
  have hor : (0x80 ||| (word &&& 0x3F)).toNat = 0x80 + word.toNat % 64 := by
    rw [UInt32.toNat_or, hlow]
    exact (Nat.two_pow_add_eq_or_of_lt (i := 7) (by omega) 1).symm
  rw [← UInt8.toNat_inj, UInt32.toNat_toUInt8, hor, UInt8.toNat_ofNat']

theorem next_after (hv : value < 2 ^ 32) : (Spill.after value count).next = Spill.after value (count + 1) := by
  have hleft := toNat_left hv count
  have hroom := toNat_room count
  have hpow : Nat.pow 64 count = 64 ^ count := rfl
  rw [Spill.next, Spill.after, Spill.after, Spill.mk.injEq]
  refine ⟨?_, ?_, ?_⟩
  · rw [← UInt32.toNat_inj, toNat_left hv, UInt32.toNat_shiftRight, hleft, Nat.pow_succ, ← Nat.div_div_eq_div_mul]
    exact Nat.shiftRight_eq_div_pow _ 6
  · rw [← UInt32.toNat_inj, toNat_room, UInt32.toNat_shiftRight, hroom, Nat.pow_succ, ← Nat.div_div_eq_div_mul]
    exact Nat.shiftRight_eq_div_pow _ 1
  · rw [continuation, continuation_byte, hleft, hpow]

theorem fits_iff (hv : value < 2 ^ 32) : (Spill.after value count).left ≤ (Spill.after value count).room ↔ Fits value count := by
  rw [UInt32.le_iff_toNat_le, Spill.after, toNat_left hv, toNat_room, Fits]

theorem settle_after {more steps : Nat} (hv : value < 2 ^ 32) (hs : steps ≤ more) (hfits : Fits value (count + 1 + steps))
    (hfirst : ∀ n < steps, ¬ Fits value (count + 1 + n)) :
    Spill.settle more (Spill.after value count) = Spill.after value (count + 1 + steps) := by
  induction steps generalizing more count with
  | zero =>
    cases more with
    | zero => exact next_after hv
    | succ more => rw [Spill.settle, next_after hv, if_pos ((fits_iff hv).mpr hfits), Nat.add_zero]
  | succ steps ih =>
    obtain ⟨more, rfl⟩ : ∃ fewer, more = fewer + 1 := ⟨more - 1, by omega⟩
    have hnot : ¬ Fits value (count + 1) := hfirst 0 (Nat.zero_lt_succ _)
    have hshift (n : Nat) : count + 1 + 1 + n = count + 1 + (n + 1) := by omega
    rw [Spill.settle, next_after hv, if_neg (fun h => hnot ((fits_iff hv).mp h)), ← hshift]
    exact ih (Nat.le_of_succ_le_succ hs) (hshift steps ▸ hfits) fun n hn => hshift n ▸ hfirst (n + 1) (by omega)

/-- The number of bytes behind the leading byte of a value that does not fit a single one. -/
def further (value : Nat) : Nat :=
  if value < 0x800 then 1 else if value < 0x10000 then 2 else if value < 0x200000 then 3
  else if value < 0x4000000 then 4 else 5

theorem further_bounds (value : Nat) : 0 < further value ∧ further value ≤ 5 := by
  unfold further
  split
  · omega
  split
  · omega
  split
  · omega
  split <;> omega

/-- The largest value with a number of bytes behind its leading byte. -/
def largest : Nat → Nat
  | 0 => 0x7F
  | 1 => 0x7FF
  | 2 => 0xFFFF
  | 3 => 0x1FFFFF
  | 4 => 0x3FFFFFF
  | _ => max

theorem fits_iff_le_largest (hpos : 0 < count) (hle : count ≤ 5) (hv : value ≤ max) :
    Fits value count ↔ value ≤ largest count := by
  have hmax : max = 0x7FFFFFFF := rfl
  match count, hpos, hle with
  | 1, _, _ | 2, _, _ | 3, _, _ | 4, _, _ | 5, _, _ =>
    simp only [Fits, largest, Nat.reducePow, Nat.reduceDiv]
    omega

theorem le_largest_further (hv : value ≤ max) : value ≤ largest (further value) := by
  unfold further
  split
  · exact Nat.le_of_lt_succ ‹_›
  split
  · exact Nat.le_of_lt_succ ‹_›
  split
  · exact Nat.le_of_lt_succ ‹_›
  split
  · exact Nat.le_of_lt_succ ‹_›
  · exact hv

theorem further_le (hpos : 0 < count) (h : value ≤ largest count) : further value ≤ count := by
  match count, hpos with
  | 1, _ | 2, _ | 3, _ | 4, _ =>
    simp only [largest] at h
    grind [further]
  | count + 5, _ => exact Nat.le_trans (further_bounds value).2 (Nat.le_add_left 5 count)

/-- Where the rest of a value first fits the leading byte. -/
theorem fits_further (hv : value ≤ max) :
    Fits value (further value) ∧ ∀ count, 0 < count → count < further value → ¬ Fits value count := by
  obtain ⟨hpos, hle⟩ := further_bounds value
  refine ⟨(fits_iff_le_largest hpos hle hv).mpr (le_largest_further hv), fun count hcount hlt => ?_⟩
  rw [fits_iff_le_largest hcount (by omega) hv]
  exact fun h => Nat.not_le.mpr hlt (further_le hcount h)

theorem after_zero (code : UInt32) : Spill.after code.toNat 0 = ⟨code, 0x3F, []⟩ := by
  rw [Spill.after, Nat.pow_zero, Nat.div_one, UInt32.ofNat_toNat]
  rfl

theorem spilled_eq {code : UInt32} (hc : code.toNat ≤ max) :
    spilled code = Spill.after code.toNat (further code.toNat) := by
  obtain ⟨hfits, hfirst⟩ := fits_further hc
  have hfew := further_bounds code.toNat
  have hcount : 0 + 1 + (further code.toNat - 1) = further code.toNat := by omega
  rw [spilled, ← after_zero, settle_after code.toNat_lt (Nat.sub_le_of_le_add (Nat.le_succ_of_le hfew.2)) (hcount.symm ▸ hfits)
    (fun n hn => hfirst _ (by omega) (by omega)), hcount]

/-- The marks of the leading bytes of encodings with a number of further bytes. -/
def mark : Nat → Nat
  | 1 => 0xC0
  | 2 => 0xE0
  | 3 => 0xF0
  | 4 => 0xF8
  | _ => 0xFC

/-- A word of mask bits over what is left of a value, as a byte. -/
theorem leading_byte {mask left : UInt32} {place bits marked : Nat} (hmask : mask.toNat = 2 ^ place * bits)
    (hmark : 2 ^ place * bits = 0xFFFFFF00 + marked) (hleft : left.toNat < 2 ^ place) :
    (mask ||| left).toUInt8 = UInt8.ofNat (marked + left.toNat) := by
  have hor : (mask ||| left).toNat = 2 ^ place * bits + left.toNat := by
    rw [UInt32.toNat_or, hmask, ← Nat.two_pow_add_eq_or_of_lt hleft]
  rw [← UInt8.toNat_inj, UInt32.toNat_toUInt8, hor, UInt8.toNat_ofNat', hmark]
  omega

theorem marked_byte {count rest : Nat} (hpos : 0 < count) (hle : count ≤ 5) (hfits : rest ≤ 0x3F / 2 ^ count) :
    (~~~UInt32.ofNat (0x3F / 2 ^ count) <<< 1 ||| UInt32.ofNat rest).toUInt8 = UInt8.ofNat (mark count + rest) := by
  have hroom : 0x3F / 2 ^ count ≤ 0x3F := Nat.div_le_self _ _
  have hrest : (UInt32.ofNat rest).toNat = rest := UInt32.toNat_ofNat_of_lt' (by simp only [UInt32.size]; omega)
  rw [← hrest] at hfits ⊢
  generalize UInt32.ofNat rest = left at *
  rw [UInt32.ofNat_toNat]
  -- The mask of a count of further bytes has its bits above what the room lets through.
  match count, hpos, hle with
  | 1, _, _ => exact leading_byte (rfl : _ = 2 ^ 6 * 0x3FFFFFF) rfl (by omega)
  | 2, _, _ => exact leading_byte (rfl : _ = 2 ^ 5 * 0x7FFFFFF) rfl (by omega)
  | 3, _, _ => exact leading_byte (rfl : _ = 2 ^ 4 * 0xFFFFFFF) rfl (by omega)
  | 4, _, _ => exact leading_byte (rfl : _ = 2 ^ 3 * 0x1FFFFFFF) rfl (by omega)
  | 5, _, _ => exact leading_byte (rfl : _ = 2 ^ 2 * 0x3FFFFFFF) rfl (by omega)

theorem emit_multibyte {code : UInt32} (hlow : 0x80 ≤ code.toNat) (hc : code.toNat ≤ max) :
    emit code = multibyte (mark (further code.toNat)) (further code.toNat) code.toNat := by
  have hnot : ¬ code < 0x80 := by
    rw [UInt32.lt_iff_toNat_lt]
    exact Nat.not_lt.mpr hlow
  obtain ⟨hpos, hle⟩ := further_bounds code.toNat
  have hfits := (fits_further hc).1
  rw [emit, if_neg hnot, spilled_eq hc, multibyte, Spill.after, marked_byte hpos hle hfits]
  rfl

theorem encode_multibyte {value : Nat} (hlow : 0x80 ≤ value) :
    encode value = multibyte (mark (further value)) (further value) value := by
  rw [encode, if_neg (Nat.not_lt.mpr hlow), further]
  split
  · rfl
  split
  · rfl
  split
  · rfl
  split <;> rfl

theorem emit_eq {code : UInt32} (hc : code.toNat ≤ max) : emit code = encode code.toNat := by
  by_cases hlow : code.toNat < 0x80
  · rw [emit, if_pos (UInt32.lt_iff_toNat_lt.mpr hlow), encode, if_pos hlow]
    rfl
  · have hlow := Nat.not_lt.mp hlow
    rw [emit_multibyte hlow hc, encode_multibyte hlow]

@[simp] theorem continuation_length (value count : Nat) : (continuation value count).length = count := by
  induction count with
  | zero => rfl
  | succ count ih => rw [continuation, List.length_cons, ih]

theorem spilled_tail_length {code : UInt32} (hc : code.toNat ≤ max) : (spilled code).tail.length ≤ 5 := by
  rw [spilled_eq hc, Spill.after, continuation_length]
  exact (further_bounds _).2

end Words

end CodePoint

section Escape

open Scan

theorem match_ofDigits? (run : Bytes) (start : Nat) (finish : Bytes → Scan Bytes) :
    (match CodePoint.ofDigits? run with
      | some code => finish (CodePoint.emit code)
      | _ => failAt .codePointTooLarge start) =
    if CodePoint.max < digitsValue 16 run then
      (do failAt .codePointTooLarge start; finish (CodePoint.encode (digitsValue 16 run)))
    else finish (CodePoint.encode (digitsValue 16 run)) := by
  by_cases hmax : digitsValue 16 run ≤ CodePoint.max
  · have hcode : (UInt32.ofNat (digitsValue 16 run)).toNat = digitsValue 16 run :=
      UInt32.toNat_ofNat_of_lt' (Nat.lt_of_le_of_lt hmax (by decide))
    rw [if_neg (Nat.not_lt.mpr hmax), CodePoint.ofDigits?_eq, if_pos hmax]
    dsimp only
    rw [CodePoint.emit_eq (hcode.symm ▸ hmax), hcode]
  · rw [if_pos (Nat.not_le.mp hmax), CodePoint.ofDigits?_eq, if_neg hmax]
    rfl

theorem Scan.codePointEscape_eq : codePointEscape = (do
    if (← Scan.rest).head? != some openBrace then fail .codePointOpen
    advance 1
    let start := (← get).offset
    let value := digitsValue 16 (← digits isHexDigit .codePointDigit)
    if CodePoint.max < value then failAt .codePointTooLarge start
    if (← Scan.rest).head? != some closeBrace then fail .codePointClose
    advance 1
    return CodePoint.encode value) := by
  have hdigits (start : Nat) (run : Bytes) := match_ofDigits? run start fun bytes => do
    if (← Scan.rest).head? != some closeBrace then fail .codePointClose
    advance 1
    return bytes
  refine bind_congr fun source => ?_
  have hread : _ = _ := bind_congr (x := advance 1) fun _ => bind_congr (x := get) fun place : Place =>
    bind_congr (x := digits isHexDigit .codePointDigit) fun run => hdigits place.offset run
  exact ite_congr rfl (fun _ => bind_congr fun _ => hread) fun _ => hread

end Escape

end LuaSyntax
