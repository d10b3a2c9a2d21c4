import Mathlib.Algebra.Group.Int.Defs
import LuaSyntax.Proofs.Rescan.Numeral
import LuaSyntax.Proofs.Rescan.Skip

/-! # Numerals exactly

A numeral reaches as far as any of its forms does. Its number is an integer where its digits are
hexadecimal, modulo the size of a word, and where they are decimal and an integer can hold their
value, else a double. It fails exactly where digits are missing.
-/
namespace LuaSyntax

/-- The forms of numerals with their numbers. -/
inductive NumeralValue : Bytes → Number → Prop
  /-- Hexadecimal digits stand for the integer that differs from their value by a multiple of the size of a word. -/
  | hexadecimal {mark : UInt8} {digits : Bytes} {value : Int64} (hm : mark = 'x'.toUInt8 ∨ mark = 'X'.toUInt8)
      (hd : ∀ b ∈ digits, isHexDigit b) (hne : digits ≠ [])
      (hvalue : (2 ^ 64 : Int) ∣ value.toInt - digitsValue 16 digits) :
      NumeralValue ('0'.toUInt8 :: mark :: digits) (.integer value)
  /-- Decimal digits stand for the integer of their value. -/
  | integer {digits : Bytes} {value : Int64} (hd : ∀ b ∈ digits, isDigit b) (hne : digits ≠ [])
      (hvalue : value.toInt = digitsValue 10 digits) : NumeralValue digits (.integer value)
  /-- Decimal digits whose value no integer holds stand for a double. -/
  | large {digits : Bytes} (hd : ∀ b ∈ digits, isDigit b) (hne : digits ≠ [])
      (hlarge : 2 ^ 63 - 1 < digitsValue 10 digits) :
      NumeralValue digits (.float (.ofDecimal (digitsValue 10 digits) 0))
  /-- With a dot or an exponent, digits stand for a double. -/
  | floating {whole fractionText exponentText : Bytes} {fraction : Option Bytes} {exponent : Option Int}
      (hw : ∀ b ∈ whole, isDigit b) (hf : FractionSpelling whole fractionText fraction)
      (he : ExponentSpelling exponentText exponent) (hsome : fraction ≠ none ∨ exponent ≠ none)
      (hne : whole ≠ [] ∨ fraction ≠ none) :
      NumeralValue (whole ++ fractionText ++ exponentText)
        (.float (.ofDecimal (digitsValue 10 (whole ++ fraction.getD [])) (exponent.getD 0 - (fraction.getD []).length)))

section Values

theorem Number.ofHexadecimal_iff {digits : Bytes} {value : Int64} :
    ofHexadecimal digits = .integer value ↔ (2 ^ 64 : Int) ∣ value.toInt - digitsValue 16 digits := by
  rw [ofHexadecimal_eq, integer.injEq, ← Int64.toInt_inj, Int64.toInt_ofNat']
  have hself : (2 ^ 64 : Int) ∣ (digitsValue 16 digits : Int).bmod (2 ^ 64) - digitsValue 16 digits := Int.dvd_bmod_sub_self
  constructor
  · rintro h
    rw [← h]
    exact hself
  · intro h
    have hlow := value.le_toInt
    have hhigh := value.toInt_lt
    have hleast := Int.le_bmod (x := digitsValue 16 digits) (Nat.two_pow_pos 64)
    have hlarge := Int.bmod_lt (x := digitsValue 16 digits) (Nat.two_pow_pos 64)
    have hsize : Int64.size = 2 ^ 64 := rfl
    rw [hsize]
    omega

theorem Number.ofDecimal_iff {digits : Bytes} {value : Int64} :
    ofDecimal digits = .integer value ↔ value.toInt = digitsValue 10 digits := by
  constructor
  · intro h
    unfold ofDecimal at h
    dsimp only at h
    split at h
    · next hfits =>
      obtain rfl := integer.inj h
      exact Int64.toInt_ofNat_of_lt hfits
    · cases h
  · intro h
    have hfits : digitsValue 10 digits < 2 ^ 63 := by
      have := value.toInt_lt
      omega
    have hvalue : Int64.ofNat (digitsValue 10 digits) = value :=
      Int64.toInt_inj.mp ((Int64.toInt_ofNat_of_lt hfits).trans h.symm)
    rw [← hvalue]
    exact if_pos hfits

theorem Number.ofDecimal_of_large {digits : Bytes} (h : 2 ^ 63 - 1 < digitsValue 10 digits) :
    ofDecimal digits = .float (.ofDecimal (digitsValue 10 digits) 0) :=
  if_neg (Nat.not_lt.mpr (Nat.le_of_pred_lt h))

/-- The numbers of the forms are those that are computed. -/
theorem numeralValue_iff {text : Bytes} {value : Number} : NumeralValue text value ↔ NumeralSpelling text value := by
  constructor
  · intro h
    cases h with
    | hexadecimal hm hd hne hvalue => exact Number.ofHexadecimal_iff.mpr hvalue ▸ .hexadecimal hm hd hne
    | integer hd hne hvalue => exact Number.ofDecimal_iff.mpr hvalue ▸ .integer hd hne
    | large hd hne hlarge => exact Number.ofDecimal_of_large hlarge ▸ .integer hd hne
    | floating hw hf he hsome hne => exact .floating hw hf he hsome hne
  · intro h
    cases h with
    | hexadecimal hm hd hne => exact .hexadecimal hm hd hne (Number.ofHexadecimal_iff.mp rfl)
    | integer hd hne =>
      cases hvalue : Number.ofDecimal text with
      | integer value => exact .integer hd hne (Number.ofDecimal_iff.mp hvalue)
      | float value =>
        have hlarge : 2 ^ 63 - 1 < digitsValue 10 text := by
          refine Nat.lt_of_not_le fun hle => ?_
          rw [Number.ofDecimal, if_pos (Nat.lt_of_le_of_lt hle (by decide))] at hvalue
          cases hvalue
        exact hvalue ▸ Number.ofDecimal_of_large hlarge ▸ .large hd hne hlarge
    | floating hw hf he hsome hne => exact .floating hw hf he hsome hne

end Values

section Decimal

/-- The bytes of decimal numerals. -/
def isDecimal (b : UInt8) : Bool :=
  isDigit b || b == '.'.toUInt8 || b == 'e'.toUInt8 || b == 'E'.toUInt8 || b == '+'.toUInt8 || b == '-'.toUInt8

theorem isDecimal_of_isDigit {b : UInt8} (h : isDigit b) : isDecimal b := by simp [isDecimal, h]

theorem not_isDecimal_of_mark {mark : UInt8} (h : mark = 'x'.toUInt8 ∨ mark = 'X'.toUInt8) : ¬ isDecimal mark := by
  rcases h with rfl | rfl <;> decide

theorem FractionSpelling.isDecimal {whole text : Bytes} {value : Option Bytes} (h : FractionSpelling whole text value) :
    ∀ b ∈ text, isDecimal b := by
  cases h with
  | absent => exact List.forall_mem_nil _
  | digits hd => exact List.forall_mem_cons.mpr ⟨by decide, fun b hb => isDecimal_of_isDigit (hd b hb)⟩

theorem ExponentSpelling.isDecimal {text : Bytes} {value : Option Int} (h : ExponentSpelling text value) :
    ∀ b ∈ text, isDecimal b := by
  cases h with
  | absent => exact List.forall_mem_nil _
  | @digits mark signText digits sign hm hs hd =>
    have hmark : LuaSyntax.isDecimal mark := by rcases hm with rfl | rfl <;> decide
    have hsign : ∀ b ∈ signText, LuaSyntax.isDecimal b := by
      cases hs with
      | unsigned => exact List.forall_mem_nil _
      | plus | minus => exact List.forall_mem_singleton.mpr (by decide)
    have hdigits : ∀ b ∈ digits, LuaSyntax.isDecimal b := fun b hb => isDecimal_of_isDigit (hd b hb)
    exact List.forall_mem_append.mpr ⟨List.forall_mem_cons.mpr ⟨hmark, hsign⟩, hdigits⟩

/-- The text of a numeral is hexadecimal or decimal. -/
theorem NumeralSpelling.cases_isDecimal {text : Bytes} {value : Number} (h : NumeralSpelling text value) :
    (∃ mark digits, (mark = 'x'.toUInt8 ∨ mark = 'X'.toUInt8) ∧ (∀ b ∈ digits, isHexDigit b) ∧
      text = '0'.toUInt8 :: mark :: digits) ∨ ∀ b ∈ text, isDecimal b := by
  cases h with
  | hexadecimal hm hd => exact .inl ⟨_, _, hm, hd, rfl⟩
  | integer hd => exact .inr fun b hb => isDecimal_of_isDigit (hd b hb)
  | floating hw hf he =>
    have hwhole := fun b hb => isDecimal_of_isDigit (hw b hb)
    exact .inr (List.forall_mem_append.mpr ⟨List.forall_mem_append.mpr ⟨hwhole, hf.isDecimal⟩, he.isDecimal⟩)

end Decimal

/-- The digits of a numeral up to its exponent. -/
inductive Mantissa : Bytes → Prop
  | mk {whole fractionText : Bytes} {fraction : Option Bytes} (hw : ∀ b ∈ whole, isDigit b)
      (hf : FractionSpelling whole fractionText fraction) (hne : whole ≠ [] ∨ fraction ≠ none) :
      Mantissa (whole ++ fractionText)

/-- The sources that begin with a numeral that lacks digits, with what is missing and how far in. -/
inductive BrokenNumeral : Bytes → Label → Nat → Prop
  | hexDigit {mark : UInt8} {tail : Bytes} (hm : mark = 'x'.toUInt8 ∨ mark = 'X'.toUInt8)
      (hn : ∀ b ∈ tail.head?, ¬ isHexDigit b) : BrokenNumeral ('0'.toUInt8 :: mark :: tail) .hexDigit 2
  | fractionDigit {tail : Bytes} (hdot : tail.head? ≠ some '.'.toUInt8) (hn : ∀ b ∈ tail.head?, ¬ isDigit b) :
      BrokenNumeral ('.'.toUInt8 :: tail) .fractionDigit 1
  | exponentDigit {mantissa signText tail : Bytes} {mark : UInt8} {sign : Int} (ht : Mantissa mantissa)
      (hm : mark = 'e'.toUInt8 ∨ mark = 'E'.toUInt8) (hs : ExponentSign signText sign)
      (hsign : signText = [] → ∀ b ∈ tail.head?, b ≠ '+'.toUInt8 ∧ b ≠ '-'.toUInt8)
      (hn : ∀ b ∈ tail.head?, ¬ isDigit b) :
      BrokenNumeral (mantissa ++ (mark :: signText ++ tail)) .exponentDigit (mantissa.length + (signText.length + 1))

theorem BrokenNumeral.count_pos {source : Bytes} {label : Label} {count : Nat} (h : BrokenNumeral source label count) :
    0 < count := by
  cases h with
  | hexDigit | fractionDigit => decide
  | exponentDigit => exact Nat.zero_lt_succ _

/-- A text is a numeral, whatever follows it. -/
def IsNumeral (_ text : Bytes) : Prop := ∃ value, NumeralValue text value

/-- A numeral stands between two places: it does not lack digits, and none of its forms reaches further. -/
structure Place.HasNumeral (p : Place) (value : Number) (p' : Place) : Prop where
  unbroken : ∀ label count, ¬ BrokenNumeral p.rest label count
  longest : ∃ text, p.Passes text p' ∧ NumeralValue text value ∧ Longest IsNumeral text p'.rest

namespace Scan

variable {p p' : Place} {e : Failure}

section Failures

theorem takeWhile_eq_nil {cls : UInt8 → Bool} {bytes : Bytes} : bytes.takeWhile cls = [] ↔ ∀ b ∈ bytes.head?, ¬ cls b := by
  cases bytes with
  | nil => simp
  | cons b tail => by_cases hb : cls b <;> simp [hb]

theorem noDigits_eq_error {cls : UInt8 → Bool} {missing : Label} :
    digits cls missing p = .error e ↔ (∀ b ∈ p.rest.head?, ¬ cls b) ∧ e = .expected missing p.offset := by
  rw [digits_eq_error, takeWhile_eq_nil]

/-- A fraction fails at a dot with no digit on either side of it. -/
theorem fraction_eq_error {whole : Bytes} : fraction whole p = .error e ↔
    whole = [] ∧ p.rest.head? = some '.'.toUInt8 ∧ (∀ b ∈ (p.advance 1).rest.head?, ¬ isDigit b) ∧
      e = .expected .fractionDigit (p.offset + 1) := by
  rw [fraction, rest_bind_eq_error]
  by_cases hdot : p.rest.head? = some '.'.toUInt8
  case neg =>
    rw [if_pos (bne_iff_ne.mpr hdot)]
    exact iff_of_false pure_ne_error fun h => hdot h.2.1
  rw [hdot, bne_self_eq_false, if_neg Bool.false_ne_true, advance_bind_eq_error]
  by_cases hw : whole = []
  · rw [if_pos (List.isEmpty_iff.mpr hw), bind_eq_error, noDigits_eq_error]
    constructor
    · rintro (⟨hn, rfl⟩ | ⟨_, _, -, h⟩)
      · exact ⟨hw, rfl, hn, rfl⟩
      · exact (pure_ne_error h).elim
    · rintro ⟨-, -, hn, rfl⟩
      exact .inl ⟨hn, rfl⟩
  · rw [if_neg (mt List.isEmpty_iff.mp hw), takeWhile_bind_eq_error]
    exact iff_of_false pure_ne_error fun h => hw h.1

theorem magnitude_eq_error : magnitude p = .error e ↔
    ∃ signText sign m, ExponentSign signText sign ∧
      (signText = [] → ∀ b ∈ m.rest.head?, b ≠ '+'.toUInt8 ∧ b ≠ '-'.toUInt8) ∧ p.Passes signText m ∧
      (∀ b ∈ m.rest.head?, ¬ isDigit b) ∧ e = .expected .exponentDigit m.offset := by
  have hdigits {sign : Option UInt8} {q : Place} : (digits isDigit .exponentDigit >>= fun run =>
      pure (some (if sign == some '-'.toUInt8 then -(digitsValue 10 run : Int) else digitsValue 10 run))) q = .error e ↔
      (∀ b ∈ q.rest.head?, ¬ isDigit b) ∧ e = .expected .exponentDigit q.offset := by
    rw [bind_eq_error, noDigits_eq_error]
    refine or_iff_left ?_
    rintro ⟨_, _, _, h⟩
    exact pure_ne_error h
  rw [magnitude, rest_bind_eq_error]
  by_cases hsign : p.rest.head? = some '+'.toUInt8 ∨ p.rest.head? = some '-'.toUInt8
  · rw [if_pos (by simpa using hsign), advance_bind_eq_error, hdigits]
    constructor
    · rintro ⟨hn, rfl⟩
      rcases hsign with hs | hs
      · exact ⟨_, _, _, .plus, fun hnil => absurd hnil (List.cons_ne_nil _ _), Place.passes_head hs, hn, rfl⟩
      · exact ⟨_, _, _, .minus, fun hnil => absurd hnil (List.cons_ne_nil _ _), Place.passes_head hs, hn, rfl⟩
    · rintro ⟨signText, sign, m, hs, hnone, hp, hn, rfl⟩
      cases hs with
      | unsigned =>
        obtain rfl : p = m := hp.advance
        exact (hsign.elim (fun h => (hnone rfl _ h).1 rfl) fun h => (hnone rfl _ h).2 rfl).elim
      | plus | minus =>
        obtain rfl : p.advance 1 = m := hp.advance
        exact ⟨hn, rfl⟩
  · rw [if_neg (by simpa using hsign), hdigits]
    constructor
    · rintro ⟨hn, rfl⟩
      refine ⟨[], 1, p, .unsigned, fun _ b hb => ⟨?_, ?_⟩, .refl p, hn, rfl⟩
      · exact fun h => hsign (.inl (h ▸ hb))
      · exact fun h => hsign (.inr (h ▸ hb))
    · rintro ⟨signText, sign, m, hs, -, hp, hn, rfl⟩
      cases hs with
      | unsigned =>
        obtain rfl : p = m := hp.advance
        exact ⟨hn, rfl⟩
      | plus => exact (hsign (.inl hp.head)).elim
      | minus => exact (hsign (.inr hp.head)).elim

theorem exponent_eq_error : exponent p = .error e ↔
    ∃ mark signText sign m, (mark = 'e'.toUInt8 ∨ mark = 'E'.toUInt8) ∧ ExponentSign signText sign ∧
      (signText = [] → ∀ b ∈ m.rest.head?, b ≠ '+'.toUInt8 ∧ b ≠ '-'.toUInt8) ∧ p.Passes (mark :: signText) m ∧
      (∀ b ∈ m.rest.head?, ¬ isDigit b) ∧ e = .expected .exponentDigit m.offset := by
  rw [exponent_eq]
  by_cases hmark : p.rest.head?.any fun b => b == 'e'.toUInt8 || b == 'E'.toUInt8
  · rw [if_pos hmark, magnitude_eq_error]
    constructor
    · rintro ⟨signText, sign, m, hs, hnone, hp, h⟩
      obtain ⟨mark, hhead, hm⟩ := (Option.any_eq_true _ _).mp hmark
      exact ⟨mark, signText, sign, m, by simpa using hm, hs, hnone, (Place.passes_head hhead).trans hp, h⟩
    · rintro ⟨mark, signText, sign, m, -, hs, hnone, hp, h⟩
      exact ⟨signText, sign, m, hs, hnone, hp.tail, h⟩
  · rw [if_neg hmark]
    refine iff_of_false nofun ?_
    rintro ⟨mark, signText, sign, m, hm, -, -, hp, -⟩
    refine hmark ((Option.any_eq_true _ _).mpr ⟨mark, hp.head, ?_⟩)
    simpa using hm

theorem hexadecimal_eq_error : hexadecimal p = .error e ↔
    (∀ b ∈ (p.advance 2).rest.head?, ¬ isHexDigit b) ∧ e = .expected .hexDigit (p.offset + 2) := by
  rw [hexadecimal, advance_bind_eq_error, bind_eq_error, noDigits_eq_error]
  refine or_iff_left ?_
  rintro ⟨_, _, -, h⟩
  exact pure_ne_error h

/-- A decimal numeral that fails lacks the digits of its fraction or of its exponent. -/
theorem broken_of_decimal_eq_error (hstart : startsDecimal p.rest) (h : decimal p = .error e) :
    ∃ label count, BrokenNumeral p.rest label count ∧ e = .expected label (p.offset + count) := by
  rw [decimal, takeWhile_bind_eq_error, bind_eq_error] at h
  have hwhole := Place.passes_takeWhile (p := p) isDigit
  rcases h with h | ⟨found, m, hfraction, h⟩
  · obtain ⟨hnil, hdot, hn, rfl⟩ := fraction_eq_error.mp h
    rw [hnil] at hdot hn ⊢
    obtain ⟨tail, hrest⟩ := List.head?_eq_some_iff.mp (show p.rest.head? = _ from hdot)
    have htail : ((p.advance 0).advance 1).rest = tail := congrArg (List.drop 1) hrest
    have hnext : tail.head? ≠ some '.'.toUInt8 := by
      intro hhead
      rw [hrest, startsDecimal, hhead] at hstart
      exact absurd hstart (by decide)
    exact ⟨_, 1, hrest ▸ .fractionDigit hnext (htail ▸ hn), rfl⟩
  rcases bind_eq_error.mp h with h | ⟨power, m', -, h⟩
  case inr => cases found <;> cases power <;> exact (pure_ne_error h).elim
  obtain ⟨mark, signText, sign, m', hm, hs, hsign, hp, hn, rfl⟩ := exponent_eq_error.mp h
  obtain ⟨fractionText, hf, hpfraction⟩ := fraction_spelling hfraction
  have hne := whole_or_fraction hstart hfraction
  have hall := (hwhole.trans hpfraction).trans hp
  have hbroken := BrokenNumeral.exponentDigit (.mk (fun _ => List.mem_takeWhile_imp) hf hne) hm hs hsign hn
  rw [← List.append_assoc, ← hall.rest, ← List.length_cons, ← List.length_append] at hbroken
  exact ⟨_, _, hbroken, congrArg _ hall.offset⟩

theorem numeral_eq_error_of_broken {label : Label} {count : Nat} (h : BrokenNumeral p.rest label count) :
    numeral p = .error (.expected label (p.offset + count)) := by
  obtain ⟨source, offset⟩ := p
  rw [numeral, rest_bind_eq_error]
  dsimp only at h ⊢
  cases h with
  | @hexDigit mark tail hm hn =>
    have hstart : startsHexadecimal ('0'.toUInt8 :: mark :: tail) := by simpa [startsHexadecimal] using hm
    rw [if_pos hstart, map_eq_error, hexadecimal_eq_error]
    exact ⟨hn, rfl⟩
  | @fractionDigit tail hdot hn =>
    have hstart : startsDecimal ('.'.toUInt8 :: tail) := by simp [startsDecimal, hdot]
    have hhex : ¬ startsHexadecimal ('.'.toUInt8 :: tail) := by
      intro h
      obtain ⟨_, _, hcons, -⟩ := startsHexadecimal_eq_true h
      exact absurd (List.cons.inj hcons).1 (by decide)
    rw [if_neg hhex, if_pos hstart, map_eq_error, decimal, takeWhile_bind_eq_error, bind_eq_error]
    exact .inl (fraction_eq_error.mpr ⟨rfl, rfl, hn, rfl⟩)
  | @exponentDigit mantissa signText tail mark sign ht hm hs hsign hn =>
    obtain @⟨whole, fractionText, part, hw, hf, hne⟩ := ht
    have hmark : ∀ b ∈ (mark :: signText ++ tail).head?, b ≠ 'x'.toUInt8 ∧ b ≠ 'X'.toUInt8 := by
      rintro b ⟨⟩
      rcases hm with rfl | rfl <;> decide
    have hend : ∀ b ∈ (mark :: signText ++ tail).head?, ¬ isDigit b ∧ b ≠ '.'.toUInt8 := by
      rintro b ⟨⟩
      rcases hm with rfl | rfl <;> decide
    rw [if_neg (not_startsHexadecimal_of_spelling hw hf hne hmark), if_pos (startsDecimal_of_spelling hw hf hne),
      map_eq_error, decimal, bind_eq_error]
    have hp : (⟨whole ++ fractionText ++ (mark :: signText ++ tail), offset⟩ : Place).Passes (whole ++ fractionText)
        ⟨mark :: signText ++ tail, offset + (whole ++ fractionText).length⟩ := ⟨rfl, rfl⟩
    obtain ⟨hread, hpart⟩ := mantissa_of_spelling hw hf hp hend
    refine .inr ⟨_, _, hread, bind_eq_error.mpr (.inr ⟨_, _, hpart, bind_eq_error.mpr (.inl ?_)⟩)⟩
    refine exponent_eq_error.mpr ⟨mark, signText, sign, ⟨tail, _⟩, hm, hs, hsign, ⟨rfl, rfl⟩, hn, ?_⟩
    rw [List.length_cons, Nat.add_assoc]

theorem numeral_eq_error :
    numeral p = .error e ↔ ∃ label count, BrokenNumeral p.rest label count ∧ e = .expected label (p.offset + count) := by
  constructor
  · intro h
    rw [numeral, rest_bind_eq_error] at h
    split at h
    · next hstart =>
      obtain ⟨hn, rfl⟩ := hexadecimal_eq_error.mp (map_eq_error.mp h)
      obtain ⟨mark, tail, hrest, hm⟩ := startsHexadecimal_eq_true hstart
      have htail : (p.advance 2).rest = tail := congrArg (List.drop 2) hrest
      exact ⟨_, 2, hrest ▸ .hexDigit hm (htail ▸ hn), rfl⟩
    split at h
    · next hstart => exact broken_of_decimal_eq_error hstart (map_eq_error.mp h)
    · exact (pure_ne_error h).elim
  · rintro ⟨label, count, h, rfl⟩
    exact numeral_eq_error_of_broken h

end Failures

section Longest

theorem length_le_takeWhile {cls : UInt8 → Bool} {run bytes : Bytes} (hd : ∀ b ∈ run, cls b) (hp : run <+: bytes) :
    run.length ≤ (bytes.takeWhile cls).length := by
  obtain ⟨back, rfl⟩ := hp
  rw [List.takeWhile_append_of_pos hd, List.length_append]
  exact Nat.le_add_right _ _

variable {m : Place} {whole fractionText exponentText front : Bytes} {part found : Option Bytes} {power : Option Int}

theorem fraction_covers (h : fraction whole p = .ok (found, m)) (hf : FractionSpelling whole fractionText part)
    (hp : fractionText <+: p.rest) : p.offset + fractionText.length ≤ m.offset := by
  cases hf with
  | absent =>
    obtain ⟨text, -, htext⟩ := fraction_spelling h
    rw [htext.offset]
    exact Nat.le_add_right _ _
  | @digits run hd hne =>
    obtain ⟨back, hback⟩ := hp
    have hhead : p.rest.head? = some '.'.toUInt8 := hback ▸ rfl
    have hrun : run <+: (p.advance 1).rest := ⟨back, congrArg (List.drop 1) hback⟩
    have hle := length_le_takeWhile hd hrun
    simp only [fraction, bind_eq_ok, rest_eq_ok] at h
    obtain ⟨_, _, ⟨rfl, rfl⟩, h⟩ := h
    rw [hhead, bne_self_eq_false, if_neg Bool.false_ne_true] at h
    simp only [bind_eq_ok, advance_eq_ok] at h
    obtain ⟨_, _, rfl, h⟩ := h
    have hoffset : m.offset = p.offset + 1 + ((p.advance 1).rest.takeWhile isDigit).length := by
      split at h <;> simp only [bind_eq_ok, digits_eq_ok, takeWhile_eq_ok, pure_eq_ok] at h
      · obtain ⟨_, _, ⟨rfl, -, rfl⟩, -, rfl⟩ := h
        rfl
      · obtain ⟨_, _, ⟨rfl, rfl⟩, -, rfl⟩ := h
        rfl
    rw [List.length_cons]
    omega

theorem exponent_covers {value : Option Int} (h : exponent p = .ok (value, m)) (he : ExponentSpelling exponentText power)
    (hp : exponentText <+: p.rest) : p.offset + exponentText.length ≤ m.offset := by
  cases he with
  | absent =>
    obtain ⟨text, -, htext⟩ := exponent_spelling h
    rw [htext.offset]
    exact Nat.le_add_right _ _
  | @digits mark signText run sign hm hs hd hne =>
    obtain ⟨back, hback⟩ := hp
    -- all the digits that there are, those of the text first
    have hmore : p.Passes (mark :: (signText ++ (run ++ back.takeWhile isDigit)))
        ⟨back.dropWhile isDigit, p.offset + (signText ++ (run ++ back.takeWhile isDigit)).length + 1⟩ := by
      refine ⟨?_, rfl⟩
      simp only [← hback, List.cons_append, List.append_assoc, List.takeWhile_append_dropWhile]
    have hdigits : ∀ b ∈ run ++ back.takeWhile isDigit, isDigit b := List.forall_mem_append.mpr ⟨hd, fun _ => List.mem_takeWhile_imp⟩
    have hend : ∀ b ∈ (back.dropWhile isDigit).head?, ¬ isDigit b := by
      intro b hb hdigit
      have hnot := List.head?_dropWhile_not isDigit back
      rw [hb] at hnot
      exact absurd hdigit (by simpa using hnot)
    have hread : magnitude (p.advance 1) = .ok (_, _) := magnitude_eq_ok.mpr
      ⟨signText, sign, _, hs, hdigits, List.append_ne_nil_of_left_ne_nil hne _, hend, hmore.tail, rfl⟩
    rw [exponent_eq, if_pos (by simpa [hmore.head] using hm), hread] at h
    obtain ⟨-, rfl⟩ := Prod.mk.inj (Except.ok.inj h)
    simp only [List.length_append, List.length_cons]
    omega

theorem decimal_covers {value : Number} (h : decimal p = .ok (value, p')) (hw : ∀ b ∈ whole, isDigit b)
    (hf : FractionSpelling whole fractionText part) (he : ExponentSpelling exponentText power)
    (hp : whole ++ fractionText ++ exponentText <+: p.rest) :
    p.offset + (whole ++ fractionText ++ exponentText).length ≤ p'.offset := by
  simp only [decimal, bind_eq_ok] at h
  obtain ⟨run, m₁, hrun, found, m₂, hfound, power', m₃, hpower, h⟩ := h
  obtain rfl : m₃ = p' := by cases found <;> cases power' <;> exact (pure_eq_ok.mp h).2
  obtain ⟨back, hback⟩ := hp
  obtain ⟨_, -, hrest⟩ := exponent_spelling hpower
  have hbehind := hrest.offset
  by_cases hnone : exponentText = []
  · subst hnone
    rw [List.append_nil] at hback ⊢
    by_cases hdot : fractionText = []
    · subst hdot
      rw [List.append_nil] at hback ⊢
      obtain ⟨rfl, rfl⟩ := takeWhile_eq_ok.mp hrun
      obtain ⟨_, -, hmore⟩ := fraction_spelling hfound
      have hle := length_le_takeWhile hw ⟨back, hback⟩
      have hoffset : m₂.offset = p.offset + (p.rest.takeWhile isDigit).length + _ := hmore.offset
      omega
    · have hend : ∀ b ∈ (fractionText ++ back).head?, ¬ isDigit b := by
        cases hf with
        | absent => exact (hdot rfl).elim
        | digits =>
          rintro b ⟨⟩
          decide
      have hwhole : p.Passes whole ⟨fractionText ++ back, p.offset + whole.length⟩ :=
        ⟨hback.symm.trans (List.append_assoc _ _ _), rfl⟩
      have hread := takeWhile_of_passes hwhole hw hend
      obtain ⟨rfl, rfl⟩ := Prod.mk.inj (Except.ok.inj (hread.symm.trans hrun))
      have hle : p.offset + whole.length + fractionText.length ≤ m₂.offset :=
        fraction_covers hfound hf (List.prefix_append _ _)
      rw [List.length_append]
      omega
  · have hend : ∀ b ∈ (exponentText ++ back).head?, ¬ isDigit b ∧ b ≠ '.'.toUInt8 := by
      cases he with
      | absent => exact (hnone rfl).elim
      | digits hm =>
        rintro b ⟨⟩
        rcases hm with rfl | rfl <;> decide
    have hfront : p.Passes (whole ++ fractionText) ⟨exponentText ++ back, p.offset + (whole ++ fractionText).length⟩ :=
      ⟨hback.symm.trans (List.append_assoc _ _ _), rfl⟩
    obtain ⟨hread, hpart⟩ := mantissa_of_spelling hw hf hfront hend
    obtain ⟨rfl, rfl⟩ := Prod.mk.inj (Except.ok.inj (hread.symm.trans hrun))
    obtain ⟨rfl, rfl⟩ := Prod.mk.inj (Except.ok.inj (hpart.symm.trans hfound))
    have hle : p.offset + (whole ++ fractionText).length + exponentText.length ≤ m₃.offset :=
      exponent_covers hpower he (List.prefix_append _ _)
    rw [List.length_append]
    omega

theorem numeral_covers {value other : Number} (h : numeral p = .ok (some value, p')) (hf : NumeralSpelling front other)
    (hp : front <+: p.rest) : p.offset + front.length ≤ p'.offset := by
  simp only [numeral, bind_eq_ok, rest_eq_ok] at h
  obtain ⟨_, _, ⟨rfl, rfl⟩, h⟩ := h
  split at h
  · next hstart =>
    simp only [map_eq_ok, hexadecimal, bind_eq_ok, advance_eq_ok, digits_eq_ok, pure_eq_ok,
      Option.some.injEq, exists_eq_right] at h
    obtain ⟨_, _, rfl, _, _, ⟨rfl, -, rfl⟩, -, rfl⟩ := h
    have hoffset : ((p.advance 2).advance ((p.advance 2).rest.takeWhile isHexDigit).length).offset =
        p.offset + 2 + ((p.advance 2).rest.takeWhile isHexDigit).length := rfl
    obtain ⟨mark, tail, hrest, hm⟩ := startsHexadecimal_eq_true hstart
    have htail : (p.advance 2).rest = tail := congrArg (List.drop 2) hrest
    rw [hoffset, htail]
    rw [hrest] at hp
    rcases hf.cases_isDecimal with ⟨_, run, -, hd, rfl⟩ | hdecimal
    · have hrun : run <+: tail := (List.cons_prefix_cons.mp (List.cons_prefix_cons.mp hp).2).2
      have hle := length_le_takeWhile hd hrun
      simp only [List.length_cons]
      omega
    · rcases front with _ | ⟨zero, _ | ⟨b, others⟩⟩
      · exact Nat.le_trans (Nat.le_add_right _ _) (Nat.le_add_right _ _)
      · simp only [List.length_singleton]
        omega
      · obtain rfl := (List.cons_prefix_cons.mp (List.cons_prefix_cons.mp hp).2).1
        exact (not_isDecimal_of_mark hm (hdecimal b (List.mem_cons_of_mem _ List.mem_cons_self))).elim
  · next hstart =>
    split at h
    case isFalse => simp [pure_eq_ok] at h
    simp only [map_eq_ok, Option.some.injEq, exists_eq_right] at h
    cases hf with
    | @hexadecimal mark run hm hd hne =>
      obtain ⟨back, hback⟩ := hp
      refine (hstart ?_).elim
      rw [← hback]
      simpa [startsHexadecimal] using hm
    | integer hd hne =>
      have hle := decimal_covers h hd .absent .absent (by rwa [List.append_nil, List.append_nil])
      rwa [List.append_nil, List.append_nil] at hle
    | floating hw hf he hsome hne => exact decimal_covers h hw hf he hp

end Longest

section Exact

theorem starts_of_spelling {text tail : Bytes} {value : Number} (h : NumeralSpelling text value) :
    startsHexadecimal (text ++ tail) ∨ startsDecimal (text ++ tail) := by
  cases h with
  | hexadecimal hm hd hne => exact .inl (by simpa [startsHexadecimal] using hm)
  | integer hd hne =>
    have hstart := @startsDecimal_of_spelling text [] tail none hd .absent (.inl hne)
    rw [List.append_nil] at hstart
    exact .inr hstart
  | floating hw hf he hsome hne =>
    rw [List.append_assoc]
    exact .inr (startsDecimal_of_spelling hw hf hne)

theorem numeral_unique {text : Bytes} {value other : Number} (h : NumeralSpelling text value)
    (ho : NumeralSpelling text other) : value = other := by
  have hp : (⟨text, 0⟩ : Place).Passes text ⟨[], 0 + text.length⟩ := ⟨(List.append_nil text).symm, rfl⟩
  have hread := numeral_of_spelling h hp nofun
  have hother := numeral_of_spelling ho hp nofun
  exact Option.some.inj (Prod.mk.inj (Except.ok.inj (hread.symm.trans hother))).1

theorem numeral_eq_some {value : Number} : numeral p = .ok (some value, p') ↔ p.HasNumeral value p' := by
  have hlongest {text : Bytes} {value : Number} {p' : Place} (h : numeral p = .ok (some value, p'))
      (hp : p.Passes text p') : ∀ front back, front ++ back = p.rest → IsNumeral back front → front.length ≤ text.length := by
    rintro front back hsource ⟨other, hfront⟩
    have hle := numeral_covers h (numeralValue_iff.mp hfront) ⟨back, hsource⟩
    rw [hp.offset] at hle
    omega
  constructor
  · intro h
    obtain ⟨text, htext, hp⟩ := numeral_spelling h
    have hvalue := numeralValue_iff.mpr htext
    refine ⟨fun label count hbroken => ?_, text, hp, hvalue, ⟨value, hvalue⟩, fun front back hsource => ?_⟩
    · exact nomatch h.symm.trans (numeral_eq_error.mpr ⟨label, count, hbroken, rfl⟩)
    · exact hlongest h hp front back (hsource.trans hp.rest.symm)
  · rintro ⟨hbroken, text, hp, hvalue, htext⟩
    have hspelling := numeralValue_iff.mp hvalue
    cases hscan : numeral p with
    | error e =>
      obtain ⟨label, count, h, -⟩ := numeral_eq_error.mp hscan
      exact (hbroken label count h).elim
    | ok result =>
      obtain ⟨_ | other, m⟩ := result
      · obtain ⟨hhex, hdec, -⟩ := numeral_eq_none.mp hscan
        rw [hp.rest] at hhex hdec
        rcases starts_of_spelling hspelling with h | h
        · exact absurd h (Bool.eq_false_iff.mp hhex)
        · exact absurd h (Bool.eq_false_iff.mp hdec)
      · obtain ⟨found, hfound, hpfound⟩ := numeral_spelling hscan
        have hle := hlongest hscan hpfound text p'.rest hp.rest.symm ⟨value, hvalue⟩
        have hge := htext.2 found m.rest (hpfound.rest.symm.trans hp.rest) ⟨other, numeralValue_iff.mpr hfound⟩
        obtain rfl : found = text :=
          List.append_inj_left (hpfound.rest.symm.trans hp.rest) (Nat.le_antisymm hge hle)
        rw [hpfound.eq_advance, hp.eq_advance, numeral_unique hspelling hfound]

theorem numeral_none_iff : numeral p = .ok (none, p') ↔
    (∀ b ∈ p.rest.head?, ¬ isDigit b ∧ (b = '.'.toUInt8 → p.rest.tail.head? = some '.'.toUInt8)) ∧ p = p' := by
  rw [numeral_eq_none, ← and_assoc]
  refine and_congr_left fun _ => ?_
  obtain ⟨source, offset⟩ := p
  have hhex (h : startsDecimal source = false) : startsHexadecimal source = false := by
    refine Bool.eq_false_iff.mpr fun hstart => ?_
    obtain ⟨mark, tail, rfl, -⟩ := startsHexadecimal_eq_true hstart
    cases h
  refine (and_iff_right_of_imp hhex).trans ?_
  cases source with
  | nil => exact iff_of_true rfl nofun
  | cons b tail => simp [startsDecimal]

end Exact

end Scan

namespace Rule

open Parse

variable {c c' : Cursor}

/-- A numeral fails where it lacks digits, or on a comment behind the trivia after it that is never closed. -/
theorem numeral_eq_error {e : Failure} : token Scan.numeral c = .error e c' ↔
    (∃ label count, BrokenNumeral c.rest label count ∧ e = .expected label (c.offset + count) ∧ c' = c) ∨
    ∃ value place trivia, c.toPlace.HasNumeral value place ∧ place.Passes trivia c'.toPlace ∧
      TriviaSpelling c'.rest trivia ∧ OpenComment c'.rest ∧ c'.lastEnd = place.offset ∧
      e = .expected .longBracketClose c.toPlace.sourceEnd := by
  rw [token_eq_error, Scan.numeral_eq_error]
  refine or_congr ⟨?_, ?_⟩ ?_
  · rintro ⟨⟨label, count, hbroken, he⟩, hc⟩
    exact ⟨label, count, hbroken, he, hc⟩
  · rintro ⟨label, count, hbroken, he, hc⟩
    exact ⟨⟨label, count, hbroken, he⟩, hc⟩
  · simp only [skipTrivia_eq_error]
    constructor
    · rintro ⟨value, place, hscan, rfl, ⟨trivia, hp, ht⟩, hlast, hopen⟩
      have hnumeral := Scan.numeral_eq_some.mp hscan
      obtain ⟨text, htext, -⟩ := hnumeral.longest
      exact ⟨value, place, trivia, hnumeral, hp, ht, hopen, hlast, by rw [Place.sourceEnd_eq ⟨_, htext⟩]⟩
    · rintro ⟨value, place, trivia, hnumeral, hp, ht, hopen, hlast, rfl⟩
      obtain ⟨text, htext, -⟩ := hnumeral.longest
      exact ⟨value, place, Scan.numeral_eq_some.mpr hnumeral, by rw [Place.sourceEnd_eq ⟨_, htext⟩], ⟨trivia, hp, ht⟩,
        hlast, hopen⟩

/-- A numeral is the longest front of the source that has one of the forms, with its number, and the trivia behind it.
It fails exactly where a digit is missing, or on a comment behind those trivia that is never closed, but not at its
own start. It declines exactly where neither a digit stands nor a dot without another one behind it. -/
theorem numeral_exact (c : Cursor) :
    (∀ value span c', token Scan.numeral c = .ok (some (value, span)) c' ↔
      ∃ place, c.toPlace.HasNumeral value place ∧ span = ⟨c.offset + 1, place.offset⟩ ∧
        skipTrivia ⟨place, place.offset⟩ = .ok () c') ∧
    (∀ c', token Scan.numeral c = .ok none c' ↔
      (∀ b ∈ c.rest.head?, ¬ isDigit b ∧ (b = '.'.toUInt8 → c.rest.tail.head? = some '.'.toUInt8)) ∧ c = c') ∧
    (∀ e c', token Scan.numeral c = .error e c' ↔
      (∃ label count, BrokenNumeral c.rest label count ∧ e = .expected label (c.offset + count) ∧ c' = c) ∨
      ∃ value place trivia, c.toPlace.HasNumeral value place ∧ place.Passes trivia c'.toPlace ∧
        TriviaSpelling c'.rest trivia ∧ OpenComment c'.rest ∧ c'.lastEnd = place.offset ∧
        e = .expected .longBracketClose c.toPlace.sourceEnd) ∧
    ∀ c', token Scan.numeral c ≠ .error (.expected .fractionDigit c.offset) c' := by
  refine ⟨fun value span c' => ?_, fun c' => ?_, fun e c' => numeral_eq_error, fun c' h => ?_⟩
  · rw [token_eq_some]
    exact exists_congr fun place => and_congr_left' Scan.numeral_eq_some
  · rw [token_eq_none]
    refine and_congr_left fun _ => ?_
    simp only [Scan.numeral_none_iff, exists_and_left, exists_eq', and_true]
  · rcases numeral_eq_error.mp h with ⟨label, count, hbroken, he, -⟩ | ⟨_, _, _, -, -, -, -, -, he⟩
    · have hfurther := hbroken.count_pos
      have hoffset := (Failure.expected.inj he).2
      omega
    · cases he

example : Scan.numeral ⟨.ofString "0x1FFFFFFFFFFFFFFFF..", 0⟩ = .ok (some (.integer (-1)), ⟨.ofString "..", 19⟩) := rfl

example : Scan.numeral ⟨.ofString "3end", 0⟩ = .error (.expected .exponentDigit 2) := rfl

end Rule

end LuaSyntax
