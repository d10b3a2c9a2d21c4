import LuaSyntax.Proofs.Outcome.Scan

/-! # Spellings of numerals

The forms of numerals with the numbers they stand for, and that a scanned numeral has one
of the forms.
-/
namespace LuaSyntax

namespace Number

theorem foldl_withHexDigit (value : Nat) (digits : Bytes) : digits.foldl withHexDigit (UInt64.ofNat value) =
    UInt64.ofNat (digits.foldl (fun value b => value * 16 + (hexDigit? b).getD 0) value) := by
  induction digits generalizing value with
  | nil => rfl
  | cons b digits ih =>
    have hstep : withHexDigit (UInt64.ofNat value) b = UInt64.ofNat (value * 16 + (hexDigit? b).getD 0) := by
      rw [UInt64.ofNat_add, UInt64.ofNat_mul]
      rfl
    rw [List.foldl_cons, hstep, ih, List.foldl_cons]

/-- Hexadecimal digits stand for their value, reduced to the signed 64-bit range. -/
theorem ofHexadecimal_eq (digits : Bytes) : ofHexadecimal digits = .integer (Int64.ofNat (digitsValue 16 digits)) := by
  have hvalue : digits.foldl withHexDigit 0 = UInt64.ofNat (digitsValue 16 digits) := foldl_withHexDigit 0 digits
  rw [ofHexadecimal, hvalue]
  rfl

end Number

/-- A dot and digits, or nothing; a numeral has digits on at least one side of its dot. -/
inductive FractionSpelling (whole : Bytes) : Bytes → Option Bytes → Prop
  | absent : FractionSpelling whole [] none
  | digits {digits : Bytes} (hd : ∀ b ∈ digits, isDigit b) (hne : whole = [] → digits ≠ []) :
      FractionSpelling whole ('.'.toUInt8 :: digits) (some digits)

/-- The mark of an exponent with its sign, as a sign of the magnitude. -/
inductive ExponentSign : Bytes → Int → Prop
  | unsigned : ExponentSign [] 1
  | plus : ExponentSign ['+'.toUInt8] 1
  | minus : ExponentSign ['-'.toUInt8] (-1)

/-- A mark, an optional sign and digits, or nothing. -/
inductive ExponentSpelling : Bytes → Option Int → Prop
  | absent : ExponentSpelling [] none
  | digits {mark : UInt8} {signText digits : Bytes} {sign : Int}
      (hm : mark = 'e'.toUInt8 ∨ mark = 'E'.toUInt8) (hs : ExponentSign signText sign)
      (hd : ∀ b ∈ digits, isDigit b) (hne : digits ≠ []) :
      ExponentSpelling (mark :: signText ++ digits) (some (sign * digitsValue 10 digits))

/-- The forms of numerals. -/
inductive NumeralSpelling : Bytes → Number → Prop
  | hexadecimal {mark : UInt8} {digits : Bytes} (hm : mark = 'x'.toUInt8 ∨ mark = 'X'.toUInt8)
      (hd : ∀ b ∈ digits, isHexDigit b) (hne : digits ≠ []) :
      NumeralSpelling ('0'.toUInt8 :: mark :: digits) (.ofHexadecimal digits)
  | integer {digits : Bytes} (hd : ∀ b ∈ digits, isDigit b) (hne : digits ≠ []) :
      NumeralSpelling digits (.ofDecimal digits)
  | floating {whole fractionText exponentText : Bytes} {fraction : Option Bytes}
      {exponent : Option Int} (hw : ∀ b ∈ whole, isDigit b)
      (hf : FractionSpelling whole fractionText fraction)
      (he : ExponentSpelling exponentText exponent) (hsome : fraction ≠ none ∨ exponent ≠ none)
      (hne : whole ≠ [] ∨ fraction ≠ none) :
      NumeralSpelling (whole ++ fractionText ++ exponentText)
        (.ofFloating whole (fraction.getD []) (exponent.getD 0))

namespace Scan
variable {p p' : Place}

theorem head_of_fraction_none {whole : Bytes} (h : fraction whole p = .ok (none, p')) :
    p.rest.head? ≠ some '.'.toUInt8 := by
  simp only [fraction, bind_eq_ok, rest_eq_ok] at h
  obtain ⟨_, _, ⟨rfl, rfl⟩, h⟩ := h
  split at h
  · next hdot => simpa using hdot
  · simp only [bind_eq_ok] at h
    obtain ⟨_, _, _, h⟩ := h
    split at h
    · simp only [bind_eq_ok, pure_eq_ok, reduceCtorEq, false_and, and_false, exists_false] at h
    · simp only [bind_eq_ok, pure_eq_ok, reduceCtorEq, false_and, and_false, exists_false] at h

theorem fraction_spelling {whole : Bytes} {value : Option Bytes}
    (h : fraction whole p = .ok (value, p')) :
    ∃ text, FractionSpelling whole text value ∧ p.Passes text p' := by
  simp only [fraction, bind_eq_ok, rest_eq_ok] at h
  obtain ⟨_, _, ⟨rfl, rfl⟩, h⟩ := h
  split at h
  · obtain ⟨rfl, rfl⟩ := pure_eq_ok.mp h
    exact ⟨[], .absent, .refl _⟩
  · next hdot =>
    have hp := Place.passes_head (p := p) (b := '.'.toUInt8) (by simpa using hdot)
    simp only [bind_eq_ok, advance_eq_ok] at h
    obtain ⟨_, _, rfl, h⟩ := h
    split at h
    · simp only [bind_eq_ok, digits_eq_ok, pure_eq_ok] at h
      obtain ⟨_, _, ⟨rfl, hne, rfl⟩, rfl, rfl⟩ := h
      exact ⟨_, .digits (fun _ => List.mem_takeWhile_imp) fun _ => hne, hp.trans (Place.passes_takeWhile _)⟩
    · next hw =>
      simp only [bind_eq_ok, takeWhile_eq_ok, pure_eq_ok] at h
      obtain ⟨_, _, ⟨rfl, rfl⟩, rfl, rfl⟩ := h
      exact ⟨_, .digits (fun _ => List.mem_takeWhile_imp) fun he => absurd he (by simpa using hw),
        hp.trans (Place.passes_takeWhile _)⟩

theorem exponent_spelling {value : Option Int} (h : exponent p = .ok (value, p')) :
    ∃ text, ExponentSpelling text value ∧ p.Passes text p' := by
  simp only [exponent, bind_eq_ok, rest_eq_ok] at h
  obtain ⟨_, _, ⟨rfl, rfl⟩, h⟩ := h
  split at h
  · next hmark =>
    obtain ⟨mark, hhead, hm⟩ := (Option.any_eq_true _ _).mp hmark
    have hm : mark = 'e'.toUInt8 ∨ mark = 'E'.toUInt8 := by simpa using hm
    have hp := Place.passes_head hhead
    simp only [bind_eq_ok, advance_eq_ok, rest_eq_ok] at h
    obtain ⟨_, m, rfl, _, _, ⟨rfl, rfl⟩, h⟩ := h
    split at h
    · next hsign =>
      simp only [bind_eq_ok, advance_eq_ok, digits_eq_ok, pure_eq_ok] at h
      obtain ⟨_, _, rfl, _, _, ⟨rfl, hne, rfl⟩, rfl, rfl⟩ := h
      simp only [Bool.or_eq_true, beq_iff_eq] at hsign
      rcases hsign with hs | hs
      · refine ⟨_, ?_, (hp.trans (Place.passes_head hs)).trans (Place.passes_takeWhile _)⟩
        have he := ExponentSpelling.digits hm .plus (fun _ => List.mem_takeWhile_imp) hne
        rw [hs, if_neg (by decide)]
        rwa [Int.one_mul] at he
      · refine ⟨_, ?_, (hp.trans (Place.passes_head hs)).trans (Place.passes_takeWhile _)⟩
        have he := ExponentSpelling.digits hm .minus (fun _ => List.mem_takeWhile_imp) hne
        simpa [hs] using he
    · next hsign =>
      simp only [bind_eq_ok, digits_eq_ok, pure_eq_ok] at h
      obtain ⟨_, _, ⟨rfl, hne, rfl⟩, rfl, rfl⟩ := h
      refine ⟨_, ?_, hp.trans (Place.passes_takeWhile _)⟩
      have he := ExponentSpelling.digits hm .unsigned (fun _ => List.mem_takeWhile_imp) hne
      simp only [Bool.or_eq_true, beq_iff_eq, not_or] at hsign
      simpa [hsign.2] using he
  · obtain ⟨rfl, rfl⟩ := pure_eq_ok.mp h
    exact ⟨[], .absent, .refl _⟩

theorem startsDecimal_eq_true {bytes : Bytes} (h : startsDecimal bytes) :
    ∃ b tail, bytes = b :: tail ∧ (isDigit b ∨ b = '.'.toUInt8) := by
  cases bytes with
  | nil => simp [startsDecimal] at h
  | cons b tail =>
    simp only [startsDecimal, Bool.or_eq_true, Bool.and_eq_true, beq_iff_eq] at h
    exact ⟨b, tail, rfl, h.imp id And.left⟩

/-- A decimal numeral has digits in front of its dot, or a dot. -/
theorem whole_or_fraction {found : Option Bytes} {m : Place} (hs : startsDecimal p.rest)
    (h : fraction (p.rest.takeWhile isDigit) (p.advance (p.rest.takeWhile isDigit).length) = .ok (found, m)) :
    p.rest.takeWhile isDigit ≠ [] ∨ found ≠ none := by
  cases found with
  | some _ => exact .inr (Option.some_ne_none _)
  | none =>
    refine .inl fun hempty => ?_
    obtain ⟨b, tail, hrest, hb⟩ := startsDecimal_eq_true hs
    rw [hempty] at h
    rcases hb with hb | rfl
    · simp [hrest, List.takeWhile_cons_of_pos hb] at hempty
    · exact head_of_fraction_none h (by simp [Place.advance, hrest])

theorem decimal_spelling {value : Number} (hs : startsDecimal p.rest) (h : decimal p = .ok (value, p')) :
    ∃ text, NumeralSpelling text value ∧ p.Passes text p' := by
  simp only [decimal, bind_eq_ok, takeWhile_eq_ok] at h
  obtain ⟨_, _, ⟨rfl, rfl⟩, fraction, m, hf, exponent, m', he, h⟩ := h
  obtain ⟨fractionText, hft, hfp⟩ := fraction_spelling hf
  obtain ⟨exponentText, het, hep⟩ := exponent_spelling he
  have hp := ((Place.passes_takeWhile isDigit).trans hfp).trans hep
  have hne := whole_or_fraction hs hf
  split at h
  · obtain ⟨rfl, rfl⟩ := pure_eq_ok.mp h
    cases hft
    cases het
    exact ⟨_, .integer (fun _ => List.mem_takeWhile_imp) (by simpa using hne), by simpa using hp⟩
  · next hnone =>
    obtain ⟨rfl, rfl⟩ := pure_eq_ok.mp h
    refine ⟨_, .floating (fun _ => List.mem_takeWhile_imp) hft het ?_ hne, hp⟩
    cases fraction with
    | some _ => exact .inl (Option.some_ne_none _)
    | none => exact .inr (hnone rfl)

theorem startsHexadecimal_eq_true {bytes : Bytes} (h : startsHexadecimal bytes) :
    ∃ mark tail, bytes = '0'.toUInt8 :: mark :: tail ∧
      (mark = 'x'.toUInt8 ∨ mark = 'X'.toUInt8) := by
  match bytes, h with
  | zero :: mark :: tail, h =>
    simp only [startsHexadecimal, Bool.or_eq_true, Bool.and_eq_true, beq_iff_eq] at h
    exact ⟨mark, tail, by rw [h.1], h.2⟩

theorem numeral_spelling {value : Number} (h : numeral p = .ok (some value, p')) :
    ∃ text, NumeralSpelling text value ∧ p.Passes text p' := by
  simp only [numeral, bind_eq_ok, rest_eq_ok] at h
  obtain ⟨_, _, ⟨rfl, rfl⟩, h⟩ := h
  split at h
  · next hs =>
    simp only [map_eq_ok, hexadecimal, bind_eq_ok, advance_eq_ok, digits_eq_ok, pure_eq_ok,
      Option.some.injEq, exists_eq_right] at h
    obtain ⟨_, _, rfl, _, _, ⟨rfl, hne, rfl⟩, rfl, rfl⟩ := h
    obtain ⟨mark, tail, hrest, hm⟩ := startsHexadecimal_eq_true hs
    have hp : p.Passes ['0'.toUInt8, mark] (p.advance 2) := Place.passes_of_eq hrest
    exact ⟨_, .hexadecimal hm (fun _ => List.mem_takeWhile_imp) hne, hp.trans (Place.passes_takeWhile _)⟩
  · split at h
    · next hs =>
      simp only [map_eq_ok, Option.some.injEq, exists_eq_right] at h
      exact decimal_spelling hs h
    · simp [pure_eq_ok] at h

/-- No digit comes first. -/
def NoDigit (source : Bytes) : Prop := ∀ b ∈ source.head?, ¬ isDigit b

theorem fraction_noDigit {whole : Bytes} {value : Option Bytes} (h : fraction whole p = .ok (value, p'))
    (hp : NoDigit p.rest) : NoDigit p'.rest := by
  simp only [fraction, bind_eq_ok, rest_eq_ok] at h
  obtain ⟨_, _, ⟨rfl, rfl⟩, h⟩ := h
  split at h
  · obtain ⟨-, rfl⟩ := pure_eq_ok.mp h
    exact hp
  · simp only [bind_eq_ok, advance_eq_ok] at h
    obtain ⟨_, _, rfl, h⟩ := h
    split at h
    · simp only [bind_eq_ok, digits_eq_ok, pure_eq_ok] at h
      obtain ⟨_, _, ⟨rfl, -, rfl⟩, -, rfl⟩ := h
      exact head_drop_takeWhile isDigit _
    · simp only [bind_eq_ok, takeWhile_eq_ok, pure_eq_ok] at h
      obtain ⟨_, _, ⟨rfl, rfl⟩, -, rfl⟩ := h
      exact head_drop_takeWhile isDigit _

theorem exponent_noDigit {value : Option Int} (h : exponent p = .ok (value, p'))
    (hp : NoDigit p.rest) : NoDigit p'.rest := by
  simp only [exponent, bind_eq_ok, rest_eq_ok] at h
  obtain ⟨_, _, ⟨rfl, rfl⟩, h⟩ := h
  split at h
  · simp only [bind_eq_ok, advance_eq_ok, rest_eq_ok] at h
    obtain ⟨_, m, rfl, _, _, ⟨rfl, rfl⟩, h⟩ := h
    split at h <;> simp only [bind_eq_ok, advance_eq_ok, digits_eq_ok, pure_eq_ok] at h
    · obtain ⟨_, _, rfl, _, _, ⟨rfl, -, rfl⟩, -, rfl⟩ := h
      exact head_drop_takeWhile isDigit _
    · obtain ⟨_, _, ⟨rfl, -, rfl⟩, -, rfl⟩ := h
      exact head_drop_takeWhile isDigit _
  · obtain ⟨-, rfl⟩ := pure_eq_ok.mp h
    exact hp

/-- A scanned numeral takes all the digits that there are. -/
theorem numeral_noDigit {value : Number} (h : numeral p = .ok (some value, p')) : NoDigit p'.rest := by
  simp only [numeral, bind_eq_ok, rest_eq_ok] at h
  obtain ⟨_, _, ⟨rfl, rfl⟩, h⟩ := h
  split at h
  · simp only [map_eq_ok, hexadecimal, bind_eq_ok, advance_eq_ok, digits_eq_ok, pure_eq_ok,
      Option.some.injEq, exists_eq_right] at h
    obtain ⟨_, _, rfl, _, _, ⟨rfl, -, rfl⟩, -, rfl⟩ := h
    intro b hb hd
    exact head_drop_takeWhile isHexDigit _ b hb (by simp [isHexDigit, hexDigit?, hd])
  · split at h
    · simp only [map_eq_ok, Option.some.injEq, exists_eq_right, decimal, bind_eq_ok, takeWhile_eq_ok] at h
      obtain ⟨_, _, ⟨rfl, rfl⟩, fraction, m, hf, exponent, m', he, h⟩ := h
      have hwhole : NoDigit (p.advance (p.rest.takeWhile isDigit).length).rest :=
        head_drop_takeWhile isDigit p.rest
      have hend := exponent_noDigit he (fraction_noDigit hf hwhole)
      split at h <;> obtain ⟨-, rfl⟩ := pure_eq_ok.mp h <;> exact hend
    · simp [pure_eq_ok] at h

theorem numeral_eq_none :
    numeral p = .ok (none, p') ↔
      startsHexadecimal p.rest = false ∧ startsDecimal p.rest = false ∧ p = p' := by
  simp only [numeral, bind_eq_ok, rest_eq_ok]
  constructor
  · rintro ⟨_, _, ⟨rfl, rfl⟩, h⟩
    split at h
    · simp only [map_eq_ok, reduceCtorEq, and_false, exists_false] at h
    · next hh =>
      split at h
      · simp only [map_eq_ok, reduceCtorEq, and_false, exists_false] at h
      · next hd => exact ⟨by simpa using hh, by simpa using hd, (pure_eq_ok.mp h).2⟩
  · rintro ⟨hh, hd, rfl⟩
    refine ⟨_, _, ⟨rfl, rfl⟩, ?_⟩
    rw [if_neg (by simp [hh]), if_neg (by simp [hd])]
    exact pure_eq_ok.mpr ⟨rfl, rfl⟩

end Scan

theorem NumeralSpelling.ne_nil {text : Bytes} {value : Number} (h : NumeralSpelling text value) :
    text ≠ [] := by
  cases h with
  | hexadecimal => exact List.cons_ne_nil _ _
  | integer _ hne => exact hne
  | floating _ hf _ _ hne =>
    rcases hne with hw | hfraction
    · simp [hw]
    · cases hf with
      | absent => exact (hfraction rfl).elim
      | digits => simp

end LuaSyntax
