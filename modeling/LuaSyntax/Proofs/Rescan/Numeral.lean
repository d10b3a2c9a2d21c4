import LuaSyntax.Proofs.Rescan.Token

/-! # Reading a numeral back

A numeral of any of its forms is scanned as its value, if what follows does not go on with it.
-/
namespace LuaSyntax.Scan

variable {p p' : Place}

theorem fraction_of_spelling {whole text : Bytes} {value : Option Bytes} (ht : FractionSpelling whole text value)
    (hp : p.Passes text p') (hn : ∀ b ∈ p'.rest.head?, ¬ isDigit b ∧ b ≠ '.'.toUInt8) :
    fraction whole p = .ok (value, p') := by
  simp only [fraction, bind_eq_ok, rest_eq_ok]
  refine ⟨_, _, ⟨rfl, rfl⟩, ?_⟩
  cases ht with
  | absent =>
    obtain rfl : p = p' := hp.advance
    have hdot : p.rest.head? ≠ some '.'.toUInt8 := fun hhead => (hn _ hhead).2 rfl
    rw [if_pos (bne_iff_ne.mpr hdot)]
    exact pure_eq_ok.mpr ⟨rfl, rfl⟩
  | @digits run hd hne =>
    have hend : ∀ b ∈ p'.rest.head?, ¬ isDigit b := fun b hb => (hn b hb).1
    rw [hp.head, bne_self_eq_false, if_neg Bool.false_ne_true]
    simp only [bind_eq_ok, advance_eq_ok]
    refine ⟨(), _, rfl, ?_⟩
    split
    · next hwhole =>
      simp only [bind_eq_ok, pure_eq_ok]
      exact ⟨run, p', digits_of_passes hp.tail hd (hne (List.isEmpty_iff.mp hwhole)) hend, rfl, rfl⟩
    · simp only [bind_eq_ok, pure_eq_ok]
      exact ⟨run, p', takeWhile_of_passes hp.tail hd hend, rfl, rfl⟩

theorem exponent_eq : exponent p = if p.rest.head?.any (fun b => b == 'e'.toUInt8 || b == 'E'.toUInt8)
    then magnitude (p.advance 1) else .ok (none, p) := by
  change (if p.rest.head?.any (fun b => b == 'e'.toUInt8 || b == 'E'.toUInt8) then advance 1 >>= fun _ => magnitude
    else pure none : Scan _) p = _
  split <;> rfl

theorem exponent_of_spelling {text : Bytes} {value : Option Int} (ht : ExponentSpelling text value)
    (hp : p.Passes text p') (hn : ∀ b ∈ p'.rest.head?, ¬ goesOnNumeral b) : exponent p = .ok (value, p') := by
  rw [exponent_eq]
  cases ht with
  | absent =>
    obtain rfl : p = p' := hp.advance
    rw [if_neg]
    rw [Option.any_eq_true]
    rintro ⟨b, hb, hmark⟩
    simp only [Bool.or_eq_true, beq_iff_eq] at hmark
    rcases hmark with rfl | rfl <;> exact hn _ hb (by decide)
  | @digits mark signText run sign hm hs hd hne =>
    rw [if_pos (by simpa [hp.head] using hm)]
    exact magnitude_eq_ok.mpr ⟨signText, sign, run, hs, hd, hne,
      fun b hb h => hn b hb (goesOnNumeral_of_isDigit b h), hp.tail, rfl⟩

/-- The digits in front of the dot and the fraction are scanned one after the other. -/
theorem mantissa_of_spelling {whole fractionText : Bytes} {part : Option Bytes} (hw : ∀ b ∈ whole, isDigit b)
    (hf : FractionSpelling whole fractionText part) (hp : p.Passes (whole ++ fractionText) p')
    (hn : ∀ b ∈ p'.rest.head?, ¬ isDigit b ∧ b ≠ '.'.toUInt8) :
    takeWhile isDigit p = .ok (whole, p.advance whole.length) ∧
      fraction whole (p.advance whole.length) = .ok (part, p') := by
  obtain ⟨hwhole, hfraction⟩ := hp.split
  have hdot : ∀ b ∈ (p.advance whole.length).rest.head?, ¬ isDigit b := by
    intro b hb
    rw [hfraction.rest] at hb
    cases hf with
    | absent => exact (hn b hb).1
    | digits =>
      obtain rfl := Option.some.inj hb
      decide
  exact ⟨takeWhile_of_passes hwhole hw hdot, fraction_of_spelling hf hfraction hn⟩

/-- The number that decimal digits with an optional fraction and an optional exponent stand for. -/
theorem decimal_of_spelling {whole fractionText exponentText : Bytes} {part : Option Bytes} {power : Option Int}
    (hw : ∀ b ∈ whole, isDigit b) (hf : FractionSpelling whole fractionText part)
    (he : ExponentSpelling exponentText power) (hp : p.Passes (whole ++ fractionText ++ exponentText) p')
    (hn : ∀ b ∈ p'.rest.head?, ¬ goesOnNumeral b) :
    decimal p = .ok (if part = none ∧ power = none then .ofDecimal whole
      else .ofFloating whole (part.getD []) (power.getD 0), p') := by
  obtain ⟨hfront, hexponent⟩ := hp.split
  have hmark : ∀ b ∈ (p.advance (whole ++ fractionText).length).rest.head?, ¬ isDigit b ∧ b ≠ '.'.toUInt8 := by
    intro b hb
    rw [hexponent.rest] at hb
    cases he with
    | absent =>
      refine ⟨fun h => hn b hb (goesOnNumeral_of_isDigit b h), ?_⟩
      rintro rfl
      exact hn _ hb (by decide)
    | digits hm =>
      obtain rfl := Option.some.inj hb
      rcases hm with rfl | rfl <;> decide
  obtain ⟨hread, hpart⟩ := mantissa_of_spelling hw hf hfront hmark
  have hpower := exponent_of_spelling he hexponent hn
  simp only [decimal, bind_eq_ok]
  refine ⟨whole, _, hread, part, _, hpart, power, _, hpower, ?_⟩
  cases part with
  | none => cases power <;> exact pure_eq_ok.mpr ⟨by simp, rfl⟩
  | some digits => exact pure_eq_ok.mpr ⟨by simp, rfl⟩

theorem startsDecimal_of_spelling {whole fractionText tail : Bytes} {part : Option Bytes} (hw : ∀ b ∈ whole, isDigit b)
    (hf : FractionSpelling whole fractionText part) (hne : whole ≠ [] ∨ part ≠ none) :
    startsDecimal (whole ++ fractionText ++ tail) := by
  cases whole with
  | cons b others =>
    have hdigit := hw b List.mem_cons_self
    simp [startsDecimal, hdigit]
  | nil =>
    cases hf with
    | absent => exact (hne.elim (fun h => h rfl) fun h => h rfl).elim
    | digits hd hsome =>
      obtain ⟨d, others, rfl⟩ := List.exists_cons_of_ne_nil (hsome rfl)
      have hdigit := hd d List.mem_cons_self
      have hdot : d ≠ '.'.toUInt8 := fun h => absurd hdigit (h ▸ by decide)
      simp [startsDecimal, hdot]

theorem not_startsHexadecimal_of_spelling {whole fractionText tail : Bytes} {part : Option Bytes}
    (hw : ∀ b ∈ whole, isDigit b) (hf : FractionSpelling whole fractionText part) (hne : whole ≠ [] ∨ part ≠ none)
    (hn : ∀ b ∈ tail.head?, b ≠ 'x'.toUInt8 ∧ b ≠ 'X'.toUInt8) :
    ¬ startsHexadecimal (whole ++ fractionText ++ tail) := by
  intro h
  obtain ⟨mark, rest, hsource, hm⟩ := startsHexadecimal_eq_true h
  have hmark {b : UInt8} (hb : b = mark) (hnot : b ≠ 'x'.toUInt8 ∧ b ≠ 'X'.toUInt8) : False :=
    hm.elim (fun h => hnot.1 (hb.trans h)) fun h => hnot.2 (hb.trans h)
  match whole, hw with
  | [], _ =>
    cases hf with
    | absent => exact hne.elim (fun h => h rfl) fun h => h rfl
    | digits => exact absurd (List.cons.inj hsource).1 (by decide)
  | [b], _ =>
    have hsecond := (List.cons.inj hsource).2
    cases hf with
    | digits => exact hmark (List.cons.inj hsecond).1 (by decide)
    | absent => exact hmark rfl (hn mark (congrArg List.head? hsecond))
  | b :: c :: others, hw =>
    have hc := hw c (List.mem_cons_of_mem _ List.mem_cons_self)
    refine hmark (List.cons.inj (List.cons.inj hsource).2).1 ⟨?_, ?_⟩ <;> exact fun h => absurd hc (h ▸ by decide)

theorem numeral_of_spelling {text : Bytes} {value : Number} (ht : NumeralSpelling text value)
    (hp : p.Passes text p') (hn : ∀ b ∈ p'.rest.head?, ¬ goesOnNumeral b) :
    numeral p = .ok (some value, p') := by
  simp only [numeral, bind_eq_ok, rest_eq_ok]
  refine ⟨_, _, ⟨rfl, rfl⟩, ?_⟩
  have hdecimal {whole fractionText exponentText : Bytes} {part : Option Bytes} {power : Option Int}
      (hw : ∀ b ∈ whole, isDigit b) (hf : FractionSpelling whole fractionText part)
      (he : ExponentSpelling exponentText power) (hne : whole ≠ [] ∨ part ≠ none)
      (hp : p.Passes (whole ++ fractionText ++ exponentText) p')
      (hvalue : (if part = none ∧ power = none then .ofDecimal whole
        else .ofFloating whole (part.getD []) (power.getD 0)) = value) :
      (if startsHexadecimal p.rest then some <$> hexadecimal
        else if startsDecimal p.rest then some <$> decimal else return none : Scan (Option Number)) p =
        .ok (some value, p') := by
    have hmark : ∀ b ∈ (exponentText ++ p'.rest).head?, b ≠ 'x'.toUInt8 ∧ b ≠ 'X'.toUInt8 := by
      intro b hb
      cases he with
      | absent => exact ⟨fun h => hn b hb (h ▸ by decide), fun h => hn b hb (h ▸ by decide)⟩
      | digits hm =>
        obtain rfl := Option.some.inj hb
        rcases hm with rfl | rfl <;> decide
    have hhex := not_startsHexadecimal_of_spelling hw hf hne hmark
    have hdec : startsDecimal (whole ++ fractionText ++ (exponentText ++ p'.rest)) := startsDecimal_of_spelling hw hf hne
    rw [← List.append_assoc, ← hp.rest] at hhex hdec
    rw [if_neg hhex, if_pos hdec, map_eq_ok]
    exact ⟨value, hvalue ▸ decimal_of_spelling hw hf he hp hn, rfl⟩
  cases ht with
  | @hexadecimal mark run hm hd hne =>
    have hopen : p.Passes (['0'.toUInt8, mark] ++ run) p' := hp
    obtain ⟨hmark, hrun⟩ := hopen.split
    have hstart : startsHexadecimal p.rest := by
      rw [hmark.rest]
      simpa [startsHexadecimal] using hm
    rw [if_pos hstart]
    simp only [map_eq_ok, hexadecimal, bind_eq_ok, advance_eq_ok, pure_eq_ok, Option.some.injEq, exists_eq_right]
    exact ⟨(), _, rfl, run, _, digits_of_passes hrun hd hne fun b hb h => hn b hb (goesOnNumeral_of_isHexDigit b h),
      rfl, rfl⟩
  | @integer run hd hne =>
    refine hdecimal hd .absent .absent (.inl hne) ?_ (if_pos ⟨rfl, rfl⟩)
    rwa [List.append_nil, List.append_nil]
  | @floating whole fractionText exponentText part power hw hf he hsome hne =>
    refine hdecimal hw hf he hne hp (if_neg ?_)
    rintro ⟨rfl, rfl⟩
    exact hsome.elim (fun h => h rfl) fun h => h rfl

end LuaSyntax.Scan
