import LuaSyntax.Proofs.Rescan.Trivia
import LuaSyntax.Proofs.Layout

/-! # Reading a token elsewhere

A token is read wherever its text stands, if the byte after it is the same or is white
space, or if there is none. Strings need no such condition; a numeral goes on as long as a
digit, a letter or a dot follows.
-/
namespace LuaSyntax
variable {α β : Type} {p p' q q' : Place}

/-- The bytes of which some may go on with a numeral. -/
def goesOnNumeral (b : UInt8) : Bool := isNamePart b || b == '.'.toUInt8

/-- What stands after a text in place of something else does not go on with a numeral unless
that did. -/
def KeepsApart (old new : Bytes) : Prop := ∀ b ∈ new.head?, old.head? = some b ∨ ¬ goesOnNumeral b

theorem KeepsApart.append {old new : Bytes} (h : KeepsApart old new) (text : Bytes) :
    KeepsApart (text ++ old) (text ++ new) := by
  cases text with
  | nil => exact h
  | cons b tail => exact fun c hc => .inl hc

/-- A byte that a numeral goes on with stands after the text as it did before. -/
theorem KeepsApart.not {old new : Bytes} {cls : UInt8 → Bool} (h : KeepsApart old new)
    (hcls : ∀ b, cls b → goesOnNumeral b) (hold : ∀ b ∈ old.head?, ¬ cls b) : ∀ b ∈ new.head?, ¬ cls b := by
  intro b hb hc
  rcases h b hb with hsame | hapart
  · exact hold b hsame hc
  · exact hapart (hcls b hc)

theorem goesOnNumeral_of_isDigit (b : UInt8) (h : isDigit b) : goesOnNumeral b := by
  simp [goesOnNumeral, isNamePart, h]

theorem goesOnNumeral_of_isHexDigit (b : UInt8) (h : isHexDigit b) : goesOnNumeral b := by
  have hletter (low high : UInt8) (hl : 0x61 ≤ low ∧ high ≤ 0x7A ∨ 0x41 ≤ low ∧ high ≤ 0x5A)
      (hb : low ≤ b ∧ b ≤ high) : isLetter b := by
    simp only [isLetter, Bool.or_eq_true, Bool.and_eq_true, decide_eq_true_eq, UInt8.le_iff_toNat_le] at *
    omega
  simp only [isHexDigit, hexDigit?] at h
  split at h
  · next hd => exact goesOnNumeral_of_isDigit b hd
  · split at h
    · next hb =>
      have hl := hletter 0x61 0x66 (.inl (by decide)) (by simpa using hb)
      simp [goesOnNumeral, isNamePart, isNameStart, hl]
    · split at h
      · next hb =>
        have hl := hletter 0x41 0x46 (.inr (by decide)) (by simpa using hb)
        simp [goesOnNumeral, isNamePart, isNameStart, hl]
      · cases h

/-- A scan that succeeds on a text does so wherever the text stands, if what follows keeps
apart from it. -/
def Scan.Settles (scan : Scan α) : Prop :=
  ∀ ⦃p a p'⦄, scan p = .ok (a, p') → ∃ text, p.Passes text p' ∧
    ∀ ⦃q q'⦄, q.Passes text q' → KeepsApart p'.rest q'.rest → scan q = .ok (a, q')

theorem NumeralSpelling.hasDigit {text : Bytes} {value : Number} (h : NumeralSpelling text value) :
    ∃ b ∈ text, isDigit b := by
  have hfirst {run : Bytes} (hd : ∀ b ∈ run, isDigit b) (hne : run ≠ []) : ∃ b ∈ run, isDigit b := by
    obtain ⟨b, tail, rfl⟩ := List.exists_cons_of_ne_nil hne
    exact ⟨b, List.mem_cons_self, hd b List.mem_cons_self⟩
  cases h with
  | hexadecimal => exact ⟨_, List.mem_cons_self, by decide⟩
  | integer hd hne => exact hfirst hd hne
  | @floating whole _ _ _ _ hw hf _ _ hne =>
    by_cases hwhole : whole = []
    · subst hwhole
      cases hf with
      | absent => simp at hne
      | digits hd hn =>
        obtain ⟨b, hm, hb⟩ := hfirst hd (hn rfl)
        exact ⟨b, by simp [hm], hb⟩
    · obtain ⟨b, hm, hb⟩ := hfirst hw hwhole
      exact ⟨b, by simp [hm], hb⟩

namespace Scan

theorem Settles.bind {x : Scan α} {f : α → Scan β} (hx : x.Settles) (hf : ∀ a, (f a).Settles) :
    (x >>= f).Settles := by
  intro p b p' h
  obtain ⟨a, m, ha, hb⟩ := bind_eq_ok.mp h
  obtain ⟨first, hfirst, hxq⟩ := hx ha
  obtain ⟨second, hsecond, hfq⟩ := hf a hb
  refine ⟨first ++ second, hfirst.trans hsecond, fun q q' hq hapart => ?_⟩
  obtain ⟨hq, hq'⟩ := hq.split
  refine bind_eq_ok.mpr ⟨a, _, hxq hq ?_, hfq hq' hapart⟩
  rw [hsecond.rest, hq'.rest]
  exact hapart.append second

theorem settles_pure (a : α) : (pure a : Scan α).Settles := by
  intro p b p' h
  obtain ⟨rfl, rfl⟩ := pure_eq_ok.mp h
  refine ⟨[], .refl p, fun q q' hq _ => pure_eq_ok.mpr ⟨rfl, hq.eq_advance.symm⟩⟩

theorem settles_takeWhile {cls : UInt8 → Bool} (hcls : ∀ b, cls b → goesOnNumeral b) :
    (takeWhile cls).Settles := by
  intro p run p' h
  obtain ⟨rfl, rfl⟩ := takeWhile_eq_ok.mp h
  refine ⟨_, Place.passes_takeWhile cls, fun q q' hq hapart => ?_⟩
  exact takeWhile_of_passes hq (fun _ => List.mem_takeWhile_imp) (hapart.not hcls (head_drop_takeWhile cls p.rest))

theorem settles_digits {cls : UInt8 → Bool} (hcls : ∀ b, cls b → goesOnNumeral b) (missing : Label) :
    (digits cls missing).Settles := by
  intro p run p' h
  obtain ⟨rfl, hne, rfl⟩ := digits_eq_ok.mp h
  refine ⟨_, Place.passes_takeWhile cls, fun q q' hq hapart => ?_⟩
  exact digits_of_passes hq (fun _ => List.mem_takeWhile_imp) hne (hapart.not hcls (head_drop_takeWhile cls p.rest))

/-- A scan that looks for a byte and reads on after it, or else reads nothing. -/
theorem settles_optional {scan : Scan α} (found : UInt8 → Bool) (missing : α) (after : UInt8 → Scan α)
    (hfound : ∀ b, found b → goesOnNumeral b) (hafter : ∀ b, found b → (after b).Settles)
    (hsome : ∀ p b, p.rest.head? = some b → found b → scan p = after b (p.advance 1))
    (hnone : ∀ p, (∀ b ∈ p.rest.head?, ¬ found b) → scan p = .ok (missing, p)) : scan.Settles := by
  intro p a p' h
  by_cases hb : ∃ b, p.rest.head? = some b ∧ found b
  · obtain ⟨b, hhead, hb⟩ := hb
    rw [hsome p b hhead hb] at h
    obtain ⟨text, hp, hq⟩ := hafter b hb h
    refine ⟨b :: text, (Place.passes_head hhead).trans hp, fun q q' hpasses hapart => ?_⟩
    rw [hsome q b hpasses.head hb]
    exact hq hpasses.tail hapart
  · have hno : ∀ b ∈ p.rest.head?, ¬ found b := fun b hm hf => hb ⟨b, hm, hf⟩
    rw [hnone p hno] at h
    cases h
    refine ⟨[], .refl p, fun q q' hpasses hapart => ?_⟩
    obtain rfl : q = q' := hpasses.advance
    exact hnone q (hapart.not hfound hno)

theorem settles_fraction (whole : Bytes) : (fraction whole).Settles := by
  refine settles_optional (isByte '.') none
    (fun _ => if whole.isEmpty then some <$> digits isDigit .fractionDigit else some <$> takeWhile isDigit)
    ?_ ?_ ?_ ?_
  · simp [isByte, goesOnNumeral]
  · intro b _
    simp only [← bind_pure_comp]
    split
    · exact (settles_digits goesOnNumeral_of_isDigit _).bind fun _ => settles_pure _
    · exact (settles_takeWhile goesOnNumeral_of_isDigit).bind fun _ => settles_pure _
  · intro p b hhead hb
    have hdot : p.rest.head? = some '.'.toUInt8 := by
      rw [hhead]
      simpa [isByte] using hb
    change (if p.rest.head? != some '.'.toUInt8 then _ else _ : Scan _) p = _
    rw [hdot, bne_self_eq_false, if_neg Bool.false_ne_true]
    by_cases hw : whole.isEmpty
    · simp only [hw, if_true]
      rfl
    · simp only [hw]
      rfl
  · intro p hno
    have hdot : (p.rest.head? != some '.'.toUInt8) = true := by
      rw [bne_iff_ne]
      exact fun hhead => hno _ hhead (by decide)
    change (if p.rest.head? != some '.'.toUInt8 then _ else _ : Scan _) p = _
    rw [hdot, if_pos rfl]
    rfl

/-- The sign and the digits of an exponent, after its mark. -/
def magnitude : Scan (Option Int) := do
  let sign := (← rest).head?
  if sign == some '+'.toUInt8 || sign == some '-'.toUInt8 then advance 1
  let magnitude := digitsValue 10 (← digits isDigit .exponentDigit)
  return some (if sign == some '-'.toUInt8 then -magnitude else magnitude)

theorem magnitude_eq_ok {value : Option Int} :
    magnitude p = .ok (value, p') ↔
      ∃ signText sign run, ExponentSign signText sign ∧ (∀ b ∈ run, isDigit b) ∧ run ≠ [] ∧
        (∀ b ∈ p'.rest.head?, ¬ isDigit b) ∧ p.Passes (signText ++ run) p' ∧
        value = some (sign * digitsValue 10 run) := by
  simp only [magnitude, bind_eq_ok, rest_eq_ok]
  constructor
  · rintro ⟨_, _, ⟨rfl, rfl⟩, h⟩
    split at h
    · next hsign =>
      simp only [bind_eq_ok, advance_eq_ok, digits_eq_ok, pure_eq_ok] at h
      obtain ⟨_, _, rfl, _, _, ⟨rfl, hne, rfl⟩, rfl, rfl⟩ := h
      simp only [Bool.or_eq_true, beq_iff_eq] at hsign
      rcases hsign with hs | hs
      · refine ⟨_, _, _, .plus, fun _ => List.mem_takeWhile_imp, hne, head_drop_takeWhile _ _,
          (Place.passes_head hs).trans (Place.passes_takeWhile _), ?_⟩
        rw [hs, if_neg (by decide), Int.one_mul]
      · refine ⟨_, _, _, .minus, fun _ => List.mem_takeWhile_imp, hne, head_drop_takeWhile _ _,
          (Place.passes_head hs).trans (Place.passes_takeWhile _), ?_⟩
        simp [hs]
    · next hsign =>
      simp only [bind_eq_ok, digits_eq_ok, pure_eq_ok] at h
      obtain ⟨_, _, ⟨rfl, hne, rfl⟩, rfl, rfl⟩ := h
      simp only [Bool.or_eq_true, beq_iff_eq, not_or] at hsign
      refine ⟨_, _, _, .unsigned, fun _ => List.mem_takeWhile_imp, hne, head_drop_takeWhile _ _, Place.passes_takeWhile _, ?_⟩
      simp [hsign.2]
  · rintro ⟨signText, sign, run, hsign, hd, hne, hend, hp, rfl⟩
    refine ⟨_, _, ⟨rfl, rfl⟩, ?_⟩
    obtain ⟨hs, hrun⟩ := hp.split
    have hdigits : digits isDigit .exponentDigit _ = .ok _ := digits_of_passes hrun hd hne hend
    cases hsign with
    | unsigned =>
      obtain ⟨b, others, rfl⟩ := List.exists_cons_of_ne_nil hne
      have hb := hd b List.mem_cons_self
      have hhead : p.rest.head? = some b := hp.head
      have hplus : b ≠ '+'.toUInt8 := fun h => absurd hb (h ▸ by decide)
      have hminus : b ≠ '-'.toUInt8 := fun h => absurd hb (h ▸ by decide)
      rw [if_neg (by simp [hhead, hplus, hminus])]
      simp only [bind_eq_ok, pure_eq_ok]
      exact ⟨_, _, hdigits, by simp [hhead, hminus], rfl⟩
    | plus =>
      rw [if_pos (by simp [hs.head])]
      simp only [bind_eq_ok, advance_eq_ok, pure_eq_ok]
      exact ⟨(), _, rfl, _, _, hdigits, by simp [hs.head, (by decide : '+'.toUInt8 ≠ '-'.toUInt8)], rfl⟩
    | minus =>
      rw [if_pos (by simp [hs.head])]
      simp only [bind_eq_ok, advance_eq_ok, pure_eq_ok]
      exact ⟨(), _, rfl, _, _, hdigits, by simp [hs.head], rfl⟩

theorem settles_magnitude : magnitude.Settles := by
  intro p value p' h
  obtain ⟨signText, sign, run, hsign, hd, hne, hend, hp, rfl⟩ := magnitude_eq_ok.mp h
  refine ⟨_, hp, fun q q' hq hapart => ?_⟩
  exact magnitude_eq_ok.mpr ⟨signText, sign, run, hsign, hd, hne,
    hapart.not goesOnNumeral_of_isDigit hend, hq, rfl⟩

theorem settles_exponent : exponent.Settles := by
  refine settles_optional (fun b => b == 'e'.toUInt8 || b == 'E'.toUInt8) none (fun _ => magnitude) ?_ (fun _ _ => settles_magnitude) ?_ ?_
  · intro b hb
    simp only [Bool.or_eq_true, beq_iff_eq] at hb
    rcases hb with rfl | rfl <;> decide
  · intro p b hhead hb
    have hmark : p.rest.head?.any (fun b => b == 'e'.toUInt8 || b == 'E'.toUInt8) = true := by
      rw [hhead]
      exact hb
    change (if p.rest.head?.any (fun b => b == 'e'.toUInt8 || b == 'E'.toUInt8) then _ else _ : Scan _) p = _
    rw [if_pos hmark]
    rfl
  · intro p hno
    have hmark : ¬ p.rest.head?.any (fun b => b == 'e'.toUInt8 || b == 'E'.toUInt8) := by
      rw [Option.any_eq_true]
      rintro ⟨b, hb, hfound⟩
      exact hno b hb hfound
    change (if p.rest.head?.any (fun b => b == 'e'.toUInt8 || b == 'E'.toUInt8) then _ else _ : Scan _) p = _
    rw [if_neg hmark]
    rfl

theorem settles_decimal : decimal.Settles := by
  refine (settles_takeWhile goesOnNumeral_of_isDigit).bind fun whole => ?_
  refine (settles_fraction whole).bind fun fraction => settles_exponent.bind fun exponent => ?_
  split
  · exact settles_pure _
  · exact settles_pure _

section Elsewhere
variable {text : Bytes} (hp : p.Passes text p') (hq : q.Passes text q') (hapart : KeepsApart p'.rest q'.rest)
include hp hq hapart

theorem hexadecimal_elsewhere {value : Number} (hs : startsHexadecimal p.rest) (h : hexadecimal p = .ok (value, p')) :
    startsHexadecimal q.rest ∧ hexadecimal q = .ok (value, q') := by
  simp only [hexadecimal, bind_eq_ok, advance_eq_ok, pure_eq_ok] at h ⊢
  obtain ⟨_, _, rfl, run, _, hrun, rfl, rfl⟩ := h
  obtain ⟨mark, tail, hrest, hm⟩ := startsHexadecimal_eq_true hs
  have hopen : p.Passes ['0'.toUInt8, mark] (p.advance 2) := Place.passes_of_eq hrest
  obtain ⟨digits, hdigits, hsettle⟩ := settles_digits goesOnNumeral_of_isHexDigit _ hrun
  obtain rfl := hp.unique (hopen.trans hdigits)
  obtain ⟨hqopen, hqdigits⟩ := hq.split
  refine ⟨?_, (), _, rfl, run, _, hsettle hqdigits hapart, rfl, rfl⟩
  rw [hqopen.rest]
  simpa [startsHexadecimal] using hm

/-- No zero at the end of a decimal numeral comes to stand before a mark that makes it hexadecimal. -/
theorem startsDecimal_elsewhere {value : Number} (hs : NumeralSpelling text value) (hhex : ¬ startsHexadecimal p.rest)
    (hdec : startsDecimal p.rest) : ¬ startsHexadecimal q.rest ∧ startsDecimal q.rest := by
  obtain ⟨b, others, rfl⟩ := List.exists_cons_of_ne_nil hs.ne_nil
  rw [hp.rest] at hhex hdec
  rw [hq.rest]
  cases others with
  | cons c others => exact ⟨hhex, hdec⟩
  | nil =>
    have hb : isDigit b := by simpa using hs.hasDigit
    refine ⟨fun hs => ?_, by simp [startsDecimal, hb]⟩
    obtain ⟨mark, tail, hrest, hm⟩ := startsHexadecimal_eq_true hs
    have hnext : q'.rest = mark :: tail := (List.cons.inj hrest).2
    obtain rfl := (List.cons.inj hrest).1
    rcases hapart mark (by rw [hnext]; rfl) with hsame | hfar
    · obtain ⟨tail', htail⟩ := List.head?_eq_some_iff.mp hsame
      exact hhex (by simpa [htail, startsHexadecimal] using hm)
    · rcases hm with rfl | rfl
      · exact hfar (by decide)
      · exact hfar (by decide)

/-- A numeral is scanned wherever it stands, if what follows keeps apart from it. -/
theorem numeral_elsewhere {value : Number} (h : numeral p = .ok (some value, p')) : numeral q = .ok (some value, q') := by
  simp only [numeral, bind_eq_ok, rest_eq_ok] at h ⊢
  obtain ⟨_, _, ⟨rfl, rfl⟩, h⟩ := h
  refine ⟨_, _, ⟨rfl, rfl⟩, ?_⟩
  split at h
  · next hs =>
    simp only [map_eq_ok, Option.some.injEq, exists_eq_right] at h
    obtain ⟨hstart, hscan⟩ := hexadecimal_elsewhere hp hq hapart hs h
    rw [if_pos hstart]
    simpa only [map_eq_ok, Option.some.injEq, exists_eq_right] using hscan
  · next hhex =>
    split at h
    · next hdec =>
      simp only [map_eq_ok, Option.some.injEq, exists_eq_right] at h
      obtain ⟨_, hspelling, hother⟩ := decimal_spelling hdec h
      obtain rfl := hp.unique hother
      obtain ⟨_, hpasses, hsettle⟩ := settles_decimal h
      obtain rfl := hp.unique hpasses
      obtain ⟨hqhex, hqdec⟩ := startsDecimal_elsewhere hp hq hapart hspelling hhex hdec
      rw [if_neg hqhex, if_pos hqdec]
      simpa only [map_eq_ok, Option.some.injEq, exists_eq_right] using hsettle hq hapart
    · simp [pure_eq_ok] at h

end Elsewhere

/-- A name is scanned wherever it stands, unless what follows is part of a longer one. -/
theorem name_of_passes {text : Bytes} (ht : Identifier text) (hp : p.Passes text p')
    (hn : ∀ b ∈ p'.rest.head?, ¬ isNamePart b) : name p = .ok (some text, p') := by
  have hrun : p.rest.takeWhile isNamePart = text := by rw [hp.rest, takeWhile_append_eq ht.parts hn]
  refine name_eq_some.mpr ⟨?_, ht.free, hrun.symm, hp.eq_advance⟩
  have hstart := ht.start
  cases text with
  | nil => cases hstart
  | cons b tail => rwa [startsName, hp.head]

end Scan

/-- What stands after a token in place of something else begins with the same byte or with
white space, if it is not empty. -/
def Spaced (old new : Bytes) : Prop := ∀ b ∈ new.head?, old.head? = some b ∨ isSpace b

theorem not_goesOnNumeral_of_isSpace {b : UInt8} (h : isSpace b) : ¬ goesOnNumeral b := by
  simp only [isSpace, Bool.or_eq_true, Bool.and_eq_true, decide_eq_true_eq, beq_iff_eq,
    UInt8.le_iff_toNat_le, ← UInt8.toNat_inj] at h
  simp only [goesOnNumeral, isNamePart, isNameStart, isLetter, isDigit, Bool.or_eq_true, Bool.and_eq_true,
    decide_eq_true_eq, beq_iff_eq, UInt8.le_iff_toNat_le, ← UInt8.toNat_inj]
  simp only [UInt8.reduceToNat] at h ⊢
  have hdot : '.'.toUInt8.toNat = 46 := by decide
  omega

theorem Spaced.keepsApart {old new : Bytes} (h : Spaced old new) : KeepsApart old new :=
  fun b hb => (h b hb).imp_right not_goesOnNumeral_of_isSpace

theorem isSpace_cases {b : UInt8} (h : isSpace b) :
    b = 0x20 ∨ b = 0x09 ∨ b = 0x0A ∨ b = 0x0B ∨ b = 0x0C ∨ b = 0x0D := by
  simp only [isSpace, Bool.or_eq_true, Bool.and_eq_true, decide_eq_true_eq, beq_iff_eq,
    UInt8.le_iff_toNat_le, ← UInt8.toNat_inj] at h ⊢
  simp only [UInt8.reduceToNat] at h ⊢
  omega

/-- White space goes on with no token. -/
theorem not_joins_of_isSpace {text : String} {b : UInt8} (ht : text ∈ fixedTexts) (h : isSpace b) :
    ¬ joins text b := by
  have hall : ∀ b ∈ ([0x20, 0x09, 0x0A, 0x0B, 0x0C, 0x0D] : Bytes), ∀ text ∈ fixedTexts, ¬ joins text b := by
    decide +kernel
  exact hall b (by simpa using isSpace_cases h) text ht

/-- White space or nothing follows. -/
def Parted (tail : Bytes) : Prop := ∀ b ∈ tail.head?, isSpace b

theorem Parted.spaced {old new : Bytes} (h : Parted new) : Spaced old new := fun b hb => .inr (h b hb)

theorem level?_bracket {tail : Bytes} (h : Parted tail) : LongBracket.level? ('['.toUInt8 :: tail) = none := by
  have hnone : ∀ b ∈ tail.head?, b ≠ '='.toUInt8 ∧ b ≠ '['.toUInt8 := by
    intro b hb
    have hspace := h b hb
    constructor <;> exact fun heq => absurd hspace (heq ▸ by decide)
  cases tail with
  | nil => rfl
  | cons b tail =>
    obtain ⟨hequals, hbracket⟩ := hnone b rfl
    rw [LongBracket.level?, List.takeWhile_cons_of_neg (by simpa using hequals)]
    simp [hbracket]

theorem Place.Reads.bracket (h : p.Reads "[" p') : LongBracket.level? p.rest = none := by
  cases h with
  | fixed _ _ hb => exact hb rfl

/-- A token is read wherever its text stands, if what follows begins with the same byte or
with white space. An opening bracket must still open no long bracket. -/
theorem Place.Reads.elsewhere {token : Token} {text : Bytes} (h : p.Reads token p') (hp : p.Passes text p')
    (hq : q.Passes text q') (hs : Spaced p'.rest q'.rest)
    (hb : token = .fixed "[" → LongBracket.level? q.rest = none) : q.Reads token q' := by
  have hnext {cls : UInt8 → Bool} (hcls : ∀ b, isSpace b → ¬ cls b) (hold : ∀ b ∈ p'.rest.head?, ¬ cls b) :
      ∀ b ∈ q'.rest.head?, ¬ cls b := by
    intro b hm
    rcases hs b hm with hsame | hspace
    · exact hold b hsame
    · exact hcls b hspace
  have hspelling := h.spelling hp
  have hread := h
  cases hspelling with
  | @fixed word ht hn _ =>
    have hqword : startsWith (.ofString word) (joins word) q.rest := by
      refine startsWith_iff.mpr ⟨⟨_, hq.rest.symm⟩, ?_⟩
      rw [hq.rest, List.drop_left]
      exact hnext (fun b => not_joins_of_isSpace ht) hn
    have hr := Reads.fixed ht hqword fun hw => hb (by rw [hw])
    rwa [hq.advance] at hr
  | name ht hn =>
    refine .name (Scan.name_of_passes ht hq (hnext (fun b hb hpart => ?_) hn))
    exact not_goesOnNumeral_of_isSpace hb (by simp [goesOnNumeral, hpart])
  | number ht hn =>
    cases hread with
    | number h => exact .number (Scan.numeral_elsewhere hp hq hs.keepsApart h)
  | string ht => exact .string (Scan.string_of_spelling ht hq)

end LuaSyntax
