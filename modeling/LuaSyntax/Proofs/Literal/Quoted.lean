import LuaSyntax.Proofs.Literal.CodePoint
import LuaSyntax.Proofs.Literal.LongBracket
import LuaSyntax.Proofs.Literal.Numeral
import LuaSyntax.Proofs.Repetition

/-! # Spellings of strings

The escape sequences with the bytes they stand for, and the forms of strings. Some escape
sequences extend as far as they can, so what follows them is part of their form.
-/
namespace LuaSyntax

/-- What follows a backslash, the bytes it stands for and the source after it. -/
inductive EscapeSpelling : Bytes → Bytes → Bytes → Prop
  | simple {b value : UInt8} {next : Bytes} (h : simpleEscapes.lookup b = some value) :
      EscapeSpelling [b] [value] next
  | lineBreak {text next : Bytes} (hne : text ≠ []) (h : lineBreakLength (text ++ next) = text.length) :
      EscapeSpelling text [lineFeed] next
  | skip {spaces next : Bytes} (h : ∀ b ∈ spaces, isSpace b) (hend : ∀ b ∈ next.head?, ¬ isSpace b) :
      EscapeSpelling ('z'.toUInt8 :: spaces) [] next
  | hexadecimal {high low : UInt8} {first second : Nat} {next : Bytes}
      (hh : hexDigit? high = some first) (hl : hexDigit? low = some second) :
      EscapeSpelling ['x'.toUInt8, high, low] [UInt8.ofNat (first * 16 + second)] next
  | codePoint {digits next : Bytes} (hd : ∀ b ∈ digits, isHexDigit b) (hne : digits ≠ [])
      (hmax : digitsValue 16 digits ≤ CodePoint.max) :
      EscapeSpelling ('u'.toUInt8 :: openBrace :: digits ++ [closeBrace])
        (CodePoint.encode (digitsValue 16 digits)) next
  | decimal {digits next : Bytes} (hd : ∀ b ∈ digits, isDigit b) (hne : digits ≠ [])
      (hlen : digits.length ≤ 3) (hend : digits.length = 3 ∨ ∀ b ∈ next.head?, ¬ isDigit b)
      (hmax : digitsValue 10 digits ≤ 255) :
      EscapeSpelling digits [UInt8.ofNat (digitsValue 10 digits)] next

/-- What follows an opening quote, up to the closing one, and the bytes it stands for. -/
inductive QuotedSpelling (quote : UInt8) : Bytes → Bytes → Prop
  | close : QuotedSpelling quote [quote] []
  | plain {b : UInt8} {text value : Bytes} (hq : b ≠ quote) (hb : b ≠ '\\'.toUInt8)
      (hl : ¬ isLineBreak b) (h : QuotedSpelling quote text value) :
      QuotedSpelling quote (b :: text) (b :: value)
  | escape {escaped bytes text value : Bytes} (he : EscapeSpelling escaped bytes text)
      (h : QuotedSpelling quote text value) :
      QuotedSpelling quote ('\\'.toUInt8 :: escaped ++ text) (bytes ++ value)

/-- The forms of strings. -/
inductive StringSpelling : Bytes → Bytes → Prop
  | quoted {quote : UInt8} {text value : Bytes} (hq : quote = '"'.toUInt8 ∨ quote = '\''.toUInt8)
      (h : QuotedSpelling quote text value) : StringSpelling (quote :: text) value
  | longBracket {text value : Bytes} (h : LongBracket.Spelling text value) :
      StringSpelling text value

theorem QuotedSpelling.ne_nil {quote : UInt8} {text value : Bytes}
    (h : QuotedSpelling quote text value) : text ≠ [] := by
  cases h <;> exact List.cons_ne_nil _ _

theorem StringSpelling.ne_nil {text value : Bytes} (h : StringSpelling text value) : text ≠ [] := by
  cases h with
  | quoted _ h => exact List.cons_ne_nil _ _
  | longBracket h => exact h.ne_nil

theorem isLineBreak_of_pos {b : UInt8} {tail : Bytes} (h : 0 < lineBreakLength (b :: tail)) : isLineBreak b := by
  cases hb : isLineBreak b with
  | true => rfl
  | false => cases tail <;> simp [lineBreakLength, hb] at h

/-- Of what follows an escape sequence only the first byte matters, and a quote goes on with none. -/
theorem EscapeSpelling.next {text value old new : Bytes} (h : EscapeSpelling text value old)
    (hn : ∀ b ∈ new.head?, old.head? = some b ∨ b = '"'.toUInt8 ∨ b = '\''.toUInt8) :
    EscapeSpelling text value new := by
  have hnot {cls : UInt8 → Bool} (hdouble : ¬ cls '"'.toUInt8) (hsingle : ¬ cls '\''.toUInt8)
      (hold : ∀ b ∈ old.head?, ¬ cls b) : ∀ b ∈ new.head?, ¬ cls b := by
    intro b hb
    rcases hn b hb with hsame | rfl | rfl
    · exact hold b hsame
    · exact hdouble
    · exact hsingle
  cases h with
  | simple h => exact .simple h
  | hexadecimal hh hl => exact .hexadecimal hh hl
  | codePoint hd hne hmax => exact .codePoint hd hne hmax
  | skip h hend => exact .skip h (hnot (by decide) (by decide) hend)
  | decimal hd hne hlen hend hmax =>
    exact .decimal hd hne hlen (hend.imp_right (hnot (by decide) (by decide))) hmax
  | lineBreak hne h =>
    refine .lineBreak hne ?_
    match text with
    | [] => exact (hne rfl).elim
    | b :: c :: tail =>
      have hlong : 2 ≤ (b :: c :: tail).length := Nat.le_add_left _ _
      rw [lineBreakLength_append hlong] at h ⊢
      exact h
    | [b] =>
      -- of what follows, only a byte that goes on with the line break matters
      have hb : isLineBreak b := isLineBreak_of_pos (show 0 < lineBreakLength (b :: old) from h ▸ Nat.one_pos)
      have hone (tail : Bytes) : lineBreakLength (b :: tail) = 1 ↔ ∀ c ∈ tail.head?, ¬ (isLineBreak c && c != b) := by
        cases tail with
        | nil => simp [lineBreakLength, hb]
        | cons c tail =>
          simp only [lineBreakLength, hb, if_true, List.head?_cons, Option.mem_def, Option.some.injEq,
            forall_eq']
          split <;> simp_all
      refine (hone new).mpr fun c hc hbreak => ?_
      rcases hn c hc with hsame | rfl | rfl
      · exact (hone old).mp h c hsame hbreak
      · exact absurd (Bool.and_eq_true_iff.mp hbreak).1 (by decide)
      · exact absurd (Bool.and_eq_true_iff.mp hbreak).1 (by decide)

theorem EscapeSpelling.of_append {text value next tail : Bytes} (h : EscapeSpelling text value (next ++ tail))
    (hne : next ≠ []) : EscapeSpelling text value next := by
  obtain ⟨b, others, rfl⟩ := List.exists_cons_of_ne_nil hne
  exact h.next fun _ => .inl

namespace Scan
variable {p p' : Place} {value : Bytes}

theorem lineBreakLength_pos {b : UInt8} {tail : Bytes} (h : isLineBreak b) :
    0 < lineBreakLength (b :: tail) := by
  cases tail with
  | nil => simp [lineBreakLength, h]
  | cons c tail =>
    simp only [lineBreakLength, h, ↓reduceIte]
    split <;> omega

theorem hexEscape_spelling (hx : p.rest.head? = some 'x'.toUInt8)
    (h : hexEscape (p.advance 1) = .ok (value, p')) :
    ∃ text, EscapeSpelling text value p'.rest ∧ p.Passes text p' := by
  simp only [hexEscape, bind_eq_ok, rest_eq_ok] at h
  obtain ⟨_, _, ⟨rfl, rfl⟩, h⟩ := h
  have hp := Place.passes_head hx
  match hr : (p.advance 1).rest, h with
  | [], h => exact (fail_ne_ok h).elim
  | [_], h => exact (fail_ne_ok (l := .hexEscape) (by simpa using h)).elim
  | high :: low :: tail, h =>
    cases hh : hexDigit? high with
    | none => exact (fail_ne_ok (l := .hexEscape) (by simpa [hh] using h)).elim
    | some first =>
      cases hl : hexDigit? low with
      | none => exact (fail_ne_ok (l := .hexEscape) (by simpa [hh, hl] using h)).elim
      | some second =>
        simp only [List.take_succ_cons, List.take_zero, List.map_cons, List.map_nil, hh, hl,
          bind_eq_ok, advance_eq_ok, pure_eq_ok] at h
        obtain ⟨_, _, rfl, rfl, rfl⟩ := h
        have hd : (p.advance 1).Passes [high, low] _ := Place.passes_of_eq hr
        exact ⟨_, .hexadecimal hh hl, hp.trans hd⟩

/-- A run within a bound reaches the bound, or what follows it is not of the class. -/
theorem takeWhile_take_maximal (q : UInt8 → Bool) (n : Nat) (bytes : Bytes) :
    ((bytes.take n).takeWhile q).length = n ∨
      ∀ b ∈ (bytes.drop ((bytes.take n).takeWhile q).length).head?, ¬ q b := by
  induction n generalizing bytes with
  | zero => exact .inl (by simp)
  | succ n ih =>
    cases bytes with
    | nil => exact .inr (by simp)
    | cons b tail =>
      by_cases hb : q b
      · simpa [List.takeWhile_cons_of_pos hb] using ih tail
      · exact .inr (by simpa [List.takeWhile_cons_of_neg hb] using hb)

theorem decimalEscape_spelling {b : UInt8} (hb : p.rest.head? = some b) (hd : isDigit b)
    (h : decimalEscape p = .ok (value, p')) :
    ∃ text, EscapeSpelling text value p'.rest ∧ p.Passes text p' := by
  simp only [decimalEscape, bind_eq_ok, rest_eq_ok, ite_fail_eq_ok, advance_eq_ok, pure_eq_ok] at h
  obtain ⟨_, _, ⟨rfl, rfl⟩, hmax, _, _, rfl, rfl, rfl⟩ := h
  obtain ⟨tail, hrest⟩ := List.head?_eq_some_iff.mp hb
  have hne : (p.rest.take 3).takeWhile isDigit ≠ [] := by
    simp [hrest, List.takeWhile_cons_of_pos hd]
  have hlen : ((p.rest.take 3).takeWhile isDigit).length ≤ 3 :=
    Nat.le_trans (List.takeWhile_prefix _).length_le (List.length_take_le _ _)
  have hp := Place.passes_of_prefix
    ((List.takeWhile_prefix isDigit).trans (List.take_prefix 3 p.rest))
  exact ⟨_, .decimal (fun _ => List.mem_takeWhile_imp) hne hlen (takeWhile_take_maximal _ _ _)
    (Nat.le_of_not_lt hmax), hp⟩

theorem codePointEscape_spelling (hx : p.rest.head? = some 'u'.toUInt8)
    (h : codePointEscape (p.advance 1) = .ok (value, p')) :
    ∃ text, EscapeSpelling text value p'.rest ∧ p.Passes text p' := by
  simp only [codePointEscape_eq, bind_eq_ok, rest_eq_ok, ite_fail_eq_ok, advance_eq_ok, get_eq_ok,
    digits_eq_ok, ite_failAt_eq_ok, pure_eq_ok] at h
  obtain ⟨_, _, ⟨rfl, rfl⟩, hopen, _, _, rfl, _, _, ⟨rfl, rfl⟩, _, _, ⟨rfl, hne, rfl⟩, hmax,
    _, _, ⟨rfl, rfl⟩, hclose, _, _, rfl, rfl, rfl⟩ := h
  have hp := (Place.passes_head hx).trans (Place.passes_head (by simpa using hopen))
  have hd := hp.trans (Place.passes_takeWhile isHexDigit)
  exact ⟨_, .codePoint (fun _ => List.mem_takeWhile_imp) hne (Nat.le_of_not_lt hmax),
    hd.trans (Place.passes_head (by simpa using hclose))⟩

theorem escape_spelling (h : escape p = .ok (value, p')) :
    ∃ text, EscapeSpelling text value p'.rest ∧ p.Passes text p' := by
  simp only [escape, bind_eq_ok, rest_eq_ok] at h
  obtain ⟨_, _, ⟨rfl, rfl⟩, h⟩ := h
  match hr : p.rest, h with
  | [], h => exact (fail_ne_ok h).elim
  | b :: tail, h =>
    have hhead : p.rest.head? = some b := by rw [hr]; rfl
    cases hb : simpleEscapes.lookup b with
    | some found =>
      simp only [hb, bind_eq_ok, advance_eq_ok, pure_eq_ok] at h
      obtain ⟨_, _, rfl, rfl, rfl⟩ := h
      exact ⟨[b], .simple hb, Place.passes_head hhead⟩
    | none =>
      simp only [hb] at h
      simp only [beq_iff_eq] at h
      split at h
      · next hl =>
        simp only [bind_eq_ok, advance_eq_ok, pure_eq_ok] at h
        obtain ⟨_, _, hp', rfl, rfl⟩ := h
        rw [← hr] at hp'
        have hp := Place.passes_advance (lineBreakLength_le p.rest)
        have hlen := List.length_take_of_le (lineBreakLength_le p.rest)
        refine ⟨_, .lineBreak ?_ ?_, hp' ▸ hp⟩
        · rw [← List.length_pos_iff, hlen, hr]
          exact lineBreakLength_pos hl
        · rw [hp', ← hp.rest, hlen]
      · split at h
        · next hz =>
          simp only [bind_eq_ok, advance_eq_ok, takeWhile_eq_ok, pure_eq_ok] at h
          obtain ⟨_, _, rfl, _, _, ⟨rfl, rfl⟩, rfl, rfl⟩ := h
          subst hz
          have hp := (Place.passes_head hhead).trans (Place.passes_takeWhile isSpace)
          exact ⟨_, .skip (fun _ => List.mem_takeWhile_imp) (head_drop_takeWhile _ _), hp⟩
        · split at h
          · next hx =>
            simp only [bind_eq_ok, advance_eq_ok] at h
            obtain ⟨_, _, rfl, h⟩ := h
            exact hexEscape_spelling (hx ▸ hhead) h
          · split at h
            · next hu =>
              simp only [bind_eq_ok, advance_eq_ok] at h
              obtain ⟨_, _, rfl, h⟩ := h
              exact codePointEscape_spelling (hu ▸ hhead) h
            · split at h
              · next hd => exact decimalEscape_spelling hhead hd h
              · exact (fail_ne_ok h).elim

theorem quotedItem_eq_none {quote : UInt8} :
    quotedItem quote p = .ok (none, p') ↔ p.rest.head? = some quote ∧ p = p' := by
  simp only [quotedItem, bind_eq_ok, rest_eq_ok]
  match hr : p.rest with
  | [] => 
    constructor
    · rintro ⟨_, _, ⟨rfl, rfl⟩, h⟩
      exact (fail_ne_ok h).elim
    · simp
  | b :: tail =>
    constructor
    · rintro ⟨_, _, ⟨rfl, rfl⟩, h⟩
      simp only [beq_iff_eq] at h
      split at h
      · next hq => exact ⟨by simp [hq], (pure_eq_ok.mp h).2⟩
      · split at h
        · exact (fail_ne_ok h).elim
        · simp only [bind_eq_ok] at h
          obtain ⟨_, _, _, h⟩ := h
          split at h
          · simp only [map_eq_ok, reduceCtorEq, and_false, exists_false] at h
          · simp only [pure_eq_ok, reduceCtorEq, false_and] at h
    · rintro ⟨hq, rfl⟩
      refine ⟨_, _, ⟨rfl, rfl⟩, ?_⟩
      have hq : b = quote := by simpa using hq
      simp only [hq, beq_self_eq_true, ↓reduceIte]
      exact pure_eq_ok.mpr ⟨rfl, rfl⟩

/-- One item of a quoted string, before whatever a quoted string may go on with. -/
theorem quotedItem_spelling {quote : UInt8} {bytes : Bytes}
    (h : quotedItem quote p = .ok (some bytes, p')) :
    ∃ item, item ≠ [] ∧ p.Passes item p' ∧ ∀ text value tail, QuotedSpelling quote text value →
      p'.rest = text ++ tail → QuotedSpelling quote (item ++ text) (bytes ++ value) := by
  simp only [quotedItem, bind_eq_ok, rest_eq_ok] at h
  obtain ⟨_, _, ⟨rfl, rfl⟩, h⟩ := h
  match hr : p.rest, h with
  | [], h => exact (fail_ne_ok h).elim
  | b :: tail, h =>
    have hhead : p.rest.head? = some b := by rw [hr]; rfl
    simp only [beq_iff_eq] at h
    split at h
    · simp only [pure_eq_ok, reduceCtorEq, false_and] at h
    · next hq =>
      split at h
      · exact (fail_ne_ok h).elim
      · next hl =>
        simp only [bind_eq_ok, advance_eq_ok] at h
        obtain ⟨_, _, rfl, h⟩ := h
        have hp := Place.passes_head hhead
        split at h
        · next hb =>
          simp only [map_eq_ok, Option.some.injEq, exists_eq_right] at h
          obtain ⟨escaped, he, hescaped⟩ := escape_spelling h
          subst hb
          refine ⟨_, List.append_ne_nil_of_left_ne_nil (List.cons_ne_nil _ _) _, hp.trans hescaped, ?_⟩
          intro text value tail ht hrest
          exact .escape ((hrest ▸ he).of_append ht.ne_nil) ht
        · next hb =>
          simp only [pure_eq_ok, Option.some.injEq] at h
          obtain ⟨rfl, rfl⟩ := h
          exact ⟨[b], List.cons_ne_nil _ _, hp, fun _ _ _ ht _ => .plain hq hb hl ht⟩

/-- The step of the loop over the items of a quoted string. -/
def quotedStep (quote : UInt8) (decoded : Bytes) : Scan (Option Bytes) := do
  let some bytes ← quotedItem quote | return none
  return some (bytes.reverse ++ decoded)

theorem quotedStep_eq_ok {quote : UInt8} {decoded : Bytes} {found : Option Bytes} :
    quotedStep quote decoded p = .ok (found, p') ↔
      ∃ item, quotedItem quote p = .ok (item, p') ∧
        found = item.map fun bytes => bytes.reverse ++ decoded := by
  simp only [quotedStep, bind_eq_ok]
  constructor
  · rintro ⟨_ | bytes, m, h, hv⟩
    · obtain ⟨rfl, rfl⟩ := pure_eq_ok.mp hv
      exact ⟨none, h, rfl⟩
    · obtain ⟨rfl, rfl⟩ := pure_eq_ok.mp hv
      exact ⟨some bytes, h, rfl⟩
  · rintro ⟨_ | bytes, h, rfl⟩
    · exact ⟨none, p', h, pure_eq_ok.mpr ⟨rfl, rfl⟩⟩
    · exact ⟨some bytes, p', h, pure_eq_ok.mpr ⟨rfl, rfl⟩⟩

theorem quotedStep_eq_none {quote : UInt8} {decoded : Bytes} :
    quotedStep quote decoded p = .ok (none, p') ↔ p.rest.head? = some quote ∧ p = p' := by
  rw [quotedStep_eq_ok, ← quotedItem_eq_none]
  constructor
  · rintro ⟨_ | _, h, hv⟩
    · exact h
    · simp at hv
  · exact fun h => ⟨none, h, rfl⟩

theorem quotedStep_eq_some {quote : UInt8} {decoded next : Bytes} :
    quotedStep quote decoded p = .ok (some next, p') ↔
      ∃ bytes, quotedItem quote p = .ok (some bytes, p') ∧ next = bytes.reverse ++ decoded := by
  rw [quotedStep_eq_ok]
  constructor
  · rintro ⟨_ | bytes, h, hv⟩
    · simp at hv
    · exact ⟨bytes, h, by simpa using hv⟩
  · rintro ⟨bytes, h, rfl⟩
    exact ⟨some bytes, h, rfl⟩

theorem steady_quotedStep (quote : UInt8) (decoded : Bytes) : Steady (quotedStep quote decoded) where
  stays h := (quotedStep_eq_none.mp h).2.symm
  advances h := by
    obtain ⟨_, h, -⟩ := quotedStep_eq_some.mp h
    obtain ⟨item, hne, hp, -⟩ := quotedItem_spelling h
    exact ⟨item, hne, hp⟩

theorem quotedSteps_spelling {quote : UInt8} {decoded decoded' : Bytes}
    (h : Steps (Next (quotedStep quote)) decoded p decoded' p') (hend : p'.rest.head? = some quote) :
    ∃ text value, decoded' = value.reverse ++ decoded ∧ p.Passes text p' ∧
      QuotedSpelling quote (text ++ [quote]) value := by
  induction h with
  | refl => exact ⟨[], [], rfl, .refl _, .close⟩
  | cons hstep _ ih =>
    obtain ⟨bytes, hitem, rfl⟩ := quotedStep_eq_some.mp hstep
    obtain ⟨item, -, hp, hspells⟩ := quotedItem_spelling hitem
    obtain ⟨text, value, rfl, hp', ht⟩ := ih hend
    obtain ⟨tail, htail⟩ := List.head?_eq_some_iff.mp hend
    refine ⟨item ++ text, bytes ++ value, by simp, hp.trans hp', ?_⟩
    have hrest := hp'.rest
    rw [htail, ← List.singleton_append, ← List.append_assoc] at hrest
    rw [List.append_assoc]
    exact hspells _ _ _ ht hrest

theorem quotedItems_spelling {quote : UInt8} (h : quotedItems quote p = .ok (value, p')) :
    p'.rest.head? = some quote ∧
      ∃ text, p.Passes text p' ∧ QuotedSpelling quote (text ++ [quote]) value := by
  change (iterate (quotedStep quote) [] >>= fun decoded => pure decoded.reverse) p = _ at h
  simp only [bind_eq_ok, pure_eq_ok, iterate_eq_ok (steady_quotedStep quote)] at h
  obtain ⟨decoded, _, ⟨hsteps, hlast⟩, rfl, rfl⟩ := h
  have hend := (quotedStep_eq_none.mp hlast).1
  obtain ⟨text, value, rfl, hp, ht⟩ := quotedSteps_spelling hsteps hend
  exact ⟨hend, text, hp, by simpa using ht⟩

theorem quoted_spelling {quote : UInt8} (hq : p.rest.head? = some quote)
    (h : quoted quote p = .ok (value, p')) :
    ∃ text, p.Passes (quote :: text) p' ∧ QuotedSpelling quote text value := by
  simp only [quoted, bind_eq_ok, advance_eq_ok, pure_eq_ok] at h
  obtain ⟨_, _, rfl, value, m, hitems, _, _, rfl, rfl, rfl⟩ := h
  obtain ⟨hend, text, hp, ht⟩ := quotedItems_spelling hitems
  exact ⟨_, ((Place.passes_head hq).trans hp).trans (Place.passes_head hend), ht⟩

/-- A scanned string has one of the forms and stands for the bytes. -/
theorem string_spelling (h : string p = .ok (some value, p')) :
    ∃ text, StringSpelling text value ∧ p.Passes text p' := by
  simp only [string, bind_eq_ok, rest_eq_ok] at h
  obtain ⟨_, _, ⟨rfl, rfl⟩, h⟩ := h
  cases hhead : p.rest.head? with
  | none => simp [hhead, pure_eq_ok] at h
  | some b =>
    simp only [hhead] at h
    split at h
    · next hb =>
      simp only [map_eq_ok, Option.some.injEq, exists_eq_right] at h
      obtain ⟨text, hp, ht⟩ := quoted_spelling hhead h
      exact ⟨_, .quoted (by simpa using hb) ht, hp⟩
    · obtain ⟨text, ht, hp⟩ := longBracket_spelling h
      exact ⟨text, .longBracket ht, hp⟩

theorem string_eq_none :
    string p = .ok (none, p') ↔
      p.rest.head? ≠ some '"'.toUInt8 ∧ p.rest.head? ≠ some '\''.toUInt8 ∧
        LongBracket.level? p.rest = none ∧ p = p' := by
  simp only [string, bind_eq_ok, rest_eq_ok]
  constructor
  · rintro ⟨_, _, ⟨rfl, rfl⟩, h⟩
    cases hr : p.rest with
    | nil =>
      simp only [hr, List.head?_nil, pure_eq_ok] at h
      exact ⟨by simp, by simp, rfl, h.2⟩
    | cons b tail =>
      simp only [hr, List.head?_cons] at h
      split at h
      · simp only [map_eq_ok, reduceCtorEq, and_false, exists_false] at h
      · next hb =>
        have hl := longBracket_eq_none.mp h
        rw [hr] at hl
        simp only [Bool.or_eq_true, beq_iff_eq, not_or] at hb
        exact ⟨by simpa using hb.1, by simpa using hb.2, hl⟩
  · rintro ⟨hd, hs, hl, rfl⟩
    refine ⟨_, _, ⟨rfl, rfl⟩, ?_⟩
    cases hr : p.rest with
    | nil => exact pure_eq_ok.mpr ⟨rfl, rfl⟩
    | cons b tail =>
      rw [hr] at hd hs
      simp only [List.head?_cons]
      rw [if_neg (by simpa using ⟨by simpa using hd, by simpa using hs⟩)]
      exact longBracket_eq_none.mpr ⟨hl, rfl⟩

end Scan

end LuaSyntax
