import LuaSyntax.Proofs.Viable.Item
import LuaSyntax.Proofs.Viable.Text
import LuaSyntax.Proofs.Rescan.Number

/-! # Tokens that are cut off

A numeral, a string or a comment that fails can be finished from the offset of the failure on, with what the
failure asks for first. What has been read of it, up to there, is kept.
-/
namespace LuaSyntax

open LongBracket

variable {p m : Place} {label : Label} {offset : Nat}

/-- What has been read from a place up to an offset goes on with everything that a label asks for, and
ends in ASCII as something of a form. -/
def Place.Unfinished (p : Place) (label : Label) (offset : Nat) (form : Bytes → Prop) : Prop :=
  ∃ text m, p.Passes text m ∧ m.offset = offset ∧ text ≠ [] ∧ label.Served fun item =>
    ∃ rest, (∀ b ∈ rest, isAscii b) ∧ Unbracketed (item ++ rest) ∧ form (text ++ (item ++ rest))

section Numerals

theorem unbracketed_digit {b : UInt8} (h : isHexDigit b) (rest : Bytes) : Unbracketed ([b] ++ rest) := by
  intro c hc
  obtain rfl := Option.some.inj hc
  constructor <;> exact fun heq => absurd h (heq ▸ by decide)

theorem isHexDigit_of_isDigit {b : UInt8} (h : isDigit b) : isHexDigit b := by
  rw [isHexDigit, hexDigit?, if_pos h]
  rfl

/-- A numeral that fails goes on with every digit of those that are missing. -/
theorem Scan.numeral_unfinished (h : numeral p = .error (.expected label offset)) :
    p.Unfinished label offset fun text => ∃ value, NumeralSpelling text value := by
  obtain ⟨source, start⟩ := p
  obtain ⟨_, count, hbroken, he⟩ := numeral_eq_error.mp h
  obtain ⟨rfl, rfl⟩ := Failure.expected.inj he
  dsimp only at hbroken
  cases hbroken with
  | @hexDigit mark tail hm =>
    refine ⟨['0'.toUInt8, mark], ⟨tail, start + 2⟩, ⟨rfl, rfl⟩, rfl, List.cons_ne_nil _ _, ⟨_, '0'.toUInt8, by decide, rfl⟩, ?_⟩
    rintro _ ⟨b, hb, rfl⟩
    refine ⟨[], List.forall_mem_nil _, unbracketed_digit hb _, _, .hexadecimal hm ?_ (List.cons_ne_nil b [])⟩
    exact List.forall_mem_singleton.mpr hb
  | @fractionDigit tail =>
    refine ⟨['.'.toUInt8], ⟨tail, start + 1⟩, ⟨rfl, rfl⟩, rfl, List.cons_ne_nil _ _, ⟨_, '0'.toUInt8, by decide, rfl⟩, ?_⟩
    rintro _ ⟨b, hb, rfl⟩
    have hdigits : FractionSpelling [] ('.'.toUInt8 :: [b]) (some [b]) :=
      .digits (List.forall_mem_singleton.mpr hb) fun _ => List.cons_ne_nil _ _
    have hall : NumeralSpelling ([] ++ '.'.toUInt8 :: [b] ++ []) (.ofFloating [] [b] 0) :=
      .floating (List.forall_mem_nil _) hdigits .absent (.inl nofun) (.inr nofun)
    exact ⟨[], List.forall_mem_nil _, unbracketed_digit (isHexDigit_of_isDigit hb) _, _, hall⟩
  | @exponentDigit _ signText tail mark sign ht hm hs =>
    obtain @⟨whole, fractionText, _, hw, hf, hne⟩ := ht
    refine ⟨whole ++ fractionText ++ (mark :: signText), ⟨tail, _⟩, ⟨?_, ?_⟩, rfl, ?_, ⟨_, '0'.toUInt8, by decide, rfl⟩, ?_⟩
    · exact (List.append_assoc (whole ++ fractionText) (mark :: signText) tail).symm
    · rw [@List.length_append _ (whole ++ fractionText) (mark :: signText)]
      rfl
    · exact List.append_ne_nil_of_right_ne_nil _ (List.cons_ne_nil _ _)
    · rintro _ ⟨b, hb, rfl⟩
      have hdigits : ExponentSpelling (mark :: signText ++ [b]) (some (sign * digitsValue 10 [b])) :=
        .digits hm hs (List.forall_mem_singleton.mpr hb) (List.cons_ne_nil _ _)
      have hall := NumeralSpelling.floating hw hf hdigits (.inr nofun) hne
      exact ⟨[], List.forall_mem_nil _, unbracketed_digit (isHexDigit_of_isDigit hb) _, _,
        by simpa only [List.append_assoc, List.append_nil] using hall⟩

end Numerals

section LongBrackets

/-- A mark that stands nowhere in some bytes does not stand across a byte after them that is not part of
it. -/
theorem LongBracket.not_prefix_across {mark bytes tail : Bytes} {b : UInt8} (h : ∀ n, ¬ mark <+: bytes.drop n)
    (hb : b ∉ mark) {n : Nat} (hn : n ≤ bytes.length) : ¬ mark <+: (bytes ++ b :: tail).drop n := by
  intro hp
  rw [List.drop_append_of_le_length hn] at hp
  rcases Nat.le_total mark.length (bytes.drop n).length with hlen | hlen
  · exact h n (List.prefix_of_prefix_length_le hp (List.prefix_append _ _) hlen)
  · obtain ⟨after, rfl⟩ := List.prefix_of_prefix_length_le (List.prefix_append (bytes.drop n) (b :: tail)) hp hlen
    cases after with
    | nil =>
      rw [List.append_nil] at h
      exact h n (List.prefix_refl _)
    | cons c after =>
      obtain ⟨rest, hrest⟩ := hp
      rw [List.append_assoc, List.append_cancel_left_eq, List.cons_append] at hrest
      obtain ⟨rfl, -⟩ := List.cons.inj hrest
      exact hb (List.mem_append_right _ List.mem_cons_self)

theorem LongBracket.lineFeed_not_mem_closing (level : Nat) : lineFeed ∉ closing level := by
  simp only [closing, List.mem_cons, List.mem_append, List.mem_replicate, List.not_mem_nil, or_false, not_or,
    not_and, List.cons_append]
  exact ⟨by decide, fun _ => by decide, by decide⟩

theorem LongBracket.not_prefix_closing {level other : Nat} (h : level ≠ other) (n : Nat) :
    ¬ closing level <+: (closing other).drop n := by
  intro hp
  have hother : ('='.toUInt8 == ']'.toUInt8) = false := by decide
  have hone (level : Nat) : (List.replicate level '='.toUInt8 ++ [']'.toUInt8]).count ']'.toUInt8 = 1 := by
    rw [List.count_append, List.count_replicate, hother, List.count_singleton_self]
    rfl
  have hcount (level : Nat) : (closing level).count ']'.toUInt8 = 2 := by
    rw [closing, List.cons_append, List.count_cons_self, hone]
  obtain ⟨rest, hrest⟩ := hp
  cases n with
  | zero =>
    rw [List.drop_zero] at hrest
    have hall : (closing level ++ rest).count ']'.toUInt8 = 2 := hrest ▸ hcount other
    -- the last byte of the other bracket is not in the rest
    have hnil : rest = [] := by
      rcases List.eq_nil_or_concat rest with hnil | ⟨front, last, rfl⟩
      · exact hnil
      · rw [List.concat_eq_append] at hrest hall
        have hlast : (closing other).getLast? = some last := by
          rw [← hrest, ← List.append_assoc, List.getLast?_concat]
        have hclose : (closing other).getLast? = some ']'.toUInt8 := List.getLast?_concat
        obtain rfl := Option.some.inj (hlast.symm.trans hclose)
        rw [List.count_append, List.count_append, hcount, List.count_singleton_self] at hall
        omega
    have hlength := congrArg List.length hrest
    rw [hnil, List.append_nil, length_closing, length_closing] at hlength
    omega
  | succ n =>
    have hfew : ((closing other).drop (n + 1)).count ']'.toUInt8 ≤ 1 := by
      have hsub := (List.drop_sublist n (List.replicate other '='.toUInt8 ++ [']'.toUInt8])).count_le ']'.toUInt8
      rw [hone] at hsub
      exact hsub
    rw [← hrest, List.count_append, hcount] at hfew
    omega

theorem Scan.longBracket_unfinished (h : longBracket p = .error (.expected label offset)) :
    p.rest ≠ [] ∧ label = .longBracketClose ∧ offset = p.sourceEnd ∧ ∀ item, label.Asks item →
      ∃ rest content, (∀ b ∈ rest, isAscii b) ∧ Unbracketed (item ++ rest) ∧
        Spelling (p.rest ++ (item ++ rest)) content := by
  obtain ⟨level, inner, hsource, hnowhere, he⟩ := longBracket_eq_error.mp h
  obtain ⟨rfl, rfl⟩ := Failure.expected.inj he
  rw [hsource]
  refine ⟨List.append_ne_nil_of_left_ne_nil (List.cons_ne_nil _ _) _, rfl, rfl, ?_⟩
  rintro _ ⟨other, rfl⟩
  have hline (tail : Bytes) : Unbracketed (lineFeed :: tail) := by
    intro b hb
    obtain rfl := Option.some.inj hb
    decide
  by_cases hsame : level = other
  · subst hsame
    have hlast : ∀ n < (inner ++ [lineFeed]).length,
        ¬ closing level <+: (inner ++ [lineFeed] ++ closing level).drop n := by
      intro n hn
      rw [List.append_assoc]
      refine not_prefix_across hnowhere (lineFeed_not_mem_closing level) ?_
      rw [List.length_append, List.length_singleton] at hn
      omega
    obtain ⟨content, hspelling⟩ := spelling_of_last hlast
    refine ⟨[], content, List.forall_mem_nil _, hline _, ?_⟩
    simpa only [List.append_assoc, List.append_nil, List.cons_append, List.nil_append] using hspelling
  · have hlast : ∀ n < (inner ++ lineFeed :: (closing other ++ [lineFeed])).length,
        ¬ closing level <+: (inner ++ lineFeed :: (closing other ++ [lineFeed]) ++ closing level).drop n := by
      intro n hn
      have hassoc : inner ++ lineFeed :: (closing other ++ [lineFeed]) ++ closing level =
          inner ++ lineFeed :: (closing other ++ lineFeed :: closing level) := by simp
      rw [hassoc]
      rcases Nat.lt_or_ge inner.length n with hlt | hge
      · obtain ⟨count, rfl⟩ : ∃ count, n = inner.length + (count + 1) := ⟨n - inner.length - 1, by omega⟩
        rw [List.drop_length_add_append, List.drop_succ_cons]
        simp only [List.length_append, List.length_cons, List.length_nil] at hn
        exact not_prefix_across (not_prefix_closing hsame) (lineFeed_not_mem_closing level) (by omega)
      · exact not_prefix_across hnowhere (lineFeed_not_mem_closing level) hge
    obtain ⟨content, hspelling⟩ := spelling_of_last hlast
    have hascii : ∀ b ∈ lineFeed :: closing level, isAscii b := List.forall_mem_cons.mpr ⟨rfl, isAscii_closing level⟩
    refine ⟨lineFeed :: closing level, content, hascii, hline _, ?_⟩
    simpa only [List.append_assoc, List.cons_append, List.nil_append] using hspelling

end LongBrackets

section Strings

theorem Scan.hexEscape_eq_error {e : Failure} (h : hexEscape p = .error e) : e = .expected .hexEscape p.offset := by
  rw [hexEscape, rest_bind_eq_error] at h
  revert h
  generalize (p.rest.take 2).map hexDigit? = digits
  intro h
  rcases digits with _ | ⟨_ | high, _ | ⟨_ | low, _ | _⟩⟩
  case cons.some.cons.some.nil =>
    rw [advance_bind_eq_error] at h
    exact (pure_ne_error h).elim
  all_goals exact fail_eq_error.mp h

theorem Scan.decimalEscape_eq_error {e : Failure} (h : decimalEscape p = .error e) :
    e = .expected .decimalEscape p.offset := by
  rw [decimalEscape, rest_bind_eq_error, ite_fail_eq_error] at h
  rcases h with ⟨-, rfl⟩ | ⟨-, h⟩
  · rfl
  · rw [advance_bind_eq_error] at h
    exact (pure_ne_error h).elim

/-- The failures of an escape sequence for a code point: in front of the opening brace, behind it, and in
front of the closing brace. -/
theorem Scan.codePointEscape_eq_error {e : Failure} (h : codePointEscape p = .error e) :
    e = .expected .codePointOpen p.offset ∨
      p.rest.head? = some openBrace ∧
        (e = .expected .codePointDigit (p.offset + 1) ∨ e = .expected .codePointTooLarge (p.offset + 1) ∨
          ∃ run m, (∀ b ∈ run, isHexDigit b) ∧ run ≠ [] ∧ digitsValue 16 run ≤ CodePoint.max ∧
            (p.advance 1).Passes run m ∧ e = .expected .codePointClose m.offset) := by
  rw [codePointEscape_eq, rest_bind_eq_error, ite_fail_eq_error] at h
  rcases h with ⟨-, rfl⟩ | ⟨hopen, h⟩
  · exact .inl rfl
  refine .inr ⟨by simpa using hopen, ?_⟩
  rw [advance_bind_eq_error, bind_eq_error] at h
  rcases h with h | ⟨_, _, hget, h⟩
  · cases h
  obtain ⟨rfl, rfl⟩ := get_eq_ok.mp hget
  rcases bind_eq_error.mp h with h | ⟨run, m, hdigits, h⟩
  · exact .inl (digits_eq_error.mp h).2
  obtain ⟨rfl, hne, rfl⟩ := digits_eq_ok.mp hdigits
  rcases ite_failAt_eq_error.mp h with ⟨-, rfl⟩ | ⟨hmax, h⟩
  · exact .inr (.inl rfl)
  rw [rest_bind_eq_error, ite_fail_eq_error] at h
  rcases h with ⟨-, rfl⟩ | ⟨-, h⟩
  · exact .inr (.inr ⟨_, _, fun _ => List.mem_takeWhile_imp, hne, Nat.le_of_not_lt hmax, Place.passes_takeWhile _, rfl⟩)
  · rw [advance_bind_eq_error] at h
    exact (pure_ne_error h).elim

theorem hexDigit?_le (b : UInt8) : (hexDigit? b).getD 0 ≤ b.toNat := by
  rw [hexDigit?]
  split
  · exact Nat.sub_le _ _
  split
  · next h =>
    have hle : 0x61 ≤ b.toNat := UInt8.le_iff_toNat_le.mp (of_decide_eq_true (Bool.and_eq_true_iff.mp h).1)
    simp only [Option.getD_some]
    omega
  split
  · next h =>
    have hle : 0x41 ≤ b.toNat := UInt8.le_iff_toNat_le.mp (of_decide_eq_true (Bool.and_eq_true_iff.mp h).1)
    simp only [Option.getD_some]
    omega
  · exact Nat.zero_le _

/-- What has been read from a place up to an offset goes on with everything that a label asks for, and ends in
ASCII as an escape sequence in front of whatever begins with no digit. -/
def Place.EscapeUnfinished (p : Place) (label : Label) (offset : Nat) : Prop :=
  ∃ text m, p.Passes text m ∧ m.offset = offset ∧ label.Served fun item =>
    ∃ rest, (∀ b ∈ rest, isAscii b) ∧ Unbracketed (item ++ rest) ∧ ∀ next, (∀ b ∈ next.head?, ¬ isDigit b) →
      ∃ value, EscapeSpelling (text ++ (item ++ rest)) value next

/-- Behind a backslash every escape sequence can stand. -/
theorem Place.escapeUnfinished (p : Place) : p.EscapeUnfinished .escape p.offset := by
  refine ⟨[], p, .refl p, rfl, ⟨_, rfl⟩, ?_⟩
  rintro _ rfl
  have hsimple {next : Bytes} : EscapeSpelling ['n'.toUInt8] [0x0A] next := .simple (by decide)
  exact ⟨['n'.toUInt8], List.all_eq_true.mp rfl, unbracketed_cons (by decide) _, fun _ _ => ⟨_, hsimple⟩⟩

theorem Scan.hexEscape_unfinished (hp : p.Passes ['x'.toUInt8] m)
    (h : hexEscape m = .error (.expected label offset)) : p.EscapeUnfinished label offset := by
  cases hexEscape_eq_error h
  refine ⟨_, _, hp, rfl, ⟨_, '0'.toUInt8, '0'.toUInt8, by decide, by decide, rfl⟩, ?_⟩
  rintro _ ⟨high, low, hhigh, hlow, rfl⟩
  obtain ⟨upper, hupper⟩ := Option.isSome_iff_exists.mp hhigh
  obtain ⟨lower, hlower⟩ := Option.isSome_iff_exists.mp hlow
  exact ⟨[], List.forall_mem_nil _, unbracketed_digit hhigh [low], fun _ _ => ⟨_, .hexadecimal hupper hlower⟩⟩

theorem Scan.decimalEscape_unfinished (h : decimalEscape p = .error (.expected label offset)) :
    p.EscapeUnfinished label offset := by
  cases decimalEscape_eq_error h
  refine ⟨[], p, .refl p, rfl, ⟨_, rfl⟩, ?_⟩
  rintro _ rfl
  have hdigits : ∀ b ∈ ['0'.toUInt8], isDigit b := List.forall_mem_singleton.mpr (by decide)
  exact ⟨['0'.toUInt8], List.all_eq_true.mp rfl, unbracketed_cons (by decide) _, fun next hnext =>
    ⟨_, .decimal hdigits (List.cons_ne_nil _ _) (by decide) (.inr hnext) (by decide)⟩⟩

theorem Scan.codePointEscape_unfinished (hp : p.Passes ['u'.toUInt8] m)
    (h : codePointEscape m = .error (.expected label offset)) : p.EscapeUnfinished label offset := by
  have hcode {run next : Bytes} (hrun : ∀ b ∈ run, isHexDigit b) (hne : run ≠ []) (hmax : digitsValue 16 run ≤ CodePoint.max) :
      ∃ value, EscapeSpelling ('u'.toUInt8 :: openBrace :: run ++ [closeBrace]) value next :=
    ⟨_, .codePoint hrun hne hmax⟩
  have hzero : digitsValue 16 ['0'.toUInt8] ≤ CodePoint.max := by decide
  have hzeros : ∀ b ∈ ['0'.toUInt8], isHexDigit b := List.forall_mem_singleton.mpr (by decide)
  rcases codePointEscape_eq_error h with he | ⟨hopen, he | he | ⟨run, m', hrun, hne, hmax, hpasses, he⟩⟩
  · -- in front of the opening brace
    cases he
    refine ⟨_, _, hp, rfl, ⟨_, rfl⟩, ?_⟩
    rintro _ rfl
    exact ⟨['0'.toUInt8, closeBrace], List.all_eq_true.mp rfl, unbracketed_cons (by decide) _,
      fun _ _ => hcode hzeros (List.cons_ne_nil _ _) hzero⟩
  · -- behind it without a digit, where a single one is never too large
    cases he
    refine ⟨_, _, hp.trans (Place.passes_head hopen), rfl, ⟨_, '0'.toUInt8, by decide, rfl⟩, ?_⟩
    rintro _ ⟨digit, hdigit, rfl⟩
    have hmax : digitsValue 16 [digit] ≤ CodePoint.max := by
      rw [digitsValue, List.foldl_cons, List.foldl_nil, Nat.zero_mul, Nat.zero_add]
      exact Nat.le_trans (hexDigit?_le digit) (Nat.le_trans (Nat.le_of_lt digit.toNat_lt) (by decide))
    exact ⟨[closeBrace], List.all_eq_true.mp rfl, unbracketed_digit hdigit _,
      fun _ _ => hcode (List.forall_mem_singleton.mpr hdigit) (List.cons_ne_nil _ _) hmax⟩
  · -- behind it with digits that are too large
    cases he
    refine ⟨_, _, hp.trans (Place.passes_head hopen), rfl, ⟨_, rfl⟩, ?_⟩
    rintro _ rfl
    exact ⟨['0'.toUInt8, closeBrace], List.all_eq_true.mp rfl, unbracketed_cons (by decide) _,
      fun _ _ => hcode hzeros (List.cons_ne_nil _ _) hzero⟩
  · -- in front of the closing brace
    cases he
    refine ⟨_, _, (hp.trans (Place.passes_head hopen)).trans hpasses, rfl, ⟨_, rfl⟩, ?_⟩
    rintro _ rfl
    exact ⟨[], List.forall_mem_nil _, unbracketed_cons (by decide) _, fun _ _ => hcode hrun hne hmax⟩

/-- What the failure of an escape sequence asks for can be put there, and the sequence ends in front of a
quote then. -/
theorem Scan.escape_unfinished (h : escape p = .error (.expected label offset)) : p.EscapeUnfinished label offset := by
  rw [escape, rest_bind_eq_error] at h
  revert h
  cases hr : p.rest with
  | nil =>
    intro h
    cases fail_eq_error.mp h
    exact p.escapeUnfinished
  | cons b tail =>
    intro h
    have hp := @Place.passes_head p b (by rw [hr]; rfl)
    cases hb : simpleEscapes.lookup b with
    | some found =>
      simp only [hb, advance_bind_eq_error] at h
      exact (pure_ne_error h).elim
    | none =>
      simp only [hb, beq_iff_eq] at h
      split at h
      · rw [advance_bind_eq_error] at h
        exact (pure_ne_error h).elim
      split at h
      · rw [advance_bind_eq_error, takeWhile_bind_eq_error] at h
        exact (pure_ne_error h).elim
      split at h
      · next hx =>
        rw [advance_bind_eq_error] at h
        exact hexEscape_unfinished (hx ▸ hp) h
      split at h
      · next hu =>
        rw [advance_bind_eq_error] at h
        exact codePointEscape_unfinished (hu ▸ hp) h
      split at h
      · exact decimalEscape_unfinished h
      · cases fail_eq_error.mp h
        exact p.escapeUnfinished

/-- One item of a quoted string, before whatever the string goes on with instead, if that begins as before
or with a quote. -/
theorem Scan.quotedItem_front {quote : UInt8} {bytes : Bytes} (h : quotedItem quote p = .ok (some bytes, m)) :
    ∃ item, p.Passes item m ∧ item ≠ [] ∧ ∀ text value, QuotedSpelling quote text value →
      (∀ b ∈ text.head?, m.rest.head? = some b ∨ b = '"'.toUInt8 ∨ b = '\''.toUInt8) →
      QuotedSpelling quote (item ++ text) (bytes ++ value) := by
  simp only [quotedItem, bind_eq_ok, rest_eq_ok] at h
  obtain ⟨_, _, ⟨rfl, rfl⟩, h⟩ := h
  revert h
  cases hr : p.rest with
  | nil => exact fun h => (fail_ne_ok h).elim
  | cons b tail =>
    intro h
    have hp := @Place.passes_head p b (by rw [hr]; rfl)
    simp only [beq_iff_eq] at h
    split at h
    · cases (pure_eq_ok.mp h).1
    next hq =>
    split at h
    · exact (fail_ne_ok h).elim
    next hl =>
    simp only [bind_eq_ok, advance_eq_ok] at h
    obtain ⟨_, _, rfl, h⟩ := h
    split at h
    · next hb =>
      simp only [map_eq_ok, Option.some.injEq, exists_eq_right] at h
      obtain ⟨escaped, he, hescaped⟩ := escape_spelling h
      subst hb
      exact ⟨_, hp.trans hescaped, List.cons_ne_nil _ _, fun text value ht hn => .escape (he.next hn) ht⟩
    · next hb =>
      obtain ⟨hbytes, rfl⟩ := pure_eq_ok.mp h
      obtain rfl := Option.some.inj hbytes
      exact ⟨[b], hp, List.cons_ne_nil _ _, fun text value ht _ => .plain hq hb hl ht⟩

theorem Scan.quotedSteps_front {quote : UInt8} {decoded decoded' : Bytes}
    (h : Steps (Next (quotedStep quote)) decoded p decoded' m) :
    ∃ front, p.Passes front m ∧ ∀ text value, QuotedSpelling quote text value →
      (∀ b ∈ text.head?, m.rest.head? = some b ∨ b = '"'.toUInt8 ∨ b = '\''.toUInt8) →
      ∃ value', QuotedSpelling quote (front ++ text) value' := by
  induction h with
  | refl => exact ⟨[], .refl _, fun text value ht _ => ⟨value, ht⟩⟩
  | cons hstep _ ih =>
    obtain ⟨bytes, hitem, -⟩ := quotedStep_eq_some.mp hstep
    obtain ⟨item, hp, -, hspells⟩ := quotedItem_front hitem
    obtain ⟨front, hfront, ih⟩ := ih
    refine ⟨item ++ front, hp.trans hfront, fun text value ht hn => ?_⟩
    obtain ⟨value', ht'⟩ := ih text value ht hn
    rw [List.append_assoc]
    refine ⟨_, hspells _ _ ht' fun b hb => ?_⟩
    cases front with
    | nil =>
      obtain rfl := hfront.eq_advance
      exact hn b hb
    | cons c others =>
      obtain rfl := Option.some.inj hb
      exact .inl hfront.head

theorem unbracketed_quote {quote : UInt8} (hq : quote = '"'.toUInt8 ∨ quote = '\''.toUInt8) (rest : Bytes) :
    Unbracketed (quote :: rest) :=
  unbracketed_cons (by rcases hq with rfl | rfl <;> decide) rest

/-- What has been read from a place up to an offset goes on with everything that a label asks for, and ends in
ASCII as the rest of a quoted string, which begins as before or with a quote. -/
def Place.QuotedUnfinished (p : Place) (quote : UInt8) (label : Label) (offset : Nat) : Prop :=
  ∃ front m, p.Passes front m ∧ m.offset = offset ∧ label.Served fun item =>
    ∃ rest value, (∀ b ∈ rest, isAscii b) ∧ Unbracketed (item ++ rest) ∧
      QuotedSpelling quote (front ++ (item ++ rest)) value ∧
      ∀ b ∈ (front ++ (item ++ rest)).head?, p.rest.head? = some b ∨ b = '"'.toUInt8 ∨ b = '\''.toUInt8

section Quotes
variable {quote : UInt8} (hq : quote = '"'.toUInt8 ∨ quote = '\''.toUInt8)
include hq

/-- Between two items a quote of either kind can stand. -/
theorem Place.quotedUnfinished (p : Place) : p.QuotedUnfinished quote .stringClose p.offset := by
  refine ⟨[], p, .refl p, rfl, ⟨_, '"'.toUInt8, .inl rfl, rfl⟩, ?_⟩
  rintro _ ⟨other, hother, rfl⟩
  have hhead : ∀ b ∈ some other, p.rest.head? = some b ∨ b = '"'.toUInt8 ∨ b = '\''.toUInt8 := by
    intro b hb
    obtain rfl := Option.some.inj hb
    exact .inr hother
  by_cases hsame : other = quote
  · subst hsame
    exact ⟨[], [], List.forall_mem_nil _, unbracketed_quote hother _, .close, hhead⟩
  · -- the other quote is part of the string
    have hplain : QuotedSpelling quote [other, quote] [other] := by
      refine .plain hsame ?_ ?_ .close
      · rcases hother with rfl | rfl <;> decide
      · rcases hother with rfl | rfl <;> decide
    exact ⟨[quote], [other], List.forall_mem_singleton.mpr (isAscii_quote hq), unbracketed_quote hother _, hplain, hhead⟩

theorem Place.EscapeUnfinished.quoted (hp : p.Passes ['\\'.toUInt8] m) (h : m.EscapeUnfinished label offset) :
    p.QuotedUnfinished quote label offset := by
  obtain ⟨text, m', hpasses, hoffset, hall⟩ := h
  refine ⟨_, m', hp.trans hpasses, hoffset, hall.mono ?_⟩
  rintro item ⟨rest, hascii, hopens, hescape⟩
  have hdigit : ∀ b ∈ [quote].head?, ¬ isDigit b := by
    intro b hb
    obtain rfl := Option.some.inj hb
    rcases hq with rfl | rfl <;> decide
  obtain ⟨bytes, hspelling⟩ := hescape [quote] hdigit
  refine ⟨rest ++ [quote], bytes ++ [], ?_, ?_, ?_, fun b hb => ?_⟩
  · exact List.forall_mem_append.mpr ⟨hascii, List.forall_mem_singleton.mpr (isAscii_quote hq)⟩
  · rw [← List.append_assoc]
    exact hopens.append (unbracketed_quote hq [])
  · have hstring := QuotedSpelling.escape hspelling .close
    simpa only [List.append_assoc, List.cons_append, List.nil_append] using hstring
  · exact .inl (hp.head.trans hb)

/-- An item of a quoted string that fails, or is missing, goes on with what the failure asks for, up to the
end of the string. -/
theorem Scan.quotedItem_unfinished (h : quotedItem quote p = .error (.expected label offset)) :
    p.QuotedUnfinished quote label offset := by
  rw [quotedItem, rest_bind_eq_error] at h
  revert h
  cases hr : p.rest with
  | nil =>
    intro h
    cases fail_eq_error.mp h
    exact p.quotedUnfinished hq
  | cons b tail =>
    intro h
    have hp := @Place.passes_head p b (by rw [hr]; rfl)
    simp only [beq_iff_eq] at h
    split at h
    · exact (pure_ne_error h).elim
    split at h
    · cases fail_eq_error.mp h
      exact p.quotedUnfinished hq
    rw [advance_bind_eq_error] at h
    split at h
    · next hb =>
      rw [map_eq_error] at h
      exact (escape_unfinished h).quoted hq (hb ▸ hp)
    · exact (pure_ne_error h).elim

end Quotes

theorem Scan.string_unfinished (h : string p = .error (.expected label offset)) :
    p.Unfinished label offset fun text => ∃ value, StringSpelling text value := by
  rw [string, rest_bind_eq_error] at h
  cases hhead : p.rest.head? with
  | none =>
    rw [hhead] at h
    exact (pure_ne_error h).elim
  | some b =>
    simp only [hhead] at h
    split at h
    · next hb =>
      have hq : b = '"'.toUInt8 ∨ b = '\''.toUInt8 := by simpa using hb
      rw [map_eq_error, quoted, advance_bind_eq_error] at h
      rcases bind_eq_error.mp h with h | ⟨_, _, -, h⟩
      · change (iterate (quotedStep b) [] >>= fun decoded => pure decoded.reverse) _ = _ at h
        rcases bind_eq_error.mp h with h | ⟨_, _, -, h⟩
        · obtain ⟨decoded, m, hsteps, hlast⟩ := iterate_eq_error h
          have hitem : quotedItem b m = .error (.expected label offset) := by
            rcases bind_eq_error.mp hlast with h | ⟨found, _, -, h⟩
            · exact h
            · cases found <;> exact (pure_ne_error h).elim
          obtain ⟨front, hfront, hspells⟩ := quotedSteps_front hsteps
          obtain ⟨others, m', hothers, hoffset, hall⟩ := quotedItem_unfinished hq hitem
          refine ⟨_, m', ((Place.passes_head hhead).trans hfront).trans hothers, hoffset, List.cons_ne_nil _ _, hall.mono ?_⟩
          rintro item ⟨rest, value, hascii, hopens, hquoted, hnext⟩
          obtain ⟨value', hstring⟩ := hspells _ _ hquoted hnext
          refine ⟨rest, hascii, hopens, value', ?_⟩
          simpa only [List.append_assoc, List.cons_append, List.nil_append] using StringSpelling.quoted hq hstring
        · exact (pure_ne_error h).elim
      · rw [advance_bind_eq_error] at h
        exact (pure_ne_error h).elim
    · obtain ⟨hne, rfl, rfl, hall⟩ := longBracket_unfinished h
      have hp : p.Passes p.rest (p.advance p.rest.length) := by
        have hall := @Place.passes_advance p p.rest.length (Nat.le_refl _)
        rwa [List.take_length] at hall
      refine ⟨p.rest, _, hp, rfl, hne, ⟨_, 0, rfl⟩, fun item hitem => ?_⟩
      obtain ⟨rest, content, hascii, hopens, hspelling⟩ := hall item hitem
      exact ⟨rest, hascii, hopens, content, .longBracket hspelling⟩

end Strings

section Comments

/-- Trivia that fail end in a comment that opens a long bracket. It can be closed at the end of the source. -/
theorem Scan.trivium_unfinished (h : trivium p = .error (.expected label offset)) :
    p.rest ≠ [] ∧ label = .longBracketClose ∧ offset = p.sourceEnd ∧ ∀ item, label.Asks item →
      ∃ rest, (∀ b ∈ rest, isAscii b) ∧ Unbracketed (item ++ rest) ∧ ∀ tail, TriviumSpelling tail (p.rest ++ (item ++ rest)) := by
  rw [trivium, rest_bind_eq_error] at h
  split at h
  · rw [takeWhile_bind_eq_error] at h
    exact (pure_ne_error h).elim
  split at h
  · next hcomment =>
    rw [advance_bind_eq_error] at h
    rcases bind_eq_error.mp h with h | ⟨found, _, -, h⟩
    · obtain ⟨hne, rfl, rfl, hall⟩ := longBracket_unfinished h
      have hp : p.Passes commentMark (p.advance 2) := Place.passes_of_prefix (startsComment_iff.mp hcomment)
      refine ⟨?_, rfl, Place.sourceEnd_eq ⟨_, hp⟩, fun item hitem => ?_⟩
      · rw [hp.rest]
        exact List.append_ne_nil_of_left_ne_nil (List.cons_ne_nil _ _) _
      · obtain ⟨rest, content, hascii, hopens, hspelling⟩ := hall item hitem
        refine ⟨rest, hascii, hopens, fun tail => ?_⟩
        rw [hp.rest, List.append_assoc]
        exact .long hspelling
    · cases found <;> exact (pure_ne_error h).elim
  · exact (pure_ne_error h).elim

theorem Parse.skipTrivia_unfinished {c c' : Cursor} (h : skipTrivia c = .error (.expected label offset) c') :
    c.rest ≠ [] ∧ label = .longBracketClose ∧ offset = c.toPlace.sourceEnd ∧ ∀ item, label.Asks item →
      ∃ rest, (∀ b ∈ rest, isAscii b) ∧ Unbracketed (item ++ rest) ∧ ∀ tail, TriviaSpelling tail (c.rest ++ (item ++ rest)) := by
  obtain ⟨_, m, hsteps, hlast⟩ := iterate_eq_error (show iterate (fun _ => skipTrivium) () c = _ from h)
  obtain ⟨text, ht, hp, -⟩ := skipTrivium_steps hsteps
  have htrivium : Scan.trivium m.toPlace = .error (.expected label offset) := by
    simp only [skipTrivium] at hlast
    split at hlast
    · cases hlast
    · next he =>
      cases hlast
      exact he
  obtain ⟨hne, rfl, rfl, hall⟩ := Scan.trivium_unfinished htrivium
  refine ⟨?_, rfl, Place.sourceEnd_eq ⟨_, hp⟩, fun item hitem => ?_⟩
  · rw [hp.rest]
    exact List.append_ne_nil_of_right_ne_nil _ hne
  · obtain ⟨rest, hascii, hopens, hspelling⟩ := hall item hitem
    refine ⟨rest, hascii, hopens, fun tail => ?_⟩
    rw [hp.rest, List.append_assoc]
    obtain ⟨b, others, hm⟩ := List.exists_cons_of_ne_nil hne
    refine .append (ht.congr ?_) ?_
    · rw [hm]
      rfl
    · have hone := @TriviaSpelling.more tail (m.rest ++ (item ++ rest)) [] (hspelling _) .none
      rwa [List.append_nil] at hone

end Comments

end LuaSyntax
