import LuaSyntax.Proofs.Trivia
import LuaSyntax.Proofs.Literal.Quoted

/-! # Scanning spelled strings

A text that has the form of a long bracket, an escape sequence or a string is scanned
wherever it stands, with the value it stands for. Where a string ends does not depend on
what follows it.
-/
namespace LuaSyntax
variable {p m p' : Place} {first second : Bytes}

theorem Place.Passes.advance (h : p.Passes first p') : p.advance first.length = p' := h.eq_advance.symm

theorem Place.Passes.split (h : p.Passes (first ++ second) p') :
    p.Passes first (p.advance first.length) ∧ (p.advance first.length).Passes second p' := by
  have hrest : p.rest = first ++ (second ++ p'.rest) := by rw [h.rest, List.append_assoc]
  refine ⟨Place.passes_of_eq hrest, ?_, ?_⟩
  · rw [Place.advance, hrest, List.drop_left]
  · rw [h.offset, List.length_append, Place.advance, Nat.add_assoc]

theorem Place.Passes.head {b : UInt8} (h : p.Passes (b :: first) p') : p.rest.head? = some b := by
  rw [h.rest]
  rfl

theorem Place.Passes.tail {b : UInt8} (h : p.Passes (b :: first) p') : (p.advance 1).Passes first p' := by
  have hsplit : p.Passes ([b] ++ first) p' := h
  exact hsplit.split.2

namespace LongBracket

theorem contentBefore?_of_first {mark passed front tail : Bytes}
    (h : ∀ n < front.length, ¬ mark <+: (front ++ mark ++ tail).drop n) (hmark : mark ≠ []) :
    contentBefore? mark passed (front ++ mark ++ tail) = some (passed.reverse ++ front) := by
  induction front generalizing passed with
  | nil =>
    obtain ⟨b, others, rfl⟩ := List.exists_cons_of_ne_nil hmark
    rw [List.nil_append, List.cons_append, contentBefore?, if_pos, List.append_nil]
    exact List.isPrefixOf_iff_prefix.mpr (List.prefix_append _ _)
  | cons b front ih =>
    have hb := h 0 (Nat.succ_pos _)
    rw [List.cons_append, List.cons_append, contentBefore?, if_neg, ih, List.reverse_cons, List.append_assoc]
    · rfl
    · exact fun n hn => h (n + 1) (Nat.succ_lt_succ hn)
    · exact fun hp => hb (List.isPrefixOf_iff_prefix.mp hp)

end LongBracket

open LongBracket

namespace Scan

theorem longBracket_of_spelling {text content : Bytes} (ht : LongBracket.Spelling text content)
    (hp : p.Passes text p') : longBracket p = .ok (some content, p') := by
  cases ht with
  | @mk level lineBreak _ hb hc =>
    obtain ⟨hp, hclose⟩ := hp.split
    obtain ⟨hp, hcontent⟩ := hp.split
    obtain ⟨hopen, hbreak⟩ := hp.split
    have hlevel : level? p.rest = some level := by rw [hopen.rest, level?_opening]
    have hlength : lineBreakLength (p.advance (level + 2)).rest = lineBreak.length := by
      have hlong : 2 ≤ (lineBreak ++ content ++ closing level).length := by
        simp only [List.length_append, length_closing]
        omega
      rw [← length_opening, hbreak.rest, hcontent.rest, hclose.rest, ← List.append_assoc,
        ← List.append_assoc, ← hb, lineBreakLength_append hlong]
    have hfound : contentBefore? (closing level) []
        ((p.advance (level + 2)).advance lineBreak.length).rest = some content := by
      rw [← length_opening, hbreak.advance, hcontent.rest, hclose.rest, ← List.append_assoc]
      refine contentBefore?_of_first (fun n hn hprefix => hc n hn ?_) (by simp [closing])
      rw [List.drop_append_of_le_length (by rw [List.length_append]; omega)] at hprefix
      refine List.prefix_of_prefix_length_le hprefix (List.prefix_append _ _) ?_
      simp only [List.length_drop, List.length_append]
      omega
    simp only [longBracket, bind_eq_ok, rest_eq_ok]
    refine ⟨_, _, ⟨rfl, rfl⟩, ?_⟩
    simp only [hlevel, bind_eq_ok, advance_eq_ok, rest_eq_ok, get_eq_ok]
    refine ⟨(), _, rfl, _, _, ⟨rfl, rfl⟩, (), _, rfl, _, _, ⟨rfl, rfl⟩, ?_⟩
    simp only [hlength, hfound, bind_eq_ok, advance_eq_ok, pure_eq_ok]
    refine ⟨(), _, rfl, trivial, ?_⟩
    have hall := hcontent.trans hclose
    have hlength' : (content ++ closing level).length = content.length + level + 2 := by
      rw [List.length_append, length_closing, Nat.add_assoc]
    rw [← length_opening, hbreak.advance, ← hlength', hall.advance]

end Scan

/-- What comes after the byte that follows an escape sequence does not matter to it. -/
theorem EscapeSpelling.append {text value next : Bytes} (h : EscapeSpelling text value next)
    (hne : next ≠ []) (tail : Bytes) : EscapeSpelling text value (next ++ tail) := by
  obtain ⟨b, others, rfl⟩ := List.exists_cons_of_ne_nil hne
  exact h.next fun _ => .inl

theorem isDigit_cases {b : UInt8} (h : isDigit b) :
    b = 0x30 ∨ b = 0x31 ∨ b = 0x32 ∨ b = 0x33 ∨ b = 0x34 ∨ b = 0x35 ∨ b = 0x36 ∨ b = 0x37 ∨ b = 0x38 ∨
      b = 0x39 := by
  simp only [isDigit, Bool.and_eq_true, decide_eq_true_eq, UInt8.le_iff_toNat_le, ← UInt8.toNat_inj] at h ⊢
  simp only [UInt8.reduceToNat] at h ⊢
  omega

/-- A digit is neither a line break nor one of the letters and marks that escape. -/
theorem simpleEscapes_digit {b : UInt8} (h : isDigit b) :
    simpleEscapes.lookup b = none ∧ isLineBreak b = false ∧ b ≠ 'z'.toUInt8 ∧ b ≠ 'x'.toUInt8 ∧
      b ≠ 'u'.toUInt8 := by
  rcases isDigit_cases h with rfl | rfl | rfl | rfl | rfl | rfl | rfl | rfl | rfl | rfl <;> decide

theorem simpleEscapes_lineBreak {b : UInt8} (h : isLineBreak b) : simpleEscapes.lookup b = none := by
  simp only [isLineBreak, Bool.or_eq_true, beq_iff_eq] at h
  rcases h with rfl | rfl <;> decide

theorem takeWhile_append_eq {q : UInt8 → Bool} {run tail : Bytes} (hr : ∀ b ∈ run, q b)
    (hn : ∀ b ∈ tail.head?, ¬ q b) : (run ++ tail).takeWhile q = run := by
  rw [List.takeWhile_append_of_pos hr]
  cases tail with
  | nil => simp
  | cons b tail => rw [List.takeWhile_cons_of_neg (hn b rfl), List.append_nil]

theorem takeWhile_take_three {digits next : Bytes} (hd : ∀ b ∈ digits, isDigit b) (hlen : digits.length ≤ 3)
    (hend : digits.length = 3 ∨ ∀ b ∈ next.head?, ¬ isDigit b) :
    ((digits ++ next).take 3).takeWhile isDigit = digits := by
  rw [List.take_append]
  rcases hend with hthree | hnext
  · rw [hthree, Nat.sub_self, List.take_zero, List.append_nil, ← hthree, List.take_length,
      List.takeWhile_eq_self_iff.mpr hd]
  · rw [List.take_of_length_le hlen]
    refine takeWhile_append_eq hd fun b hb => hnext b ?_
    rw [Option.mem_def, List.head?_take] at hb
    split at hb
    · cases hb
    · exact hb

namespace Scan
variable {value : Bytes}

theorem takeWhile_of_passes {q : UInt8 → Bool} {run : Bytes} (hp : p.Passes run p') (hr : ∀ b ∈ run, q b)
    (hn : ∀ b ∈ p'.rest.head?, ¬ q b) : takeWhile q p = .ok (run, p') := by
  rw [takeWhile_eq_ok, hp.rest, takeWhile_append_eq hr hn]
  exact ⟨rfl, hp.eq_advance⟩

theorem digits_of_passes {q : UInt8 → Bool} {missing : Label} {run : Bytes} (hp : p.Passes run p')
    (hr : ∀ b ∈ run, q b) (hne : run ≠ []) (hn : ∀ b ∈ p'.rest.head?, ¬ q b) :
    digits q missing p = .ok (run, p') := by
  rw [digits_eq_ok, hp.rest, takeWhile_append_eq hr hn]
  exact ⟨rfl, hne, hp.eq_advance⟩

theorem hexEscape_of_passes {high low : UInt8} {upper lower : Nat} (hp : p.Passes [high, low] p')
    (hh : hexDigit? high = some upper) (hl : hexDigit? low = some lower) :
    hexEscape p = .ok ([UInt8.ofNat (upper * 16 + lower)], p') := by
  simp only [hexEscape, bind_eq_ok, rest_eq_ok]
  refine ⟨_, _, ⟨rfl, rfl⟩, ?_⟩
  simp only [hp.rest, List.cons_append, List.nil_append, List.take_succ_cons, List.take_zero, List.map_cons,
    List.map_nil, hh, hl, bind_eq_ok, advance_eq_ok, pure_eq_ok]
  exact ⟨(), _, rfl, trivial, hp.advance⟩

theorem decimalEscape_of_passes {run : Bytes} (hp : p.Passes run p') (hd : ∀ b ∈ run, isDigit b)
    (hlen : run.length ≤ 3) (hend : run.length = 3 ∨ ∀ b ∈ p'.rest.head?, ¬ isDigit b)
    (hmax : digitsValue 10 run ≤ 255) : decimalEscape p = .ok ([UInt8.ofNat (digitsValue 10 run)], p') := by
  have hrun : (p.rest.take 3).takeWhile isDigit = run := by
    rw [hp.rest]
    exact takeWhile_take_three hd hlen hend
  simp only [decimalEscape, bind_eq_ok, rest_eq_ok, ite_fail_eq_ok, advance_eq_ok, pure_eq_ok]
  refine ⟨_, _, ⟨rfl, rfl⟩, ?_⟩
  rw [hrun]
  exact ⟨Nat.not_lt.mpr hmax, (), _, rfl, rfl, hp.advance⟩

theorem not_isHexDigit_closeBrace : ¬ isHexDigit closeBrace := by decide

theorem codePointEscape_of_passes {run : Bytes}
    (hp : p.Passes (openBrace :: run ++ [closeBrace]) p') (hd : ∀ b ∈ run, isHexDigit b) (hne : run ≠ [])
    (hmax : digitsValue 16 run ≤ CodePoint.max) :
    codePointEscape p = .ok (CodePoint.encode (digitsValue 16 run), p') := by
  have hopen := hp.head
  obtain ⟨hrun, hclose⟩ := hp.tail.split
  have hnext : ∀ b ∈ ((p.advance 1).advance run.length).rest.head?, ¬ isHexDigit b := by
    rw [hclose.head]
    intro b hb
    cases hb
    exact not_isHexDigit_closeBrace
  simp only [codePointEscape_eq, bind_eq_ok, rest_eq_ok, ite_fail_eq_ok, advance_eq_ok, get_eq_ok,
    ite_failAt_eq_ok, pure_eq_ok]
  refine ⟨_, _, ⟨rfl, rfl⟩, by simp [hopen], (), _, rfl, _, _, ⟨rfl, rfl⟩, run, _,
    digits_of_passes hrun hd hne hnext, Nat.not_lt.mpr hmax, _, _, ⟨rfl, rfl⟩, ?_, (), _, rfl, rfl, hclose.advance⟩
  simp [hclose.head]

/-- Whatever has the form of an escape sequence in front of what follows it is scanned as
one. -/
theorem escape_of_spelling {text : Bytes} (ht : EscapeSpelling text value p'.rest) (hp : p.Passes text p') :
    escape p = .ok (value, p') := by
  have hstart {b : UInt8} {others : Bytes} (hp : p.Passes (b :: others) p') :
      p.rest = b :: (others ++ p'.rest) := hp.rest
  simp only [escape, bind_eq_ok, rest_eq_ok]
  refine ⟨_, _, ⟨rfl, rfl⟩, ?_⟩
  cases ht with
  | simple h =>
    simp only [hstart hp, h, bind_eq_ok, advance_eq_ok, pure_eq_ok]
    exact ⟨(), _, rfl, trivial, hp.advance⟩
  | lineBreak hne h =>
    obtain ⟨b, others, rfl⟩ := List.exists_cons_of_ne_nil hne
    have hlength : lineBreakLength (b :: (others ++ p'.rest)) = (b :: others).length := h
    have hpos : 0 < lineBreakLength (b :: (others ++ p'.rest)) := hlength ▸ Nat.succ_pos _
    have hb := isLineBreak_of_pos hpos
    simp only [hstart hp, simpleEscapes_lineBreak hb, hb, if_true, bind_eq_ok, advance_eq_ok, pure_eq_ok]
    exact ⟨(), _, rfl, trivial, by rw [hlength, hp.advance]⟩
  | skip h hend =>
    simp only [hstart hp, (by decide : simpleEscapes.lookup 'z'.toUInt8 = none),
      (by decide : isLineBreak 'z'.toUInt8 = false), bind_eq_ok, advance_eq_ok, pure_eq_ok, beq_self_eq_true,
      if_true, Bool.false_eq_true, if_false]
    exact ⟨(), _, rfl, _, _, takeWhile_of_passes hp.tail h hend, trivial, rfl⟩
  | hexadecimal hh hl =>
    simp only [hstart hp, (by decide : simpleEscapes.lookup 'x'.toUInt8 = none),
      (by decide : isLineBreak 'x'.toUInt8 = false), (by decide : ('x'.toUInt8 == 'z'.toUInt8) = false),
      bind_eq_ok, advance_eq_ok, beq_self_eq_true, if_true, Bool.false_eq_true, if_false]
    exact ⟨(), _, rfl, hexEscape_of_passes hp.tail hh hl⟩
  | codePoint hd hn hmax =>
    simp only [hstart hp, (by decide : simpleEscapes.lookup 'u'.toUInt8 = none),
      (by decide : isLineBreak 'u'.toUInt8 = false), (by decide : ('u'.toUInt8 == 'z'.toUInt8) = false),
      (by decide : ('u'.toUInt8 == 'x'.toUInt8) = false), bind_eq_ok, advance_eq_ok, beq_self_eq_true, if_true,
      Bool.false_eq_true, if_false]
    exact ⟨(), _, rfl, codePointEscape_of_passes hp.tail hd hn hmax⟩
  | decimal hd hn hlen hend hmax =>
    obtain ⟨b, others, rfl⟩ := List.exists_cons_of_ne_nil hn
    have hdigit := hd b List.mem_cons_self
    obtain ⟨hlookup, hbreak, hz, hx, hu⟩ := simpleEscapes_digit hdigit
    simp only [hstart hp, hlookup, hbreak, beq_iff_eq, hz, hx, hu, hdigit, if_true, Bool.false_eq_true, if_false]
    exact decimalEscape_of_passes hp hd hlen hend hmax

/-- The items of a quoted string are scanned one after the other, up to the closing quote. -/
theorem quotedSteps_of_spelling {quote : UInt8} {text : Bytes} (decoded : Bytes) (hq : quote ≠ '\\'.toUInt8)
    (ht : QuotedSpelling quote text value) (hp : p.Passes text p') :
    ∃ e, Steps (Next (quotedStep quote)) decoded p (value.reverse ++ decoded) e ∧ e.Passes [quote] p' := by
  induction ht generalizing p decoded with
  | close => exact ⟨p, .refl, hp⟩
  | @plain b text value hne hb hl ht ih =>
    obtain ⟨e, hsteps, he⟩ := ih (b :: decoded) hp.tail
    refine ⟨e, .cons (quotedStep_eq_some.mpr ⟨[b], ?_, rfl⟩) (by simpa using hsteps), he⟩
    have hrest : p.rest = b :: (text ++ p'.rest) := hp.rest
    simp only [quotedItem, bind_eq_ok, rest_eq_ok]
    refine ⟨_, _, ⟨rfl, rfl⟩, ?_⟩
    simp only [hrest, beq_iff_eq, hne, if_false, hl, Bool.false_eq_true, bind_eq_ok, advance_eq_ok, hb]
    exact ⟨(), _, rfl, pure_eq_ok.mpr ⟨rfl, rfl⟩⟩
  | @escape escaped bytes text value he ht ih =>
    have hp' : p.Passes ('\\'.toUInt8 :: (escaped ++ text)) p' := hp
    obtain ⟨hescaped, htext⟩ := hp'.tail.split
    obtain ⟨e, hsteps, hend⟩ := ih (bytes.reverse ++ decoded) htext
    refine ⟨e, .cons (quotedStep_eq_some.mpr ⟨bytes, ?_, rfl⟩) (by simpa using hsteps), hend⟩
    have hrest : p.rest = '\\'.toUInt8 :: (escaped ++ text ++ p'.rest) := hp'.rest
    simp only [quotedItem, bind_eq_ok, rest_eq_ok]
    refine ⟨_, _, ⟨rfl, rfl⟩, ?_⟩
    simp only [hrest, beq_iff_eq, hq.symm, if_false, (by decide : isLineBreak '\\'.toUInt8 = false),
      Bool.false_eq_true, bind_eq_ok, advance_eq_ok, if_true, map_eq_ok, Option.some.injEq, exists_eq_right]
    refine ⟨(), _, rfl, escape_of_spelling ?_ hescaped⟩
    rw [htext.rest]
    exact he.append ht.ne_nil _

theorem quoted_of_spelling {quote : UInt8} {text : Bytes} (hq : quote ≠ '\\'.toUInt8)
    (ht : QuotedSpelling quote text value) (hp : p.Passes (quote :: text) p') :
    quoted quote p = .ok (value, p') := by
  obtain ⟨e, hsteps, he⟩ := quotedSteps_of_spelling [] hq ht hp.tail
  have hitems : quotedItems quote (p.advance 1) = .ok (value, e) := by
    change (iterate (quotedStep quote) [] >>= fun decoded => pure decoded.reverse) (p.advance 1) = _
    simp only [bind_eq_ok, pure_eq_ok, iterate_eq_ok (steady_quotedStep quote)]
    exact ⟨_, _, ⟨hsteps, quotedStep_eq_none.mpr ⟨he.head, rfl⟩⟩, by simp, rfl⟩
  simp only [quoted, bind_eq_ok, advance_eq_ok, pure_eq_ok]
  exact ⟨(), _, rfl, value, e, hitems, (), _, rfl, rfl, he.advance⟩

theorem string_of_spelling {text : Bytes} (ht : StringSpelling text value) (hp : p.Passes text p') :
    string p = .ok (some value, p') := by
  simp only [string, bind_eq_ok, rest_eq_ok]
  refine ⟨_, _, ⟨rfl, rfl⟩, ?_⟩
  cases ht with
  | @quoted quote text _ hq h =>
    have hslash : quote ≠ '\\'.toUInt8 := by rcases hq with rfl | rfl <;> decide
    simp only [hp.head, Bool.or_eq_true, beq_iff_eq, hq, if_true, map_eq_ok, Option.some.injEq, exists_eq_right]
    exact quoted_of_spelling hslash h hp
  | longBracket h =>
    have hopen : p.rest.head? = some '['.toUInt8 := by
      cases h
      exact hp.rest ▸ rfl
    simp only [hopen, (by decide : ('['.toUInt8 == '"'.toUInt8 || '['.toUInt8 == '\''.toUInt8) = false),
      Bool.false_eq_true, if_false]
    exact longBracket_of_spelling h hp

end Scan

end LuaSyntax
