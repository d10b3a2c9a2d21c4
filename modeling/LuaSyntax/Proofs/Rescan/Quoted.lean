import LuaSyntax.Proofs.Outcome.Failure
import LuaSyntax.Proofs.Rescan.String

/-! # Quoted strings exactly

A quoted string is a sequence of items. Where the items before the next one are complete, the next one is
complete as well, or the closing quote stands there, or it is broken and the string fails in it.
-/
namespace LuaSyntax

/-- What follows a backslash and begins no escape sequence, the label of what is wrong with it, and how far
on that is. -/
inductive BrokenEscape : Bytes → Label → Nat → Prop
  | ended : BrokenEscape [] .escape 0
  | unknown {b : UInt8} {tail : Bytes} (hs : simpleEscapes.lookup b = none) (hl : ¬ isLineBreak b)
      (hd : ¬ isDigit b) (hb : b ∉ ['z'.toUInt8, 'x'.toUInt8, 'u'.toUInt8]) : BrokenEscape (b :: tail) .escape 0
  | hexadecimal {tail : Bytes} (h : ∀ high low next, tail = high :: low :: next → ¬ (isHexDigit high ∧ isHexDigit low)) :
      BrokenEscape ('x'.toUInt8 :: tail) .hexEscape 1
  | decimal {digits next : Bytes} (hd : ∀ b ∈ digits, isDigit b) (hne : digits ≠ []) (hlen : digits.length ≤ 3)
      (hend : digits.length = 3 ∨ ∀ b ∈ next.head?, ¬ isDigit b) (hmax : 255 < digitsValue 10 digits) :
      BrokenEscape (digits ++ next) .decimalEscape 0
  | codePointOpen {tail : Bytes} (h : tail.head? ≠ some openBrace) :
      BrokenEscape ('u'.toUInt8 :: tail) .codePointOpen 1
  | codePointDigit {tail : Bytes} (h : ∀ b ∈ tail.head?, ¬ isHexDigit b) :
      BrokenEscape ('u'.toUInt8 :: openBrace :: tail) .codePointDigit 2
  | codePointTooLarge {digits next : Bytes} (hd : ∀ b ∈ digits, isHexDigit b)
      (hend : ∀ b ∈ next.head?, ¬ isHexDigit b) (hmax : CodePoint.max < digitsValue 16 digits) :
      BrokenEscape ('u'.toUInt8 :: openBrace :: (digits ++ next)) .codePointTooLarge 2
  | codePointClose {digits next : Bytes} (hd : ∀ b ∈ digits, isHexDigit b) (hne : digits ≠ [])
      (hend : ∀ b ∈ next.head?, ¬ isHexDigit b) (hmax : digitsValue 16 digits ≤ CodePoint.max)
      (hclose : next.head? ≠ some closeBrace) :
      BrokenEscape ('u'.toUInt8 :: openBrace :: (digits ++ next)) .codePointClose (2 + digits.length)

/-- One item of a quoted string in front of what follows it, and the bytes it stands for. -/
inductive QuotedItem (quote : UInt8) (next : Bytes) : Bytes → Bytes → Prop
  | plain {b : UInt8} (hq : b ≠ quote) (hb : b ≠ '\\'.toUInt8) (hl : ¬ isLineBreak b) : QuotedItem quote next [b] [b]
  | escape {text value : Bytes} (h : EscapeSpelling text value next) : QuotedItem quote next ('\\'.toUInt8 :: text) value

/-- Items of a quoted string one after another, and the bytes they stand for. -/
inductive QuotedItems (quote : UInt8) (next : Bytes) : Bytes → Bytes → Prop
  | nil : QuotedItems quote next [] []
  | cons {item bytes text value : Bytes} (hi : QuotedItem quote (text ++ next) item bytes)
      (h : QuotedItems quote next text value) : QuotedItems quote next (item ++ text) (bytes ++ value)

/-- What begins no item of a quoted string and does not close it, with the label of what is wrong with it,
and how far on that is. -/
inductive BrokenItem : Bytes → Label → Nat → Prop
  | ended : BrokenItem [] .stringClose 0
  | lineBreak {b : UInt8} {tail : Bytes} (h : isLineBreak b) : BrokenItem (b :: tail) .stringClose 0
  | escape {rest : Bytes} {label : Label} {count : Nat} (h : BrokenEscape rest label count) :
      BrokenItem ('\\'.toUInt8 :: rest) label (count + 1)

variable {p p' : Place} {value : Bytes} {quote : UInt8} {e : Failure}

section Escapes

/-- Bytes begin with a run of a class and go on with something that is not of it. -/
theorem exists_run (q : UInt8 → Bool) (bytes : Bytes) :
    ∃ run next, bytes = run ++ next ∧ (∀ b ∈ run, q b) ∧ ∀ b ∈ next.head?, ¬ q b :=
  ⟨bytes.takeWhile q, bytes.drop (bytes.takeWhile q).length,
    (List.prefix_iff_eq_append.mp (List.takeWhile_prefix _)).symm, fun _ => List.mem_takeWhile_imp, Scan.head_drop_takeWhile q bytes⟩

/-- What follows the letter of an escape sequence for a code point completes it or is broken. -/
theorem codePoint_or_broken (tail : Bytes) :
    (∃ text value next, tail = text ++ next ∧ EscapeSpelling ('u'.toUInt8 :: text) value next) ∨
      ∃ label count, BrokenEscape ('u'.toUInt8 :: tail) label count := by
  by_cases hopen : tail.head? = some openBrace
  case neg => exact .inr ⟨_, _, .codePointOpen hopen⟩
  obtain ⟨inner, rfl⟩ := List.head?_eq_some_iff.mp hopen
  obtain ⟨digits, next, rfl, hd, hend⟩ := exists_run isHexDigit inner
  by_cases hne : digits = []
  · subst hne
    exact .inr ⟨_, _, .codePointDigit hend⟩
  by_cases hmax : digitsValue 16 digits ≤ CodePoint.max
  case neg => exact .inr ⟨_, _, .codePointTooLarge hd hend (Nat.lt_of_not_le hmax)⟩
  by_cases hclose : next.head? = some closeBrace
  case neg => exact .inr ⟨_, _, .codePointClose hd hne hend hmax hclose⟩
  obtain ⟨after, rfl⟩ := List.head?_eq_some_iff.mp hclose
  refine .inl ⟨openBrace :: digits ++ [closeBrace], _, after, ?_, .codePoint hd hne hmax⟩
  simp only [List.cons_append, List.append_assoc, List.nil_append]

theorem decimal_or_broken {b : UInt8} {tail : Bytes} (hb : isDigit b) :
    (∃ text value next, b :: tail = text ++ next ∧ EscapeSpelling text value next) ∨
      ∃ label count, BrokenEscape (b :: tail) label count := by
  have hprefix := (List.takeWhile_prefix isDigit).trans (List.take_prefix 3 (b :: tail))
  have hmaximal := Scan.takeWhile_take_maximal isDigit 3 (b :: tail)
  have hne : ((b :: tail).take 3).takeWhile isDigit ≠ [] := by
    rw [List.take_succ_cons, List.takeWhile_cons_of_pos hb]
    exact List.cons_ne_nil _ _
  have hlen : (((b :: tail).take 3).takeWhile isDigit).length ≤ 3 :=
    Nat.le_trans (List.takeWhile_prefix _).length_le (List.length_take_le _ _)
  have hd : ∀ c ∈ ((b :: tail).take 3).takeWhile isDigit, isDigit c := fun _ => List.mem_takeWhile_imp
  have hcut := List.prefix_iff_eq_append.mp hprefix
  generalize ((b :: tail).take 3).takeWhile isDigit = digits at *
  by_cases hmax : digitsValue 10 digits ≤ 255
  · exact .inl ⟨digits, _, _, hcut.symm, .decimal hd hne hlen hmaximal hmax⟩
  · rw [← hcut]
    exact .inr ⟨_, _, .decimal hd hne hlen hmaximal (Nat.lt_of_not_le hmax)⟩

theorem escape_or_broken (rest : Bytes) :
    (∃ text value next, rest = text ++ next ∧ EscapeSpelling text value next) ∨ ∃ label count, BrokenEscape rest label count := by
  cases rest with
  | nil => exact .inr ⟨_, _, .ended⟩
  | cons b tail =>
    cases hs : simpleEscapes.lookup b with
    | some value => exact .inl ⟨[b], _, tail, rfl, .simple hs⟩
    | none =>
      by_cases hl : isLineBreak b
      · have hlen := lineBreakLength_le (b :: tail)
        have hpos : 0 < lineBreakLength (b :: tail) := Scan.lineBreakLength_pos hl
        refine .inl ⟨(b :: tail).take (lineBreakLength (b :: tail)), _, (b :: tail).drop (lineBreakLength (b :: tail)),
          (List.take_append_drop _ _).symm, .lineBreak (fun hnil => ?_) ?_⟩
        · have hzero := congrArg List.length hnil
          rw [List.length_take_of_le hlen] at hzero
          exact Nat.ne_of_gt hpos hzero
        · rw [List.take_append_drop, List.length_take_of_le hlen]
      by_cases hd : isDigit b
      · exact decimal_or_broken hd
      by_cases hletter : b ∈ ['z'.toUInt8, 'x'.toUInt8, 'u'.toUInt8]
      case neg => exact .inr ⟨_, _, .unknown hs hl hd hletter⟩
      simp only [List.mem_cons, List.not_mem_nil, or_false] at hletter
      rcases hletter with rfl | rfl | rfl
      · obtain ⟨spaces, next, rfl, hspaces, hend⟩ := exists_run isSpace tail
        exact .inl ⟨_ :: spaces, _, next, rfl, .skip hspaces hend⟩
      · by_cases h : ∃ high low next, tail = high :: low :: next ∧ isHexDigit high ∧ isHexDigit low
        · obtain ⟨high, low, next, rfl, hhigh, hlow⟩ := h
          obtain ⟨upper, hupper⟩ := Option.isSome_iff_exists.mp hhigh
          obtain ⟨lower, hlower⟩ := Option.isSome_iff_exists.mp hlow
          exact .inl ⟨[_, high, low], _, next, rfl, .hexadecimal hupper hlower⟩
        · refine .inr ⟨_, _, .hexadecimal ?_⟩
          rintro high low next rfl hboth
          exact h ⟨high, low, next, rfl, hboth⟩
      · rcases codePoint_or_broken tail with ⟨text, value, next, rfl, h⟩ | h
        · exact .inl ⟨_ :: text, value, next, rfl, h⟩
        · exact .inr h

namespace Scan
variable {offset : Nat} {rest : Bytes} {label : Label} {count : Nat}

theorem hexEscape_of_broken (h : ∀ high low next, rest = high :: low :: next → ¬ (isHexDigit high ∧ isHexDigit low)) :
    hexEscape ⟨rest, offset⟩ = .error (.expected .hexEscape offset) := by
  rw [hexEscape, rest_bind_eq_error]
  rcases rest with _ | ⟨high, _ | ⟨low, next⟩⟩
  · rfl
  · simp only [List.take, List.map]
    cases hexDigit? high <;> rfl
  · have hnot := h high low next rfl
    simp only [List.take, List.map]
    cases hhigh : hexDigit? high with
    | none => rfl
    | some upper =>
      cases hlow : hexDigit? low with
      | none => rfl
      | some lower => exact (hnot ⟨Option.isSome_iff_exists.mpr ⟨_, hhigh⟩, Option.isSome_iff_exists.mpr ⟨_, hlow⟩⟩).elim

theorem codePointEscape_openBrace {tail : Bytes} :
    codePointEscape ⟨openBrace :: tail, offset⟩ = (digits isHexDigit .codePointDigit >>= fun run => do
      if CodePoint.max < digitsValue 16 run then failAt .codePointTooLarge (offset + 1)
      if (← Scan.rest).head? != some closeBrace then fail .codePointClose
      advance 1
      return CodePoint.encode (digitsValue 16 run)) ⟨tail, offset + 1⟩ := by
  rw [codePointEscape_eq]
  rfl

theorem codePointEscape_of_run {digits next : Bytes} {e : Failure} (hd : ∀ b ∈ digits, isHexDigit b) (hne : digits ≠ [])
    (hend : ∀ b ∈ next.head?, ¬ isHexDigit b)
    (h : CodePoint.max < digitsValue 16 digits ∧ e = .expected .codePointTooLarge (offset + 1) ∨
      digitsValue 16 digits ≤ CodePoint.max ∧ next.head? ≠ some closeBrace ∧
        e = .expected .codePointClose (offset + 1 + digits.length)) :
    codePointEscape ⟨openBrace :: (digits ++ next), offset⟩ = .error e := by
  have hp : (⟨digits ++ next, offset + 1⟩ : Place).Passes digits ⟨next, offset + 1 + digits.length⟩ := ⟨rfl, rfl⟩
  rw [codePointEscape_openBrace, bind_eq_error]
  refine .inr ⟨_, _, digits_of_passes hp hd hne hend, ?_⟩
  rw [ite_failAt_eq_error]
  rcases h with h | ⟨hmax, hclose, rfl⟩
  · exact .inl h
  · refine .inr ⟨Nat.not_lt.mpr hmax, ?_⟩
    rw [rest_bind_eq_error, ite_fail_eq_error]
    exact .inl ⟨by simpa using hclose, rfl⟩

theorem escape_of_broken (h : BrokenEscape rest label count) :
    escape ⟨rest, offset⟩ = .error (.expected label (offset + count)) := by
  cases h with
  | ended => rfl
  | unknown hs hl hd hb =>
    simp only [List.mem_cons, List.not_mem_nil, or_false, not_or] at hb
    rw [escape, rest_bind_eq_error]
    simp only [hs, hl, hd, beq_iff_eq, hb, if_false, Bool.false_eq_true]
    rfl
  | hexadecimal h => exact hexEscape_of_broken h
  | @decimal digits next hd hne hlen hend hmax =>
    obtain ⟨b, others, rfl⟩ := List.exists_cons_of_ne_nil hne
    have hdigit := hd b List.mem_cons_self
    obtain ⟨hlookup, hbreak, hz, hx, hu⟩ := simpleEscapes_digit hdigit
    have hrun := takeWhile_take_three hd hlen hend
    rw [escape, rest_bind_eq_error]
    simp only [List.cons_append, hlookup, hbreak, beq_iff_eq, hz, hx, hu, hdigit, if_true, Bool.false_eq_true, if_false]
    rw [decimalEscape, rest_bind_eq_error, ite_fail_eq_error]
    exact .inl ⟨hrun.symm ▸ hmax, rfl⟩
  | codePointOpen h =>
    refine (?_ : codePointEscape _ = _)
    rw [codePointEscape_eq, rest_bind_eq_error, ite_fail_eq_error]
    exact .inl ⟨bne_iff_ne.mpr h, rfl⟩
  | @codePointDigit tail h =>
    refine codePointEscape_openBrace.trans (bind_eq_error.mpr (.inl (digits_eq_error.mpr ⟨?_, rfl⟩)))
    cases tail with
    | nil => rfl
    | cons b tail => exact List.takeWhile_cons_of_neg (h b rfl)
  | @codePointTooLarge digits next hd hend hmax =>
    have hne : digits ≠ [] := by
      rintro rfl
      exact Nat.not_lt_zero _ hmax
    exact codePointEscape_of_run hd hne hend (.inl ⟨hmax, rfl⟩)
  | codePointClose hd hne hend hmax hclose =>
    refine codePointEscape_of_run hd hne hend (.inr ⟨hmax, hclose, ?_⟩)
    rw [← Nat.add_assoc]

end Scan

end Escapes

section Items
variable {rest next item bytes text : Bytes} {label : Label} {count offset : Nat}

theorem QuotedItem.ne_nil (h : QuotedItem quote next item bytes) : item ≠ [] := by
  cases h <;> exact List.cons_ne_nil _ _

/-- Bytes begin with the closing quote, with an item, or with something broken. -/
theorem item_or_broken (quote : UInt8) (rest : Bytes) :
    rest.head? = some quote ∨ (∃ item bytes next, rest = item ++ next ∧ QuotedItem quote next item bytes) ∨
      ∃ label count, BrokenItem rest label count := by
  cases rest with
  | nil => exact .inr (.inr ⟨_, _, .ended⟩)
  | cons b tail =>
    by_cases hq : b = quote
    · exact .inl (congrArg some hq)
    by_cases hl : isLineBreak b
    · exact .inr (.inr ⟨_, _, .lineBreak hl⟩)
    by_cases hb : b = '\\'.toUInt8
    · subst hb
      rcases escape_or_broken tail with ⟨text, value, next, rfl, h⟩ | ⟨label, count, h⟩
      · exact .inr (.inl ⟨_ :: text, value, next, rfl, .escape h⟩)
      · exact .inr (.inr ⟨label, count + 1, .escape h⟩)
    · exact .inr (.inl ⟨[b], [b], tail, rfl, .plain hq hb hl⟩)

theorem items_or_broken (quote : UInt8) (rest : Bytes) :
    ∃ text value next, rest = text ++ next ∧ QuotedItems quote next text value ∧
      (next.head? = some quote ∨ ∃ label count, BrokenItem next label count) := by
  rcases item_or_broken quote rest with hend | ⟨item, bytes, tail, hcut, hitem⟩ | hbroken
  · exact ⟨[], [], rest, rfl, .nil, .inl hend⟩
  · obtain ⟨text, value, next, rfl, hitems, hnext⟩ := items_or_broken quote tail
    refine ⟨item ++ text, bytes ++ value, next, ?_, .cons hitem hitems, hnext⟩
    rw [hcut, List.append_assoc]
  · exact ⟨[], [], rest, rfl, .nil, .inr hbroken⟩
termination_by rest.length
decreasing_by
  have hpos := List.length_pos_iff.mpr hitem.ne_nil
  rw [hcut, List.length_append]
  omega

theorem QuotedItems.spelling {tail : Bytes} (h : QuotedItems quote (quote :: tail) text value) :
    QuotedSpelling quote (text ++ [quote]) value := by
  induction h with
  | nil => exact .close
  | @cons item bytes text value hi _ ih =>
    cases hi with
    | plain hq hb hl => exact .plain hq hb hl ih
    | escape he =>
      have hcut : text ++ quote :: tail = (text ++ [quote]) ++ tail := by rw [List.append_assoc, List.singleton_append]
      rw [hcut] at he
      have hspelling := QuotedSpelling.escape (he.of_append ih.ne_nil) ih
      simpa only [List.cons_append, List.append_assoc] using hspelling

namespace Scan

theorem quotedItem_of_item (hq : quote ≠ '\\'.toUInt8) (h : QuotedItem quote next item bytes) :
    quotedItem quote ⟨item ++ next, offset⟩ = .ok (some bytes, ⟨next, offset + item.length⟩) := by
  have hp : (⟨item ++ next, offset⟩ : Place).Passes item ⟨next, offset + item.length⟩ := ⟨rfl, rfl⟩
  simp only [quotedItem, bind_eq_ok, rest_eq_ok]
  refine ⟨_, _, ⟨rfl, rfl⟩, ?_⟩
  cases h with
  | plain hne hb hl =>
    simp only [List.cons_append, beq_iff_eq, hne, if_false, hl, Bool.false_eq_true, bind_eq_ok, advance_eq_ok, hb]
    exact ⟨(), _, rfl, pure_eq_ok.mpr ⟨rfl, rfl⟩⟩
  | escape he =>
    simp only [List.cons_append, beq_iff_eq, hq.symm, if_false, (by decide : isLineBreak '\\'.toUInt8 = false),
      Bool.false_eq_true, bind_eq_ok, advance_eq_ok, if_true, map_eq_ok, Option.some.injEq, exists_eq_right]
    exact ⟨(), _, rfl, escape_of_spelling he hp.tail⟩

theorem quotedItem_of_broken (hq : quote ≠ '\\'.toUInt8) (hl : ¬ isLineBreak quote) (h : BrokenItem rest label count) :
    quotedItem quote ⟨rest, offset⟩ = .error (.expected label (offset + count)) := by
  rw [quotedItem, rest_bind_eq_error]
  cases h with
  | ended => rfl
  | @lineBreak b tail hb =>
    have hne : b ≠ quote := fun heq => hl (heq ▸ hb)
    simp only [beq_iff_eq, hne, if_false, hb, if_true]
    rfl
  | escape he =>
    simp only [beq_iff_eq, hq.symm, if_false, (by decide : isLineBreak '\\'.toUInt8 = false), Bool.false_eq_true,
      if_true, advance_bind_eq_error, map_eq_error]
    rw [Nat.add_comm _ 1, ← Nat.add_assoc]
    exact escape_of_broken he

theorem quotedSteps_of_items (hq : quote ≠ '\\'.toUInt8) (h : QuotedItems quote next text value) (decoded : Bytes)
    (offset : Nat) :
    Steps (Next (quotedStep quote)) decoded ⟨text ++ next, offset⟩ (value.reverse ++ decoded) ⟨next, offset + text.length⟩ := by
  induction h generalizing decoded offset with
  | nil => exact .refl
  | @cons item bytes text value hi _ ih =>
    have hitem := @quotedItem_of_item _ _ _ _ offset hq hi
    have hrest := ih (bytes.reverse ++ decoded) (offset + item.length)
    rw [List.reverse_append, List.append_assoc, List.append_assoc, List.length_append, ← Nat.add_assoc]
    exact .cons (quotedStep_eq_some.mpr ⟨bytes, hitem, rfl⟩) hrest

theorem string_of_broken (hq : quote = '"'.toUInt8 ∨ quote = '\''.toUInt8) (h : QuotedItems quote rest text value)
    (hb : BrokenItem rest label count) :
    string ⟨quote :: (text ++ rest), offset⟩ = .error (.expected label (offset + 1 + text.length + count)) := by
  have hslash : quote ≠ '\\'.toUInt8 := by rcases hq with rfl | rfl <;> decide
  have hline : ¬ isLineBreak quote := by rcases hq with rfl | rfl <;> decide
  have hstep : quotedStep quote (value.reverse ++ []) ⟨rest, offset + 1 + text.length⟩ =
      .error (.expected label (offset + 1 + text.length + count)) :=
    bind_eq_error.mpr (.inl (quotedItem_of_broken hslash hline hb))
  have hloop := iterate_of_error (steady_quotedStep quote) (quotedSteps_of_items hslash h [] (offset + 1)) hstep
  have hquote : (quote == '"'.toUInt8 || quote == '\''.toUInt8) = true := by simpa using hq
  rw [string, rest_bind_eq_error]
  simp only [List.head?_cons, hquote, if_true, map_eq_error, quoted, advance_bind_eq_error]
  exact bind_eq_error.mpr (.inl (bind_eq_error.mpr (.inl hloop)))

theorem string_of_items {tail : Bytes} (hq : quote = '"'.toUInt8 ∨ quote = '\''.toUInt8)
    (h : QuotedItems quote (quote :: tail) text value) :
    string ⟨quote :: (text ++ quote :: tail), offset⟩ = .ok (some value, ⟨tail, offset + 1 + text.length + 1⟩) := by
  refine string_of_spelling (.quoted hq h.spelling) ⟨?_, ?_⟩
  · rw [List.cons_append, List.append_assoc, List.singleton_append]
  · simp only [List.length_cons, List.length_append, List.length_nil]
    omega

end Scan

end Items

open Rule in
/-- At a quote, a string is scanned exactly if items follow and the same quote closes them. Its value is that
of the items one after another, and its token runs from quote to quote. Otherwise the string fails in the
first item that cannot be completed. -/
theorem Scan.string_exact (hq : quote = '"'.toUInt8 ∨ quote = '\''.toUInt8) (inner : Bytes) (offset : Nat) :
    (∀ found p', string ⟨quote :: inner, offset⟩ = .ok (found, p') ↔
      ∃ text value tail, inner = text ++ quote :: tail ∧ QuotedItems quote (quote :: tail) text value ∧
        found = some value ∧ p' = ⟨tail, offset + 1 + text.length + 1⟩) ∧
    (∀ e, string ⟨quote :: inner, offset⟩ = .error e ↔
      ∃ text value rest label count, inner = text ++ rest ∧ QuotedItems quote rest text value ∧
        BrokenItem rest label count ∧ e = .expected label (offset + 1 + text.length + count)) ∧
    ∀ lastEnd value span c', token string ⟨⟨quote :: inner, offset⟩, lastEnd⟩ = .ok (some (value, span)) c' →
      ∃ text tail, inner = text ++ quote :: tail ∧ QuotedItems quote (quote :: tail) text value ∧
        span = ⟨offset + 1, offset + 1 + text.length + 1⟩ := by
  have hok : ∀ found p', string ⟨quote :: inner, offset⟩ = .ok (found, p') →
      ∃ text value tail, inner = text ++ quote :: tail ∧ QuotedItems quote (quote :: tail) text value ∧
        found = some value ∧ p' = ⟨tail, offset + 1 + text.length + 1⟩ := by
    intro found p' h
    obtain ⟨text, value, next, rfl, hitems, hnext⟩ := items_or_broken quote inner
    rcases hnext with hend | ⟨label, count, hbroken⟩
    · obtain ⟨tail, rfl⟩ := List.head?_eq_some_iff.mp hend
      cases (string_of_items hq hitems).symm.trans h
      exact ⟨text, value, tail, rfl, hitems, rfl, rfl⟩
    · exact nomatch (string_of_broken hq hitems hbroken).symm.trans h
  refine ⟨fun found p' => ⟨hok found p', ?_⟩, fun e => ⟨fun h => ?_, ?_⟩, fun lastEnd value span c' h => ?_⟩
  · rintro ⟨text, value, tail, rfl, hitems, rfl, rfl⟩
    exact string_of_items hq hitems
  · obtain ⟨text, value, next, rfl, hitems, hnext⟩ := items_or_broken quote inner
    rcases hnext with hend | ⟨label, count, hbroken⟩
    · obtain ⟨tail, rfl⟩ := List.head?_eq_some_iff.mp hend
      exact nomatch (string_of_items hq hitems).symm.trans h
    · cases (string_of_broken hq hitems hbroken).symm.trans h
      exact ⟨text, value, next, label, count, rfl, hitems, hbroken, rfl⟩
  · rintro ⟨text, value, rest, label, count, rfl, hitems, hbroken, rfl⟩
    exact string_of_broken hq hitems hbroken
  · obtain ⟨place, hscan, rfl, -⟩ := token_eq_some.mp h
    obtain ⟨text, _, tail, hinner, hitems, hfound, rfl⟩ := hok _ _ hscan
    obtain rfl := Option.some.inj hfound
    exact ⟨text, tail, hinner, hitems, rfl⟩

/-- A string with one escape sequence, and one of which the escape sequence is too large for a byte. -/
theorem Scan.string_decimal :
    string ⟨Bytes.ofString "'\\65'", 0⟩ = .ok (some [0x41], ⟨[], 5⟩) ∧
      string ⟨Bytes.ofString "'\\300'", 0⟩ = .error (.expected .decimalEscape 2) := by
  have hdigits : ∀ b ∈ ['6'.toUInt8, '5'.toUInt8], isDigit b := by decide +kernel
  have hitem : QuotedItem '\''.toUInt8 ['\''.toUInt8] ('\\'.toUInt8 :: ['6'.toUInt8, '5'.toUInt8]) [0x41] :=
    .escape (.decimal hdigits (List.cons_ne_nil _ _) (by decide) (.inr (by decide +kernel)) (by decide))
  have hlarge : ∀ b ∈ ['3'.toUInt8, '0'.toUInt8, '0'.toUInt8], isDigit b := by decide +kernel
  have hbroken : BrokenEscape (['3'.toUInt8, '0'.toUInt8, '0'.toUInt8] ++ ['\''.toUInt8]) .decimalEscape 0 :=
    .decimal hlarge (List.cons_ne_nil _ _) (by decide) (.inl rfl) (by decide)
  constructor
  · exact ((string_exact (.inr rfl) _ 0).1 _ _).mpr ⟨_, _, [], by decide, .cons hitem .nil, rfl, rfl⟩
  · exact ((string_exact (.inr rfl) _ 0).2.1 _).mpr ⟨[], [], _, _, _, by decide, .nil, .escape hbroken, rfl⟩

end LuaSyntax
