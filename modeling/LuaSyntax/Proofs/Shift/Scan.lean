import LuaSyntax.Proofs.Respan
import LuaSyntax.Proofs.Retreat
import LuaSyntax.Proofs.Rescan.Token
import LuaSyntax.Proofs.Rescan.Trivia

/-! # Scans in a larger source

A source becomes part of a larger one: some bytes come before it, and others may come after it if
it ends with a semicolon on a line of its own. A scan goes the same way there as long as something
of the source is left behind it, because no token is longer than a semicolon lets it be.
-/
namespace LuaSyntax
variable {α β : Type}

/-- A source in a larger one, with the number of bytes before it and the bytes after it. -/
structure Shift where
  whole : Bytes
  ahead : Nat
  tail : Bytes
  ends : tail = [] ∨ [lineFeed, semicolon] <:+ whole

namespace Shift
variable (x : Shift)

def place (p : Place) : Place := ⟨p.rest ++ x.tail, p.offset + x.ahead⟩

def cursor (c : Cursor) : Cursor := ⟨x.place c.toPlace, c.lastEnd + x.ahead⟩

def span (old : Span) : Span := ⟨old.pos + x.ahead, old.endPos + x.ahead⟩

def node (v : Node) : Node := v.respan x.span

def failure : Failure → Failure
  | .expected label offset => .expected label (offset + x.ahead)
  | .tooDeep offset => .tooDeep (offset + x.ahead)

/-- The end of the source, with something of it left if anything comes after it. -/
structure Leaves (rest : Bytes) : Prop where
  part : rest <:+ x.whole
  room : x.tail = [] ∨ rest ≠ []

variable {x} {p p' : Place} {rest : Bytes}

theorem Leaves.before (h : x.Leaves p'.rest) (hle : p ≤ p') (hp : p.rest <:+ x.whole) : x.Leaves p.rest := by
  obtain ⟨bytes, hpasses⟩ := hle
  refine ⟨hp, h.room.imp_right fun hne hnil => hne ?_⟩
  rw [hpasses.rest] at hnil
  exact (List.append_eq_nil_iff.mp hnil).2

/-- What is left ends with the semicolon. -/
theorem Leaves.semicolon (h : x.Leaves rest) : x.tail = [] ∨ ∃ front, rest = front ++ [semicolon] := by
  rcases h.room with htail | hne
  · exact .inl htail
  · refine x.ends.imp_right fun hends => ?_
    have hlast : [LuaSyntax.semicolon] <:+ x.whole := (List.suffix_cons lineFeed _).trans hends
    have hpos := List.length_pos_iff.mpr hne
    obtain ⟨front, hfront⟩ := List.suffix_of_suffix_length_le hlast h.part hpos
    exact ⟨front, hfront.symm⟩

/-- The byte after what has been read is the same. -/
theorem Leaves.head (h : x.Leaves rest) : (rest ++ x.tail).head? = rest.head? := by
  rcases h.room with htail | hne
  · rw [htail, List.append_nil]
  · obtain ⟨b, others, rfl⟩ := List.exists_cons_of_ne_nil hne
    rfl

theorem place_rest (ht : x.tail = []) : (x.place p).rest = p.rest := by rw [place, ht, List.append_nil]

theorem place_advance {count : Nat} (h : x.tail = [] ∨ count ≤ p.rest.length) :
    (x.place p).advance count = x.place (p.advance count) := by
  have hdrop : (p.rest ++ x.tail).drop count = p.rest.drop count ++ x.tail := by
    rcases h with htail | hle
    · rw [htail, List.append_nil, List.append_nil]
    · exact List.drop_append_of_le_length hle
  simp only [place, Place.advance, hdrop, Nat.add_right_comm]

theorem passes {bytes : Bytes} (h : p.Passes bytes p') : (x.place p).Passes bytes (x.place p') where
  rest := by
    simp only [place]
    rw [h.rest, List.append_assoc]
  offset := by
    simp only [place]
    rw [h.offset, Nat.add_right_comm]

end Shift

variable {x : Shift}

section Prefixes
variable {rest : Bytes}

/-- A text that is no shorter than what is left of the source is all of it, or does not stand there. -/
theorem startsWith_all {text front tail : Bytes} {barred : UInt8 → Bool} (ht : semicolon ∉ text.dropLast)
    (hb : semicolon ∈ text → ∀ b, ¬ barred b) (hle : (front ++ [semicolon]).length ≤ text.length) :
    startsWith text barred (front ++ [semicolon] ++ tail) ↔ text = front ++ [semicolon] := by
  rw [startsWith_iff]
  constructor
  · rintro ⟨hp, -⟩
    obtain ⟨more, rfl⟩ := List.prefix_of_prefix_length_le (List.prefix_append _ _) hp hle
    by_cases hmore : more = []
    · rw [hmore, List.append_nil]
    · refine (ht ?_).elim
      rw [List.dropLast_append_of_ne_nil hmore]
      simp
  · rintro rfl
    exact ⟨List.prefix_append _ _, fun b _ => hb (by simp) b⟩

/-- A text with no semicolon inside stands where it did. -/
theorem startsWith_shift {text : Bytes} {barred : UInt8 → Bool} (h : x.Leaves rest)
    (ht : semicolon ∉ text.dropLast) (hb : semicolon ∈ text → ∀ b, ¬ barred b) :
    startsWith text barred (rest ++ x.tail) ↔ startsWith text barred rest := by
  rcases h.semicolon with htail | ⟨front, rfl⟩
  · rw [htail, List.append_nil]
  · rcases Nat.lt_or_ge text.length (front ++ [semicolon]).length with hlt | hge
    · exact startsWith_of_front (List.prefix_append _ _) hlt
    · rw [startsWith_all ht hb hge]
      have hall := @startsWith_all text front [] barred ht hb hge
      rw [List.append_nil] at hall
      exact hall.symm

/-- A run of bytes ends inside a source that holds other bytes. -/
theorem takeWhile_append_of_mem {q : UInt8 → Bool} {bytes tail : Bytes} {b : UInt8} (hb : b ∈ bytes) (hq : ¬ q b) :
    (bytes ++ tail).takeWhile q = bytes.takeWhile q := by
  rw [List.takeWhile_append, if_neg]
  intro hlength
  have hall : bytes.takeWhile q = bytes := (List.takeWhile_prefix q).eq_of_length hlength
  exact hq (List.mem_takeWhile_imp (hall ▸ hb))

/-- A run of bytes that are no semicolon is as long as it was. -/
theorem takeWhile_shift {q : UInt8 → Bool} (h : x.Leaves rest) (hq : ¬ q semicolon) :
    (rest ++ x.tail).takeWhile q = rest.takeWhile q := by
  rcases h.semicolon with htail | ⟨front, rfl⟩
  · rw [htail, List.append_nil]
  · exact takeWhile_append_of_mem (by simp) hq

theorem level?_shift (h : x.Leaves rest) : LongBracket.level? (rest ++ x.tail) = LongBracket.level? rest := by
  rcases h.semicolon with htail | ⟨front, rfl⟩
  · rw [htail, List.append_nil]
  · cases front with
    | nil =>
      have hopen : (semicolon == '['.toUInt8) = false := by decide
      simp [LongBracket.level?, hopen]
    | cons b inner =>
      have hequals : ¬ (semicolon == '='.toUInt8) := by decide
      have hmem : semicolon ∈ inner ++ [semicolon] := by simp
      have hrun : (inner ++ [semicolon] ++ x.tail).takeWhile (· == '='.toUInt8) =
          (inner ++ [semicolon]).takeWhile (· == '='.toUInt8) := takeWhile_append_of_mem hmem hequals
      have hlt : ((inner ++ [semicolon]).takeWhile (· == '='.toUInt8)).length < (inner ++ [semicolon]).length := by
        refine Nat.lt_of_le_of_ne (List.takeWhile_prefix _).length_le fun hlength => hequals ?_
        have hall := (List.takeWhile_prefix (· == '='.toUInt8)).eq_of_length hlength
        rw [← hall] at hmem
        exact List.mem_takeWhile_imp (p := (· == '='.toUInt8)) hmem
      have hhead : ((inner ++ [semicolon] ++ x.tail).drop
          ((inner ++ [semicolon]).takeWhile (· == '='.toUInt8)).length).head? =
          ((inner ++ [semicolon]).drop ((inner ++ [semicolon]).takeWhile (· == '='.toUInt8)).length).head? := by
        rw [List.drop_append_of_le_length (Nat.le_of_lt hlt)]
        obtain ⟨c, others, hdrop⟩ := List.exists_cons_of_ne_nil fun hnil =>
          Nat.not_le.mpr hlt (List.drop_eq_nil_iff.mp hnil)
        rw [hdrop]
        rfl
      simp only [List.cons_append, LongBracket.level?, hrun, hhead]

theorem startsTrivium_shift (h : x.Leaves rest) : startsTrivium (rest ++ x.tail) = startsTrivium rest := by
  rcases h.semicolon with htail | ⟨front, rfl⟩
  · rw [htail, List.append_nil]
  · cases front with
    | nil =>
      have hmark : (semicolon == '-'.toUInt8) = false := by decide
      cases x.tail with
      | nil => rfl
      | cons b tail => simp [startsTrivium, startsComment, hmark]
    | cons b inner =>
      cases inner with
      | nil => rfl
      | cons c inner => rfl

end Prefixes

section Tokens
variable {p p' : Place} {rest : Bytes}

/-- A token stands where its text is. -/
theorem Place.Reads.shift {token : Token} (h : p.Reads token p') (hp : p.rest <:+ x.whole)
    (hl : x.Leaves p'.rest) : (x.place p).Reads token (x.place p') := by
  obtain ⟨bytes, hpasses⟩ := Place.le_of_lt h.lt
  have hleaves : x.Leaves p.rest := hl.before ⟨bytes, hpasses⟩ hp
  refine h.elsewhere hpasses (Shift.passes hpasses) (fun b hb => .inl ?_) fun hb => ?_
  · exact hl.head ▸ hb
  · subst hb
    exact (level?_shift hleaves).trans h.bracket

theorem startsHexadecimal_shift (h : x.Leaves rest) :
    startsHexadecimal (rest ++ x.tail) = startsHexadecimal rest := by
  rcases h.semicolon with htail | ⟨front, rfl⟩
  · rw [htail, List.append_nil]
  · have hzero : (semicolon == '0'.toUInt8) = false := by decide
    match front with
    | [] =>
      cases x.tail with
      | nil => rfl
      | cons b tail => simp [startsHexadecimal, hzero]
    | [_] => rfl
    | _ :: _ :: _ => rfl

theorem startsDecimal_shift (h : x.Leaves rest) : startsDecimal (rest ++ x.tail) = startsDecimal rest := by
  rcases h.semicolon with htail | ⟨front, rfl⟩
  · rw [htail, List.append_nil]
  · have hdigit : isDigit semicolon = false := by decide
    have hdot : (semicolon == '.'.toUInt8) = false := by decide
    match front with
    | [] => simp [startsDecimal, hdigit, hdot]
    | [_] => rfl
    | _ :: _ :: _ => rfl

end Tokens

/-! Where nothing comes after the source, a scan does the same in it, failures included. -/

/-- What a scan ends with, in the larger source. -/
def Shift.scanned (x : Shift) : Except Failure (α × Place) → Except Failure (α × Place)
  | .ok (value, place) => .ok (value, x.place place)
  | .error failure => .error (x.failure failure)

/-- A scan of the source becomes another one in the larger source. -/
def Scan.Moves (x : Shift) (scan scan' : Scan α) : Prop := ∀ p, scan' (x.place p) = x.scanned (scan p)

namespace Scan

section Combinators
variable {scan scan' : Scan α} {f f' : α → Scan β}

theorem Moves.bind (h : Moves x scan scan') (hf : ∀ a, Moves x (f a) (f' a)) : Moves x (scan >>= f) (scan' >>= f') := by
  intro p
  change (scan' (x.place p) >>= fun (a, m) => f' a m) = x.scanned (scan p >>= fun (a, m) => f a m)
  rw [h p]
  cases scan p with
  | error failure => rfl
  | ok result => exact hf result.1 result.2

theorem Moves.pure (a : α) : Moves x (Pure.pure a : Scan α) (Pure.pure a) := fun _ => rfl

theorem Moves.map (h : Moves x scan scan') (g : α → β) : Moves x (g <$> scan) (g <$> scan') := by
  rw [← bind_pure_comp, ← bind_pure_comp]
  exact h.bind fun a => .pure (g a)

theorem Moves.getBind {f f' : Place → Scan β} (h : ∀ p, Moves x (f p) (f' (x.place p))) :
    Moves x (MonadState.get >>= f) (MonadState.get >>= f') := fun p => h p p

theorem Moves.failAt (label : Label) (offset : Nat) :
    Moves x (failAt label offset : Scan α) (failAt label (offset + x.ahead)) := fun _ => rfl

theorem Moves.fail (label : Label) : Moves x (fail label : Scan α) (fail label) :=
  .getBind fun p => .failAt label p.offset

theorem Moves.ite {cond : Prop} [Decidable cond] {no no' : Scan α} (hy : Moves x scan scan')
    (hn : Moves x no no') : Moves x (if cond then scan else no) (if cond then scan' else no') := by
  split
  · exact hy
  · exact hn

variable (ht : x.tail = [])
include ht

theorem Moves.rest : Moves x rest rest := by
  intro p
  change Except.ok ((x.place p).rest, x.place p) = _
  rw [Shift.place_rest ht]
  rfl

theorem Moves.advance (count : Nat) : Moves x (advance count) (advance count) := by
  intro p
  change Except.ok ((), (x.place p).advance count) = _
  rw [Shift.place_advance (.inl ht)]
  rfl

theorem Moves.takeWhile (q : UInt8 → Bool) : Moves x (takeWhile q) (takeWhile q) := by
  intro p
  change Except.ok ((x.place p).rest.takeWhile q, (x.place p).advance ((x.place p).rest.takeWhile q).length) = _
  rw [Shift.place_rest ht, Shift.place_advance (.inl ht)]
  rfl

theorem Moves.iterate {step : α → Scan (Option α)} (h : ∀ a, Moves x (step a) (step a)) (a : α) :
    Moves x (iterate step a) (iterate step a) :=
  .bind (.rest ht) fun bound => iterateWithin_of (P := fun {_} scan => Moves x scan scan) .bind .pure h bound a

end Combinators

section Scans
variable (ht : x.tail = [])
include ht

theorem moves_text (bytes : Bytes) (barred : UInt8 → Bool) : Moves x (text bytes barred) (text bytes barred) :=
  .bind (.rest ht) fun _ => .ite (.bind (.advance ht _) fun _ => .pure _) (.pure _)

theorem moves_name : Moves x name name :=
  .bind (.rest ht) fun _ => .ite (.bind (.takeWhile ht _) fun _ => .pure _) (.pure _)

theorem moves_longBracket : Moves x longBracket longBracket := by
  refine .bind (.rest ht) fun source => ?_
  cases LongBracket.level? source with
  | none => exact .pure _
  | some level =>
    refine .bind (.advance ht _) fun _ => .bind (.rest ht) fun _ => .bind (.advance ht _) fun _ =>
      .getBind fun place => ?_
    have hend : (x.place place).sourceEnd = place.sourceEnd + x.ahead := by
      rw [Place.sourceEnd, Shift.place_rest ht]
      exact Nat.add_right_comm _ _ _
    rw [Shift.place_rest ht, hend]
    cases LongBracket.contentBefore? (LongBracket.closing level) [] place.rest with
    | none => exact .failAt _ _
    | some content => exact .bind (.advance ht _) fun _ => .pure _

theorem moves_trivium : Moves x trivium trivium := by
  refine .bind (.rest ht) fun source => .ite (.bind (.takeWhile ht _) fun _ => .pure _) (.ite ?_ (.pure _))
  refine .bind (.advance ht _) fun _ => .bind (moves_longBracket ht) fun content => ?_
  cases content with
  | none => exact .bind (.bind (.takeWhile ht _) fun _ => .pure _) fun _ => .pure _
  | some _ => exact .pure _

theorem moves_digits (q : UInt8 → Bool) (missing : Label) : Moves x (digits q missing) (digits q missing) :=
  .bind (.takeWhile ht _) fun _ => .ite (.bind (.fail _) fun _ => .pure _) (.pure _)

theorem moves_fraction (whole : Bytes) : Moves x (fraction whole) (fraction whole) :=
  .bind (.rest ht) fun _ => .ite (.pure _) <| .bind (.advance ht _) fun _ =>
    .ite (.bind (moves_digits ht _ _) fun _ => .pure _) (.bind (.takeWhile ht _) fun _ => .pure _)

theorem moves_exponent : Moves x exponent exponent := by
  refine .bind (.rest ht) fun _ => .ite ?_ (.pure _)
  refine .bind (.advance ht _) fun _ => .bind (.rest ht) fun _ => .ite (.bind (.advance ht _) fun _ => ?_) ?_
  · exact .bind (moves_digits ht _ _) fun _ => .pure _
  · exact .bind (moves_digits ht _ _) fun _ => .pure _

theorem moves_decimal : Moves x decimal decimal := by
  refine .bind (.takeWhile ht _) fun whole => .bind (moves_fraction ht whole) fun fraction =>
    .bind (moves_exponent ht) fun exponent => ?_
  cases fraction <;> cases exponent <;> exact .pure _

theorem moves_numeral : Moves x numeral numeral :=
  .bind (.rest ht) fun _ => .ite (.map (.bind (.advance ht _) fun _ =>
    .bind (moves_digits ht _ _) fun _ => .pure _) _) (.ite (.map (moves_decimal ht) _) (.pure _))

theorem moves_hexEscape : Moves x hexEscape hexEscape := by
  refine .bind (.rest ht) fun source => ?_
  split
  · exact .bind (.advance ht _) fun _ => .pure _
  · exact .fail _

theorem moves_decimalEscape : Moves x decimalEscape decimalEscape :=
  .bind (.rest ht) fun _ => .ite (.bind (.fail _) fun _ => .bind (.advance ht _) fun _ => .pure _)
    (.bind (.advance ht _) fun _ => .pure _)

theorem moves_codePointEscape : Moves x codePointEscape codePointEscape := by
  rw [codePointEscape_eq]
  refine .bind (.rest ht) fun _ => .ite (.bind (.fail _) fun _ => ?_) ?_
  all_goals
    refine .bind (.advance ht _) fun _ => .getBind fun _ => .bind (moves_digits ht _ _) fun _ =>
      .ite (.bind (.failAt _ _) fun _ => .bind (.rest ht) fun _ => .ite (.bind (.fail _) fun _ => ?_) ?_)
        (.bind (.rest ht) fun _ => .ite (.bind (.fail _) fun _ => ?_) ?_)
    all_goals exact .bind (.advance ht _) fun _ => .pure _

theorem moves_escape : Moves x escape escape := by
  refine .bind (.rest ht) fun source => ?_
  cases source with
  | nil => exact .fail _
  | cons b tail =>
    dsimp only
    split
    · exact .bind (.advance ht _) fun _ => .pure _
    · refine .ite (.bind (.advance ht _) fun _ => .pure _) <| .ite (.bind (.advance ht _) fun _ =>
        .bind (.takeWhile ht _) fun _ => .pure _) <| .ite (.bind (.advance ht _) fun _ =>
        moves_hexEscape ht) <| .ite (.bind (.advance ht _) fun _ => moves_codePointEscape ht) <|
        .ite (moves_decimalEscape ht) (.fail _)

theorem moves_quotedItem (quote : UInt8) : Moves x (quotedItem quote) (quotedItem quote) := by
  refine .bind (.rest ht) fun source => ?_
  cases source with
  | nil => exact .fail _
  | cons b tail =>
    exact .ite (.pure _) <| .ite (.fail _) <| .bind (.advance ht _) fun _ =>
      .ite (.map (moves_escape ht) _) (.pure _)

theorem moves_quoted (quote : UInt8) : Moves x (quoted quote) (quoted quote) := by
  have hitems : Moves x (quotedItems quote) (quotedItems quote) := by
    refine .bind (.iterate ht (fun decoded => .bind (moves_quotedItem ht quote) fun found => ?_) _)
      fun _ => .pure _
    cases found <;> exact .pure _
  exact .bind (.advance ht _) fun _ => .bind hitems fun _ => .bind (.advance ht _) fun _ => .pure _

theorem moves_string : Moves x string string := by
  refine .bind (.rest ht) fun source => ?_
  split
  · exact .ite (.map (moves_quoted ht _) _) (moves_longBracket ht)
  · exact .pure _

end Scans

end Scan

end LuaSyntax
