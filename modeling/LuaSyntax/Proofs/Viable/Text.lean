import LuaSyntax.Proofs.Print.Text
import LuaSyntax.Proofs.Excerpt.Source
import LuaSyntax.Proofs.Keep.Seam

/-! # Sources that are cut off and go on otherwise

A source is cut off at an offset, and goes on with some ASCII and with the texts of tokens on a new line.
Up to the offset it is cut into the same tokens as before. What goes on after a token begins with a line
feed; within a token it may be anything that ends the token.
-/
namespace LuaSyntax

open LongBracket

/-- A text is cut into tokens wherever the texts of other tokens stand on a new line after it. -/
def Writes (text : Bytes) (tokens : List Token) : Prop :=
  ∀ word : List Token, (∀ token ∈ word, token.Written) → ∀ offset lastEnd : Nat,
    ∃ trivia tail s s', text ++ lineFeed :: separated ' '.toUInt8 (word.map Token.text) = trivia ++ tail ∧
      TriviaSpelling tail trivia ∧ ¬ startsTrivium tail ∧
      Lexed ⟨⟨tail, offset + trivia.length⟩, lastEnd⟩ s ∧ s.Spells (tokens ++ word) s' ∧ s'.lexemes = []

section Texts
variable {text tail tail' trivia spelling : Bytes} {token : Token} {tokens : List Token}

/-- What stands in place of something else begins with the same byte or with a line feed, if it is not empty. -/
def Resumes (old new : Bytes) : Prop := ∀ b ∈ new.head?, old.head? = some b ∨ b = lineFeed

theorem Resumes.spaced (h : Resumes tail tail') : Spaced tail tail' := by
  intro b hb
  refine (h b hb).imp_right ?_
  rintro rfl
  decide

/-- Trivia are trivia in front of what resumes the source. -/
theorem TriviaSpelling.resumed (h : TriviaSpelling tail trivia) (hr : Resumes tail tail') :
    TriviaSpelling tail' trivia := by
  induction h with
  | none => exact .none
  | @more first others ht _ ih =>
    refine .more ?_ ih
    cases ht with
    | space hs hne => exact .space hs hne
    | long ht => exact .long ht
    | line hb hlevel hend =>
      refine .line hb hlevel ?_
      cases others with
      | cons b others =>
        rcases hend with hend | hend
        · exact (List.cons_ne_nil _ _ hend).elim
        · exact .inr hend
      | nil =>
        cases tail' with
        | nil => exact .inl rfl
        | cons b rest =>
          rcases hr b rfl with hsame | rfl
          · rcases hend with hnil | hfeed
            · rw [List.nil_append] at hnil
              rw [hnil] at hsame
              cases hsame
            · obtain rfl := Option.some.inj (hsame.symm.trans hfeed)
              exact .inr rfl
          · exact .inr rfl

theorem isAscii_escapeByte (byte : UInt8) : ∀ b ∈ escapeByte byte, isAscii b := by
  have hdigit (value : Nat) (h : value < 10) : isAscii (UInt8.ofNat (0x30 + value)) :=
    isAscii_of_isDigit (isDigit_ofNat value h).1
  have hbyte := byte.toNat_lt
  simp only [escapeByte, List.forall_mem_cons]
  exact ⟨rfl, hdigit _ (by omega), hdigit _ (Nat.mod_lt _ (by decide)), hdigit _ (Nat.mod_lt _ (by decide)),
    List.forall_mem_nil _⟩

theorem Token.Written.isAscii (h : token.Written) : ∀ b ∈ token.text, isAscii b := by
  cases h with
  | @fixed text h =>
    have hall : (Bytes.ofString text).all LuaSyntax.isAscii :=
      (by decide : ∀ text ∈ fixedTexts, (Bytes.ofString text).all LuaSyntax.isAscii) text h
    exact List.all_eq_true.mp hall
  | name h => exact fun b hb => isAscii_of_isNamePart (h.parts b hb)
  | integer =>
    have hdigits (value : Nat) : ∀ b ∈ hexDigits value 16, LuaSyntax.isAscii b :=
      fun b hb => isAscii_of_isHexDigit (isHexDigit_of_mem_hexDigits b hb)
    exact List.forall_mem_cons.mpr ⟨rfl, List.forall_mem_cons.mpr ⟨rfl, hdigits _⟩⟩
  | string =>
    refine List.forall_mem_cons.mpr ⟨rfl, List.forall_mem_append.mpr ⟨fun b hb => ?_, List.forall_mem_singleton.mpr rfl⟩⟩
    obtain ⟨byte, -, hb⟩ := List.mem_flatMap.mp hb
    exact isAscii_escapeByte byte b hb

theorem isAscii_separated {word : List Token} (h : ∀ token ∈ word, token.Written) :
    ∀ b ∈ separated ' '.toUInt8 (word.map Token.text), isAscii b := by
  induction word with
  | nil => exact List.forall_mem_nil _
  | cons token others ih =>
    obtain ⟨htoken, hothers⟩ := List.forall_mem_cons.mp h
    cases others with
    | nil => exact htoken.isAscii
    | cons next others => exact List.forall_mem_append.mpr ⟨htoken.isAscii, List.forall_mem_cons.mpr ⟨rfl, ih hothers⟩⟩

theorem triviaSpelling_lineFeed : TriviaSpelling tail [lineFeed] := by
  have hbreak : TriviumSpelling ([] ++ tail) [lineFeed] :=
    .space (List.forall_mem_singleton.mpr (by decide)) (List.cons_ne_nil _ _)
  exact @TriviaSpelling.more tail [lineFeed] [] hbreak .none

theorem writes_nil : Writes [] [] := by
  intro word hw offset lastEnd
  obtain ⟨s, s', hs, hspells, hnil⟩ := lexed_text hw (offset + 1) lastEnd
  exact ⟨[lineFeed], _, s, s', rfl, triviaSpelling_lineFeed, not_startsTrivium_separated hw, hs, hspells, hnil⟩

theorem Writes.afterTrivia (h : Writes text tokens) (ht : ∀ tail, TriviaSpelling (text ++ lineFeed :: tail) trivia) :
    Writes (trivia ++ text) tokens := by
  intro word hw offset lastEnd
  obtain ⟨others, tail, s, s', hcut, ho, hn, hs, hspells, hnil⟩ := h word hw (offset + trivia.length) lastEnd
  refine ⟨trivia ++ others, tail, s, s', ?_, .append ?_ ho, hn, ?_, hspells, hnil⟩
  · rw [List.append_assoc, hcut, List.append_assoc]
  · exact hcut ▸ ht _
  · rw [List.length_append, ← Nat.add_assoc]
    exact hs

theorem Writes.afterToken (h : Writes text tokens)
    (hread : ∀ tail offset, (⟨spelling ++ (text ++ lineFeed :: tail), offset⟩ : Place).Reads token
      ⟨text ++ lineFeed :: tail, offset + spelling.length⟩)
    (hn : ∀ tail, ¬ startsTrivium (spelling ++ (text ++ lineFeed :: tail))) :
    Writes (spelling ++ text) (token :: tokens) := by
  intro word hw offset lastEnd
  obtain ⟨trivia, tail, s, s', hcut, ht, hquiet, hs, hspells, hnil⟩ :=
    h word hw (offset + spelling.length) (offset + spelling.length)
  have hreads : (⟨⟨spelling ++ (text ++ lineFeed :: separated ' '.toUInt8 (word.map Token.text)), offset⟩,
      lastEnd⟩ : Cursor).Reads ⟨token, offset, spelling⟩
      ⟨⟨tail, offset + spelling.length + trivia.length⟩, offset + spelling.length⟩ := by
    refine ⟨rfl, _, hread _ offset, ⟨rfl, rfl⟩, ?_⟩
    exact Parse.skipTrivia_of_spelling ht hquiet ⟨hcut, rfl⟩ rfl
  obtain ⟨whole, hwhole, htakes⟩ := Lexed.read_takes hreads hs
  refine ⟨[], _, whole, s', List.append_assoc _ _ _, .none, hn _, ?_, ⟨_, s, htakes, hspells⟩, hnil⟩
  exact hwhole

theorem parted_lineFeed (tail : Bytes) : Parted (lineFeed :: tail) := by
  intro b hb
  obtain rfl := Option.some.inj hb
  decide

theorem writes_spelling (hread : ∀ tail offset, (⟨spelling ++ lineFeed :: tail, offset⟩ : Place).Reads token
      ⟨lineFeed :: tail, offset + spelling.length⟩) (hn : ∀ tail, ¬ startsTrivium (spelling ++ lineFeed :: tail)) :
    Writes spelling [token] := by
  have htoken := writes_nil.afterToken hread hn
  rwa [List.append_nil] at htoken

theorem writes_text (h : token.Written) : Writes token.text [token] :=
  writes_spelling (fun tail _ => reads_text h ⟨rfl, rfl⟩ (parted_lineFeed tail))
    fun tail => not_startsTrivium_text h (parted_lineFeed tail)

theorem writes_line (h : Writes text tokens) : Writes (lineFeed :: text) tokens :=
  @Writes.afterTrivia text [lineFeed] tokens h fun _ => triviaSpelling_lineFeed

end Texts

/-- What comes next, if anything does, is a new line. -/
def OnNewLine (text : Bytes) : Prop := ∀ b ∈ text.head?, b = lineFeed

theorem OnNewLine.unbracketed {text : Bytes} (h : OnNewLine text) : Unbracketed text := by
  intro b hb
  rw [h b hb]
  decide

theorem unbracketed_cons {b : UInt8} (hb : b ≠ '='.toUInt8 ∧ b ≠ '['.toUInt8) (rest : Bytes) : Unbracketed (b :: rest) :=
  fun _ hc => Option.some.inj hc ▸ hb

theorem Unbracketed.append {text others : Bytes} (h : Unbracketed text) (ho : Unbracketed others) :
    Unbracketed (text ++ others) := by
  cases text with
  | nil => exact ho
  | cons b tail => exact unbracketed_cons (h b rfl) _

/-- Up to an offset, the source at a cursor is the front of a text that is cut into tokens, and that goes
on with an item and with some ASCII. -/
def Cursor.Breaks (c : Cursor) (offset : Nat) (item : Bytes) (tokens : List Token) : Prop :=
  c.offset ≤ offset ∧ offset ≤ c.toPlace.sourceEnd ∧
    ∃ rest, (∀ b ∈ rest, isAscii b) ∧ (offset = c.offset → OnNewLine (item ++ rest)) ∧ Unbracketed (item ++ rest) ∧
      Writes (c.rest.take (offset - c.offset) ++ (item ++ rest)) tokens

/-- Some tokens are read from one cursor to another. -/
inductive Cursor.Cuts : Cursor → List Token → Cursor → Prop
  | nil {c : Cursor} : Cuts c [] c
  | cons {c m c' : Cursor} {lexeme : Lexeme} {tokens : List Token} (h : c.Reads lexeme m) (ho : Cuts m tokens c') :
      Cuts c (lexeme.token :: tokens) c'

/-- No trivia are left to skip. -/
def Cursor.Ready (c : Cursor) : Prop := ¬ startsTrivium c.rest

section Cutting
variable {c m c' : Cursor} {lexeme : Lexeme} {first tokens : List Token} {offset : Nat} {item : Bytes}

theorem Cursor.Reads.ready (h : c.Reads lexeme m) : m.Ready := by
  obtain ⟨place, -, -, hskip⟩ := h.token
  obtain ⟨trivia, -, hn, -⟩ := Parse.skipTrivia_spelling hskip
  exact hn

theorem Cursor.Cuts.ready (h : c.Cuts tokens c') (hc : c.Ready) : c'.Ready := by
  induction h with
  | nil => exact hc
  | cons h _ ih => exact ih h.ready

theorem Cursor.Cuts.trans (h : c.Cuts first m) (h' : m.Cuts tokens c') : c.Cuts (first ++ tokens) c' := by
  induction h with
  | nil => exact h'
  | cons h _ ih => exact .cons h (ih h')

theorem Cursor.Reads.cuts (h : c.Reads lexeme m) : c.Cuts [lexeme.token] m := .cons h .nil

/-- What a source breaks off with resumes it. -/
theorem Cursor.resumes_break {new : Bytes} (hle : c.offset ≤ offset) (hend : offset ≤ c.toPlace.sourceEnd)
    (hline : offset = c.offset → OnNewLine new) (tail : Bytes) :
    Resumes c.rest (c.rest.take (offset - c.offset) ++ new ++ lineFeed :: tail) := by
  intro b hb
  rcases Nat.eq_or_lt_of_le hle with heq | hlt
  · rw [← heq, Nat.sub_self, List.take_zero, List.nil_append] at hb
    have hnew := hline heq.symm
    cases new with
    | nil => exact .inr (Option.some.inj hb).symm
    | cons first others =>
      obtain rfl := Option.some.inj hb
      exact .inr (hnew first rfl)
  · have hrest : c.rest ≠ [] := by
      intro hnil
      rw [Place.sourceEnd, hnil] at hend
      exact absurd hend (Nat.not_le.mpr hlt)
    obtain ⟨first, others, hfirst⟩ := List.exists_cons_of_ne_nil hrest
    obtain ⟨count, hcount⟩ : ∃ count, offset - c.offset = count + 1 := ⟨offset - c.offset - 1, by omega⟩
    rw [hfirst, hcount] at hb
    rw [hfirst]
    exact .inl hb

theorem Parse.breaks_of_skipTrivia {u : Unit} (h : skipTrivia c = .ok u m) (hm : m.Breaks offset item tokens) :
    c.Breaks offset item tokens := by
  obtain ⟨trivia, ht, -, hp, -⟩ := skipTrivia_spelling h
  obtain ⟨hle, hend, rest, hascii, hline, hopens, hwrites⟩ := hm
  have hoffset := hp.offset
  have htake : c.rest.take (offset - c.offset) = trivia ++ m.rest.take (offset - m.offset) := by
    have hcount : offset - c.offset = trivia.length + (offset - m.offset) := by omega
    rw [hp.rest, hcount, List.take_length_add_append]
  refine ⟨by omega, ?_, rest, hascii, fun heq => hline (by omega), hopens, ?_⟩
  · rwa [← Place.sourceEnd_eq ⟨_, hp⟩]
  · rw [htake, List.append_assoc]
    exact hwrites.afterTrivia fun tail => ht.resumed (Cursor.resumes_break hle hend hline tail)

theorem Place.Reads.breaks {place : Place} {lastEnd : Nat} {token : Token} {spelling : Bytes}
    (h : c.toPlace.Reads token place) (hp : c.toPlace.Passes spelling place) (hc : c.Ready)
    (hm : Cursor.Breaks ⟨place, lastEnd⟩ offset item tokens) : c.Breaks offset item (token :: tokens) := by
  obtain ⟨hle, hend, rest, hascii, hline, hopens, hwrites⟩ := hm
  dsimp only at hle hend hline hwrites
  have hne : spelling ≠ [] := h.ne_nil hp
  have hpos := List.length_pos_iff.mpr hne
  have hoffset := hp.offset
  have htake : c.rest.take (offset - c.offset) = spelling ++ place.rest.take (offset - place.offset) := by
    have hcount : offset - c.offset = spelling.length + (offset - place.offset) := by omega
    rw [hp.rest, hcount, List.take_length_add_append]
  have hspaced (tail : Bytes) : Spaced place.rest
      (place.rest.take (offset - place.offset) ++ (item ++ rest) ++ lineFeed :: tail) :=
    (@Cursor.resumes_break ⟨place, lastEnd⟩ offset _ hle hend hline tail).spaced
  refine ⟨by omega, ?_, rest, hascii, fun heq => by omega, hopens, ?_⟩
  · rwa [← Place.sourceEnd_eq ⟨_, hp⟩]
  · rw [htake, List.append_assoc]
    refine hwrites.afterToken (fun tail offset' => ?_) fun tail => ?_
    · refine h.elsewhere hp ⟨rfl, rfl⟩ (hspaced tail) fun hbracket => ?_
      have hlevel : level? (c.rest.take (offset - c.offset) ++ c.rest.drop (offset - c.offset)) = none := by
        rw [List.take_append_drop]
        exact (hbracket ▸ h).bracket
      have hfront : c.rest.take (offset - c.offset) ≠ [] := by
        rw [htake]
        exact List.append_ne_nil_of_left_ne_nil hne _
      have hopens' : Unbracketed (item ++ rest ++ lineFeed :: tail) := hopens.append (unbracketed_cons (by decide) _)
      have hnew := level?_unbracketed hlevel hfront hopens'
      rw [htake] at hnew
      simpa only [List.append_assoc] using hnew
    · have hquiet : ¬ startsTrivium (spelling ++ place.rest) := hp.rest ▸ hc
      exact not_startsTrivium_append hquiet hne fun hd => (hspaced tail _ hd).resolve_right (by decide)

theorem Cursor.Reads.breaks (h : c.Reads lexeme m) (hc : c.Ready) (hm : m.Breaks offset item tokens) :
    c.Breaks offset item (lexeme.token :: tokens) := by
  obtain ⟨place, hread, hp, hskip⟩ := h.token
  exact hread.breaks hp hc (Parse.breaks_of_skipTrivia hskip hm)

theorem Cursor.Cuts.breaks (h : c.Cuts first m) (hc : c.Ready) (hm : m.Breaks offset item tokens) :
    c.Breaks offset item (first ++ tokens) := by
  induction h with
  | nil => exact hm
  | cons h _ ih => exact h.breaks hc (ih h.ready hm)

theorem Cursor.breaks_line (c : Cursor) (hn : OnNewLine item) (hw : Writes item tokens) :
    c.Breaks c.offset item tokens := by
  refine ⟨Nat.le_refl _, Nat.le_add_right _ _, [], List.forall_mem_nil _, fun _ => ?_, ?_, ?_⟩
  · rwa [List.append_nil]
  · rw [List.append_nil]
    exact hn.unbracketed
  · rwa [Nat.sub_self, List.take_zero, List.nil_append, List.append_nil]

end Cutting

section Ending
variable {p p' : Place} {c m c' : Cursor} {lexeme : Lexeme} {tokens : List Token} {offset : Nat} {text : Bytes}

/-- The source ends at an offset. -/
def Place.upTo (p : Place) (offset : Nat) : Place := ⟨p.rest.take (offset - p.offset), p.offset⟩

def Cursor.upTo (c : Cursor) (offset : Nat) : Cursor := ⟨c.toPlace.upTo offset, c.lastEnd⟩

theorem Place.resumes_upTo (p : Place) (offset : Nat) : Resumes p.rest (p.upTo offset).rest := by
  intro b hb
  rw [Place.upTo, Option.mem_def, List.head?_take] at hb
  split at hb
  · cases hb
  · exact .inl hb

theorem Place.Passes.upTo (h : p.Passes text p') (hle : p'.offset ≤ offset) :
    (p.upTo offset).Passes text (p'.upTo offset) := by
  have hoffset := h.offset
  have hcount : offset - p.offset = text.length + (offset - p'.offset) := by omega
  refine ⟨?_, hoffset⟩
  rw [Place.upTo, Place.upTo, h.rest, hcount, List.take_length_add_append]

theorem Cursor.Ready.upTo (h : c.Ready) (offset : Nat) : (c.upTo offset).Ready := by
  by_cases hnil : (c.upTo offset).rest = []
  · rw [Cursor.Ready, hnil]
    decide
  · have hwhole : ¬ startsTrivium ((c.upTo offset).rest ++ c.rest.drop (offset - c.offset)) := by
      rw [Cursor.upTo, Place.upTo, List.take_append_drop]
      exact h
    have hquiet : ¬ startsTrivium ((c.upTo offset).rest ++ []) := not_startsTrivium_append hwhole hnil nofun
    rwa [List.append_nil] at hquiet

theorem Parse.skipTrivia_upTo {u : Unit} (h : skipTrivia c = .ok u m) (hle : m.offset ≤ offset) :
    skipTrivia (c.upTo offset) = .ok () (m.upTo offset) := by
  obtain ⟨trivia, ht, hn, hp, hlast⟩ := skipTrivia_spelling h
  exact skipTrivia_of_spelling (ht.resumed (m.resumes_upTo offset)) (Cursor.Ready.upTo hn offset) (hp.upTo hle) hlast

theorem Cursor.Reads.upTo (h : c.Reads lexeme m) (hle : m.offset ≤ offset) : (c.upTo offset).Reads lexeme (m.upTo offset) := by
  obtain ⟨place, hread, hp, hskip⟩ := h.token
  obtain ⟨trivia, -, -, hp', -⟩ := Parse.skipTrivia_spelling hskip
  have hplace : place.offset ≤ offset := Nat.le_trans (hp'.offset ▸ Nat.le_add_right _ _) hle
  have hpasses := hp.upTo hplace
  refine ⟨h.offset, place.upTo offset, ?_, hpasses, Parse.skipTrivia_upTo hskip hle⟩
  refine hread.elsewhere hp hpasses (place.resumes_upTo offset).spaced fun hbracket => ?_
  have hlevel : level? ((c.upTo offset).rest ++ c.rest.drop (offset - c.offset)) = none := by
    rw [Cursor.upTo, Place.upTo, List.take_append_drop]
    exact (hbracket ▸ hread).bracket
  have hfront : (c.upTo offset).rest ≠ [] := fun hnil =>
    hread.ne_nil hp (List.append_eq_nil_iff.mp (hpasses.rest.symm.trans hnil)).1
  have hnew : level? ((c.upTo offset).rest ++ []) = none := level?_unbracketed hlevel hfront nofun
  rwa [List.append_nil] at hnew

theorem Cursor.Cuts.le (h : c.Cuts tokens c') : c.offset ≤ c'.offset := by
  induction h with
  | nil => exact Nat.le_refl _
  | cons h _ ih =>
    obtain ⟨place, -, hp, hskip⟩ := h.token
    obtain ⟨trivia, -, -, hp', -⟩ := Parse.skipTrivia_spelling hskip
    have hoffset := hp.offset
    have hoffset' := hp'.offset
    dsimp only at hoffset'
    omega

/-- A source that ends where some tokens end is cut into these tokens. -/
theorem Cursor.Cuts.upTo (h : c.Cuts tokens c') :
    ∃ s s', Lexed (c.upTo c'.offset) s ∧ s.Spells tokens s' ∧ s'.lexemes = [] := by
  induction h with
  | @nil c =>
    have hnil : (c.upTo c.offset).rest = [] := by rw [Cursor.upTo, Place.upTo, Nat.sub_self, List.take_zero]
    exact ⟨_, _, .done hnil, rfl, rfl⟩
  | cons h ho ih =>
    obtain ⟨s, s', hs, hspells, hnil⟩ := ih
    obtain ⟨whole, hwhole, htakes⟩ := Lexed.read_takes (h.upTo ho.le) hs
    exact ⟨whole, s', hwhole, ⟨_, s, htakes, hspells⟩, hnil⟩

end Ending

end LuaSyntax
