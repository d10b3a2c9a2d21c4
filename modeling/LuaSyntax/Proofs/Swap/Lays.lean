import LuaSyntax.Proofs.Excerpt.Source
import LuaSyntax.Proofs.Swap.Combinators

/-! # Texts put together

A text is put together from the last piece on: trivia, a token or the bytes from one stream of a
source to another stand in front of a text that is already cut into lexemes, and then so is the
whole. What is known of the stream it is cut into goes with it.
-/
namespace LuaSyntax

/-- A text is cut into lexemes wherever it stands, and they make up a stream of some kind. -/
def Lays (text : Bytes) (kind : Stream → Prop) : Prop := ∀ place lastEnd, ∃ s, Laid text place lastEnd s ∧ kind s

theorem Bytes.forall_head {P : UInt8 → Prop} {b : UInt8} (h : P b) (others : Bytes) : ∀ c ∈ (b :: others).head?, P c :=
  fun _ hc => Option.some.inj hc ▸ h

section Pieces
variable {text trivia spelling : Bytes} {place lastEnd : Nat} {s : Stream} {kind : Stream → Prop} {token : Token}

theorem Laid.lastEnd_eq (h : Laid text place lastEnd s) : s.lastEnd = lastEnd := by
  obtain ⟨c, hskip, hlexed⟩ := h
  obtain ⟨-, -, -, -, hlast⟩ := Parse.skipTrivia_spelling hskip
  exact hlexed.lastEnd.trans hlast

theorem Laid.of_lexed (hn : ¬ startsTrivium text) (h : Lexed ⟨⟨text, place⟩, lastEnd⟩ s) : Laid text place lastEnd s :=
  ⟨_, Parse.skipTrivia_of_spelling .none hn (.refl _) rfl, h⟩

theorem Laid.withTrivia (ht : TriviaSpelling text trivia) (h : Laid text (place + trivia.length) lastEnd s) :
    Laid (trivia ++ text) place lastEnd s := by
  obtain ⟨⟨⟨rest, offset⟩, last⟩, hskip, hlexed⟩ := h
  obtain ⟨others, hothers, hbare, hpasses, hlast⟩ := Parse.skipTrivia_spelling hskip
  obtain rfl : text = others ++ rest := hpasses.rest
  obtain rfl : last = lastEnd := hlast
  have hall : (⟨trivia ++ (others ++ rest), place⟩ : Place).Passes (trivia ++ others) ⟨rest, offset⟩ := by
    refine ⟨(List.append_assoc _ _ _).symm, ?_⟩
    rw [List.length_append, ← Nat.add_assoc]
    exact hpasses.offset
  exact ⟨_, Parse.skipTrivia_of_spelling (ht.append hothers) hbare hall rfl, hlexed⟩

theorem Lays.mono {kind' : Stream → Prop} (h : Lays text kind) (hk : ∀ s, kind s → kind' s) : Lays text kind' := by
  intro place lastEnd
  obtain ⟨s, hs, hkind⟩ := h place lastEnd
  exact ⟨s, hs, hk s hkind⟩

theorem Lays.withTrivia (ht : TriviaSpelling text trivia) (h : Lays text kind) : Lays (trivia ++ text) kind := by
  intro place lastEnd
  obtain ⟨s, hs, hkind⟩ := h (place + trivia.length) lastEnd
  exact ⟨s, hs.withTrivia ht, hkind⟩

theorem triviaSpelling_space (text : Bytes) : TriviaSpelling text [' '.toUInt8] := by
  have hblank : TriviumSpelling ([] ++ text) [' '.toUInt8] :=
    .space (List.forall_mem_singleton.mpr (by decide)) (List.cons_ne_nil _ _)
  exact .more hblank .none

theorem Lays.withSpace (h : Lays text kind) : Lays (' '.toUInt8 :: text) kind := h.withTrivia (triviaSpelling_space text)

/-- A token in front of a text. -/
theorem Lays.withToken (h : Lays text kind)
    (hr : ∀ place, (⟨spelling ++ text, place⟩ : Place).Reads token ⟨text, place + spelling.length⟩)
    (hn : ¬ startsTrivium (spelling ++ text)) :
    Lays (spelling ++ text) fun s => ∃ span m, s.Takes token span m ∧ kind m := by
  intro place lastEnd
  obtain ⟨m, ⟨c, hskip, hlexed⟩, hkind⟩ := h (place + spelling.length) (place + spelling.length)
  have hreads : (⟨⟨spelling ++ text, place⟩, lastEnd⟩ : Cursor).Reads ⟨token, place, spelling⟩ c :=
    ⟨rfl, _, hr place, ⟨rfl, rfl⟩, hskip⟩
  obtain ⟨s, hs, htakes⟩ := Lexed.read_takes hreads hlexed
  exact ⟨s, .of_lexed hn hs, _, m, htakes, hkind⟩

theorem Lays.withFixed (h : Lays text kind) (word : String) (hw : word ∈ fixedTexts) (hd : word ≠ "-")
    (hn : ∀ b ∈ text.head?, ¬ joins word b) (hb : word = "[" → Unbracketed text) :
    Lays (.ofString word ++ text) fun s => ∃ span m, s.Takes word span m ∧ kind m := by
  have hhead : ∀ word ∈ fixedTexts, word ≠ "-" → (Bytes.ofString word).head?.any fun b => !isSpace b && b != '-'.toUInt8 := by
    decide +kernel
  refine h.withToken (reads_fixed hw hn hb) (not_startsTrivium_of_head fun b hm => ?_)
  have hfirst := hhead word hw hd
  obtain ⟨c, others, hc⟩ := List.exists_cons_of_ne_nil (ofString_ne_nil word hw)
  rw [hc] at hfirst hm
  obtain rfl := Option.some.inj hm
  simpa using hfirst

theorem Lays.withSymbol (h : Lays text kind) (symbol : String) (hp : symbol ∈ plainSymbols) (hd : symbol ≠ "-") :
    Lays (.ofString symbol ++ text) fun s => ∃ span m, s.Takes symbol span m ∧ kind m := by
  have hsymbol : ∀ symbol ∈ plainSymbols, symbol ∈ fixedTexts ∧ symbol ≠ "[" := by decide +kernel
  obtain ⟨hw, hb⟩ := hsymbol symbol hp
  exact h.withFixed symbol hw hd (fun b _ => not_joins_plain hp b) fun heq => (hb heq).elim

theorem Identifier.exists_cons {name : Bytes} (h : Identifier name) : ∃ b others, name = b :: others ∧ isNamePart b := by
  have hstart := h.start
  cases name with
  | nil => cases hstart
  | cons b others => exact ⟨b, others, rfl, h.parts b List.mem_cons_self⟩

theorem Lays.withName {name : Bytes} (h : Lays text kind) (hi : Identifier name) (hn : ∀ b ∈ text.head?, ¬ isNamePart b) :
    Lays (name ++ text) fun s => ∃ span m, s.Takes (.name name) span m ∧ kind m := by
  refine h.withToken (fun place => .name (Scan.name_of_passes hi ⟨rfl, rfl⟩ hn)) (not_startsTrivium_of_head ?_)
  obtain ⟨b, others, rfl, hpart⟩ := hi.exists_cons
  refine Bytes.forall_head ⟨fun hspace => not_goesOnNumeral_of_isSpace hspace (by simp [goesOnNumeral, hpart]), ?_⟩ _
  rintro rfl
  exact absurd hpart (by decide)

theorem quotedSpelling_name {name : Bytes} (h : ∀ b ∈ name, isNamePart b) :
    QuotedSpelling '"'.toUInt8 (name ++ ['"'.toUInt8]) name := by
  induction name with
  | nil => exact .close
  | cons b others ih =>
    obtain ⟨hb, ho⟩ := List.forall_mem_cons.mp h
    refine .plain ?_ ?_ ?_ (ih ho)
    · rintro rfl
      exact absurd hb (by decide)
    · rintro rfl
      exact absurd hb (by decide)
    · intro hl
      have hspace : isSpace b := by
        simp only [isLineBreak, Bool.or_eq_true, beq_iff_eq] at hl
        rcases hl with rfl | rfl <;> decide
      exact not_goesOnNumeral_of_isSpace hspace (by simp [goesOnNumeral, hb])

theorem Lays.withQuoted {name : Bytes} (h : Lays text kind) (hi : Identifier name) :
    Lays ('"'.toUInt8 :: name ++ ['"'.toUInt8] ++ text) fun s => ∃ span m, s.Takes (.string name) span m ∧ kind m := by
  have hspelling : StringSpelling ('"'.toUInt8 :: (name ++ ['"'.toUInt8])) name :=
    .quoted (.inl rfl) (quotedSpelling_name hi.parts)
  refine h.withToken (fun place => .string (Scan.string_of_spelling hspelling ⟨rfl, rfl⟩)) ?_
  exact not_startsTrivium_of_head (Bytes.forall_head (by decide) _)

end Pieces

section Segments
variable {source text : Bytes} {kind : Stream → Prop} {s m s' : Stream} {token : Token} {span : Span}

theorem Stream.Reaches.mem_or {size : Nat} (h : s.Reaches s') (ho : s.Ordered size) {lexeme : Lexeme}
    (hm : lexeme ∈ s.lexemes) : lexeme ∈ s'.lexemes ∨ lexeme.span.endPos ≤ s'.lastEnd := by
  induction h with
  | refl => exact .inl hm
  | @take s m s' token span ht hr ih =>
    obtain ⟨ho', -⟩ := ho.takes ht
    obtain ⟨first, hl, -, rfl, hlast, -⟩ := ht
    rw [hl, List.mem_cons] at hm
    rcases hm with rfl | hm
    · refine .inr (Nat.le_trans (Nat.le_of_eq hlast.symm) ?_)
      rcases hr.last with rfl | ⟨last, token', span', hr', ht'⟩
      · exact Nat.le_refl _
      · obtain ⟨-, -, -, -, hlt⟩ := (hr'.ordered ho').takes ht'
        have hle := hr'.position_le ho'
        have hnext := ho'.next
        omega
    · exact ih ho' hm

theorem Stream.exists_end (s : Stream) : ∃ e, s.Reaches e ∧ e.lexemes = [] := by
  obtain ⟨lexemes, lastEnd, sourceEnd⟩ := s
  induction lexemes generalizing lastEnd with
  | nil => exact ⟨_, .refl, rfl⟩
  | cons lexeme others ih =>
    obtain ⟨e, hr, he⟩ := ih lexeme.span.endPos
    have ht : Stream.Takes ⟨lexeme :: others, lastEnd, sourceEnd⟩ lexeme.token lexeme.span
        ⟨others, lexeme.span.endPos, sourceEnd⟩ := ⟨lexeme, rfl, rfl, rfl, rfl, rfl⟩
    exact ⟨e, ht.reaches.trans hr, he⟩

namespace Excerpt

/-- The lexemes between two streams are put to a place after a token that ends somewhere, and all
that comes behind them to another place. -/
def parted (s s' : Stream) (place behind lastEnd sourceEnd : Nat) : Excerpt where
  after := 0
  position p :=
    if p ≤ s.position then lastEnd else if p ≤ s'.lastEnd then p + place - s.position else p + behind - s'.position
  tail := []
  sourceEnd := sourceEnd

variable {place behind lastEnd sourceEnd : Nat}

theorem parted_between {p : Nat} (h : s.position < p) (h' : p ≤ s'.lastEnd) :
    (parted s s' place behind lastEnd sourceEnd).position p = p + place - s.position := by
  simp only [parted]
  rw [if_neg (Nat.not_le.mpr h), if_pos h']

theorem parted_behind {p : Nat} (h : s.position < p) (h' : s'.lastEnd < p) :
    (parted s s' place behind lastEnd sourceEnd).position p = p + behind - s'.position := by
  simp only [parted]
  rw [if_neg (Nat.not_le.mpr h), if_neg (Nat.not_le.mpr h')]

theorem parted_covers {size : Nat} (hr : s.Reaches s') (ho : s.Ordered size) :
    (parted s s' place behind lastEnd sourceEnd).Covers s := by
  have hle := hr.position_le ho
  have hnext := (hr.ordered ho).next
  intro lexeme hm
  obtain ⟨hfirst, hne⟩ := ho.behind lexeme hm
  have hpos := List.length_pos_iff.mpr hne
  rcases hr.mem_or ho hm with hm | hend
  · obtain ⟨hfirst', -⟩ := (hr.ordered ho).behind lexeme hm
    rw [parted_behind (by omega) (by omega), parted_behind (by omega) (by omega)]
    omega
  · simp only [Lexeme.span] at hend
    rw [parted_between (by omega) (by omega), parted_between (by omega) hend]
    omega

end Excerpt

/-- All that is left of a source is cut into the same lexemes where it is put by an excerpt. -/
theorem Stream.StandsIn.lexed_all {x : Excerpt} {place lastEnd : Nat} (h : s.StandsIn source) (ha : x.after = 0)
    (ht : x.tail = []) (hx : ∀ p, s.position < p → x.position p + s.position = p + place)
    (hs : x.position s.lastEnd = lastEnd) (he : x.sourceEnd = place + (source.drop s.position).length) :
    Lexed ⟨⟨source.drop s.position, place⟩, lastEnd⟩ (x.stream s) := by
  obtain ⟨e, hr, hnil⟩ := s.exists_end
  have hstream : ∀ t : Stream, t.lexemes = [] → x.stream t = ⟨[], x.position t.lastEnd, x.sourceEnd⟩ := by
    intro t hnil
    rw [Excerpt.stream_end (by rw [hnil]; exact Nat.zero_le _), ht]
  rcases hr.last with rfl | ⟨m, token, span, hm, htakes⟩
  · have hrest : source.drop e.position = [] := h.lexed.nil_iff.mp hnil
    rw [hstream e hnil, hs, he, hrest]
    exact .done rfl
  · have hend := h.reaches hr
    obtain ⟨-, -, -, -, hlt⟩ := (h.reaches hm).ordered.takes htakes
    have hle := hm.position_le h.ordered
    obtain ⟨-, lexeme, -, -, -, -, htrivia⟩ := (h.reaches hm).takes htakes
    have hrest : source.drop e.position = [] := hend.lexed.nil_iff.mp hnil
    have htail : source.slice ⟨e.lastEnd + 1, e.position⟩ = source.drop e.lastEnd := by
      rw [← Bytes.slice_drop hend.next, hrest, List.append_nil]
    rw [htail, hrest] at htrivia
    have hunbracketed : Unbracketed (source.drop e.lastEnd) := by
      intro b hb
      rcases htrivia.head b hb with hspace | rfl
      · constructor <;> exact fun heq => absurd hspace (heq ▸ by decide)
      · decide
    have hprecedes := (h.reaches hm).precedes htakes (fun b hb => .inl hb) hunbracketed
    have hlaid : Laid (source.drop e.lastEnd) (x.position e.lastEnd) (x.position e.lastEnd) (x.stream e) := by
      have hposition := hx e.lastEnd (by omega)
      have hlength : (source.drop e.lastEnd).length = source.length - e.lastEnd := List.length_drop
      have hlength' : (source.drop s.position).length = source.length - s.position := List.length_drop
      have hends : x.sourceEnd = x.position e.lastEnd + (source.drop e.lastEnd).length := by
        have hle := hend.next
        have hsource := hend.le
        omega
      rw [hstream e hnil, hends]
      have hskip := @Parse.skipTrivia_of_spelling (source.drop e.lastEnd)
        ⟨⟨source.drop e.lastEnd, x.position e.lastEnd⟩, x.position e.lastEnd⟩
        ⟨⟨[], x.position e.lastEnd + (source.drop e.lastEnd).length⟩, x.position e.lastEnd⟩ htrivia nofun
        ⟨(List.append_nil _).symm, rfl⟩ rfl
      exact ⟨_, hskip, .done rfl⟩
    have hlexed := (h.laid hm htakes hprecedes hunbracketed id (fun p hp _ => hx p hp) hs (by rw [ha]; exact Nat.zero_le _) hlaid).2
    rwa [Bytes.slice_drop (by omega)] at hlexed

theorem Lays.withSegment (h : Lays text kind) (hs : s.StandsIn source) (hm : s.Reaches m) (ht : m.Takes token span s')
    (hp : ∀ lexeme ∈ m.lexemes.head?, lexeme.Precedes text) (hb : Unbracketed text)
    (hd : text.head? ≠ some '-'.toUInt8) :
    Lays (source.slice ⟨s.position + 1, s'.lastEnd⟩ ++ text) fun u =>
      ∃ x : Excerpt, x.after = s'.lexemes.length ∧ x.Covers s ∧ u = x.stream s ∧ kind (x.stream s') := by
  intro place lastEnd
  obtain ⟨-, -, -, -, hlt⟩ := (hs.reaches hm).ordered.takes ht
  have hle := hm.position_le hs.ordered
  obtain ⟨S, hlaid, hkind⟩ := h (place + (s'.lastEnd - s.position)) (place + (s'.lastEnd - s.position))
  let x : Excerpt := { Excerpt.moved s'.lexemes.length s.position place lastEnd S.sourceEnd with tail := S.lexemes }
  have hx : ∀ p, s.position < p → x.position p = p + place - s.position := fun p hp => if_neg (Nat.not_le.mpr hp)
  have hend : x.position s'.lastEnd = place + (s'.lastEnd - s.position) := by
    rw [hx _ (by omega)]
    omega
  have hstream : x.stream s' = S := by
    rw [Excerpt.stream_end (Nat.le_refl _), hend, ← hlaid.lastEnd_eq]
    rfl
  have hcovers : x.Covers s := hs.ordered.covers s'.lexemes.length place lastEnd S.sourceEnd
  have hput : Laid text (x.position s'.lastEnd) (x.position s'.lastEnd) (x.stream s') := by rwa [hend, hstream]
  have hposition : ∀ p, s.position < p → p ≤ s'.lastEnd → x.position p + s.position = p + place := by
    intro p hp _
    rw [hx p hp]
    omega
  obtain ⟨hbare, hlexed⟩ := hs.laid hm ht hp hb (fun h => (hd h).elim) hposition (if_pos hs.next) (Nat.le_refl _) hput
  exact ⟨x.stream s, .of_lexed hbare hlexed, x, rfl, hcovers, rfl, hstream.symm ▸ hkind⟩

/-- The bytes from one stream to another, in front of a space and all that comes behind them. -/
theorem lays_rest (hs : s.StandsIn source) (hr : s.Reaches s') {m : Stream} (hm : m.StandsIn source)
    (ht : m.Takes token span s') :
    Lays (source.slice ⟨s.position + 1, s'.lastEnd⟩ ++ ' '.toUInt8 :: source.drop s'.lastEnd) fun u =>
      ∃ x : Excerpt, x.Whole ∧ x.Covers s ∧ u = x.stream s := by
  intro place lastEnd
  have hs' := hs.reaches hr
  obtain ⟨-, -, -, -, -, -, htrivia⟩ := hm.takes ht
  have hle := hr.position_le hs.ordered
  have hlength : (source.slice ⟨s'.lastEnd + 1, s'.position⟩).length = s'.position - s'.lastEnd :=
    Bytes.slice_length hs'.le
  -- where the lexemes behind the space are put
  let behind := place + (s'.lastEnd - s.position) + 1 + (s'.position - s'.lastEnd)
  let x : Excerpt := .parted s s' place behind lastEnd (behind + (source.drop s'.position).length)
  have hbehind : Laid (' '.toUInt8 :: source.drop s'.lastEnd) (place + (s'.lastEnd - s.position)) (x.position s'.lastEnd)
      (x.stream s') := by
    have hnext := hs'.next
    have hlexed : Lexed ⟨⟨source.drop s'.position, behind⟩, x.position s'.lastEnd⟩ (x.stream s') := by
      refine hs'.lexed_all rfl rfl (fun p hp => ?_) rfl rfl
      rw [Excerpt.parted_behind (by omega) (by omega)]
      omega
    have hlaid : Laid (source.slice ⟨s'.lastEnd + 1, s'.position⟩ ++ source.drop s'.position)
        (place + (s'.lastEnd - s.position) + 1) (x.position s'.lastEnd) (x.stream s') :=
      .withTrivia htrivia (.of_lexed hs'.bare (hlength.symm ▸ hlexed))
    rw [Bytes.slice_drop hnext] at hlaid
    exact .withTrivia (triviaSpelling_space _) hlaid
  refine ⟨x.stream s, ?_, x, ⟨rfl, rfl⟩, Excerpt.parted_covers hr hs.ordered, rfl⟩
  rcases hr.last with rfl | ⟨last, token', span', hlast, htakes⟩
  · rw [Nat.sub_eq_zero_of_le hs.next] at hbehind
    rw [Bytes.slice_nil hs.next, List.nil_append]
    rwa [show x.position s'.lastEnd = lastEnd from if_pos hs.next] at hbehind
  · have hordered := (hs.reaches hlast).ordered
    obtain ⟨-, -, -, -, hlt⟩ := hordered.takes htakes
    have hbefore := hlast.position_le hs.ordered
    have hspaced : Spaced (source.drop s'.lastEnd) (' '.toUInt8 :: source.drop s'.lastEnd) := by
      intro b hb
      obtain rfl := Option.some.inj hb
      exact .inr (by decide)
    have hopen : Unbracketed (' '.toUInt8 :: source.drop s'.lastEnd) := by
      intro b hb
      obtain rfl := Option.some.inj hb
      decide
    have hposition : ∀ p, s.position < p → p ≤ s'.lastEnd → x.position p + s.position = p + place := by
      intro p hp hend
      rw [Excerpt.parted_between hp hend]
      omega
    have hend : x.position s'.lastEnd = place + (s'.lastEnd - s.position) := by
      have hmoved := hposition s'.lastEnd (by omega) (Nat.le_refl _)
      omega
    rw [← hend] at hbehind
    have hprecedes := (hs.reaches hlast).precedes htakes hspaced hopen
    have hcomment : (' '.toUInt8 :: source.drop s'.lastEnd).head? = some '-'.toUInt8 →
        (source.drop s'.lastEnd).head? = some '-'.toUInt8 := fun h => absurd (Option.some.inj h) (by decide)
    obtain ⟨hbare, hlexed⟩ := hs.laid hlast htakes hprecedes hopen hcomment hposition (if_pos hs.next) (Nat.zero_le _) hbehind
    exact .of_lexed hbare hlexed

/-- The bytes from behind a token on, in front of a space and all that comes behind them. -/
theorem lays_after {first : Stream} {token' : Token} {span' : Span} (hs : first.StandsIn source)
    (hfirst : first.Takes token' span' s) (hm : s.Reaches m) (ht : m.Takes token span s') :
    Lays (source.slice ⟨s.lastEnd + 1, s'.lastEnd⟩ ++ ' '.toUInt8 :: source.drop s'.lastEnd) fun u =>
      ∃ x : Excerpt, x.Whole ∧ x.Covers s ∧ u = x.stream s := by
  obtain ⟨hs', -, -, -, -, -, htrivia⟩ := hs.takes hfirst
  obtain ⟨-, -, -, -, hlt⟩ := (hs'.reaches hm).ordered.takes ht
  have hle := hm.position_le hs'.ordered
  have hbehind : source.drop s.position ≠ [] := fun hnil => hm.ne_nil ht.ne_nil (hs'.lexed.nil_iff.mpr hnil)
  rw [← Bytes.slice_append hs'.next (by omega : s.position ≤ s'.lastEnd), List.append_assoc]
  exact (lays_rest hs' (hm.trans ht.reaches) (hs'.reaches hm) ht).withTrivia (htrivia.before hbehind hs'.bare _)

theorem lays_behind (hs : s.StandsIn source) (ht : s.Takes token span s') :
    Lays (' '.toUInt8 :: source.drop s'.lastEnd) fun u => ∃ x : Excerpt, x.Whole ∧ x.Covers s' ∧ u = x.stream s' := by
  have hs' := (hs.takes ht).1
  have hrest := lays_rest hs' .refl hs ht
  rwa [Bytes.slice_nil hs'.next] at hrest

end Segments

namespace Stream.StandsIn
variable {source new : Bytes} {s s' : Stream} {token : Token} {span : Span}

theorem spelled (h : s.StandsIn source) (ht : s.Takes token span s') :
    ∃ offset text, TokenSpelling (source.drop s'.lastEnd) token text ∧ s.lexemes.head? = some ⟨token, offset, text⟩ ∧
      source.slice ⟨s.position + 1, s'.lastEnd⟩ = text := by
  obtain ⟨-, ⟨found, offset, text⟩, hl, htoken, hreads, hslice, -⟩ := h.takes ht
  obtain ⟨-, -, -, -, hlt⟩ := h.ordered.takes ht
  obtain ⟨p', hread, hspelling, -⟩ := hreads.token
  obtain rfl : found = token := htoken
  change source.slice _ = text at hslice
  have hrest : text ++ source.drop s'.lastEnd = source.drop s.position := hslice ▸ Bytes.slice_drop (Nat.le_of_lt hlt)
  have hbehind : p'.rest = source.drop s'.lastEnd := List.append_cancel_left (hspelling.rest.symm.trans hrest.symm)
  exact ⟨offset, text, hbehind ▸ hread.spelling hspelling, by rw [hl]; rfl, hslice⟩

/-- A word or a symbol of a source is read in front of what does not go on with it. -/
theorem precedes_fixed {word : String} (h : s.StandsIn source) (ht : s.Takes word span s')
    (hn : ∀ b ∈ new.head?, ¬ joins word b) (hb : word = "[" → Unbracketed new) :
    ∀ lexeme ∈ s.lexemes.head?, lexeme.Precedes new := by
  obtain ⟨offset, text, hspelling, hhead, -⟩ := h.spelled ht
  intro lexeme hm
  obtain rfl := Option.some.inj (hhead.symm.trans hm)
  cases hspelling with
  | fixed hw => exact reads_fixed hw hn hb

theorem precedes_name {name : Bytes} (h : s.StandsIn source) (ht : s.Takes (.name name) span s')
    (hn : ∀ b ∈ new.head?, ¬ isNamePart b) : ∀ lexeme ∈ s.lexemes.head?, lexeme.Precedes new := by
  obtain ⟨offset, text, hspelling, hhead, -⟩ := h.spelled ht
  intro lexeme hm
  obtain rfl := Option.some.inj (hhead.symm.trans hm)
  cases hspelling with
  | name hi => exact fun place => .name (Scan.name_of_passes hi ⟨rfl, rfl⟩ hn)

theorem not_namePart {name : Bytes} (h : s.StandsIn source) (ht : s.Takes (.name name) span s') :
    ∀ b ∈ (source.drop s'.lastEnd).head?, ¬ isNamePart b := by
  obtain ⟨offset, text, hspelling, -⟩ := h.spelled ht
  cases hspelling with
  | name _ hn => exact hn

theorem precedes_string {value : Bytes} (h : s.StandsIn source) (ht : s.Takes (.string value) span s') (new : Bytes) :
    ∀ lexeme ∈ s.lexemes.head?, lexeme.Precedes new := by
  obtain ⟨offset, text, hspelling, hhead, -⟩ := h.spelled ht
  intro lexeme hm
  obtain rfl := Option.some.inj (hhead.symm.trans hm)
  cases hspelling with
  | string hs => exact fun place => .string (Scan.string_of_spelling hs ⟨rfl, rfl⟩)

theorem fixed {word : String} (h : s.StandsIn source) (ht : s.Takes word span s') :
    source.drop s.position = Bytes.ofString word ++ source.drop s'.lastEnd ∧
      s'.lastEnd = s.position + (Bytes.ofString word).length := by
  obtain ⟨offset, text, hspelling, -, hslice⟩ := h.spelled ht
  obtain ⟨-, -, -, -, hlt⟩ := h.ordered.takes ht
  have hs' := (h.takes ht).1
  have hlength : (source.slice ⟨s.position + 1, s'.lastEnd⟩).length = s'.lastEnd - s.position :=
    Bytes.slice_length (Nat.le_trans hs'.next hs'.le)
  cases hspelling with
  | fixed hw =>
    rw [hslice] at hlength
    exact ⟨hslice ▸ (Bytes.slice_drop (Nat.le_of_lt hlt)).symm, by omega⟩

end Stream.StandsIn

end LuaSyntax
