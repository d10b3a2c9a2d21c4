import LuaSyntax.Proofs.Excerpt.Stream
import LuaSyntax.Proofs.Rescan.Token

/-! # Excerpts of sources

The bytes from the start of one lexeme to the end of another are cut into the same lexemes
wherever they stand, up to their offsets, if the last one is read in front of what comes next there:
trivia between two lexemes are followed by the same byte as before.
-/
namespace LuaSyntax

def Bytes.slice (source : Bytes) (span : Span) : Bytes :=
  (source.drop (span.pos - 1)).take (span.endPos + 1 - span.pos)

/-- What follows a text does not go on with the mark of a long bracket. -/
def Unbracketed (tail : Bytes) : Prop := ∀ b ∈ tail.head?, b ≠ '='.toUInt8 ∧ b ≠ '['.toUInt8

/-- After trivia, all that is left of a text is cut into lexemes. The text stands at a place after a token
that ends somewhere. -/
def Laid (text : Bytes) (place lastEnd : Nat) (s : Stream) : Prop :=
  ∃ c, Parse.skipTrivia ⟨⟨text, place⟩, lastEnd⟩ = .ok () c ∧ Lexed c s

def Lexeme.Precedes (lexeme : Lexeme) (tail : Bytes) : Prop := ∀ place,
  (⟨lexeme.spelling ++ tail, place⟩ : Place).Reads lexeme.token ⟨tail, place + lexeme.spelling.length⟩

/-- What is left of a source at the position of a stream is cut into its lexemes. -/
structure Stream.StandsIn (source : Bytes) (s : Stream) : Prop where
  lexed : Lexed ⟨⟨source.drop s.position, s.position⟩, s.lastEnd⟩ s
  bare : ¬ startsTrivium (source.drop s.position)
  next : s.lastEnd ≤ s.position
  le : s.position ≤ source.length

namespace Bytes
variable {source : Bytes} {first m last : Nat}

theorem slice_drop (h : first ≤ m) : source.slice ⟨first + 1, m⟩ ++ source.drop m = source.drop first := by
  have hcount : m + 1 - (first + 1) = m - first := by omega
  have hdrop : source.drop m = (source.drop first).drop (m - first) := by
    rw [List.drop_drop, Nat.add_sub_cancel' h]
  rw [slice, Nat.add_sub_cancel, hcount, hdrop, List.take_append_drop]

theorem slice_append (h : first ≤ m) (h' : m ≤ last) :
    source.slice ⟨first + 1, m⟩ ++ source.slice ⟨m + 1, last⟩ = source.slice ⟨first + 1, last⟩ := by
  have hall : (source.slice ⟨first + 1, m⟩ ++ source.slice ⟨m + 1, last⟩) ++ source.drop last =
      source.slice ⟨first + 1, last⟩ ++ source.drop last := by
    rw [List.append_assoc, slice_drop h', slice_drop h, slice_drop (Nat.le_trans h h')]
  exact List.append_cancel_right hall

theorem slice_length (hl : last ≤ source.length) : (source.slice ⟨first + 1, last⟩).length = last - first := by
  have hcount : last + 1 - (first + 1) = last - first := by omega
  rw [slice, List.length_take, List.length_drop, hcount, Nat.add_sub_cancel]
  omega

theorem slice_nil (h : last ≤ first) : source.slice ⟨first + 1, last⟩ = [] := by
  have hcount : last + 1 - (first + 1) = 0 := by omega
  rw [slice, hcount, List.take_zero]

theorem slice_head (h : first < last) (hl : last ≤ source.length) (tail : Bytes) :
    (source.slice ⟨first + 1, last⟩ ++ tail).head? = (source.drop first).head? := by
  have hlength : (source.slice ⟨first + 1, last⟩).length = last - first := slice_length hl
  obtain ⟨b, others, hslice⟩ := List.exists_cons_of_length_pos (by omega : 0 < (source.slice ⟨first + 1, last⟩).length)
  rw [← slice_drop (Nat.le_of_lt h), hslice]
  rfl

theorem slice_of_drop {text : Bytes} (h : source.drop first = text ++ source.drop m) (hm : m = first + text.length) :
    source.slice ⟨first + 1, m⟩ = text := by
  have hle : first ≤ m := hm ▸ Nat.le_add_right _ _
  exact List.append_cancel_right ((slice_drop hle).trans h)

end Bytes

theorem skipTrivia_nil (offset lastEnd : Nat) :
    Parse.skipTrivia ⟨⟨[], offset⟩, lastEnd⟩ = .ok () ⟨⟨[], offset⟩, lastEnd⟩ :=
  Parse.skipTrivia_of_spelling .none nofun (.refl _) rfl

/-- No trivia stand where a token does, if no comment begins with its last byte. -/
theorem not_startsTrivium_append {text old new : Bytes} (h : ¬ startsTrivium (text ++ old)) (hne : text ≠ [])
    (hn : new.head? = some '-'.toUInt8 → old.head? = some '-'.toUInt8) : ¬ startsTrivium (text ++ new) := by
  obtain ⟨b, others, rfl⟩ := List.exists_cons_of_ne_nil hne
  intro hs
  apply h
  unfold startsTrivium at hs ⊢
  rw [Bool.or_eq_true] at hs ⊢
  rcases hs with hspace | hcomment
  · exact .inl hspace
  · right
    rw [startsComment_iff] at hcomment ⊢
    cases others with
    | nil =>
      obtain ⟨rfl, hsecond⟩ := List.cons_prefix_cons.mp hcomment
      obtain ⟨tail, rfl⟩ := hsecond
      obtain ⟨tail', rfl⟩ := List.head?_eq_some_iff.mp (hn rfl)
      exact ⟨tail', rfl⟩
    | cons c others =>
      rw [commentMark, List.cons_append, List.cons_append] at hcomment ⊢
      simpa only [List.cons_prefix_cons, List.nil_prefix] using hcomment

theorem not_startsTrivium_parted {spelling old new : Bytes} (h : ¬ startsTrivium (spelling ++ old))
    (hne : spelling ≠ []) (hn : Parted new) : ¬ startsTrivium (spelling ++ new) :=
  not_startsTrivium_append h hne fun hd => absurd (hn _ hd) (by decide)

open LongBracket in
theorem level?_unbracketed {text old new : Bytes} (h : level? (text ++ old) = none) (hne : text ≠ [])
    (hn : Unbracketed new) : level? (text ++ new) = none := by
  cases hlevel : level? (text ++ new) with
  | none => rfl
  | some level =>
    obtain ⟨rest, hrest⟩ := level?_eq_some hlevel
    have hopen : opening level <+: text ++ new := ⟨rest, hrest.symm⟩
    rcases Nat.le_total (opening level).length text.length with hlen | hlen
    · obtain ⟨after, rfl⟩ := List.prefix_of_prefix_length_le hopen (List.prefix_append _ _) hlen
      rw [List.append_assoc, level?_opening] at h
      cases h
    · obtain ⟨after, hafter⟩ := List.prefix_of_prefix_length_le (List.prefix_append text new) hopen hlen
      rw [← hafter, List.append_assoc, List.append_cancel_left_eq] at hrest
      obtain ⟨b, others, rfl⟩ := List.exists_cons_of_ne_nil hne
      cases after with
      | nil =>
        rw [List.append_nil] at hafter
        rw [hafter, level?_opening] at h
        cases h
      | cons c after =>
        -- the bracket would go on with the byte after the text
        have hmark : others ++ c :: after = List.replicate level '='.toUInt8 ++ ['['.toUInt8] := (List.cons.inj hafter).2
        have hmem : c ∈ others ++ c :: after := List.mem_append_right others List.mem_cons_self
        obtain ⟨hequals, hbracket⟩ := hn c (by rw [hrest]; rfl)
        rw [hmark] at hmem
        rcases List.mem_append.mp hmem with hm | hm
        · exact (hequals (List.eq_of_mem_replicate hm)).elim
        · exact (hbracket (List.mem_singleton.mp hm)).elim

theorem reads_fixed {word : String} {text : Bytes} (hw : word ∈ fixedTexts) (hn : ∀ b ∈ text.head?, ¬ joins word b)
    (hb : word = "[" → Unbracketed text) (place : Nat) :
    (⟨.ofString word ++ text, place⟩ : Place).Reads word ⟨text, place + (Bytes.ofString word).length⟩ := by
  have hpasses : (⟨.ofString word ++ text, place⟩ : Place).Passes (.ofString word)
      ⟨text, place + (Bytes.ofString word).length⟩ := ⟨rfl, rfl⟩
  have hfront : startsWith (.ofString word) (joins word) (.ofString word ++ text) := by
    refine startsWith_iff.mpr ⟨List.prefix_append _ _, ?_⟩
    rwa [List.drop_left]
  have hbracket : word = "[" → LongBracket.level? (.ofString word ++ text) = none := by
    rintro rfl
    have hnone : LongBracket.level? (Bytes.ofString "[" ++ []) = none := rfl
    exact level?_unbracketed hnone (ofString_ne_nil "[" hw) (hb rfl)
  rw [← hpasses.advance]
  exact .fixed hw hfront hbracket

/-- A lexeme is read with its trivia where the same bytes stand in front of the same byte. -/
theorem Cursor.Reads.elsewhere {c c' d d' : Cursor} {lexeme : Lexeme} {bytes : Bytes} (h : c.Reads lexeme c')
    (hp : c.Passes bytes c'.toPlace) (hq : d.Passes bytes d'.toPlace) (hhead : d'.rest.head? = c'.rest.head?)
    (hn : ¬ startsTrivium d'.rest) (hb : lexeme.token = .fixed "[" → LongBracket.level? d.rest = none)
    (hlast : d'.lastEnd = d.offset + lexeme.spelling.length) :
    d.Reads { lexeme with offset := d.offset } d' := by
  obtain ⟨p', hread, hspelling, hskip⟩ := h.token
  obtain ⟨trivia, ht, -, htrivia, -⟩ := Parse.skipTrivia_spelling hskip
  obtain rfl : bytes = lexeme.spelling ++ trivia := hp.unique (hspelling.trans htrivia)
  obtain ⟨hqs, hqt⟩ := hq.split
  refine ⟨rfl, _, hread.elsewhere hspelling hqs ?_ hb, hqs, ?_⟩
  · rw [hqt.rest, htrivia.rest]
    intro b hm
    rw [Option.mem_def, List.head?_append] at hm
    rw [List.head?_append]
    exact .inl (hhead ▸ hm)
  · exact Parse.skipTrivia_of_spelling (ht.congr hhead) hn hqt hlast

/-- A lexeme is read where the bytes from it up to a later place are put, if some of them are left behind it. -/
theorem Cursor.Reads.slice {source new : Bytes} {lexeme : Lexeme} {start next endPos last place lastEnd : Nat} {c : Cursor}
    (h : (⟨⟨source.drop start, start⟩, last⟩ : Cursor).Reads lexeme c) (hc : c.toPlace = ⟨source.drop next, next⟩)
    (hle : start ≤ next) (hlt : next < endPos) (hend : endPos ≤ source.length)
    (hn : ¬ startsTrivium (source.slice ⟨next + 1, endPos⟩ ++ new)) (hb : Unbracketed new) :
    (⟨⟨source.slice ⟨start + 1, endPos⟩ ++ new, place⟩, lastEnd⟩ : Cursor).Reads { lexeme with offset := place }
      ⟨⟨source.slice ⟨next + 1, endPos⟩ ++ new, place + (next - start)⟩, place + lexeme.spelling.length⟩ := by
  have hrest : source.slice ⟨start + 1, endPos⟩ ++ source.drop endPos = source.drop start := Bytes.slice_drop (by omega)
  have hothers : source.slice ⟨next + 1, endPos⟩ ++ source.drop endPos = source.drop next := Bytes.slice_drop (by omega)
  have hsplit : source.slice ⟨start + 1, next⟩ ++ source.slice ⟨next + 1, endPos⟩ = source.slice ⟨start + 1, endPos⟩ :=
    Bytes.slice_append (by omega) (by omega)
  have hfront : (source.slice ⟨start + 1, next⟩).length = next - start := Bytes.slice_length (by omega)
  have hlength : (source.slice ⟨next + 1, endPos⟩).length = endPos - next := Bytes.slice_length hend
  generalize source.slice ⟨start + 1, next⟩ = front at hsplit hfront
  generalize source.slice ⟨next + 1, endPos⟩ = others at hsplit hothers hlength hn ⊢
  generalize source.slice ⟨start + 1, endPos⟩ = text at hsplit hrest ⊢
  obtain rfl := hsplit
  have hpasses : (⟨source.drop start, start⟩ : Place).Passes front c.toPlace := by
    rw [hc]
    refine ⟨?_, by simp only [hfront]; omega⟩
    rw [← hrest, ← hothers, List.append_assoc]
  have hlevel : lexeme.token = .fixed "[" → LongBracket.level? (front ++ others ++ new) = none := by
    intro htoken
    obtain ⟨p', hread, -⟩ := h.token
    refine level?_unbracketed (hrest.symm ▸ (htoken ▸ hread).bracket) ?_ hb
    exact List.length_pos_iff.mp (by simp only [List.length_append]; omega)
  refine h.elsewhere hpasses ⟨List.append_assoc _ _ _, by simp only [hfront]⟩ ?_ hn hlevel rfl
  obtain ⟨b, tail, rfl⟩ : ∃ b tail, others = b :: tail := List.exists_cons_of_length_pos (by omega)
  rw [hc, ← hothers]
  rfl

theorem Ascending.covers {limit last : Nat} {lexemes : List Lexeme} (h : Ascending limit last lexemes) :
    ∀ lexeme ∈ lexemes, last ≤ lexeme.offset ∧ lexeme.spelling ≠ [] := by
  induction h with
  | nil => exact List.forall_mem_nil _
  | @cons last lexeme others hle hne _ ih =>
    refine List.forall_mem_cons.mpr ⟨⟨hle, hne⟩, fun other hm => ?_⟩
    obtain ⟨hle', hne'⟩ := ih other hm
    simp only [Lexeme.span] at hle'
    exact ⟨by omega, hne'⟩

theorem Stream.Ordered.behind {limit : Nat} {s : Stream} (h : s.Ordered limit) :
    ∀ lexeme ∈ s.lexemes, s.position ≤ lexeme.offset ∧ lexeme.spelling ≠ [] := by
  obtain ⟨lexemes, lastEnd, sourceEnd⟩ := s
  cases h.lexemes with
  | nil => exact List.forall_mem_nil _
  | @cons _ lexeme others hle hne ho =>
    refine List.forall_mem_cons.mpr ⟨⟨Nat.le_refl _, hne⟩, fun other hm => ?_⟩
    obtain ⟨hle', hne'⟩ := ho.covers other hm
    simp only [Lexeme.span] at hle'
    exact ⟨Nat.le_trans (Nat.le_add_right _ _) hle', hne'⟩

theorem Stream.Ordered.covers {limit : Nat} {s : Stream} (h : s.Ordered limit) (after place lastEnd sourceEnd : Nat) :
    (Excerpt.moved after s.position place lastEnd sourceEnd).Covers s := by
  intro lexeme hm
  obtain ⟨hle, hne⟩ := h.behind lexeme hm
  have hpos := List.length_pos_iff.mpr hne
  rw [Excerpt.moved_position (by omega), Excerpt.moved_position (by omega)]
  omega

theorem Lexed.head_reads {c : Cursor} {s : Stream} {lexeme : Lexeme} {others : List Lexeme} (h : Lexed c s)
    (hl : s.lexemes = lexeme :: others) :
    ∃ c', c.Reads lexeme c' ∧ Lexed c' ⟨others, lexeme.span.endPos, s.sourceEnd⟩ := by
  cases h with
  | done => cases hl
  | @read _ c' found s' hread hlexed =>
    obtain ⟨rfl, rfl⟩ := List.cons.inj hl
    obtain ⟨lexemes, lastEnd, sourceEnd⟩ := s'
    have hlast : lastEnd = found.span.endPos := hlexed.lastEnd.trans (lastEnd_of_reads hread)
    exact ⟨c', hread, hlast ▸ hlexed⟩

theorem Excerpt.stream_end {x : Excerpt} {s : Stream} (h : s.lexemes.length ≤ x.after) :
    x.stream s = ⟨x.tail, x.position s.lastEnd, x.sourceEnd⟩ :=
  congrArg (Stream.mk · (x.position s.lastEnd) x.sourceEnd) (Excerpt.lexemes_eq_tail h)

theorem Excerpt.stream_cons {x : Excerpt} {s s' : Stream} {lexeme : Lexeme} {place : Nat}
    (hl : s.lexemes = lexeme :: s'.lexemes) (ha : x.after ≤ s'.lexemes.length) (hx : x.position (lexeme.offset + 1) = place + 1) :
    x.stream s = ⟨{ lexeme with offset := place } :: (x.stream s').lexemes, x.position s.lastEnd, x.sourceEnd⟩ := by
  have hcount : s.lexemes.length - x.after = s'.lexemes.length - x.after + 1 := by
    rw [hl, List.length_cons]
    omega
  have hlexeme : x.lexeme lexeme = { lexeme with offset := place } := by rw [Excerpt.lexeme, hx, Nat.add_sub_cancel]
  simp only [Excerpt.stream]
  rw [hcount, hl, List.take_succ_cons, List.map_cons, List.cons_append, hlexeme]

theorem Stream.Reaches.last {s s' : Stream} (h : s.Reaches s') :
    s' = s ∨ ∃ m token span, s.Reaches m ∧ m.Takes token span s' := by
  induction h with
  | refl => exact .inl rfl
  | @take s m s' token span ht _ ih =>
    right
    rcases ih with rfl | ⟨last, token', span', hr, ht'⟩
    · exact ⟨s, token, span, .refl, ht⟩
    · exact ⟨last, token', span', .take ht hr, ht'⟩

theorem Stream.Takes.last {s m s' : Stream} {token : Token} {span : Span} (ht : s.Takes token span m) (h : m.Reaches s') :
    ∃ m' token' span', s.Reaches m' ∧ m'.Takes token' span' s' := by
  rcases h.last with rfl | ⟨m', token', span', hr, ht'⟩
  · exact ⟨s, token, span, .refl, ht⟩
  · exact ⟨m', token', span', .take ht hr, ht'⟩

theorem Lexed.standsIn {source front : Bytes} {c : Cursor} {s : Stream} (h : Lexed c s)
    (hp : (⟨source, 0⟩ : Place).Passes front c.toPlace) (hn : ¬ startsTrivium c.rest) (hc : c.lastEnd ≤ c.offset) :
    s.StandsIn source := by
  have hposition : s.position = front.length := h.position.trans (hp.offset.trans (Nat.zero_add _))
  obtain ⟨⟨rest, offset⟩, lastEnd⟩ := c
  obtain rfl : source = front ++ rest := hp.rest
  obtain rfl : offset = s.position := h.position.symm
  obtain rfl : lastEnd = s.lastEnd := h.lastEnd.symm
  have hdrop : (front ++ rest).drop s.position = rest := by rw [hposition, List.drop_left]
  refine ⟨hdrop.symm ▸ h, hdrop.symm ▸ hn, hc, ?_⟩
  rw [hposition, List.length_append]
  exact Nat.le_add_right _ _

namespace Stream.StandsIn
variable {source : Bytes} {s s' : Stream} {token : Token} {span : Span}

theorem ordered (h : s.StandsIn source) : s.Ordered source.length := by
  have ho := h.lexed.ordered h.next
  have hend : Place.sourceEnd ⟨source.drop s.position, s.position⟩ = source.length := by
    simp only [Place.sourceEnd, List.length_drop]
    exact Nat.add_sub_cancel' h.le
  exact hend ▸ ho

theorem takes (h : s.StandsIn source) (ht : s.Takes token span s') :
    s'.StandsIn source ∧ ∃ lexeme, s.lexemes = lexeme :: s'.lexemes ∧ lexeme.token = token ∧
      (⟨⟨source.drop s.position, s.position⟩, s.lastEnd⟩ : Cursor).Reads lexeme
        ⟨⟨source.drop s'.position, s'.position⟩, s'.lastEnd⟩ ∧
      source.slice ⟨s.position + 1, s'.lastEnd⟩ = lexeme.spelling ∧
      TriviaSpelling (source.drop s'.position) (source.slice ⟨s'.lastEnd + 1, s'.position⟩) := by
  obtain ⟨lexemes, lastEnd, sourceEnd⟩ := s'
  obtain ⟨lexeme, hl, rfl, rfl, rfl, rfl⟩ := ht
  obtain ⟨c', hreads, hlexed⟩ := h.lexed.head_reads hl
  generalize hs' : (⟨lexemes, lexeme.span.endPos, s.sourceEnd⟩ : Stream) = s' at hlexed ⊢
  obtain ⟨p', hread, hspelling, hskip⟩ := hreads.token
  obtain ⟨trivia, htrivia, hbare, hpasses, hlast⟩ := Parse.skipTrivia_spelling hskip
  have hall := hspelling.trans hpasses
  have hposition : s'.position = s.position + (lexeme.spelling ++ trivia).length := hlexed.position.trans hall.offset
  have hend : s'.lastEnd = s.position + lexeme.spelling.length := hlexed.lastEnd.trans (hlast.trans hspelling.offset)
  have hrest : source.drop s'.position = c'.rest := by
    rw [hposition, ← List.drop_drop]
    exact (congrArg (List.drop _) hall.rest).trans List.drop_left
  have hbehind : source.drop s'.lastEnd = trivia ++ source.drop s'.position := by
    rw [hrest, ← hpasses.rest, hend, ← List.drop_drop]
    exact (congrArg (List.drop _) hspelling.rest).trans List.drop_left
  have hslice : source.slice ⟨s'.lastEnd + 1, s'.position⟩ = trivia := by
    refine Bytes.slice_of_drop hbehind ?_
    rw [hposition, hend, List.length_append, Nat.add_assoc]
  obtain ⟨⟨rest, offset⟩, lastEnd⟩ := c'
  obtain rfl : offset = s'.position := hlexed.position.symm
  obtain rfl : lastEnd = s'.lastEnd := hlexed.lastEnd.symm
  obtain rfl : rest = source.drop s'.position := hrest.symm
  have hle : s'.lastEnd ≤ s'.position := by
    rw [hposition, hend, List.length_append]
    omega
  have hlength : s'.position ≤ source.length := by
    have hsource := h.le
    have hbytes := congrArg List.length hall.rest
    rw [List.length_drop, List.length_append] at hbytes
    omega
  refine ⟨⟨hlexed, hbare, hle, hlength⟩, lexeme, hs' ▸ hl, rfl, hreads, ?_, hslice ▸ htrivia⟩
  refine Bytes.slice_of_drop ?_ hend
  rw [hbehind]
  exact hall.rest.trans (List.append_assoc _ _ _)

theorem reaches (h : s.StandsIn source) (hr : s.Reaches s') : s'.StandsIn source := by
  induction hr with
  | refl => exact h
  | take ht _ ih => exact ih (h.takes ht).1

/-- A lexeme is read in front of the byte that it is read in front of, and in front of white space. -/
theorem precedes (h : s.StandsIn source) (ht : s.Takes token span s') {new : Bytes}
    (hn : Spaced (source.drop s'.lastEnd) new) (hb : Unbracketed new) : ∀ lexeme ∈ s.lexemes.head?, lexeme.Precedes new := by
  obtain ⟨-, lexeme, hl, -, hreads, hslice, -⟩ := h.takes ht
  obtain ⟨-, -, -, -, hlt⟩ := h.ordered.takes ht
  obtain ⟨p', hread, hspelling, -⟩ := hreads.token
  have hrest : lexeme.spelling ++ source.drop s'.lastEnd = source.drop s.position :=
    hslice ▸ Bytes.slice_drop (Nat.le_of_lt hlt)
  have hbehind : p'.rest = source.drop s'.lastEnd := List.append_cancel_left (hspelling.rest.symm.trans hrest.symm)
  intro other hm place
  rw [hl] at hm
  obtain rfl := Option.some.inj hm
  refine hread.elsewhere hspelling ⟨rfl, rfl⟩ (hbehind ▸ hn) fun htoken => ?_
  refine level?_unbracketed (hrest.symm ▸ (htoken ▸ hread).bracket) (hread.ne_nil hspelling) hb

variable {x : Excerpt} {m : Stream} {new : Bytes} {place lastEnd : Nat}

theorem placed (h : s.StandsIn source) (ht : s.Takes token span s')
    (hx : ∀ p, s.position < p → p ≤ s'.lastEnd → x.position p + s.position = p + place) :
    ∃ lexeme, s.lexemes = lexeme :: s'.lexemes ∧ x.position (lexeme.offset + 1) = place + 1 ∧
      x.position s'.lastEnd = place + lexeme.spelling.length ∧
      (⟨⟨source.drop s.position, s.position⟩, s.lastEnd⟩ : Cursor).Reads lexeme
        ⟨⟨source.drop s'.position, s'.position⟩, s'.lastEnd⟩ ∧
      source.slice ⟨s.position + 1, s'.lastEnd⟩ = lexeme.spelling := by
  obtain ⟨-, -, -, -, hlt⟩ := h.ordered.takes ht
  obtain ⟨-, lexeme, hl, -, hreads, hslice, -⟩ := h.takes ht
  have hoffset : lexeme.offset = s.position := hreads.offset
  have hend : s'.lastEnd = lexeme.offset + lexeme.spelling.length := Lexed.lastEnd_of_reads hreads
  refine ⟨lexeme, hl, ?_, ?_, hreads, hslice⟩
  · have hfirst := hx (lexeme.offset + 1) (by omega) (by omega)
    omega
  · have hlast := hx s'.lastEnd hlt (Nat.le_refl _)
    omega

/-- The bytes from one stream to another are cut into the lexemes in between where they are put by an
excerpt, if the last one is read there in front of what comes next. -/
theorem laid (h : s.StandsIn source) (hm : s.Reaches m) (ht : m.Takes token span s')
    (hp : ∀ lexeme ∈ m.lexemes.head?, lexeme.Precedes new) (hb : Unbracketed new)
    (hd : new.head? = some '-'.toUInt8 → (source.drop s'.lastEnd).head? = some '-'.toUInt8)
    (hx : ∀ p, s.position < p → p ≤ s'.lastEnd → x.position p + s.position = p + place)
    (hs : x.position s.lastEnd = lastEnd) (ha : x.after ≤ s'.lexemes.length)
    (hnew : Laid new (x.position s'.lastEnd) (x.position s'.lastEnd) (x.stream s')) :
    ¬ startsTrivium (source.slice ⟨s.position + 1, s'.lastEnd⟩ ++ new) ∧
      Lexed ⟨⟨source.slice ⟨s.position + 1, s'.lastEnd⟩ ++ new, place⟩, lastEnd⟩ (x.stream s) := by
  induction hm generalizing place lastEnd with
  | @refl s =>
    obtain ⟨-, -, -, -, hlt⟩ := h.ordered.takes ht
    obtain ⟨lexeme, hl, hfirst, hplace, hreads, hslice⟩ := h.placed ht hx
    obtain ⟨c, hskip, hlexed⟩ := hnew
    obtain ⟨p', hread, hspelling, -⟩ := hreads.token
    have hrest : lexeme.spelling ++ source.drop s'.lastEnd = source.drop s.position :=
      hslice ▸ Bytes.slice_drop (Nat.le_of_lt hlt)
    rw [hslice, Excerpt.stream_cons hl ha hfirst, hs]
    have hread' := hp lexeme (by rw [hl]; rfl) place
    have hreads' : (⟨⟨lexeme.spelling ++ new, place⟩, lastEnd⟩ : Cursor).Reads { lexeme with offset := place } c :=
      ⟨rfl, _, hread', ⟨rfl, rfl⟩, hplace ▸ hskip⟩
    exact ⟨not_startsTrivium_append (hrest ▸ h.bare) (hread.ne_nil hspelling) hd, .read hreads' hlexed⟩
  | @take s first m _ _ ht' hm ih =>
    obtain ⟨hfirst, -⟩ := h.takes ht'
    obtain ⟨ho, -, -, -, hlt⟩ := h.ordered.takes ht'
    obtain ⟨-, -, -, -, hlast⟩ := (hm.ordered ho).takes ht
    have hbehind := hm.position_le ho
    have hnext := ho.next
    have hs' := hfirst.reaches (hm.trans ht.reaches)
    have hsource := Nat.le_trans hs'.next hs'.le
    obtain ⟨lexeme, hl, hplace, hend, hreads, -⟩ := h.placed ht' fun p hp hle => hx p hp (by omega)
    have hothers : ∀ p, first.position < p → p ≤ s'.lastEnd →
        x.position p + first.position = p + (place + (first.position - s.position)) := by
      intro p hp hle
      have hmoved := hx p (by omega) hle
      omega
    obtain ⟨hbare, hlexed⟩ := ih hfirst ht hp hothers hend
    have hrest : source.slice ⟨s.position + 1, s'.lastEnd⟩ ++ source.drop s'.lastEnd = source.drop s.position :=
      Bytes.slice_drop (by omega)
    have hlength : (source.slice ⟨s.position + 1, s'.lastEnd⟩).length = s'.lastEnd - s.position :=
      Bytes.slice_length hsource
    have hne : source.slice ⟨s.position + 1, s'.lastEnd⟩ ≠ [] := List.length_pos_iff.mp (by omega)
    rw [Excerpt.stream_cons hl (Nat.le_trans ha (hm.trans ht.reaches).length_le) hplace, hs]
    exact ⟨not_startsTrivium_append (hrest.symm ▸ h.bare) hne hd,
      .read (hreads.slice rfl (by omega) (by omega) hsource hbare hb) hlexed⟩

end Stream.StandsIn

end LuaSyntax
