import LuaSyntax.Proofs.Excerpt.Chunk
import LuaSyntax.Proofs.Swap.Lays
import LuaSyntax.Proofs.Swap.Statement

/-! # Sources in which a part is written otherwise

A source is read from its start to some place as before if a space and another text are put behind
that place. Where the text is cut into tokens that are read as a node of the same outline, the new
source parses to a tree of the same outline.
-/
namespace LuaSyntax
variable {κ : Type}

open Phrase

/-- Under every nesting limit that is large enough a source parses to a tree. -/
def Bytes.AcceptedAs (source : Bytes) (root : Node) : Prop :=
  ∃ levels, ∀ limit ≥ levels, ∀ filename, parse source limit filename = .ok root

/-- A source with the bytes of a span replaced by a text. -/
def Bytes.replace (source : Bytes) (span : Span) (text : Bytes) : Bytes :=
  source.take (span.pos - 1) ++ text ++ source.drop span.endPos

/-- Between two offsets of a source there are only white space and comments. -/
structure Bytes.OnlyTrivia (source : Bytes) (first last : Nat) : Prop where
  le : first ≤ last
  trivia : TriviaSpelling (source.drop last) (source.slice ⟨first + 1, last⟩)

theorem Excerpt.covers_of_id {x : Excerpt} (h : x.position = id) (s : Stream) : x.Covers s := by
  intro lexeme _
  rw [h]
  simp only [id]
  omega

/-- A first line is skipped in front of any text that goes on with a space where no trivia are. -/
theorem Shebang.withSpace {line front old : Bytes} (h : Shebang line (front ++ old)) (hne : old ≠ [])
    (hn : ¬ startsTrivium old) (text : Bytes) : Shebang line (front ++ ' '.toUInt8 :: text) := by
  cases front with
  | nil =>
    cases h with
    | absent _ => exact .absent fun hh => absurd (Option.some.inj hh) (by decide)
    | line _ _ hend =>
      rcases hend with hend | hend
      · exact (hne hend).elim
      · refine (hn ?_).elim
        rw [startsTrivium, show old.head? = some lineFeed from hend]
        rfl
  | cons b others =>
    cases h with
    | absent hh => exact .absent hh
    | line hm hl hend => exact .line hm hl (.inr (hend.resolve_left (List.cons_ne_nil b _)))

section Streams
variable {source text : Bytes} {kind : Stream → Prop} {s s' : Stream}

theorem Stream.StandsIn.onlyTrivia {token : Token} {span : Span} (h : s.StandsIn source) (ht : s.Takes token span s') :
    source.OnlyTrivia s'.lastEnd s'.position := by
  obtain ⟨hs', -, -, -, -, -, htrivia⟩ := h.takes ht
  exact ⟨hs'.next, htrivia⟩

/-- Where something has been read, there are only trivia in front of the next token. -/
theorem Stream.StandsIn.onlyTrivia_of_reaches (h : s.StandsIn source) (hr : s.Reaches s') (hne : s'.lastEnd ≠ s.lastEnd) :
    source.OnlyTrivia s'.lastEnd s'.position := by
  rcases hr.last with rfl | ⟨m, token, span, hm, ht⟩
  · exact (hne rfl).elim
  · exact (h.reaches hm).onlyTrivia ht

/-- The bytes from one stream to another, with the trivia in front of the latter, in front of a space
and a text. -/
theorem Stream.StandsIn.laid_front (h : s.StandsIn source) (hr : s.Reaches s') (hne : s'.lexemes ≠ [])
    (hl : Lays text kind) :
    ∃ x : Excerpt, x.position = id ∧ x.after = s'.lexemes.length ∧ kind (x.stream s') ∧
      Laid (source.slice ⟨s.position + 1, s'.position⟩ ++ ' '.toUInt8 :: text) s.position s.lastEnd (x.stream s) := by
  have hs' := h.reaches hr
  obtain ⟨S, hlaid, hkind⟩ := hl (s'.position + 1) s'.lastEnd
  let x : Excerpt := ⟨s'.lexemes.length, id, S.lexemes, S.sourceEnd⟩
  have hstream : x.stream s' = S := by
    rw [Excerpt.stream_end (Nat.le_refl _), show x.position s'.lastEnd = S.lastEnd from hlaid.lastEnd_eq.symm]
  have hspace : Laid (' '.toUInt8 :: text) s'.position s'.lastEnd (x.stream s') :=
    hstream.symm ▸ .withTrivia (triviaSpelling_space text) hlaid
  refine ⟨x, rfl, rfl, hstream.symm ▸ hkind, ?_⟩
  rcases hr.last with rfl | ⟨m, token, span, hm, ht⟩
  · rwa [Bytes.slice_nil (Nat.le_refl _), List.nil_append]
  · obtain ⟨-, -, -, -, -, -, htrivia⟩ := (h.reaches hm).takes ht
    obtain ⟨-, -, -, -, hlt⟩ := (hm.ordered h.ordered).takes ht
    have hle := hm.position_le h.ordered
    have hnext := hs'.next
    have hlength : (source.slice ⟨s'.lastEnd + 1, s'.position⟩).length = s'.position - s'.lastEnd :=
      Bytes.slice_length hs'.le
    have hdrop : source.slice ⟨s'.lastEnd + 1, s'.position⟩ ++ source.drop s'.position = source.drop s'.lastEnd :=
      Bytes.slice_drop hnext
    rw [← Bytes.slice_append (by omega : s.position ≤ s'.lastEnd) hnext, List.append_assoc]
    generalize source.slice ⟨s'.lastEnd + 1, s'.position⟩ = trivia at htrivia hlength hdrop ⊢
    have hspaced : Spaced (source.drop s'.lastEnd) (trivia ++ ' '.toUInt8 :: text) ∧
        Unbracketed (trivia ++ ' '.toUInt8 :: text) ∧
        ((trivia ++ ' '.toUInt8 :: text).head? = some '-'.toUInt8 → (source.drop s'.lastEnd).head? = some '-'.toUInt8) := by
      cases trivia with
      | nil =>
        refine ⟨?_, ?_, fun hd => absurd (Option.some.inj hd) (by decide)⟩
        · intro b hb
          obtain rfl := Option.some.inj hb
          exact .inr (by decide)
        · intro b hb
          obtain rfl := Option.some.inj hb
          decide
      | cons c others =>
        rw [← hdrop]
        refine ⟨fun b hb => .inl hb, fun b hb => ?_, id⟩
        rcases htrivia.head b hb with hspace | rfl
        · constructor <;> exact fun heq => absurd hspace (heq ▸ by decide)
        · decide
    obtain ⟨hspaced, hopen, hdash⟩ := hspaced
    have hbehind : Laid (trivia ++ ' '.toUInt8 :: text) (x.position s'.lastEnd) (x.position s'.lastEnd) (x.stream s') := by
      refine .withTrivia (htrivia.before (fun hnil => hne (hs'.lexed.nil_iff.mpr hnil)) hs'.bare _) ?_
      rw [hlength, show x.position s'.lastEnd + (s'.position - s'.lastEnd) = s'.position from Nat.add_sub_cancel' hnext]
      exact hspace
    obtain ⟨hbare, hlexed⟩ := h.laid hm ht ((h.reaches hm).precedes ht hspaced hopen) hopen hdash
      (fun p _ _ => rfl) rfl (Nat.le_refl _) hbehind
    exact .of_lexed hbare hlexed

end Streams

section Sources
variable {source : Bytes} {limit : Nat} {filename : String} {root : Node}

/-- The bytes of a source up to a stream, in front of a space and a text, are cut into the same lexemes,
and parse to whatever is read from them and those of the text. -/
theorem parse_front (h : parse source limit filename = .ok root) :
    ∃ whole : Stream, whole.StandsIn source ∧ whole.lastEnd = 0 ∧ Chunk limit whole root ∧
      ∀ s text kind, whole.Reaches s → s.lexemes ≠ [] → Lays text kind →
        ∃ x : Excerpt, x.position = id ∧ x.after = s.lexemes.length ∧ kind (x.stream s) ∧
          ∀ levels filename' root', Chunk levels (x.stream whole) root' →
            parse (source.take s.position ++ ' '.toUInt8 :: text) levels filename' = .ok root' := by
  obtain ⟨m, whole, hskip, hlexed, hchunk⟩ := parse_eq_ok.mp h
  obtain ⟨line, hline, hpasses, hstart⟩ := skipShebang_spelling source
  obtain ⟨trivia, htrivia, hn, hpasses', hlast⟩ := Parse.skipTrivia_spelling hskip
  have hfront := hpasses.trans hpasses'
  have hstands := hlexed.standsIn hfront hn (by omega)
  have hzero : whole.lastEnd = 0 := hlexed.lastEnd.trans (hlast.trans hstart)
  have hposition : whole.position = (line ++ trivia).length := hlexed.position.trans (hfront.offset.trans (Nat.zero_add _))
  have hsource : source = line ++ trivia ++ m.rest := hfront.rest
  have hdrop : source.drop whole.position = m.rest := by rw [hposition, hsource, List.drop_left]
  refine ⟨whole, hstands, hzero, hchunk, ?_⟩
  intro s text kind hr hne hl
  have hs := hstands.reaches hr
  have hbehind : source.drop s.position ≠ [] := fun hnil => hne (hs.lexed.nil_iff.mpr hnil)
  obtain ⟨x, hid, hafter, hkind, hlaid⟩ := hstands.laid_front hr hne hl
  refine ⟨x, hid, hafter, hkind, fun levels filename' root' hroot => ?_⟩
  have hle := hr.position_le hstands.ordered
  have hrest : source.slice ⟨whole.position + 1, s.position⟩ ++ source.drop s.position = m.rest :=
    (Bytes.slice_drop hle).trans hdrop
  have hlength : (source.slice ⟨whole.position + 1, s.position⟩).length = s.position - whole.position :=
    Bytes.slice_length hs.le
  generalize source.slice ⟨whole.position + 1, s.position⟩ = front at hlaid hrest hlength
  have htake : source.take s.position = line ++ (trivia ++ front) := by
    have hsplit : source = line ++ (trivia ++ front) ++ source.drop s.position := by
      rw [List.append_assoc, List.append_assoc, hrest, ← List.append_assoc]
      exact hsource
    rw [List.length_append] at hposition
    have hcount : (line ++ (trivia ++ front)).length = s.position := by
      simp only [List.length_append]
      omega
    exact (congrArg (List.take s.position) hsplit).trans (List.take_left' hcount)
  have hshebang : Shebang line ((trivia ++ front) ++ ' '.toUInt8 :: text) := by
    have htail : (Grammar.skipShebang (.start source)).rest = (trivia ++ front) ++ source.drop s.position := by
      rw [List.append_assoc, hrest]
      exact hpasses'.rest
    exact (htail ▸ hline).withSpace hbehind hs.bare text
  have hnonempty : m.rest ≠ [] := hrest ▸ List.append_ne_nil_of_right_ne_nil _ hbehind
  have hwhole : Laid (trivia ++ (front ++ ' '.toUInt8 :: text)) line.length 0 (x.stream whole) := by
    refine .withTrivia (htrivia.before hnonempty hn _) ?_
    rw [← List.length_append, ← hposition, ← hzero]
    exact hlaid
  obtain ⟨c, hskip', hlexed'⟩ := hwhole
  rw [htake, List.append_assoc, parse_eq_ok]
  refine ⟨c, _, ?_, hlexed', hroot⟩
  rw [skipShebang_of_spelling hshebang, List.append_assoc]
  exact hskip'

/-- In a parsed source, the place where a node is read may hold other tokens, which are read as a node of
the same outline. What is written for them goes on to the end of the source. -/
theorem parse_swapped {key : Node → κ} {n : Node} (h : parse source limit filename = .ok root)
    (ho : Node.Outlines key) (hn : n.tag.isSwappable) (hin : n.Inside root) :
    ∃ (whole : Stream) (slot : Slot) (levels : Nat) (first last : Stream), whole.StandsIn source ∧ whole.lastEnd = 0 ∧
      whole.Reaches first ∧ slot.Reads (phrases levels) n first last ∧
      ∀ s text kind, first.Reaches s → s.lexemes ≠ [] → Lays text kind →
        (∀ x : Excerpt, x.position = id → x.after = s.lexemes.length → kind (x.stream s) →
          ¬ (x.stream s).Next slot.kinds ∧ ∃ back : Excerpt, back.Whole ∧ back.Covers last ∧
            slot.Fills key (phrases (levels + 1)) n (x.stream first) (back.stream last)) →
        ∃ root', Bytes.AcceptedAs (source.take s.position ++ ' '.toUInt8 :: text) root' ∧ key root' = key root := by
  obtain ⟨whole, hstands, hzero, ⟨listed, s', hlisted, hnil, rfl⟩, hparse⟩ := parse_front h
  obtain ⟨v, hm, hv⟩ := (Node.inside_mk hn rfl).mp hin
  obtain ⟨slot, levels, first, last, hfirst, hlast, hreads, hfill⟩ :=
    (swaps_statements (phrases_swaps ho hn limit)).finds trivial hlisted ⟨v, hm, hv⟩
  refine ⟨whole, slot, levels, first, last, hstands, hzero, hfirst, hreads, ?_⟩
  intro s text kind hs hne hlays hfills
  obtain ⟨x, hid, hafter, hkind, hparses⟩ := hparse s text kind (hfirst.trans hs) hne hlays
  obtain ⟨hnext, back, hwhole, hcovers, hslot⟩ := hfills x hid hafter hkind
  have hfits : Swap.Fits ⟨x, back⟩ first last := ⟨hid, hafter ▸ hs.length_le, hwhole, hcovers⟩
  have hapart : x.Apart slot.kinds := by
    intro lexeme hm hk
    refine hnext ⟨lexeme.token, ?_, hk⟩
    rw [Stream.next?, Excerpt.lexemes_eq_tail (Nat.le_of_eq hafter.symm), hm]
    rfl
  obtain ⟨-, listed', hlisted', hkey⟩ := hfill ⟨x, back⟩ hfits (Excerpt.covers_of_id hid _) hapart hslot
  have hend : (back.stream s').lexemes = [] := by
    rw [Excerpt.lexemes_eq_tail (by rw [hnil]; exact Nat.zero_le _), hwhole.tail]
  have hblock : key ⟨.block listed', 1, max 1 (x.stream whole).sourceEnd⟩ = key ⟨.block listed, 1, max 1 whole.sourceEnd⟩ :=
    ho.congr (congrArg Form.block hkey)
  have hchunk : Chunk (limit + 1) (x.stream whole) ⟨.block listed', 1, max 1 (x.stream whole).sourceEnd⟩ :=
    ⟨_, _, hlisted', hend, rfl⟩
  exact ⟨_, ⟨limit + 1, fun _ hle filename' => parse_of_le (hparses _ filename' _ hchunk) hle⟩, hblock⟩

end Sources

end LuaSyntax
