import LuaSyntax.Proofs.Excerpt.Source
import LuaSyntax.Proofs.Rescan.Source
import LuaSyntax.Proofs.Excerpt.Span
import LuaSyntax.Proofs.Need.Chunk
import LuaSyntax.Proofs.View.Rows

/-! # Parsing excerpts

The source text of a statement, of a block or of an expression parses on its own to the same
tree, moved to where the text begins.
-/
namespace LuaSyntax

open Phrase

theorem reads_return {text : Bytes} (hn : ¬ startsTrivium text) :
    (⟨⟨.ofString "return " ++ text, 0⟩, 0⟩ : Cursor).Reads ⟨.fixed "return", 0, .ofString "return"⟩
      ⟨⟨text, 7⟩, 6⟩ := by
  have hword : startsWith (.ofString "return") (joins "return") (.ofString "return " ++ text) := by
    refine startsWith_iff.mpr ⟨⟨' '.toUInt8 :: text, rfl⟩, fun b hb => ?_⟩
    obtain rfl : ' '.toUInt8 = b := Option.some.inj hb
    decide
  refine ⟨rfl, ⟨' '.toUInt8 :: text, 6⟩, .fixed (by decide) hword nofun, ⟨rfl, rfl⟩, ?_⟩
  have hblank : TriviumSpelling ([] ++ text) [' '.toUInt8] :=
    .space (List.forall_mem_singleton.mpr (by decide)) (List.cons_ne_nil _ _)
  have hspace : TriviaSpelling text [' '.toUInt8] := .more hblank .none
  exact Parse.skipTrivia_of_spelling hspace hn ⟨rfl, rfl⟩ rfl

theorem parse_of_le {source : Bytes} {levels more : Nat} {filename : String} {root : Node}
    (h : parse source levels filename = .ok root) (hle : levels ≤ more) :
    parse source more filename = .ok root := by
  obtain ⟨hfits, hmore⟩ := parse_fits h
  exact hmore more (Nat.le_trans hfits hle)

/-- A text begins and ends with the tokens between two streams, and is cut into them wherever
it stands alone. -/
structure Cuts (text : Bytes) (s s' : Stream) : Prop where
  trivia : ¬ startsTrivium text
  length : s.position + text.length = s'.lastEnd
  lexed : ∀ place lastEnd, Lexed ⟨⟨text, place⟩, lastEnd⟩
    ((Excerpt.moved s'.lexemes.length s.position place lastEnd (place + text.length)).stream s)

namespace Stream.StandsIn
variable {source : Bytes} {s s' : Stream}

theorem cuts (h : s.StandsIn source) (hr : s.Reaches s') (hlt : s.position < s'.lastEnd) :
    Cuts (source.slice ⟨s.position + 1, s'.lastEnd⟩) s s' := by
  have hs' := h.reaches hr
  have hlength : (source.slice ⟨s.position + 1, s'.lastEnd⟩).length = s'.lastEnd - s.position :=
    Bytes.slice_length (Nat.le_trans hs'.next hs'.le)
  have hlaid (place lastEnd : Nat) :
      ¬ startsTrivium (source.slice ⟨s.position + 1, s'.lastEnd⟩ ++ []) ∧
        Lexed ⟨⟨source.slice ⟨s.position + 1, s'.lastEnd⟩ ++ [], place⟩, lastEnd⟩
          ((Excerpt.moved s'.lexemes.length s.position place lastEnd (place + (s'.lastEnd - s.position))).stream s) := by
    rcases hr.last with rfl | ⟨m, token, span, hm, ht⟩
    · have hnext := h.next
      omega
    · have hback : (Excerpt.moved s'.lexemes.length s.position place lastEnd
          (place + (s'.lastEnd - s.position))).position s'.lastEnd = place + (s'.lastEnd - s.position) := by
        rw [Excerpt.moved_position hlt]
        omega
      refine h.laid hm ht ((h.reaches hm).precedes ht nofun nofun) nofun nofun ?_ (if_pos h.next) (Nat.le_refl _) ?_
      · intro p hp _
        rw [Excerpt.moved_position hp]
        omega
      · refine ⟨_, skipTrivia_nil _ _, ?_⟩
        have hend := Excerpt.stream_end (Nat.le_refl (Excerpt.moved s'.lexemes.length s.position place lastEnd
          (place + (s'.lastEnd - s.position))).after)
        rw [hend, hback]
        exact .done rfl
  refine ⟨?_, by omega, fun place lastEnd => ?_⟩
  · have hbare := (hlaid 0 0).1
    rwa [List.append_nil] at hbare
  · have hlexed := (hlaid place lastEnd).2
    rwa [List.append_nil, ← hlength] at hlexed

end Stream.StandsIn

namespace Cuts
variable {text : Bytes} {size levels : Nat} {filename : String} {s s' : Stream} {v : Node} {listed : List Node}

theorem parse_series (hc : Cuts text s s') (ho : s.Ordered size) (h : Series (phrases levels) s listed s') :
    parse text levels filename = .ok ⟨.block (listed.map (Node.moved (s.position + 1) 1)), 1, text.length⟩ := by
  obtain ⟨hlt, hlies⟩ := series_lies ho h
  have hlength := hc.length
  let x : Excerpt := .moved s'.lexemes.length s.position 0 0 (0 + text.length)
  have hmoved : listed.map x.node = listed.map (Node.moved (s.position + 1) 1) := by
    refine List.map_congr_left fun v hv => ?_
    obtain ⟨hspanned, hpos⟩ := hlies v hv
    exact Excerpt.node_eq_moved hspanned hpos
  obtain ⟨-, hcarried⟩ := carries_series (x := x) (phrases_carries levels 0) rfl h
  have hseries := hcarried (ho.covers _ _ _ _) (.of_tail rfl (Nat.le_refl _))
  have hend : (x.stream s').lexemes = [] := Excerpt.lexemes_eq_tail (Nat.le_refl _)
  refine parse_of_lexed (hc.lexed 0 0) hc.trivia ?_
  refine ⟨_, _, hseries.statements hend, hend, ?_⟩
  have hsize : max 1 (0 + text.length) = text.length := by omega
  rw [hmoved]
  simp only [Excerpt.stream, Excerpt.moved, hsize]

theorem parse_open (hc : Cuts text s s') (ho : s.Ordered size) (h : Open (phrases levels) s v s') :
    parse (.ofString "return " ++ text) (levels + 1) filename =
      .ok ⟨.block [⟨.returnValues [v.moved (s.position + 1) 8], 1, 7 + text.length⟩], 1, 7 + text.length⟩ := by
  obtain ⟨-, -, hpos, -, hlt, hspanned⟩ := open_spans ho h
  have hlength := hc.length
  let x : Excerpt := .moved s'.lexemes.length s.position 7 6 (7 + text.length)
  have hmoved : x.node v = v.moved (s.position + 1) 8 := Excerpt.node_eq_moved hspanned (hpos ▸ Nat.lt_succ_self _)
  obtain ⟨hreach, hcarried⟩ := carries_open (x := x) (phrases_carries levels 0) h
  have hopen := hcarried (ho.covers _ _ _ _) (.of_tail rfl (Nat.le_refl _))
  have hend : (x.stream s').lexemes = [] := Excerpt.lexemes_eq_tail (Nat.le_refl _)
  have hlast : (x.stream s').lastEnd = 7 + text.length := by
    have hposition : x.position s'.lastEnd = s'.lastEnd + 7 - s.position := Excerpt.moved_position hlt
    have hstream : (x.stream s').lastEnd = x.position s'.lastEnd := rfl
    omega
  obtain ⟨whole, hwhole, htakes⟩ := Lexed.read_takes (reads_return hc.trivia) (hc.lexed 7 6)
  have hnot (kinds : List Kind) : ¬ (x.stream s').Next kinds := Stream.not_next_of_nil hend
  have hreturn : ReturnStatement (phrases (levels + 1)) whole ⟨.returnValues [x.node v], 1, 7 + text.length⟩
      (x.stream s') := by
    refine ⟨_, _, htakes, some [x.node v], x.stream s', ?_, none, ⟨hnot _, rfl⟩, ?_⟩
    · exact ⟨_, _, hopen.expression hend, [], ⟨.nil, hnot _⟩, rfl⟩
    · rw [hlast]
      rfl
  have hstarts : ¬ startsTrivium (.ofString "return " ++ text) := (Bool.not_eq_true _).mpr rfl
  refine parse_of_lexed hwhole hstarts ⟨_, _, (Series.ret hreturn).statements hend, hend, ?_⟩
  have hsize : whole.sourceEnd = 7 + text.length := by
    rw [hwhole.sourceEnd]
    exact (Nat.zero_add _).trans List.length_append
  rw [hmoved, hsize, Nat.max_eq_right (by omega)]

end Cuts

section Sources
variable {source : Bytes} {limit : Nat} {filename : String} {root : Node}

/-- The tree of a source has all its nodes read in one stream, and between any two places of
the stream stands the slice of the source from one to the other. -/
theorem parse_cuts (h : parse source limit filename = .ok root) :
    ∃ whole : Stream, whole.Ordered source.length ∧ Derives whole limit .other root ∧
      ∀ s s', whole.Reaches s → s.Reaches s' → s.position < s'.lastEnd →
        Cuts (source.slice ⟨s.position + 1, s'.lastEnd⟩) s s' := by
  obtain ⟨m, whole, hskip, hlexed, hchunk⟩ := parse_eq_ok.mp h
  obtain ⟨line, -, hline, hlast⟩ := skipShebang_spelling source
  obtain ⟨trivia, -, hn, htrivia, hlast'⟩ := Parse.skipTrivia_spelling hskip
  have hstands := hlexed.standsIn (hline.trans htrivia) hn (by omega)
  have ho := hstands.ordered
  refine ⟨whole, ho, ?_, fun s s' hs hr hlt => (hstands.reaches hs).cuts hr hlt⟩
  obtain ⟨listed, s', hlisted, -, rfl⟩ := hchunk
  refine .mk trivial (List.forall_mem_map.mpr ?_)
  exact derives_statements (Nat.le_refl _) (phrases_derive ho (Nat.le_refl _)) .refl hlisted

/-- What spans delimit parses on its own. The text of a statement parses to the statement, that
of a block below the root to its statements, and that of an expression to it after `return`,
moved to where the text begins and under at most one nesting level more. -/
theorem parse_slice (h : parse source limit filename = .ok root) :
    (∀ n, Node.Occurs .other root .statement n →
      parse (source.slice n.span) (limit + 1) filename =
        .ok ⟨.block [n.moved n.span.pos 1], 1, n.span.endPos + 1 - n.span.pos⟩) ∧
    (∀ n, Node.Occurs .other root .block n → n.children ≠ [] →
      parse (source.slice n.span) (limit + 1) filename =
        .ok ⟨.block (n.children.map (Node.moved n.span.pos 1)), 1, n.span.endPos + 1 - n.span.pos⟩) ∧
    ∀ n, Node.Occurs .other root .expression n →
      parse (.ofString "return " ++ source.slice n.span) (limit + 1) filename =
        .ok ⟨.block [⟨.returnValues [n.moved n.span.pos 8], 1, 7 + (n.span.endPos + 1 - n.span.pos)⟩], 1,
          7 + (n.span.endPos + 1 - n.span.pos)⟩ := by
  obtain ⟨whole, ho, hderives, hcuts⟩ := parse_cuts h
  have hseries {levels : Nat} {s s' : Stream} {listed : List Node} {span : Span} (hk : levels ≤ limit)
      (hs : whole.Reaches s) (hseries : Series (phrases levels) s listed s') (hspan : span = ⟨s.position + 1, s'.lastEnd⟩) :
      parse (source.slice span) (limit + 1) filename =
        .ok ⟨.block (listed.map (Node.moved span.pos 1)), 1, span.endPos + 1 - span.pos⟩ := by
    have hso := hs.ordered ho
    obtain ⟨hlt, -⟩ := series_lies hso hseries
    obtain ⟨hr, -⟩ := carries_series (x := default) (phrases_carries levels 0) rfl hseries
    have hcut := hcuts s s' hs hr hlt
    have hlength := hcut.length
    subst hspan
    have hsize : s'.lastEnd + 1 - (s.position + 1) = (source.slice ⟨s.position + 1, s'.lastEnd⟩).length := by omega
    simp only [hsize]
    exact parse_of_le (hcut.parse_series hso hseries) (Nat.le_succ_of_le hk)
  refine ⟨fun n hn => ?_, fun n hn hne => ?_, fun n hn => ?_⟩
  · obtain ⟨levels, hk, s, s', hs, hv⟩ := hderives _ _ hn
    have hcover := series_spans (hs.ordered ho) hv
    exact hseries hk hs hv (Option.some.inj hcover)
  · obtain ⟨levels, hk, s, s', hs, hv, hspan⟩ := (hderives _ _ hn).1 hne
    exact hseries hk hs hv hspan
  · obtain ⟨levels, hk, s, s', hs, hv⟩ := hderives _ _ hn
    have hso := hs.ordered ho
    obtain ⟨-, -, hpos, hend, hlt, -⟩ := open_spans hso hv
    obtain ⟨hr, -⟩ := carries_open (x := default) (phrases_carries levels 0) hv
    have hcut := hcuts s s' hs hr hlt
    have hlength := hcut.length
    have hspan : n.span = ⟨s.position + 1, s'.lastEnd⟩ := by rw [← hpos, ← hend]
    rw [hspan]
    have hsize : s'.lastEnd + 1 - (s.position + 1) = (source.slice ⟨s.position + 1, s'.lastEnd⟩).length := by omega
    simp only [hsize]
    exact parse_of_le (hcut.parse_open hso hv) (Nat.succ_le_succ hk)

theorem parse_slice_argument :
    parse (.ofString "g()") 5 "" = .ok ⟨.block [⟨.call ⟨.name (.ofString "g"), 1, 1⟩ [], 1, 3⟩], 1, 3⟩ ∧
    parse (.ofString "f(a.b) g()") 5 "" = .ok ⟨.block [
      ⟨.call ⟨.name (.ofString "f"), 1, 1⟩ [⟨.index ⟨.name (.ofString "a"), 3, 3⟩ ⟨.string (.ofString "b"), 5, 5⟩, 3, 5⟩],
        1, 6⟩,
      ⟨.call ⟨.name (.ofString "g"), 8, 8⟩ [], 8, 10⟩], 1, 10⟩ ∧
    parse (.ofString "return a.b") 5 "" =
      .ok ⟨.block [⟨.returnValues [⟨.index ⟨.name (.ofString "a"), 8, 8⟩ ⟨.string (.ofString "b"), 10, 10⟩, 8, 10⟩],
        1, 10⟩], 1, 10⟩ := by
  let argument : Node := ⟨.index ⟨.name (.ofString "a"), 6, 6⟩ ⟨.string (.ofString "b"), 8, 8⟩, 6, 8⟩
  let first : Node := ⟨.call ⟨.name (.ofString "f"), 4, 4⟩ [argument], 4, 9⟩
  let second : Node := ⟨.call ⟨.name (.ofString "g"), 11, 11⟩ [], 11, 13⟩
  let body : Node := ⟨.block [first, second], 4, 13⟩
  let outer : Node := ⟨.doBlock body, 1, 17⟩
  have hparse : parse (.ofString "do f(a.b) g() end") 4 "" = .ok ⟨.block [outer], 1, 17⟩ := ok_of_toOption (by decide +kernel)
  obtain ⟨hstatement, hblock, hexpression⟩ := parse_slice hparse
  have houter {found : Standing} {n : Node} (h : Node.Occurs .block body found n) :
      Node.Occurs .other ⟨.block [outer], 1, 17⟩ found n := .inner (.head _) (.inner (.head _) h)
  have hsecond := hstatement second (houter (.inner (.tail _ (.head _)) .root))
  have hbody := hblock body (houter .root) nofun
  have hargument := hexpression argument (houter (.inner (.head _) (.inner (.tail _ (.head _)) .root)))
  exact ⟨hsecond, hbody, hargument⟩

end Sources

end LuaSyntax
