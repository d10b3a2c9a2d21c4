import LuaSyntax.Proofs.Excerpt.Statement
import LuaSyntax.Proofs.Excerpt.Source
import LuaSyntax.Proofs.Rescan.Source

/-! # Sources with other white space and comments

Between the tokens of a source all white space and all comments may be replaced by others, as
long as white space comes first after every token. Every symbol is then followed by white space,
which is part of no longer one, and so the same tokens are read in other places.
-/
namespace LuaSyntax

open Phrase

/-- White space and comments that end where they stand: every long comment is closed, and every
other comment ends with its line. -/
inductive CompleteTrivia : Bytes → Prop
  | none : CompleteTrivia []
  | space {b : UInt8} {others : Bytes} (hb : isSpace b) (ho : CompleteTrivia others) : CompleteTrivia (b :: others)
  | line {text others : Bytes} (hl : ∀ b ∈ text, b ≠ lineFeed) (hb : LongBracket.level? text = none)
      (ho : CompleteTrivia others) : CompleteTrivia (commentMark ++ text ++ lineFeed :: others)
  | long {text content others : Bytes} (ht : LongBracket.Spelling text content) (ho : CompleteTrivia others) :
      CompleteTrivia (commentMark ++ text ++ others)

/-- What may stand between any two tokens. -/
structure Separator (text : Bytes) : Prop where
  complete : CompleteTrivia text
  space : text.head?.any isSpace

/-- What may stand in front of the first token. -/
inductive Leading : Bytes → Prop
  | trivia {text : Bytes} (h : CompleteTrivia text) : Leading text
  | line {text others : Bytes} (hm : text.head? = some '#'.toUInt8) (hl : ∀ b ∈ text, b ≠ lineFeed)
      (ho : CompleteTrivia others) : Leading (text ++ lineFeed :: others)

/-- Lexemes written one after the other, with a separator between any two of them and after the
last one a separator or nothing. -/
inductive Relaid : List Lexeme → Bytes → Prop
  | nil : Relaid [] []
  | cons {lexeme : Lexeme} {others : List Lexeme} {separator text : Bytes}
      (hs : Separator separator ∨ others = [] ∧ separator = []) (ho : Relaid others text) :
      Relaid (lexeme :: others) (lexeme.spelling ++ (separator ++ text))

/-- The lexemes that are read from the start of a source to its end. -/
def Bytes.CutInto (source : Bytes) (lexemes : List Lexeme) : Prop :=
  ∃ m, Parse.skipTrivia (Grammar.skipShebang (.start source)) = .ok () m ∧ Lexed m ⟨lexemes, 0, source.length⟩

theorem isSpace_lineFeed : isSpace lineFeed := by decide

/-- Complete trivia are trivia whatever follows them. -/
theorem CompleteTrivia.spelling {text tail : Bytes} (h : CompleteTrivia text) : TriviaSpelling tail text := by
  have hspace {b : UInt8} (hb : isSpace b) (tail : Bytes) : TriviumSpelling tail [b] :=
    .space (List.forall_mem_singleton.mpr hb) (List.cons_ne_nil b [])
  induction h with
  | none => exact .none
  | @space b others hb _ ih => exact .more (hspace hb _) ih
  | @line text others hl hb _ ih =>
    have hbreak : TriviaSpelling tail (lineFeed :: others) := .more (hspace isSpace_lineFeed _) ih
    exact .more (.line hl hb (.inr rfl)) hbreak
  | long ht _ ih => exact .more (.long ht) ih

theorem CompleteTrivia.head_ne_hash {text : Bytes} (h : CompleteTrivia text) : text.head? ≠ some '#'.toUInt8 := by
  intro hh
  cases h with
  | none => cases hh
  | space hb _ =>
    have hspace : isSpace '#'.toUInt8 := Option.some.inj hh ▸ hb
    exact absurd hspace (by decide)
  | line => exact absurd (Option.some.inj hh) (by decide)
  | long => exact absurd (Option.some.inj hh) (by decide)

section Tokens
variable {spelling old : Bytes}

theorem TokenSpelling.bracket (h : TokenSpelling old (.fixed "[") spelling) : spelling = ['['.toUInt8] := by
  cases h with
  | fixed => rfl

theorem Separator.parted {separator : Bytes} (h : Separator separator) (text : Bytes) : Parted (separator ++ text) := by
  intro b hb
  have hspace := h.space
  cases separator with
  | nil => cases hspace
  | cons c others => exact Option.some.inj hb ▸ hspace

end Tokens

namespace Excerpt
variable (x : Excerpt) (lexeme : Lexeme) (place lastEnd : Nat)

/-- An excerpt with a lexeme in front of it, which is put to a place after a token that ends
somewhere. -/
def prepend : Excerpt where
  after := x.after
  position q :=
    if q ≤ lexeme.offset then lastEnd
    else if q ≤ lexeme.offset + lexeme.spelling.length then q - lexeme.offset + place else x.position q
  tail := x.tail
  sourceEnd := x.sourceEnd

variable {x lexeme place lastEnd}

theorem prepend_before {q : Nat} (h : q ≤ lexeme.offset) : (x.prepend lexeme place lastEnd).position q = lastEnd :=
  if_pos h

theorem prepend_within {k : Nat} (h : 0 < k) (hk : k ≤ lexeme.spelling.length) :
    (x.prepend lexeme place lastEnd).position (lexeme.offset + k) = place + k := by
  simp only [prepend]
  rw [if_neg (by omega), if_pos (by omega)]
  omega

theorem prepend_behind {q : Nat} (h : lexeme.span.endPos < q) :
    (x.prepend lexeme place lastEnd).position q = x.position q := by
  simp only [Lexeme.span] at h
  simp only [prepend]
  rw [if_neg (by omega), if_neg (by omega)]

theorem prepend_lexeme (h : lexeme.spelling ≠ []) :
    (x.prepend lexeme place lastEnd).lexeme lexeme = { lexeme with offset := place } := by
  have hfirst : (x.prepend lexeme place lastEnd).position (lexeme.offset + 1) = place + 1 :=
    prepend_within Nat.one_pos (List.length_pos_iff.mpr h)
  unfold Excerpt.lexeme
  rw [hfirst, Nat.add_sub_cancel]

/-- What stands behind the new lexeme stays where it was put. -/
theorem prepend_other {other : Lexeme} (h : lexeme.span.endPos ≤ other.offset) :
    (x.prepend lexeme place lastEnd).lexeme other = x.lexeme other := by
  unfold Excerpt.lexeme
  rw [prepend_behind (by omega)]

variable {s : Stream} (hs : ∀ other ∈ s.lexemes, lexeme.span.endPos ≤ other.offset ∧ other.spelling ≠ [])
include hs

theorem prepend_covers (hx : x.Covers s) (h : lexeme.spelling ≠ []) (last sourceEnd : Nat) :
    (x.prepend lexeme place lastEnd).Covers ⟨lexeme :: s.lexemes, last, sourceEnd⟩ := by
  have hlength := List.length_pos_iff.mpr h
  unfold Covers
  rw [List.forall_mem_cons]
  constructor
  · rw [prepend_within Nat.one_pos hlength, prepend_within hlength (Nat.le_refl _)]
    omega
  · intro other hm
    obtain ⟨hle, hne⟩ := hs other hm
    have hpos := List.length_pos_iff.mpr hne
    rw [prepend_behind (by omega), prepend_behind (by omega)]
    exact hx other hm

theorem prepend_stream (hx : x.after = 0) (h : lexeme.spelling ≠ []) {last : Nat} (hl : last ≤ lexeme.offset)
    (sourceEnd : Nat) :
    (x.prepend lexeme place lastEnd).stream ⟨lexeme :: s.lexemes, last, sourceEnd⟩ =
      ⟨{ lexeme with offset := place } :: (x.stream s).lexemes, lastEnd, (x.stream s).sourceEnd⟩ := by
  have hothers : s.lexemes.map (x.prepend lexeme place lastEnd).lexeme = s.lexemes.map x.lexeme := by
    apply List.map_congr_left
    intro other hm
    exact prepend_other (hs other hm).1
  have hafter : (x.prepend lexeme place lastEnd).after = 0 := hx
  unfold Excerpt.stream
  rw [prepend_before hl, hafter, hx, Nat.sub_zero, Nat.sub_zero, List.take_length, List.take_length, List.map_cons,
    prepend_lexeme h, hothers]
  rfl

end Excerpt

theorem Cursor.Reads.relaid {c c' : Cursor} {lexeme : Lexeme} {separator text : Bytes} (h : c.Reads lexeme c')
    (ht : TriviaSpelling text separator) (hn : ¬ startsTrivium text) (hp : Parted (separator ++ text))
    (place lastEnd : Nat) :
    (⟨⟨lexeme.spelling ++ (separator ++ text), place⟩, lastEnd⟩ : Cursor).Reads { lexeme with offset := place }
      ⟨⟨text, place + lexeme.spelling.length + separator.length⟩, place + lexeme.spelling.length⟩ := by
  obtain ⟨p, hread, hspelling, -⟩ := h.token
  have hq : (⟨lexeme.spelling ++ (separator ++ text), place⟩ : Place).Passes lexeme.spelling
      ⟨separator ++ text, place + lexeme.spelling.length⟩ := ⟨rfl, rfl⟩
  have hbracket : lexeme.token = .fixed "[" → LongBracket.level? (lexeme.spelling ++ (separator ++ text)) = none := by
    intro hb
    have hspell := hread.spelling hspelling
    rw [hb] at hspell
    rw [hspell.bracket]
    exact level?_bracket hp
  have hskip := @Parse.skipTrivia_of_spelling separator
    ⟨⟨separator ++ text, place + lexeme.spelling.length⟩, place + lexeme.spelling.length⟩
    ⟨⟨text, place + lexeme.spelling.length + separator.length⟩, place + lexeme.spelling.length⟩ ht hn ⟨rfl, rfl⟩ rfl
  exact ⟨rfl, _, hread.elsewhere hspelling hq hp.spaced hbracket, hq, hskip⟩

/-- The lexemes that are left at a cursor are read where they have been laid out anew. -/
theorem Lexed.relaid {c : Cursor} {s : Stream} {text : Bytes} (h : Lexed c s) (hc : c.lastEnd ≤ c.offset)
    (hn : ¬ startsTrivium c.rest) (ht : Relaid s.lexemes text) (place lastEnd : Nat) :
    ¬ startsTrivium text ∧ ∃ x : Excerpt, x.after = 0 ∧ x.tail = [] ∧ x.Covers s ∧ Lexed ⟨⟨text, place⟩, lastEnd⟩ (x.stream s) := by
  induction h generalizing text place lastEnd with
  | done hr =>
    cases ht with
    | nil => exact ⟨nofun, ⟨0, fun _ => lastEnd, [], place⟩, rfl, rfl, List.forall_mem_nil _, .done rfl⟩
  | @read c c' lexeme s' hread hl ih =>
    cases ht with
    | @cons _ _ separator text hs ho =>
      obtain ⟨p, hp, hspelling, hskip⟩ := hread.token
      obtain ⟨trivia, -, hn', htrivia, hlast⟩ := Parse.skipTrivia_spelling hskip
      have hne := hp.ne_nil hspelling
      have hle : c'.lastEnd ≤ c'.offset := by
        rw [hlast, htrivia.offset]
        exact Nat.le_add_right _ _
      have hbehind : ∀ other ∈ s'.lexemes, lexeme.span.endPos ≤ other.offset ∧ other.spelling ≠ [] := by
        intro other hm
        obtain ⟨hfirst, hother⟩ := (hl.ordered hle).behind other hm
        rw [hl.position] at hfirst
        rw [lastEnd_of_reads hread] at hle
        exact ⟨Nat.le_trans hle hfirst, hother⟩
      have hparted : Parted (separator ++ text) := by
        rcases hs with hs | ⟨hnil, rfl⟩
        · exact hs.parted text
        · rw [hnil] at ho
          cases ho
          exact nofun
      have hseparator : TriviaSpelling text separator := by
        rcases hs with hs | ⟨-, rfl⟩
        · exact hs.complete.spelling
        · exact .none
      obtain ⟨htext, x, hafter, htail, hcovers, hlexed⟩ := ih hle hn' ho
        (place + lexeme.spelling.length + separator.length) (place + lexeme.spelling.length)
      have hreads := hread.relaid hseparator htext hparted place lastEnd
      have hstart : c.lastEnd ≤ lexeme.offset := by rwa [hread.offset]
      have hstream : (x.prepend lexeme place lastEnd).stream ⟨lexeme :: s'.lexemes, c.lastEnd, s'.sourceEnd⟩ =
          ⟨{ lexeme with offset := place } :: (x.stream s').lexemes, lastEnd, (x.stream s').sourceEnd⟩ :=
        Excerpt.prepend_stream hbehind hafter hne hstart s'.sourceEnd
      constructor
      · rw [hspelling.rest] at hn
        exact not_startsTrivium_parted hn hne hparted
      · refine ⟨x.prepend lexeme place lastEnd, hafter, htail, Excerpt.prepend_covers hbehind hcovers hne _ _, ?_⟩
        rw [hstream]
        exact .read hreads hlexed

section Sources
variable {source : Bytes} {limit : Nat} {filename : String} {root : Node}

/-- The tokens of a source parse to the same tree, up to spans, and under the same limit, with any
white space and comments in front of them and between them. -/
theorem parse_relaid (h : parse source limit filename = .ok root) :
    ∃ lexemes, source.CutInto lexemes ∧ Chunk limit ⟨lexemes, 0, source.length⟩ root ∧
      ∀ leading text, Leading leading → Relaid lexemes text →
        ∃ root', parse (leading ++ text) limit filename = .ok root' ∧ root'.EqBare root := by
  obtain ⟨m, s, hskip, hlexed, hchunk⟩ := parse_eq_ok.mp h
  obtain ⟨line, -, hline, hlast⟩ := skipShebang_spelling source
  obtain ⟨trivia, -, hn, htrivia, hlast'⟩ := Parse.skipTrivia_spelling hskip
  have hstart : m.lastEnd = 0 := hlast'.trans hlast
  have hend : s.sourceEnd = source.length := by
    rw [hlexed.sourceEnd, Place.sourceEnd_eq ⟨_, hline.trans htrivia⟩]
    exact Nat.zero_add _
  have hs : s = ⟨s.lexemes, 0, source.length⟩ := by rw [← hend, ← hstart, ← hlexed.lastEnd]
  refine ⟨s.lexemes, ⟨m, hskip, hs ▸ hlexed⟩, hs ▸ hchunk, ?_⟩
  intro leading text hleading hrelaid
  obtain ⟨htext, x, hafter, htail, hcovers, hnew⟩ := hlexed.relaid (hstart ▸ Nat.zero_le _) hn hrelaid leading.length 0
  obtain ⟨listed, s', hlisted, hnil, rfl⟩ := hchunk
  have hchunk' : Chunk limit (x.stream s) ⟨.block (listed.map x.node), 1, max 1 (x.stream s).sourceEnd⟩ := by
    have hcarries : Carries x .last (Statements (phrases limit)) (Statements (phrases limit)) (List.map x.node) :=
      carries_statements (phrases_carries limit 0) (by decide) (Excerpt.keeps_blockEnds_of_tail htail)
    have hcarried := (hcarries hlisted).2 hcovers (.of_tail htail (by omega))
    refine ⟨_, _, hcarried, ?_, rfl⟩
    rw [Excerpt.lexemes_eq_tail (by rw [hnil, hafter]; exact Nat.le_refl 0), htail]
  refine ⟨⟨.block (listed.map x.node), 1, max 1 (x.stream s).sourceEnd⟩, ?_, ?_⟩
  · cases hleading with
    | trivia hcomplete =>
      refine @parse_of_shebang [] leading text limit filename _ _ (.absent ?_) hcomplete.spelling htext hnew hchunk'
      rw [List.head?_append]
      intro hh
      rcases Option.or_eq_some_iff.mp hh with hh | ⟨-, hh⟩
      · exact hcomplete.head_ne_hash hh
      · exact head_ne_hash hnew hchunk' hh
    | @line first others hm hl ho =>
      have hcomplete : CompleteTrivia (lineFeed :: others) := .space isSpace_lineFeed ho
      rw [List.append_assoc]
      exact parse_of_shebang (.line hm hl (.inr rfl)) hcomplete.spelling htext hnew hchunk'
  · have halike : (listed.map x.node).map Node.bare = listed.map Node.bare := by
      rw [List.map_map]
      exact List.map_congr_left fun v _ => Node.eqBare_respan x.span v
    simp only [Node.EqBare, Node.bare, Node.respan, Node.respanEach_eq_map] at halike ⊢
    rw [halike]

/-- An index in brackets whose key is a string in brackets, with a line that is skipped in front and comments and
line breaks in between. -/
theorem parse_relaid_index : ∃ root lexemes, parse (.ofString "return x[ [[z]] ]") 2 "" = .ok root ∧
    (Bytes.ofString "return x[ [[z]] ]").CutInto lexemes ∧ Chunk 2 ⟨lexemes, 0, 17⟩ root ∧
    Leading (.ofString "#!lua\n") ∧ Relaid lexemes (.ofString "return --a\nx --[[b]][\n[[z]]\t]") ∧
    ∃ root', parse (.ofString "#!lua\n" ++ .ofString "return --a\nx --[[b]][\n[[z]]\t]") 2 "" = .ok root' ∧
      root'.EqBare root := by
  have hok : (parse (.ofString "return x[ [[z]] ]") 2 "").toBool = true := by decide +kernel
  cases hparse : parse (.ofString "return x[ [[z]] ]") 2 "" with
  | error failure =>
    rw [hparse] at hok
    cases hok
  | ok root =>
    obtain ⟨lexemes, hcut, hchunk, hrelaid⟩ := parse_relaid hparse
    have hlexemes : lexemes = [⟨"return", 0, .ofString "return"⟩, ⟨.name (.ofString "x"), 7, .ofString "x"⟩,
        ⟨"[", 8, .ofString "["⟩, ⟨.string (.ofString "z"), 10, .ofString "[[z]]"⟩, ⟨"]", 16, .ofString "]"⟩] := by
      have hcons {c c' : Cursor} {lexeme : Lexeme} {others : List Lexeme} {sourceEnd : Nat} (h : c.Reads lexeme c')
          (ho : Lexed c' ⟨others, c'.lastEnd, sourceEnd⟩) : Lexed c ⟨lexeme :: others, c.lastEnd, sourceEnd⟩ := .read h ho
      obtain ⟨m, hskip, hlexed⟩ := hcut
      obtain rfl : m = .start (.ofString "return x[ [[z]] ]") := by cases hskip; rfl
      refine congrArg Stream.lexemes (Lexed.unique (s := ⟨_, 0, 17⟩) ?_ hlexed (by decide))
      refine hcons ⟨rfl, _, .fixed (by decide) (by decide +kernel) nofun, ⟨rfl, rfl⟩, rfl⟩ ?_
      refine hcons ⟨rfl, _, .name rfl, ⟨rfl, rfl⟩, rfl⟩ ?_
      refine hcons ⟨rfl, _, .fixed (by decide) (by decide +kernel) fun _ => rfl, ⟨rfl, rfl⟩, rfl⟩ ?_
      refine hcons ⟨rfl, _, .string rfl, ⟨rfl, rfl⟩, rfl⟩ ?_
      refine hcons ⟨rfl, _, .fixed (by decide) (by decide +kernel) nofun, ⟨rfl, rfl⟩, rfl⟩ ?_
      exact .done rfl
    have hline : Separator (.ofString " --a\n") := by
      have hcomment : CompleteTrivia (commentMark ++ .ofString "a" ++ [lineFeed]) := .line (by decide +kernel) rfl .none
      exact ⟨.space (by decide) hcomment, rfl⟩
    have hlong : Separator (.ofString " --[[b]]") := by
      have hb : LongBracket.Spelling (LongBracket.opening 0 ++ [] ++ .ofString "b" ++ LongBracket.closing 0) (.ofString "b") :=
        .mk rfl (by decide)
      have hcomment : CompleteTrivia (commentMark ++ .ofString "[[b]]" ++ []) := .long hb .none
      exact ⟨.space (by decide) hcomment, rfl⟩
    have hlayout : Relaid lexemes (.ofString "return --a\nx --[[b]][\n[[z]]\t]") := by
      subst hlexemes
      have hput {separator text : Bytes} {lexeme : Lexeme} {others : List Lexeme} (hs : Separator separator)
          (ho : Relaid others text) : Relaid (lexeme :: others) (lexeme.spelling ++ (separator ++ text)) := .cons (.inl hs) ho
      have hbreak : Separator [lineFeed] := ⟨.space (by decide) .none, rfl⟩
      have htab : Separator ['\t'.toUInt8] := ⟨.space (by decide) .none, rfl⟩
      exact hput hline <| hput hlong <| hput hbreak <| hput htab <| .cons (.inr ⟨rfl, rfl⟩) .nil
    have hleading : Leading (.ofString "#!lua\n") := by
      have hcomment : Leading (.ofString "#!lua" ++ [lineFeed]) := .line rfl (by decide +kernel) .none
      exact hcomment
    exact ⟨root, lexemes, rfl, hcut, hchunk, hleading, hlayout, hrelaid _ _ hleading hlayout⟩

end Sources

end LuaSyntax
