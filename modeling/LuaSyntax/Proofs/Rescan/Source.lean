import LuaSyntax.Proofs.Rescan.Token
import LuaSyntax.Proofs.Phrase.Chunk

/-! # Sources without a first line to skip

A text that is cut into lexemes from its start on parses as the grammar derives them, unless
it begins with the byte of a line that is skipped. No block begins with it.
-/
namespace LuaSyntax

open Phrase

theorem Lexed.next_hash {c : Cursor} {s : Stream} (h : Lexed c s) (hh : c.rest.head? = some '#'.toUInt8) :
    s.Next ["#"] := by
  obtain ⟨tail, htail⟩ := List.head?_eq_some_iff.mp hh
  have hne : s.next? ≠ none := by
    intro hn
    rw [h.next_eq_none.mp hn] at hh
    cases hh
  obtain ⟨token, htoken⟩ := Option.ne_none_iff_exists'.mp hne
  obtain ⟨p', hread⟩ := h.next_reads htoken
  have hfront : startsWith (.ofString "#") (joins "#") c.rest := by
    rw [joins_plain (by decide), htail]
    exact startsWith_never.mpr ⟨tail, rfl⟩
  obtain rfl := (hread.exact_iff (by decide) (by decide) (by decide)).mp hfront
  exact ⟨_, htoken, by decide⟩

section Statements
variable {nested : Phrases} {s s' : Stream} {v : Node} {listed : List Node}

theorem statement_next (h : Statement nested s v s') :
    s.Next ["if", "do", "while", "repeat", "for", "local", "function", "break", "::", "goto", .name, "("] := by
  have hword {text : String} {span : Span} {m : Stream} (ht : s.Takes text span m)
      (hm : text ∈ ["if", "do", "while", "repeat", "for", "local", "function", "break", "::", "goto", "("]) :
      s.Next ["if", "do", "while", "repeat", "for", "local", "function", "break", "::", "goto", .name, "("] := by
    refine ht.opens.mono ?_
    simp only [List.mem_cons, List.not_mem_nil, or_false] at hm
    rintro kind hk
    obtain rfl := List.mem_singleton.mp hk
    rcases hm with rfl | rfl | rfl | rfl | rfl | rfl | rfl | rfl | rfl | rfl | rfl <;> decide
  rcases h with ⟨_, _, ht, -⟩ | ⟨_, _, ht, -⟩ | ⟨_, _, ht, -⟩ | ⟨_, _, ht, -⟩ | ⟨_, _, ht, -⟩ | ⟨_, _, ht, -⟩ |
    ⟨_, _, ht, -⟩ | ⟨_, ht, -⟩ | ⟨_, _, ht, -⟩ | ⟨_, _, ht, -⟩ | ⟨_, _, ⟨_, _, hf, -⟩, -⟩
  case inr.inr.inr.inr.inr.inr.inr.inr.inr.inr =>
    rcases hf with ⟨text, -, span, ht, -⟩ | ⟨_, _, ht, -⟩
    · exact ht.opens.mono (by simp [Token.kind])
    · exact hword ht (by decide)
  all_goals exact hword ht (by decide)

theorem statements_next (h : Statements nested s listed s') : ¬ s.Next ["#"] := by
  obtain ⟨found, m, ⟨hfound, hend⟩, last, -, rfl⟩ := h
  cases hfound with
  | nil =>
    rcases hend with hend | hend
    · rintro ⟨token, hn, -⟩
      rw [Stream.next?, hend] at hn
      cases hn
    · exact hend.disjoint (by decide)
  | cons hfirst _ =>
    rcases hfirst with ⟨span, ht, -⟩ | ⟨v, hv, -⟩
    · exact ht.opens.disjoint (by decide)
    · exact (statement_next hv).disjoint (by decide)

end Statements

theorem skipShebang_of_spelling {line tail : Bytes} (h : Shebang line tail) :
    Grammar.skipShebang (.start (line ++ tail)) = ⟨⟨tail, line.length⟩, 0⟩ := by
  unfold Grammar.skipShebang
  cases h with
  | absent hh =>
    rw [if_neg]
    · rfl
    · simpa [Cursor.start] using hh
  | line hh hl hend =>
    obtain ⟨others, hothers⟩ := List.head?_eq_some_iff.mp hh
    have hmark : (line ++ tail).head? = some '#'.toUInt8 := by
      rw [hothers]
      rfl
    have hnext : ∀ b ∈ tail.head?, ¬ (b != lineFeed) := by
      intro b hb
      rcases hend with hend | hend
      · rw [hend] at hb
        cases hb
      · rw [hend] at hb
        cases hb
        decide
    have hrun : (line ++ tail).takeWhile (· != lineFeed) = line :=
      takeWhile_append_eq (fun b hb => by simpa using hl b hb) hnext
    rw [if_pos (by simp [Cursor.start, hmark])]
    simp [Cursor.start, Place.advance, hrun]

section Sources
variable {line trivia text : Bytes} {levels : Nat} {filename : String} {s : Stream} {root : Node}

/-- Where a text is cut into lexemes behind trivia and a line that is skipped, the whole parses as
they are derived. -/
theorem parse_of_shebang (hl : Shebang line (trivia ++ text)) (ht : TriviaSpelling text trivia)
    (hn : ¬ startsTrivium text) (hs : Lexed ⟨⟨text, (line ++ trivia).length⟩, 0⟩ s) (h : Chunk levels s root) :
    parse (line ++ (trivia ++ text)) levels filename = .ok root := by
  rw [parse_eq_ok]
  refine ⟨_, s, ?_, hs, h⟩
  rw [skipShebang_of_spelling hl]
  exact Parse.skipTrivia_of_spelling ht hn ⟨rfl, List.length_append⟩ rfl

theorem head_ne_hash {place lastEnd : Nat} (hs : Lexed ⟨⟨text, place⟩, lastEnd⟩ s) (h : Chunk levels s root) :
    text.head? ≠ some '#'.toUInt8 := by
  intro hh
  obtain ⟨listed, s', hlisted, -⟩ := h
  exact statements_next hlisted (hs.next_hash hh)

/-- Where a text is cut into lexemes from its start on, it parses as they are derived. -/
theorem parse_of_lexed (hs : Lexed ⟨⟨text, 0⟩, 0⟩ s) (hn : ¬ startsTrivium text) (h : Chunk levels s root) :
    parse text levels filename = .ok root :=
  @parse_of_shebang [] [] text levels filename s root (.absent (head_ne_hash hs h)) .none hn hs h

end Sources

end LuaSyntax
