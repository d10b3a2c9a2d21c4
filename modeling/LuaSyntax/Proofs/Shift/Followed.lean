import LuaSyntax.Proofs.Shift.Grammar
import LuaSyntax.Proofs.Excerpt.Statement
import LuaSyntax.Proofs.Excerpt.Source

/-! # Sources with an empty statement after them

A source that parses is read in the same way, statement by statement, where a semicolon follows it on
a line of its own. The line feed ends a comment on the last line and every token at the end.
-/
namespace LuaSyntax

open Phrase

/-- A cursor of a source, with a semicolon on a line of its own after the source. At the end the line
feed has been skipped. -/
def Cursor.followed (c : Cursor) : Cursor :=
  if c.rest = [] then ⟨⟨[semicolon], c.offset + 1⟩, c.lastEnd⟩
  else ⟨⟨c.rest ++ [lineFeed, semicolon], c.offset⟩, c.lastEnd⟩

/-- The semicolon after a source of some length. -/
def semicolonAfter (length : Nat) : Lexeme := ⟨.fixed ";", length + 1, [semicolon]⟩

section Trivia
variable {text : Bytes} {c c' : Cursor}

theorem TriviaSpelling.withLineFeed {tail : Bytes} (h : TriviaSpelling [] text) :
    TriviaSpelling tail (text ++ [lineFeed]) := by
  induction h with
  | none =>
    have hbreak : TriviumSpelling ([] ++ tail) [lineFeed] :=
      .space (List.forall_mem_singleton.mpr (by decide)) (List.cons_ne_nil _ _)
    exact @TriviaSpelling.more tail [lineFeed] [] hbreak .none
  | @more first others hfirst _ ih =>
    rw [List.append_assoc]
    refine .more ?_ ih
    cases hfirst with
    | space hs hne => exact .space hs hne
    | line hl hb hend =>
      refine .line hl hb (.inr ?_)
      rw [List.append_nil] at hend
      rcases hend with rfl | hend
      · rfl
      · rw [List.append_assoc, List.head?_append, hend]
        rfl
    | long ht => exact .long ht

theorem not_startsTrivium_followed (hn : ¬ startsTrivium text) (hne : text ≠ []) :
    ¬ startsTrivium (text ++ [lineFeed, semicolon]) := by
  have hparted : Parted [lineFeed, semicolon] := by
    intro b hb
    obtain rfl := Option.some.inj hb
    decide
  rw [← List.append_nil text] at hn
  exact not_startsTrivium_parted hn hne hparted

theorem skipTrivia_followed (h : Parse.skipTrivia c = .ok () c') :
    Parse.skipTrivia ⟨⟨c.rest ++ [lineFeed, semicolon], c.offset⟩, c.lastEnd⟩ = .ok () c'.followed := by
  obtain ⟨text, htext, hn, hp, hlast⟩ := Parse.skipTrivia_spelling h
  unfold Cursor.followed
  split
  · next hnil =>
    have hbreak : TriviaSpelling [semicolon] (text ++ [lineFeed]) := (hnil ▸ htext).withLineFeed
    refine Parse.skipTrivia_of_spelling hbreak (by decide : ¬ startsTrivium [semicolon]) ⟨?_, ?_⟩ hlast
    · simp [hp.rest, hnil]
    · simp only [List.length_append, List.length_singleton, hp.offset, Nat.add_assoc]
  · next hne =>
    refine Parse.skipTrivia_of_spelling (htext.congr ?_) (not_startsTrivium_followed hn hne) ⟨?_, hp.offset⟩ hlast
    · obtain ⟨b, others, hrest⟩ := List.exists_cons_of_ne_nil hne
      rw [hrest]
      rfl
    · simp [hp.rest]

end Trivia

section Lexemes
variable {c c' : Cursor} {s : Stream} {lexeme : Lexeme}

theorem followed_of_ne (h : c.rest ≠ []) : c.followed = ⟨⟨c.rest ++ [lineFeed, semicolon], c.offset⟩, c.lastEnd⟩ :=
  if_neg h

theorem Cursor.Reads.followed (h : c.Reads lexeme c') : c.followed.Reads lexeme c'.followed := by
  obtain ⟨p, hread, hp, hskip⟩ := h.token
  have hne : c.rest ≠ [] := by
    intro hnil
    have hfront := hp.rest
    rw [hnil] at hfront
    exact hread.ne_nil hp (List.append_eq_nil_iff.mp hfront.symm).1
  have hq : (⟨c.rest ++ [lineFeed, semicolon], c.offset⟩ : Place).Passes lexeme.spelling
      ⟨p.rest ++ [lineFeed, semicolon], p.offset⟩ := ⟨by simp [hp.rest], hp.offset⟩
  rw [followed_of_ne hne]
  refine ⟨h.offset, _, hread.elsewhere hp hq ?_ fun hb => ?_, hq, skipTrivia_followed hskip⟩
  · intro b hb
    cases hrest : p.rest with
    | nil =>
      rw [hrest] at hb
      obtain rfl := Option.some.inj hb
      exact .inr (by decide)
    | cons first others =>
      rw [hrest] at hb
      exact .inl hb
  · exact level?_line (hb ▸ hread).bracket (.inr rfl)

/-- The lexemes of a source and the semicolon after it. -/
theorem Lexed.followed (h : Lexed c s) : Lexed c.followed
    ⟨s.lexemes ++ [semicolonAfter s.sourceEnd], s.lastEnd, s.sourceEnd + 2⟩ := by
  induction h with
  | @done c hr =>
    have hcursor : c.followed = ⟨⟨[semicolon], c.offset + 1⟩, c.lastEnd⟩ := if_pos hr
    have hpasses : (⟨[semicolon], c.offset + 1⟩ : Place).Passes [semicolon] ⟨[], c.offset + 2⟩ := ⟨rfl, rfl⟩
    have hreads : c.followed.Reads (semicolonAfter c.offset) ⟨⟨[], c.offset + 2⟩, c.offset + 2⟩ := by
      rw [hcursor]
      refine ⟨rfl, _, ?_, hpasses, skipTrivia_nil _ _⟩
      exact .fixed (by decide) (by decide : startsWith (.ofString ";") (joins ";") [semicolon]) nofun
    have hlexed := Lexed.read hreads (.done rfl)
    rwa [hcursor] at hlexed ⊢
  | @read c c' lexeme s' h _ ih =>
    have hlast : c.followed.lastEnd = c.lastEnd := by
      unfold Cursor.followed
      split <;> rfl
    have hlexed := Lexed.read h.followed ih
    rwa [hlast] at hlexed

end Lexemes

section Statements
variable {s : Stream}

/-- The lexemes of a source where they stand, with the semicolon after them. -/
def Excerpt.followed (length : Nat) : Excerpt := ⟨0, id, [semicolonAfter length], length + 2⟩

variable {length : Nat}

theorem Excerpt.followed_stream (s : Stream) : (Excerpt.followed length).stream s =
    ⟨s.lexemes ++ [semicolonAfter length], s.lastEnd, length + 2⟩ := by
  have hmap : s.lexemes.map (Excerpt.followed length).lexeme = s.lexemes := List.map_id s.lexemes
  have htake : s.lexemes.take (s.lexemes.length - (Excerpt.followed length).after) = s.lexemes := List.take_length
  rw [Excerpt.stream, htake, hmap]
  rfl

theorem Excerpt.followed_node (v : Node) : (Excerpt.followed length).node v = v := Node.respan_id v

theorem Excerpt.followed_covers (s : Stream) : (Excerpt.followed length).Covers s := by
  intro lexeme _
  simp only [Excerpt.followed, id_eq]
  omega

theorem Excerpt.followed_apart {kinds : List Kind} (hk : Kind.fixed ";" ∉ kinds) :
    (Excerpt.followed length).Apart kinds := by
  intro lexeme hm
  obtain rfl := Option.some.inj hm
  exact hk

variable {limit : Nat} {root : Node} {c : Cursor}

/-- The statements of a source are read up to the semicolon after it, unless the last one is a `return`. -/
theorem steps_followed (hl : Lexed c s) (h : Chunk limit s root) (hr : ∀ v ∈ root.children.getLast?, v.tag ≠ .returnValues) :
    ∃ e, Steps (Parse.Next (Grammar.statementStep (Grammar.nesting limit))) [] c.followed root.children.reverse e ∧
      e.toPlace = ⟨[semicolon], s.sourceEnd + 1⟩ := by
  obtain ⟨listed, s', ⟨found, m, ⟨hfound, -⟩, last, hlast, rfl⟩, hnil, rfl⟩ := h
  cases last with
  | some v =>
    obtain ⟨_, _, _, _, _, _, _, _, hv⟩ := hlast
    refine (hr v ?_ (by rw [hv]; rfl)).elim
    simp [Node.children, Form.children]
  | none =>
    obtain ⟨-, rfl⟩ := hlast
    have hleaves : (Excerpt.followed s.sourceEnd).Leaves .statement s' :=
      ⟨Nat.zero_le _, fun _ => Excerpt.followed_apart (by decide)⟩
    have hclear : (Excerpt.followed s.sourceEnd).Clear s' := .inl (Excerpt.followed_apart (by decide))
    have hcarried := (carries_sequence (phrases_carries limit 0) ⟨hfound, hclear⟩).2 (Excerpt.followed_covers s) hleaves
    have hsame : found.map (Option.map (Excerpt.followed s.sourceEnd).node) = found := by
      have hnode : (Excerpt.followed s.sourceEnd).node = id := funext Excerpt.followed_node
      rw [hnode, Option.map_id, List.map_id]
    rw [hsame, Excerpt.followed_stream, Excerpt.followed_stream, hnil] at hcarried
    have hsteps : Steps (fun listed s next s' => Grammar.StatementStep (phrases limit) listed s next s') [] _
        ((found.flatMap Option.toList).reverse ++ []) _ := Grammar.steps_statements_iff.mpr ⟨found, hcarried, rfl⟩
    obtain ⟨e, hsteps, he⟩ :=
      complete_steps (Grammar.follows_statementStep (Grammar.follows_nesting limit)) hl.followed hsteps
    refine ⟨e, ?_, ?_⟩
    · simpa [Node.children, Form.children] using hsteps
    · have hoffset : e.offset = s.sourceEnd + 1 := he.position.symm
      have hend : s.sourceEnd + 2 = e.toPlace.sourceEnd := he.sourceEnd
      obtain ⟨p', hread⟩ := he.next_reads rfl
      have hlength : e.rest.length = 1 := by
        rw [Place.sourceEnd] at hend
        omega
      have hfront : [semicolon] <+: e.rest := by
        cases hread with
        | fixed _ hs _ => exact (startsWith_iff.mp hs).1
      have hrest : e.rest = [semicolon] := (hfront.eq_of_length hlength.symm).symm
      rw [← hrest, ← hoffset]

end Statements

end LuaSyntax
