import LuaSyntax.Proofs.Phrase.Chunk

/-! # Sources as token sequences

A source consists of the spellings of its lexemes, one after the other, and of trivia in
front of the first and after each. Every accepted source is a rendering of its tree: the
grammar derives the tree from the lexemes, and they account for every byte that is not
trivia.
-/
namespace LuaSyntax

/-- How a token is written in front of what follows it. No byte that would be part of a
fixed text, a name or a numeral comes after one. -/
inductive TokenSpelling (tail : Bytes) : Token → Bytes → Prop
  | fixed {text : String} (ht : text ∈ fixedTexts) (hn : ∀ b ∈ tail.head?, ¬ joins text b)
      (hb : text = "[" → LongBracket.level? (.ofString text ++ tail) = none) :
      TokenSpelling tail (.fixed text) (.ofString text)
  | name {text : Bytes} (ht : Identifier text) (hn : ∀ b ∈ tail.head?, ¬ isNamePart b) :
      TokenSpelling tail (.name text) text
  | number {text : Bytes} {value : Number} (ht : NumeralSpelling text value)
      (hn : ∀ b ∈ tail.head?, ¬ isDigit b) : TokenSpelling tail (.number value) text
  | string {text value : Bytes} (ht : StringSpelling text value) : TokenSpelling tail (.string value) text

/-- A text from an offset on consists of lexemes, each with trivia after it, of which there
is no more where the next lexeme begins. -/
inductive Layout : Nat → Bytes → List Lexeme → Prop
  | nil {offset : Nat} : Layout offset [] []
  | cons {lexeme : Lexeme} {trivia tail : Bytes} {others : List Lexeme}
      (hs : TokenSpelling (trivia ++ tail) lexeme.token lexeme.spelling)
      (ht : TriviaSpelling tail trivia) (hn : ¬ startsTrivium tail)
      (ho : Layout (lexeme.offset + (lexeme.spelling ++ trivia).length) tail others) :
      Layout lexeme.offset (lexeme.spelling ++ trivia ++ tail) (lexeme :: others)

/-- The line that is skipped at the start of a source, if it begins with `#`. -/
inductive Shebang : Bytes → Bytes → Prop
  | absent {source : Bytes} (h : source.head? ≠ some '#'.toUInt8) : Shebang [] source
  | line {text tail : Bytes} (h : text.head? = some '#'.toUInt8) (hl : ∀ b ∈ text, b ≠ lineFeed)
      (hend : tail = [] ∨ tail.head? = some lineFeed) : Shebang text tail

/-- A source is nothing but its lexemes, trivia and a line that starts with `#`. -/
def Renders (source : Bytes) (lexemes : List Lexeme) : Prop :=
  ∃ line trivia tail, source = line ++ trivia ++ tail ∧ Shebang line (trivia ++ tail) ∧
    TriviaSpelling tail trivia ∧ ¬ startsTrivium tail ∧ Layout (line ++ trivia).length tail lexemes

theorem Place.Reads.spelling {p p' : Place} {token : Token} {bytes : Bytes} (h : p.Reads token p')
    (hp : p.Passes bytes p') : TokenSpelling p'.rest token bytes := by
  have hrest := hp.rest
  cases h with
  | @fixed text ht hs hb =>
    obtain ⟨hpre, hnext⟩ := startsWith_iff.mp hs
    obtain rfl := (Place.passes_of_prefix hpre).unique hp
    exact .fixed ht hnext fun heq => hrest ▸ hb heq
  | name h =>
    obtain ⟨-, -, rfl, rfl⟩ := Scan.name_eq_some.mp h
    obtain rfl := (Place.passes_takeWhile isNamePart).unique hp
    exact .name (Scan.name_identifier h) (Scan.head_drop_takeWhile isNamePart p.rest)
  | number h =>
    obtain ⟨text, ht, hp'⟩ := Scan.numeral_spelling h
    obtain rfl := hp'.unique hp
    exact .number ht (Scan.numeral_noDigit h)
  | string h =>
    obtain ⟨text, ht, hp'⟩ := Scan.string_spelling h
    obtain rfl := hp'.unique hp
    exact .string ht

theorem Place.Reads.eq_ofString {p p' : Place} {token : Token} {text : String} {bytes : Bytes} (h : p.Reads token p')
    (ht : token = .fixed text) (hp : p.Passes bytes p') : bytes = .ofString text := by
  subst ht
  cases h.spelling hp
  rfl

theorem Lexed.layout {c : Cursor} {s : Stream} (h : Lexed c s) : Layout c.offset c.rest s.lexemes := by
  induction h with
  | done hr => rw [hr]; exact .nil
  | @read c c' lexeme s' h _ ih =>
    obtain ⟨place, hread, hp, hskip⟩ := h.token
    obtain ⟨trivia, ht, hn, hp', -⟩ := Parse.skipTrivia_spelling hskip
    have hall := hp.trans hp'
    have hspelling := hread.spelling hp
    rw [hp'.rest] at hspelling
    rw [hall.rest, ← h.offset]
    refine .cons hspelling ht hn ?_
    rw [hall.offset, ← h.offset] at ih
    exact ih

theorem skipShebang_spelling (source : Bytes) :
    ∃ line, Shebang line (Grammar.skipShebang (.start source)).rest ∧
      (Cursor.start source).Passes line (Grammar.skipShebang (.start source)).toPlace ∧
      (Grammar.skipShebang (.start source)).lastEnd = 0 := by
  unfold Grammar.skipShebang
  split
  · next hmark =>
    simp only [Cursor.start, beq_self_eq_true, Bool.true_and, beq_iff_eq] at hmark
    have hp : (Cursor.start source).Passes _ _ :=
      Place.passes_takeWhile (p := (Cursor.start source).toPlace) (· != lineFeed)
    refine ⟨_, .line ?_ (fun b hb => by simpa using List.mem_takeWhile_imp hb) ?_, hp, rfl⟩
    · obtain ⟨tail, rfl⟩ := List.head?_eq_some_iff.mp hmark
      rw [Cursor.start, List.takeWhile_cons_of_pos (by decide)]
      rfl
    · have hnext := Scan.head_drop_takeWhile (· != lineFeed) source
      change source.drop (source.takeWhile (· != lineFeed)).length = [] ∨
        (source.drop (source.takeWhile (· != lineFeed)).length).head? = some lineFeed
      cases hdrop : source.drop (source.takeWhile (· != lineFeed)).length with
      | nil => exact .inl rfl
      | cons b tail =>
        rw [hdrop] at hnext
        exact .inr (by simpa using hnext b rfl)
  · next hmark => exact ⟨[], .absent (by simpa [Cursor.start] using hmark), .refl _, rfl⟩

/-- Every accepted source is a rendering of its tree: it is cut into lexemes, with nothing
but trivia between them, from which the grammar derives the tree. -/
theorem parse_renders {source : Bytes} {limit : Nat} {filename : String} {root : Node}
    (h : parse source limit filename = .ok root) :
    ∃ lexemes, Renders source lexemes ∧ Phrase.Chunk limit ⟨lexemes, 0, source.length⟩ root := by
  obtain ⟨m, s, hskip, hs, hchunk⟩ := parse_eq_ok.mp h
  obtain ⟨line, hline, hp, hlast⟩ := skipShebang_spelling source
  obtain ⟨trivia, ht, hn, hp', hlast'⟩ := Parse.skipTrivia_spelling hskip
  have hall := hp.trans hp'
  refine ⟨s.lexemes, ⟨line, trivia, m.rest, hall.rest, ?_, ht, hn, ?_⟩, ?_⟩
  · rw [← hp'.rest]
    exact hline
  · have hoffset : m.offset = (line ++ trivia).length := by simpa [Cursor.start] using hall.offset
    exact hoffset ▸ hs.layout
  · have hs' : s = ⟨s.lexemes, 0, source.length⟩ := by
      have hend : s.sourceEnd = source.length := by
        rw [hs.sourceEnd, Place.sourceEnd_eq ⟨_, hall⟩]
        simp [Place.sourceEnd, Cursor.start]
      rw [← hend, ← hlast, ← hlast', ← hs.lastEnd]
    exact hs' ▸ hchunk

theorem parse_renders_call : ∃ lexemes, Renders (.ofString "f() -- x") lexemes ∧
    Phrase.Chunk 1 ⟨lexemes, 0, 8⟩
      ⟨.block [⟨.call ⟨.name (.ofString "f"), 1, 1⟩ [], 1, 3⟩], 1, 8⟩ :=
  parse_renders (rfl : parse (.ofString "f() -- x") 1 "" = .ok _)

end LuaSyntax
