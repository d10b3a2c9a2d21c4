import LuaSyntax.Proofs.Progress.Combinators

/-! # Lexemes

A token is a reserved word or symbol, a name, a number or a string. A lexeme is a token
where it stands in a source, and a stream holds the lexemes that are still to be read. A
symbol is as long as it can be, and neither it nor a reserved word is part of a name.
-/
namespace LuaSyntax

/-- The symbols of the language. -/
def symbols : List String := [
  "+", "-", "*", "/", "//", "%", "^", "#", "&", "|", "~", "~=", "<<", ">>", "==", "<=", ">=",
  "<", ">", "=", "(", ")", "\x7b", "\x7d", "[", "]", "::", ":", ";", ",", "...", "..", "."]

/-- The tokens that are always written alike. -/
def fixedTexts : List String := reservedWords ++ symbols

/-- The bytes that turn a symbol into the front of a longer one. -/
def continuations (text : String) : Bytes :=
  symbols.filterMap fun longer =>
    if Bytes.ofString text <+: Bytes.ofString longer then
      (Bytes.ofString longer)[(Bytes.ofString text).length]?
    else none

/-- The bytes that do not follow a fixed text, because they would be part of the token. -/
def joins (text : String) : UInt8 → Bool :=
  if text ∈ reservedWords then isNamePart else (continuations text).contains

/-- A text that can be a name. -/
structure Identifier (text : Bytes) : Prop where
  start : startsName text
  parts : ∀ b ∈ text, isNamePart b
  free : isReserved text = false

inductive Token where
  | fixed (text : String)
  | name (text : Bytes)
  | number (value : Number)
  | string (value : Bytes)
  deriving DecidableEq, Repr

instance : Coe String Token := ⟨.fixed⟩

/-- What a grammar tells tokens apart by. -/
inductive Kind where
  | fixed (text : String)
  | name
  | number
  | string
  deriving DecidableEq, Repr

instance : Coe String Kind := ⟨.fixed⟩

def Token.kind : Token → Kind
  | fixed text => .fixed text
  | name _ => .name
  | number _ => .number
  | string _ => .string

theorem Token.kind_eq_fixed {token : Token} {text : String} :
    token.kind = .fixed text ↔ token = .fixed text := by
  cases token <;> simp [kind]

/-- A token where it stands in a source: its offset and its bytes. -/
structure Lexeme where
  token : Token
  offset : Nat
  spelling : Bytes
  deriving DecidableEq, Repr

def Lexeme.span (lexeme : Lexeme) : Span :=
  ⟨lexeme.offset + 1, lexeme.offset + lexeme.spelling.length⟩

/-- The lexemes still to be read, the offset of the end of the last one before them, and
the offset of the end of the source. -/
structure Stream where
  lexemes : List Lexeme
  lastEnd : Nat
  sourceEnd : Nat

namespace Stream

/-- The next token, where there is one. -/
def next? (s : Stream) : Option Token := s.lexemes.head?.map (·.token)

/-- The next token is of one of some kinds. -/
def Next (s : Stream) (kinds : List Kind) : Prop :=
  ∃ token, s.next? = some token ∧ token.kind ∈ kinds

/-- The offset of the next lexeme, or of the end of the source. -/
def position (s : Stream) : Nat := (s.lexemes.head?.map (·.offset)).getD s.sourceEnd

/-- Reading a token with its span leads from one stream to another. -/
def Takes (s : Stream) (token : Token) (span : Span) (s' : Stream) : Prop :=
  ∃ lexeme, s.lexemes = lexeme :: s'.lexemes ∧ lexeme.token = token ∧ lexeme.span = span ∧
    s'.lastEnd = span.endPos ∧ s'.sourceEnd = s.sourceEnd

theorem Takes.next {s s' : Stream} {token : Token} {span : Span} (h : s.Takes token span s') :
    s.next? = some token := by
  obtain ⟨lexeme, hl, rfl, -⟩ := h
  rw [next?, hl]
  rfl

/-- The next token can be taken. -/
theorem takes_of_next {s : Stream} {token : Token} (h : s.next? = some token) :
    ∃ span s', s.Takes token span s' := by
  obtain ⟨lexemes, lastEnd, sourceEnd⟩ := s
  cases lexemes with
  | nil => cases h
  | cons lexeme others =>
    cases h
    exact ⟨_, ⟨others, lexeme.span.endPos, sourceEnd⟩, lexeme, rfl, rfl, rfl, rfl, rfl⟩

end Stream

/-- A token stands at a place and ends at another. -/
inductive Place.Reads (p : Place) : Token → Place → Prop
  | fixed {text : String} (ht : text ∈ fixedTexts)
      (hs : startsWith (.ofString text) (joins text) p.rest)
      (hb : text = "[" → LongBracket.level? p.rest = none) :
      Reads p (.fixed text) (p.advance (Bytes.ofString text).length)
  | name {text : Bytes} {p' : Place} (h : Scan.name p = .ok (some text, p')) : Reads p (.name text) p'
  | number {value : Number} {p' : Place} (h : Scan.numeral p = .ok (some value, p')) :
      Reads p (.number value) p'
  | string {value : Bytes} {p' : Place} (h : Scan.string p = .ok (some value, p')) :
      Reads p (.string value) p'

theorem ofString_ne_nil : ∀ text ∈ fixedTexts, Bytes.ofString text ≠ [] := by decide

theorem Place.Reads.lt {p p' : Place} {token : Token} (h : p.Reads token p') : p < p' := by
  cases h with
  | fixed ht hs _ =>
    exact (Scan.steady_text _ (ofString_ne_nil _ ht)).advances (a := ()) (Scan.text_eq_some.mpr ⟨hs, rfl⟩)
  | name h => exact Scan.steady_name.advances h
  | number h => exact Scan.steady_numeral.advances h
  | string h => exact Scan.steady_string.advances h

theorem Place.Reads.ne_nil {p p' : Place} {token : Token} {bytes : Bytes} (h : p.Reads token p')
    (hp : p.Passes bytes p') : bytes ≠ [] := by
  rintro rfl
  obtain ⟨text, hne, hp'⟩ := h.lt
  have hpos := List.length_pos_iff.mpr hne
  have hlen := hp.offset.symm.trans hp'.offset
  simp only [List.length_nil] at hlen
  omega

/-- A lexeme and the trivia after it lead from one cursor to another. -/
structure Cursor.Reads (c : Cursor) (lexeme : Lexeme) (c' : Cursor) : Prop where
  offset : lexeme.offset = c.offset
  token : ∃ place, c.toPlace.Reads lexeme.token place ∧ c.toPlace.Passes lexeme.spelling place ∧
    Parse.skipTrivia ⟨place, place.offset⟩ = .ok () c'

/-- All that is left at a cursor is cut into lexemes. -/
inductive Lexed : Cursor → Stream → Prop
  | done {c : Cursor} (hr : c.rest = []) : Lexed c ⟨[], c.lastEnd, c.offset⟩
  | read {c c' : Cursor} {lexeme : Lexeme} {s' : Stream} (h : c.Reads lexeme c') (hs : Lexed c' s') :
      Lexed c ⟨lexeme :: s'.lexemes, c.lastEnd, s'.sourceEnd⟩

namespace Lexed
variable {c c' : Cursor} {s s' : Stream}

theorem lastEnd (h : Lexed c s) : s.lastEnd = c.lastEnd := by cases h <;> rfl

theorem position (h : Lexed c s) : s.position = c.offset := by
  cases h with
  | done => rfl
  | read h => exact h.offset

theorem sourceEnd (h : Lexed c s) : s.sourceEnd = c.toPlace.sourceEnd := by
  induction h with
  | done hr => simp [Place.sourceEnd, hr]
  | read h _ ih =>
    obtain ⟨place, hread, hp, hskip⟩ := h.token
    obtain ⟨text, -, -, hp', -⟩ := Parse.skipTrivia_spelling hskip
    exact ih.trans (Place.sourceEnd_eq ⟨_, hp.trans hp'⟩)

theorem nil_iff (h : Lexed c s) : s.lexemes = [] ↔ c.rest = [] := by
  cases h with
  | done hr => exact iff_of_true rfl hr
  | read h _ =>
    obtain ⟨place, hread, -⟩ := h.token
    obtain ⟨text, hne, hp⟩ := hread.lt
    refine iff_of_false (List.cons_ne_nil _ _) fun hr => ?_
    have happ := hp.rest
    rw [hr] at happ
    exact hne (List.append_eq_nil_iff.mp happ.symm).1

variable {lexeme : Lexeme} {token : Token} {span : Span}

theorem lastEnd_of_reads (h : c.Reads lexeme c') : c'.lastEnd = lexeme.span.endPos := by
  obtain ⟨place, -, hp, hskip⟩ := h.token
  obtain ⟨text, -, -, -, hlast⟩ := Parse.skipTrivia_spelling hskip
  rw [hlast, hp.offset, ← h.offset]
  rfl

theorem read_takes (h : c.Reads lexeme c') (hs : Lexed c' s') :
    ∃ s, Lexed c s ∧ s.Takes lexeme.token lexeme.span s' :=
  ⟨_, .read h hs, lexeme, rfl, rfl, rfl, hs.lastEnd.trans (lastEnd_of_reads h), rfl⟩

theorem takes_reads (h : Lexed c s) (ht : s.Takes token span s') :
    ∃ lexeme c', c.Reads lexeme c' ∧ Lexed c' s' ∧ lexeme.token = token ∧ lexeme.span = span := by
  obtain ⟨lexeme, hlexemes, htoken, hspan, hlast, hend⟩ := ht
  cases h with
  | done => exact (List.cons_ne_nil _ _ hlexemes.symm).elim
  | @read _ c' found s'' h hs =>
    obtain ⟨rfl, hrest⟩ := List.cons.inj hlexemes
    have hlast' : s''.lastEnd = s'.lastEnd := by
      rw [hs.lastEnd, lastEnd_of_reads h, hlast, hspan]
    obtain ⟨lexemes, lastEnd, sourceEnd⟩ := s'
    obtain ⟨lexemes', lastEnd', sourceEnd'⟩ := s''
    cases hrest
    cases hlast'
    cases hend
    exact ⟨found, c', h, hs, htoken, hspan⟩

/-- Where there is a next token, it stands at the cursor. -/
theorem next_reads (h : Lexed c s) (hn : s.next? = some token) : ∃ p', c.toPlace.Reads token p' := by
  cases h with
  | done => cases hn
  | read h _ =>
    obtain ⟨place, hread, -⟩ := h.token
    obtain rfl := Option.some.inj hn
    exact ⟨place, hread⟩

theorem next_eq_none (h : Lexed c s) : s.next? = none ↔ c.rest = [] := by
  rw [← h.nil_iff, Stream.next?, Option.map_eq_none_iff, List.head?_eq_none_iff]

end Lexed

end LuaSyntax
