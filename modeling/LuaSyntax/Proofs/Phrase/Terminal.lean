import LuaSyntax.Proofs.Phrase.Grammar
import LuaSyntax.Proofs.Lexeme.Front
import LuaSyntax.Proofs.Progress.Grammar

/-! # Terminals

The rules for single tokens match exactly the tokens, and a symbol of one character only
where it is not the front of a longer one.
-/
namespace LuaSyntax
variable {α : Type}

open Rule

/-- The rule of a token follows the grammar if its scan finds exactly that kind of token. -/
theorem follows_token {scan : Scan (Option α)} {f : α → Token} {absent : Stream → Prop}
    (hs : ∀ {p a p'}, scan p = .ok (some a, p') ↔ p.Reads (f a) p')
    (hd : ∀ {c s}, Lexed c s → ((∃ place, scan c.toPlace = .ok (none, place)) ↔ absent s)) :
    Rule.Follows (token scan) (fun s a s' => s.Takes (f a.1) a.2 s') absent where
  sound := by
    intro c found c' s' h hlexed
    obtain ⟨a, span⟩ := found
    obtain ⟨place, hscan, rfl, hskip⟩ := token_eq_some.mp h
    have hread := hs.mp hscan
    obtain ⟨text, -, hp⟩ := hread.lt
    have hreads : c.Reads ⟨f a, c.offset, text⟩ c' := ⟨rfl, place, hread, hp, hskip⟩
    obtain ⟨s, hlexed, htakes⟩ := Lexed.read_takes hreads hlexed
    have hspan : (⟨c.offset + 1, place.offset⟩ : Span) = ⟨c.offset + 1, c.offset + text.length⟩ := by
      rw [hp.offset]
    exact ⟨s, hlexed, hspan ▸ htakes⟩
  complete := by
    intro c s found s' hlexed htakes
    obtain ⟨a, span⟩ := found
    obtain ⟨lexeme, c', hreads, hlexed', htoken, hspan⟩ := hlexed.takes_reads htakes
    obtain ⟨place, hread, hp, hskip⟩ := hreads.token
    rw [htoken] at hread
    refine ⟨c', token_eq_some.mpr ⟨place, hs.mpr hread, ?_, hskip⟩, hlexed'⟩
    rw [hp.offset, ← hreads.offset]
    exact hspan.symm
  declines := by
    intro c s hlexed
    rw [token_eq_none, hd hlexed]
    simp

/-- A test of the source tells which tokens do not come next. -/
theorem Lexed.iff_not_next {c : Cursor} {s : Stream} {test : Prop} {kinds : List Kind} (h : Lexed c s)
    (hempty : c.rest = [] → test)
    (hnext : ∀ {token p'}, c.toPlace.Reads token p' → (test ↔ token.kind ∉ kinds)) :
    test ↔ ¬ s.Next kinds := by
  unfold Stream.Next
  cases hn : s.next? with
  | none => simp [hempty (h.next_eq_none.mp hn)]
  | some token =>
    obtain ⟨p', hread⟩ := h.next_reads hn
    simp [hnext hread]

theorem not_startsWith_nil {text : String} {barred : UInt8 → Bool} (ht : text ∈ fixedTexts) :
    ¬ startsWith (.ofString text) barred [] := by
  intro h
  exact ofString_ne_nil text ht (List.prefix_nil.mp (startsWith_iff.mp h).1)

theorem text_reads {p p' : Place} {text : String} {u : Unit} (ht : text ∈ fixedTexts)
    (hbracket : text ≠ "[") :
    Scan.text (.ofString text) (joins text) p = .ok (some u, p') ↔ p.Reads (.fixed text) p' := by
  rw [Scan.text_eq_some]
  constructor
  · rintro ⟨hs, rfl⟩
    exact .fixed ht hs fun heq => (hbracket heq).elim
  · intro h
    cases h with
    | fixed _ hs _ => exact ⟨hs, rfl⟩

theorem exists_text_eq_none {p : Place} {bytes : Bytes} {barred : UInt8 → Bool} :
    (∃ place, Scan.text bytes barred p = .ok (none, place)) ↔ ¬ startsWith bytes barred p.rest := by
  simp [Scan.text_eq_none]

/-- A symbol or reserved word is read where it stands and cannot go on. -/
theorem follows_symbolUnless {text : String} {barred : UInt8 → Bool} (ht : text ∈ fixedTexts)
    (hb : joins text = barred) (hbracket : text ≠ "[") (hdot : text ≠ ".") :
    Rule.Follows (symbolUnless barred text) (fun s span s' => s.Takes text span s')
      fun s => ¬ s.Next [text] := by
  subst hb
  refine ((follows_token (f := fun _ => .fixed text) (text_reads ht hbracket) fun {c s} hl => ?_).map
    Prod.snd).congr (fun s span s' => ⟨?_, fun h => ⟨((), span), h, rfl⟩⟩) fun _ => Iff.rfl
  · refine exists_text_eq_none.trans (hl.iff_not_next (fun hr => hr ▸ not_startsWith_nil ht) fun hread => ?_)
    rw [hread.exact_iff ht hbracket hdot, List.mem_singleton, Token.kind_eq_fixed]
  · rintro ⟨_, h, rfl⟩
    exact h

theorem follows_keyword {word : String} (hw : word ∈ reservedWords) :
    Rule.Follows (keyword word) (fun s span s' => s.Takes word span s') fun s => ¬ s.Next [word] :=
  follows_symbolUnless (List.mem_append_left _ hw) (joins_word hw)
    ((by decide : ∀ word ∈ reservedWords, word ≠ "[") word hw)
    ((by decide : ∀ word ∈ reservedWords, word ≠ ".") word hw)

theorem follows_symbol {text : String} (ht : text ∈ plainSymbols) :
    Rule.Follows (symbol text) (fun s span s' => s.Takes text span s') fun s => ¬ s.Next [text] :=
  follows_symbolUnless ((by decide : ∀ text ∈ plainSymbols, text ∈ fixedTexts) text ht) (joins_plain ht)
    ((by decide : ∀ text ∈ plainSymbols, text ≠ "[") text ht)
    ((by decide : ∀ text ∈ plainSymbols, text ≠ ".") text ht)

theorem follows_equals : Rule.Follows (single '=') (fun s span s' => s.Takes "=" span s')
    fun s => ¬ s.Next ["="] :=
  follows_symbolUnless (by decide) joins_equals (by decide) (by decide)

theorem follows_colon : Rule.Follows (single ':') (fun s span s' => s.Takes ":" span s')
    fun s => ¬ s.Next [":"] :=
  follows_symbolUnless (by decide) joins_colon (by decide) (by decide)

theorem follows_dot : Rule.Follows (single '.') (fun s span s' => s.Takes "." span s') Stream.NoDot := by
  have hjoins := joins_dot
  refine ((follows_token (f := fun _ => .fixed ".") (hjoins ▸ text_reads (by decide) (by decide))
    fun {c s} hl => ?_).map Prod.snd).congr (fun s span s' => ⟨?_, fun h => ⟨((), span), h, rfl⟩⟩)
      fun _ => Iff.rfl
  · change (∃ place, Scan.text (.ofString ".") (isByte '.') c.toPlace = .ok (none, place)) ↔ _
    rw [exists_text_eq_none]
    cases hl with
    | done hr => simp [hr, Stream.NoDot, Stream.Next, Stream.next?, not_startsWith_nil (by decide : "." ∈ fixedTexts)]
    | @read _ c' lexeme s' h _ =>
      obtain ⟨place, hread, hp, -⟩ := h.token
      have hhead : c.rest.head? = lexeme.spelling.head? := by
        rw [hp.rest, List.head?_append]
        cases hspelling : lexeme.spelling with
        | nil => exact (hread.ne_nil hp hspelling).elim
        | cons => rfl
      rw [hread.dot_iff, hhead]
      simp only [Stream.NoDot, Stream.Next, Stream.next?, List.head?_cons, Option.map_some, Option.mem_def,
        Option.some.injEq, forall_eq', not_or, not_and, forall_exists_index, ne_eq, List.mem_singleton,
        exists_eq_left', Token.kind_eq_fixed]
  · rintro ⟨_, h, rfl⟩
    exact h

/-- A bracket that does not open a long bracket. -/
def Scan.bracket : Scan (Option Unit) := fun p =>
  if (LongBracket.level? p.rest).isSome then .ok (none, p) else text (.ofString "[") never p

theorem Scan.bracket_eq_some {p p' : Place} {u : Unit} :
    bracket p = .ok (some u, p') ↔ p.Reads (.fixed "[") p' := by
  have hjoins : joins "[" = never := by
    rw [joins_symbol (by decide), (by decide +kernel : continuations "[" = [])]
    rfl
  unfold bracket
  split
  · next hlevel =>
    refine ⟨fun h => (nomatch h), fun h => ?_⟩
    cases h with
    | fixed _ _ hb => simp [hb rfl] at hlevel
  · next hlevel =>
    rw [text_eq_some]
    constructor
    · rintro ⟨hs, rfl⟩
      exact .fixed (by decide) (hjoins ▸ hs) fun _ => by simpa using hlevel
    · intro h
      cases h with
      | fixed _ hs _ => exact ⟨hjoins ▸ hs, rfl⟩

theorem Scan.exists_bracket_eq_none {p : Place} :
    (∃ place, bracket p = .ok (none, place)) ↔
      ¬ (LongBracket.level? p.rest = none ∧ startsWith (.ofString "[") never p.rest) := by
  unfold bracket
  split
  · next hlevel => simp [Option.isSome_iff_ne_none.mp hlevel]
  · next hlevel =>
    have hnone : LongBracket.level? p.rest = none := by simpa using hlevel
    simp [hnone, text_eq_none]

theorem openBracket_eq : openBracket = Rule.map (token Scan.bracket) Prod.snd := by
  funext c
  unfold openBracket
  split
  · next hlevel =>
    refine (map_eq_none.mpr (token_eq_none.mpr ⟨⟨c.toPlace, ?_⟩, rfl⟩)).symm
    exact if_pos hlevel
  · next hlevel =>
    have hscan : Scan.bracket c.toPlace = Scan.text (.ofString "[") never c.toPlace := if_neg hlevel
    have htoken : token (Scan.text (.ofString "[") never) c = token Scan.bracket c := by
      unfold token
      change EStateM.bind (fun c => .ok c c) _ c = EStateM.bind (fun c => .ok c c) _ c
      simp only [EStateM.bind, hscan]
    change EStateM.bind _ _ c = EStateM.bind _ _ c
    simp only [EStateM.bind, htoken]

theorem follows_openBracket : Rule.Follows openBracket (fun s span s' => s.Takes "[" span s')
    fun s => ¬ s.Next ["["] := by
  rw [openBracket_eq]
  refine ((follows_token (f := fun _ => .fixed "[") Scan.bracket_eq_some fun {c s} hl => ?_).map
    Prod.snd).congr (fun s span s' => ⟨?_, fun h => ⟨((), span), h, rfl⟩⟩) fun _ => Iff.rfl
  · refine Scan.exists_bracket_eq_none.trans (hl.iff_not_next (fun hr => ?_) fun hread => ?_)
    · rw [hr]
      exact fun h => not_startsWith_nil (by decide) h.2
    · rw [hread.bracket_iff, List.mem_singleton, Token.kind_eq_fixed]
  · rintro ⟨_, h, rfl⟩
    exact h

theorem Token.kind_mem_name {token : Token} : token.kind ∉ [.name] ↔ ∀ text, token ≠ .name text := by
  cases token <;> simp [kind]

theorem Token.kind_mem_number {token : Token} :
    token.kind ∉ [Kind.number, "."] ↔ (∀ value, token ≠ .number value) ∧ token ≠ .fixed "." := by
  cases token <;> simp [kind]

theorem Token.kind_mem_string {token : Token} :
    token.kind ∉ [.string] ↔ ∀ value, token ≠ .string value := by
  cases token <;> simp [kind]

theorem Scan.name_identifier {p p' : Place} {text : Bytes} (h : name p = .ok (some text, p')) :
    Identifier text := by
  obtain ⟨hs, hr, rfl, -⟩ := name_eq_some.mp h
  refine ⟨?_, fun _ => List.mem_takeWhile_imp, hr⟩
  cases hsource : p.rest with
  | nil => simp [hsource, startsName] at hs
  | cons b tail =>
    have hb : isNameStart b := by simpa [hsource, startsName] using hs
    rw [List.takeWhile_cons_of_pos (by simp [isNamePart, hb])]
    simpa [startsName] using hb

theorem follows_nameToken : Rule.Follows (token Scan.name)
    (fun s a s' => s.Takes (.name a.1) a.2 s' ∧ Identifier a.1) fun s => ¬ s.Next [.name] := by
  have htoken : Rule.Follows (token Scan.name) (fun s a s' => s.Takes (.name a.1) a.2 s')
      fun s => ¬ s.Next [.name] := by
    refine follows_token ⟨.name, fun h => by cases h; assumption⟩ fun hl =>
      hl.iff_not_next (fun hr => ?_) fun hread => hread.name_iff.trans Token.kind_mem_name.symm
    exact ⟨_, Scan.name_eq_none.mpr ⟨by simp [hr, startsName], rfl⟩⟩
  refine ⟨fun {c a c' s'} ho hl => ?_, fun hl h => htoken.complete hl h.1, htoken.declines⟩
  obtain ⟨s, hs, ht⟩ := htoken.sound ho hl
  obtain ⟨place, hscan, -⟩ := token_eq_some.mp ho
  exact ⟨s, hs, ht, Scan.name_identifier hscan⟩

theorem follows_numberToken : Rule.Follows (token Scan.numeral)
    (fun s a s' => s.Takes (.number a.1) a.2 s') fun s => ¬ s.Next [.number, "."] := by
  refine follows_token ⟨.number, fun h => by cases h; assumption⟩ fun hl =>
    hl.iff_not_next (fun hr => ?_) fun hread => hread.number_iff.trans Token.kind_mem_number.symm
  exact ⟨_, Scan.numeral_eq_none.mpr ⟨by rw [hr]; rfl, by rw [hr]; rfl, rfl⟩⟩

theorem follows_stringToken : Rule.Follows (token Scan.string)
    (fun s a s' => s.Takes (.string a.1) a.2 s') fun s => ¬ s.Next [.string] := by
  refine follows_token ⟨.string, fun h => by cases h; assumption⟩ fun hl =>
    hl.iff_not_next (fun hr => ?_) fun hread => hread.string_iff.trans Token.kind_mem_string.symm
  exact ⟨_, Scan.string_eq_none.mpr ⟨by simp [hr], by simp [hr], by rw [hr]; rfl, rfl⟩⟩

end LuaSyntax
