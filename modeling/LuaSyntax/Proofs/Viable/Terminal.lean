import LuaSyntax.Proofs.Viable.Literal
import LuaSyntax.Proofs.Viable.Combinators
import LuaSyntax.Proofs.DoubleEquals

/-! # Tokens in two sources

A rule for single tokens reads the same token in another source. Where it fails, within a token or in a
comment after one, a token of its kind can be finished there. Where it declines, no token of its kind
begins.
-/
namespace LuaSyntax

open Rule Parse Grammar

section Places
variable {c c' : Cursor} {place : Place} {token : Token} {spelling item : Bytes} {label : Label} {offset : Nat}

/-- Trivia that fail can be finished where the source ends. -/
theorem Parse.breaks_of_unfinished (h : skipTrivia c = .error (.expected label offset) c') :
    label.Served fun item => c.Breaks offset item [] := by
  obtain ⟨hne, rfl, rfl, hall⟩ := Parse.skipTrivia_unfinished h
  refine ⟨⟨_, 0, rfl⟩, fun item hitem => ?_⟩
  obtain ⟨rest, hascii, hopens, htrivia⟩ := hall item hitem
  have hpos : 0 < c.rest.length := List.length_pos_iff.mpr hne
  refine ⟨Nat.le_add_right _ _, Nat.le_refl _, rest, hascii, fun heq => ?_, hopens, ?_⟩
  · rw [Place.sourceEnd] at heq
    omega
  · rw [Place.sourceEnd, Nat.add_sub_cancel_left, List.take_length]
    have hwrites := @Writes.afterTrivia [] (c.rest ++ (item ++ rest)) [] writes_nil fun tail => htrivia _
    rwa [List.append_nil] at hwrites

/-- A token in front of trivia that fail. -/
theorem Place.Reads.breaks_trivia {lastEnd : Nat} (h : c.toPlace.Reads token place)
    (hp : c.toPlace.Passes spelling place) (hc : c.Ready)
    (he : skipTrivia ⟨place, lastEnd⟩ = .error (.expected label offset) c') :
    label.Served fun item => c.Breaks offset item [token] :=
  (Parse.breaks_of_unfinished he).mono fun _ hbreaks => h.breaks hp hc hbreaks

/-- No trivia begin where a name, a number or a string stands. -/
theorem Place.Reads.quiet {p : Place} (h : p.Reads token place) (hk : ∀ text, token ≠ .fixed text) :
    ¬ startsTrivium p.rest := by
  have hhead : ∃ b tail, p.rest = b :: tail ∧ ¬ isSpace b ∧ b ≠ '-'.toUInt8 := by
    cases token with
    | fixed text => exact (hk text rfl).elim
    | name text =>
      have hname := head_name h
      cases hrest : p.rest with
      | nil => simp [hrest, startsName] at hname
      | cons b tail =>
        have hb : isNameStart b := by simpa [hrest, startsName] using hname
        refine ⟨b, tail, rfl, fun hspace => ?_, fun hdash => absurd hb (hdash ▸ by decide)⟩
        exact not_isNamePart_of_isSpace hspace (by simp [isNamePart, hb])
    | number value =>
      obtain ⟨b, tail, hrest, hb⟩ := head_of_numeral (head_number h)
      refine ⟨b, tail, hrest, fun hspace => ?_, ?_⟩
      · have hgoes : goesOnNumeral b := by
          rcases hb with hb | ⟨rfl, -⟩
          · exact goesOnNumeral_of_isDigit b hb
          · decide
        exact not_goesOnNumeral_of_isSpace hspace hgoes
      · rcases hb with hb | ⟨rfl, -⟩
        · exact fun hdash => absurd hb (hdash ▸ by decide)
        · decide
    | string value =>
      obtain ⟨b, tail, hrest⟩ : ∃ b tail, p.rest = b :: tail := by
        rcases head_of_string (head_string h) with hb | hb | hb
        all_goals
          obtain ⟨tail, htail⟩ := List.head?_eq_some_iff.mp hb
          exact ⟨_, tail, htail⟩
      refine ⟨b, tail, hrest, ?_⟩
      have hb := head_of_string (head_string h)
      rw [hrest, List.head?_cons] at hb
      rcases hb with hb | hb | hb
      all_goals
        obtain rfl := Option.some.inj hb
        decide
  obtain ⟨b, tail, hrest, hspace, hdash⟩ := hhead
  rw [hrest]
  exact not_startsTrivium_of_head fun c hc => Option.some.inj hc ▸ ⟨hspace, hdash⟩

/-- A token that is cut off can be finished as one that is read wherever a new line follows it. -/
theorem Place.Unfinished.breaks {form : Bytes → Prop} (h : c.toPlace.Unfinished label offset form) :
    label.Served fun item => ∃ text, form text ∧ ∀ token, (∀ text, token ≠ .fixed text) →
      (∀ tail offset, (⟨text ++ lineFeed :: tail, offset⟩ : Place).Reads token ⟨lineFeed :: tail, offset + text.length⟩) →
      c.Breaks offset item [token] := by
  obtain ⟨front, m, hp, rfl, hne, hall⟩ := h
  refine hall.mono ?_
  rintro item ⟨rest, hascii, hopens, hform⟩
  refine ⟨front ++ (item ++ rest), hform, fun token hk hread => ?_⟩
  have hoffset := hp.offset
  have hlength := hp.length
  have hpos := List.length_pos_iff.mpr hne
  refine ⟨by omega, ?_, rest, hascii, fun heq => by omega, hopens, ?_⟩
  · rw [Place.sourceEnd]
    omega
  · have htake : c.rest.take (m.offset - c.offset) = front := by
      rw [hp.rest, hoffset, Nat.add_sub_cancel_left, List.take_left]
    rw [htake]
    exact writes_spelling hread fun tail => (hread tail 0).quiet hk

end Places

section Lexing
variable {α β ι : Type} {deep : Prop} {rule : Rule α} {accepts : Token → Prop} {start stop : Ahead}

/-- A rule matches single tokens of some kind. Where it fails, such a token can be finished. -/
structure Rule.Lexes (rule : Rule α) (accepts : Token → Prop) : Prop where
  reads : ∀ {c a c'}, rule c = .ok (some a) c' → ∃ lexeme, c.Reads lexeme c' ∧ accepts lexeme.token
  gets : ∀ {token span s s'}, accepts token → s.Takes token span s' → rule.Gets (fun _ => True) s s'
  breaks : ∀ {c label offset c'}, c.Ready → rule c = .error (.expected label offset) c' →
    label.Served fun item => ∃ token, accepts token ∧ c.toPlace.Opens token ∧ c.Breaks offset item [token]

theorem Rule.lexes_token {scan : Scan (Option α)} {f : α → Token}
    (hs : ∀ {p a p'}, scan p = .ok (some a, p') ↔ p.Reads (f a) p')
    (hfound : ∀ {p a p'}, scan p = .ok (some a, p') → accepts (f a)) (hof : ∀ {token}, accepts token → ∃ a, token = f a)
    (hfails : ∀ {c : Cursor} {label offset}, scan c.toPlace = .error (.expected label offset) →
      label.Served fun item => ∃ token, accepts token ∧ c.toPlace.Opens token ∧ c.Breaks offset item [token]) :
    Lexes (token scan) accepts where
  reads := by
    rintro c ⟨a, span⟩ c' ho
    obtain ⟨place, hscan, -, hskip⟩ := token_eq_some.mp ho
    have hread := hs.mp hscan
    obtain ⟨text, -, hp⟩ := hread.lt
    exact ⟨⟨f a, c.offset, text⟩, ⟨rfl, place, hread, hp, hskip⟩, hfound hscan⟩
  gets := by
    intro token span s s' haccepts htakes d hd
    obtain ⟨a, rfl⟩ := hof haccepts
    obtain ⟨lexeme, d', hreads, hd', htoken, -⟩ := hd.takes_reads htakes
    obtain ⟨place, hread, -, hskip⟩ := hreads.token
    rw [htoken] at hread
    exact ⟨_, d', token_eq_some.mpr ⟨place, hs.mpr hread, rfl, hskip⟩, trivial, hd'⟩
  breaks := by
    intro c label offset c' hc he
    rcases token_eq_error.mp he with ⟨hscan, -⟩ | ⟨a, place, hscan, hskip⟩
    · exact hfails hscan
    · have hread := hs.mp hscan
      obtain ⟨text, -, hp⟩ := hread.lt
      exact (hread.breaks_trivia hp hc hskip).mono fun item hbreaks => ⟨f a, hfound hscan, .reads hread, hbreaks⟩

theorem Rule.Lexes.map (h : rule.Lexes accepts) (k : α → β) : Lexes (rule.map k) accepts where
  reads ho := by
    obtain ⟨a, ho, -⟩ := map_eq_some.mp ho
    exact h.reads ho
  gets ha ht := (h.gets ha ht).andThen fun _ _ => .pure trivial
  breaks hc he := by
    rcases andThen_eq_error.mp he with he | ⟨_, _, -, he⟩
    · exact h.breaks hc he
    · cases he

/-- A token of a kind may come next. -/
def Ahead.Admits (kind : Kind) : Ahead → Prop
  | .anything => True
  | .limited _ bars firm => kind ∉ bars ∧ (firm → kind ≠ .name)

theorem Ahead.anything_admits (kind : Kind) : Ahead.anything.Admits kind := trivial

instance (kind : Kind) (ahead : Ahead) : Decidable (ahead.Admits kind) :=
  match ahead with
  | .anything => isTrue trivial
  | .limited _ bars firm => inferInstanceAs (Decidable (kind ∉ bars ∧ (firm → kind ≠ .name)))

variable {c m : Cursor} {s s' : Stream} {token : Token} {span : Span}

theorem Ahead.Admits.sees (h : start.Admits token.kind) (ho : c.toPlace.Opens token) (hn : s.next? = some token) :
    start.Sees c s := by
  cases start with
  | anything => exact trivial
  | limited halts bars firm =>
    refine ⟨.inl ⟨⟨token, ho, hn⟩, fun hfirm => ?_⟩, ?_⟩
    · intro lexeme m span s' _ hname htakes
      rw [htakes.next] at hn
      obtain rfl := Option.some.inj hn
      exact (h.2 hfirm hname).elim
    · rintro ⟨token', hn', hbar⟩
      rw [hn] at hn'
      obtain rfl := Option.some.inj hn'
      exact h.1 hbar

theorem Rule.Lexes.tracks (h : rule.Lexes accepts) (hstart : ∀ {token}, accepts token → start.Admits token.kind) :
    rule.Tracks deep (fun _ : ι => rule) AnyResult start stop where
  ok {c a c'} hc ho := by
    obtain ⟨lexeme, hreads, haccepts⟩ := h.reads ho
    refine ⟨[lexeme.token], hreads.cuts, fun s s' hspells _ => ?_⟩
    obtain ⟨span, htakes⟩ := Stream.spells_singleton.mp hspells
    obtain ⟨place, hread, -⟩ := hreads.token
    exact ⟨(hstart haccepts).sees (.reads hread) htakes.next, fun _ => h.gets haccepts htakes⟩
  error hd c label offset c' hc he := by
    refine Label.Served.mono (h.breaks hc he) ?_
    rintro item ⟨token, haccepts, hopens, hbreaks⟩
    refine ⟨[token], [], hbreaks, List.forall_mem_nil _, fun s s' hspells _ => ?_⟩
    obtain ⟨span, htakes⟩ := Stream.spells_singleton.mp hspells
    exact ⟨(hstart haccepts).sees hopens htakes.next, fun _ => h.gets haccepts htakes⟩

theorem Rule.Lexes.tracks_fixed {text : String} (h : rule.Lexes (· = .fixed text)) (hstart : start.Admits (.fixed text)) :
    rule.Tracks deep (fun _ : ι => rule) AnyResult start stop :=
  h.tracks (by
    rintro _ rfl
    exact hstart)

end Lexing

section Terminals
variable {text : String} {barred : UInt8 → Bool}

theorem Rule.lexes_symbolUnless (ht : text ∈ fixedTexts) (hb : joins text = barred) (hbracket : text ≠ "[") :
    Lexes (symbolUnless barred text) (· = .fixed text) := by
  subst hb
  have htoken : Lexes (token (Scan.text (.ofString text) (joins text))) (· = .fixed text) := by
    refine lexes_token (text_reads ht hbracket) (fun _ => rfl) (fun h => ⟨(), h⟩) fun {c _ _} he => ?_
    exact (Scan.text_ne_error he).elim
  exact htoken.map Prod.snd

theorem lexes_keyword {word : String} (hw : word ∈ reservedWords) : (keyword word).Lexes (· = .fixed word) :=
  lexes_symbolUnless (List.mem_append_left _ hw) (joins_word hw)
    ((by decide : ∀ word ∈ reservedWords, word ≠ "[") word hw)

theorem lexes_symbol (ht : text ∈ plainSymbols) : (symbol text).Lexes (· = .fixed text) :=
  have hall := plainSymbols_fixed text ht
  lexes_symbolUnless hall.1 (joins_plain ht) hall.2.1

theorem lexes_equals : (single '=').Lexes (· = .fixed "=") := lexes_symbolUnless (by decide) joins_equals (by decide)

theorem lexes_colon : (single ':').Lexes (· = .fixed ":") := lexes_symbolUnless (by decide) joins_colon (by decide)

theorem lexes_dot : (single '.').Lexes (· = .fixed ".") := lexes_symbolUnless (by decide) joins_dot (by decide)

theorem lexes_unaryOperator (op : UnaryOp) : (unaryOperator op).Lexes (· = .fixed op.text) :=
  (lexes_symbolUnless (by cases op <;> decide) (joins_unary op) (by cases op <;> decide)).map _

theorem lexes_openBracket : openBracket.Lexes (· = .fixed "[") := by
  have htoken : Lexes (token Scan.bracket) (· = .fixed "[") := by
    refine lexes_token Scan.bracket_eq_some (fun _ => rfl) (fun h => ⟨(), h⟩) fun {c _ _} he => ?_
    rw [Scan.bracket] at he
    split at he
    · cases he
    · exact (Scan.text_ne_error he).elim
  rw [openBracket_eq]
  exact htoken.map Prod.snd

/-- The tokens that are names. -/
def Token.IsName (token : Token) : Prop := ∃ text, token = .name text ∧ Identifier text

theorem lexes_nameToken : Rule.Lexes (token Scan.name) Token.IsName := by
  refine lexes_token ⟨.name, fun h => by cases h; assumption⟩ (fun h => ⟨_, rfl, Scan.name_identifier h⟩)
    (fun ⟨text, h, _⟩ => ⟨text, h⟩) fun {c _ _} he => ?_
  exact (Scan.name_ne_error he).elim

theorem lexes_name : name.Lexes Token.IsName := lexes_nameToken.map _

theorem lexes_key : key.Lexes Token.IsName := lexes_nameToken.map _

theorem lexes_varargs : varargs.Lexes (· = .fixed "...") := (lexes_symbol (by decide)).map _

theorem lexes_number : number.Lexes fun token => ∃ value, token = .number value := by
  refine (lexes_token ⟨.number, fun h => by cases h; assumption⟩ (fun _ => ⟨_, rfl⟩) id
    fun {c label offset} he => ?_).map _
  refine (Scan.numeral_unfinished he).breaks.mono ?_
  rintro item ⟨text, ⟨value, hspelling⟩, hbreaks⟩
  refine ⟨.number value, ⟨value, rfl⟩, .number he, hbreaks _ nofun fun tail offset => .number ?_⟩
  refine Scan.numeral_of_spelling hspelling ⟨rfl, rfl⟩ fun b hb => ?_
  obtain rfl := Option.some.inj hb
  decide

theorem lexes_string : string.Lexes fun token => ∃ value, token = .string value := by
  refine (lexes_token ⟨.string, fun h => by cases h; assumption⟩ (fun _ => ⟨_, rfl⟩) id
    fun {c label offset} he => ?_).map _
  refine (Scan.string_unfinished he).breaks.mono ?_
  rintro item ⟨text, ⟨value, hspelling⟩, hbreaks⟩
  exact ⟨.string value, ⟨value, rfl⟩, .string he,
    hbreaks _ nofun fun tail offset => .string (Scan.string_of_spelling hspelling ⟨rfl, rfl⟩)⟩

end Terminals

section Names
variable {ι : Type} {deep : Prop} {halts bars : List Kind} {stop : Ahead} {c m : Cursor} {s s' : Stream}
  {lexeme : Lexeme} {span : Span}

theorem Stream.Takes.unique {token token' : Token} {span' : Span} {s'' : Stream} (h : s.Takes token span s')
    (h' : s.Takes token' span' s'') : token' = token ∧ s'' = s' := by
  obtain ⟨lexeme, hl, rfl, rfl, hlast, hend⟩ := h
  obtain ⟨lexeme', hl', rfl, rfl, hlast', hend'⟩ := h'
  rw [hl] at hl'
  obtain ⟨rfl, hrest⟩ := List.cons.inj hl'
  refine ⟨rfl, ?_⟩
  obtain ⟨lexemes, lastEnd, sourceEnd⟩ := s'
  obtain ⟨lexemes', lastEnd', sourceEnd'⟩ := s''
  cases hrest
  cases hlast
  cases hlast'
  cases hend
  cases hend'
  rfl

/-- A name that fails in the trivia behind it is not read, so it does not matter what comes there. -/
theorem completed_nameToken {c' : Cursor} {label : Label} {offset : Nat} (hbars : .name ∉ bars) (hc : c.Ready)
    (he : token Scan.name c = .error (.expected label offset) c') :
    c.Completed label offset (.limited halts bars true) stop fun s s' =>
      ∀ _ : ι, Rule.Gets (token Scan.name) (fun _ => True) s s' := by
  refine Label.Served.mono (lexes_nameToken.breaks hc he) ?_
  rintro item ⟨token, ⟨text, rfl, hid⟩, hopens, hbreaks⟩
  refine ⟨[.name text], [], hbreaks, List.forall_mem_nil _, fun s s' hspells _ => ?_⟩
  obtain ⟨span, htakes⟩ := Stream.spells_singleton.mp hspells
  refine ⟨⟨.inl ⟨⟨_, hopens, htakes.next⟩, fun _ => ?_⟩, ?_⟩, fun _ => lexes_nameToken.gets ⟨text, rfl, hid⟩ htakes⟩
  · intro lexeme' m' span' s'' hreads' hname' _
    obtain ⟨place, hread, -, hskip⟩ := hreads'.token
    cases htoken : lexeme'.token with
    | fixed _ | number _ | string _ => rw [htoken] at hname'; cases hname'
    | name text' =>
      rw [htoken] at hread
      cases hread with
      | name hscan =>
        have hok := token_eq_some.mpr ⟨place, hscan, rfl, hskip⟩
        rw [he] at hok
        cases hok
  · rintro ⟨token, hn, hbar⟩
    rw [htakes.next] at hn
    obtain rfl := Option.some.inj hn
    exact hbars hbar

/-- A name, behind which comes what begins there, or what ends an expression. -/
theorem tracks_nameToken (hbars : .name ∉ bars) (hstop : stop.Within (.limited closers [] false)) :
    Rule.Tracks deep (token Scan.name) (fun _ : ι => token Scan.name) AnyResult (.limited halts bars true) stop where
  ok {c a c'} hc ho := by
    obtain ⟨lexeme, hreads, text, htext, hid⟩ := lexes_nameToken.reads ho
    refine ⟨[lexeme.token], hreads.cuts, fun s s' hspells hs' => ?_⟩
    obtain ⟨span, htakes⟩ := Stream.spells_singleton.mp hspells
    obtain ⟨place, hread, -⟩ := hreads.token
    refine ⟨⟨.inl ⟨⟨_, .reads hread, htakes.next⟩, fun _ => ?_⟩, ?_⟩, fun _ => lexes_nameToken.gets ⟨text, htext, hid⟩ htakes⟩
    · intro lexeme' m' span' s'' hreads' _ htakes'
      obtain ⟨-, rfl⟩ := htakes.unique htakes'
      have hdot : c.rest.head? ≠ some '.'.toUInt8 := by
        have hname := Place.Reads.head_name (htext ▸ hread)
        intro hhead
        rw [startsName, hhead] at hname
        exact absurd hname (by decide)
      obtain ⟨-, rfl⟩ := hreads.unique hreads' hdot
      exact (hs'.mono hstop).1.imp And.left id
    · rintro ⟨token, hn, hbar⟩
      rw [htakes.next] at hn
      obtain rfl := Option.some.inj hn
      rw [htext] at hbar
      exact hbars hbar
  error _ _ _ _ _ hc he := completed_nameToken hbars hc he

theorem completed_key {c' : Cursor} {label : Label} {offset : Nat} (hbars : .name ∉ bars) (hc : c.Ready)
    (he : key c = .error (.expected label offset) c') :
    c.Completed label offset (.limited halts bars true) stop fun s s' => ∀ _ : ι, key.Gets (fun _ => True) s s' := by
  rcases andThen_eq_error.mp he with he | ⟨_, _, -, he⟩
  · exact (completed_nameToken hbars hc he).mono fun _ _ hall i => (hall i).andThen fun _ _ => .pure trivial
  · cases he

theorem tracks_key (hbars : .name ∉ bars) (hstop : stop.Within (.limited closers [] false)) :
    key.Tracks deep (fun _ : ι => key) AnyResult (.limited halts bars true) stop :=
  (tracks_nameToken hbars hstop).map

theorem tracks_name (hbars : .name ∉ bars) (hstop : stop.Within (.limited closers [] false)) :
    name.Tracks deep (fun _ : ι => name) AnyResult (.limited halts bars true) stop :=
  (tracks_nameToken hbars hstop).map

end Names

section Declining
variable {α : Type} {deep : Prop} {text : String} {barred : UInt8 → Bool} {p : Place} {found : Token}

theorem Rule.Predicts.settles {rule : Rule α} {phrase : Phrase α} {kinds : List Kind} (h : rule.Predicts phrase kinds)
    (ht : ∀ {c c'}, rule c = .ok none c' → ∀ {token}, c.toPlace.Opens token → token.kind ∉ kinds) :
    rule.Settles deep rule kinds [] where
  tells := ht
  lacks _ _ hn _ hd := (h.follows.declines hd).mpr fun hnext => hn (hnext.mono fun _ => List.mem_append_left _)

theorem scan_of_token_none {scan : Scan (Option α)} {β : Type} {k : α × Span → β} {c c' : Cursor}
    (ho : Rule.map (token scan) k c = .ok none c') : ∃ place, scan c.toPlace = .ok (none, place) :=
  (token_eq_none.mp (map_eq_none.mp ho)).1

/-- Where a symbol or a reserved word is ruled out, it does not begin. -/
theorem Place.Opens.not_fixed (h : p.Opens found) (hn : ¬ startsWith (.ofString text) (joins text) p.rest)
    (ht : text ∈ fixedTexts) (hbracket : text ≠ "[") (hdot : text ≠ ".") (hfront : text ∉ ["<", ">", "/"]) :
    found.kind ∉ [Kind.fixed text] := by
  rw [List.mem_singleton]
  cases h with
  | reads hread => exact fun hk => hn ((hread.exact_iff ht hbracket hdot).mpr (Token.kind_eq_fixed.mp hk))
  | @front op ho =>
    intro hk
    obtain rfl : op.text = text := Kind.fixed.inj hk
    refine hfront ?_
    simp only [List.mem_cons, List.not_mem_nil, or_false] at ho
    rcases ho with rfl | rfl | rfl <;> decide
  | number | string => exact nofun

theorem settles_symbolUnless {phrase : Phrase Span} (h : Rule.Predicts (symbolUnless barred text) phrase [.fixed text])
    (ht : text ∈ fixedTexts) (hb : joins text = barred) (hbracket : text ≠ "[") (hdot : text ≠ ".")
    (hfront : text ∉ ["<", ">", "/"]) :
    Rule.Settles deep (symbolUnless barred text) (symbolUnless barred text) [.fixed text] [] := by
  subst hb
  refine h.settles fun {c c'} ho found hopens => ?_
  exact hopens.not_fixed (exists_text_eq_none.mp (scan_of_token_none ho)) ht hbracket hdot hfront

theorem settles_keyword {word : String} (hw : word ∈ reservedWords) :
    (keyword word).Settles deep (keyword word) [.fixed word] [] :=
  settles_symbolUnless (predicts_keyword hw) (List.mem_append_left _ hw) (joins_word hw)
    ((by decide : ∀ word ∈ reservedWords, word ≠ "[") word hw)
    ((by decide : ∀ word ∈ reservedWords, word ≠ ".") word hw)
    ((by decide : ∀ word ∈ reservedWords, word ∉ ["<", ">", "/"]) word hw)

theorem settles_symbol (ht : text ∈ plainSymbols) : (symbol text).Settles deep (symbol text) [.fixed text] [] :=
  have hall := plainSymbols_fixed text ht
  settles_symbolUnless (predicts_symbol ht) hall.1 (joins_plain ht) hall.2.1 hall.2.2
    ((by decide : ∀ text ∈ plainSymbols, text ∉ ["<", ">", "/"]) text ht)

theorem settles_equals : (single '=').Settles deep (single '=') ["="] [] :=
  settles_symbolUnless predicts_equals (by decide) joins_equals (by decide) (by decide) (by decide)

theorem settles_colon : (single ':').Settles deep (single ':') [":"] [] :=
  settles_symbolUnless predicts_colon (by decide) joins_colon (by decide) (by decide) (by decide)

theorem settles_unaryOperator (op : UnaryOp) : (unaryOperator op).Settles deep (unaryOperator op) [.fixed op.text] [] :=
  (settles_symbolUnless ⟨follows_symbolUnless (by cases op <;> decide) (joins_unary op) (by cases op <;> decide)
    (by cases op <;> decide), Stream.Takes.opens, steady_symbolUnless _ (by cases op <;> decide)⟩ (by cases op <;> decide)
    (joins_unary op) (by cases op <;> decide) (by cases op <;> decide) (by cases op <;> decide)).map _ _

/-- A dot is looked for where a number that begins with one may stand in the other source. -/
theorem settles_dot : (single '.').Settles deep (single '.') ["."] [.number] where
  tells {c c'} ho token hopens := by
    have hn : ¬ startsWith (.ofString ".") (isByte '.') c.rest := exists_text_eq_none.mp (scan_of_token_none ho)
    rw [List.mem_singleton]
    cases hopens with
    | reads hread => exact fun hk => hn (hread.dot_iff.mpr (.inl (Token.kind_eq_fixed.mp hk)))
    | @front op hop =>
      simp only [List.mem_cons, List.not_mem_nil, or_false] at hop
      rcases hop with rfl | rfl | rfl <;> decide
    | number | string => exact nofun
  lacks _ s hn d hd := by
    refine (follows_dot.declines hd).mpr ⟨fun hnext => hn (hnext.mono (by decide)), fun lexeme hl value hv _ => ?_⟩
    refine hn ⟨.number value, ?_, by simp [Token.kind]⟩
    rw [Stream.next?, hl, Option.map_some, hv]

theorem settles_openBracket : openBracket.Settles deep openBracket ["["] [] := by
  refine predicts_openBracket.settles fun {c c'} ho token hopens => ?_
  rw [openBracket_eq] at ho
  have hn := @Scan.exists_bracket_eq_none c.toPlace |>.mp (scan_of_token_none ho)
  rw [List.mem_singleton]
  cases hopens with
  | reads hread => exact fun hk => hn (hread.bracket_iff.mpr (Token.kind_eq_fixed.mp hk))
  | @front op hop =>
    simp only [List.mem_cons, List.not_mem_nil, or_false] at hop
    rcases hop with rfl | rfl | rfl <;> decide
  | number | string => exact nofun

theorem settles_nameToken : Rule.Settles deep (token Scan.name) (token Scan.name) [.name] [] := by
  refine predicts_nameToken.settles fun {c c'} ho token hopens => ?_
  have hn := (token_eq_none.mp ho).1
  cases hopens with
  | reads hread => exact Token.kind_mem_name.mpr (hread.name_iff.mp hn)
  | front | number | string => simp [Token.kind]

theorem settles_name : name.Settles deep name [.name] [] := settles_nameToken.map _ _

theorem settles_key : key.Settles deep key [.name] [] := settles_nameToken.map _ _

theorem settles_varargs : varargs.Settles deep varargs ["..."] [] := (settles_symbol (by decide)).map _ _

theorem settles_number : number.Settles deep number [.number, "."] [] := by
  refine predicts_number.settles fun {c c'} ho token hopens => ?_
  obtain ⟨place, hn⟩ := scan_of_token_none ho
  cases hopens with
  | reads hread => exact Token.kind_mem_number.mpr (hread.number_iff.mp ⟨place, hn⟩)
  | @front op hop =>
    simp only [List.mem_cons, List.not_mem_nil, or_false] at hop
    rcases hop with rfl | rfl | rfl <;> decide
  | number he =>
    rw [hn] at he
    cases he
  | string => simp [Token.kind]

theorem settles_string : string.Settles deep string [.string] [] := by
  refine predicts_string.settles fun {c c'} ho token hopens => ?_
  obtain ⟨place, hn⟩ := scan_of_token_none ho
  cases hopens with
  | reads hread => exact Token.kind_mem_string.mpr (hread.string_iff.mp ⟨place, hn⟩)
  | string he =>
    rw [hn] at he
    cases he
  | front | number => simp [Token.kind]

end Declining

end LuaSyntax
