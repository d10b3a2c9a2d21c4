import LuaSyntax.Proofs.Phrase.Terminal

/-! # Operators

An operator is tested for before the longer symbols that begin with it are ruled out. The
test is right wherever an operand follows, because no operand begins with a byte that could
have made the operator longer.
-/
namespace LuaSyntax

open Rule Parse Grammar

/-- The symbols whose first byte could double a symbol before them. -/
def doubled : List Kind := ["=", "==", "<", "<=", "<<", ">", ">=", ">>", "/", "//"]

section Tables

/-- The symbols of one byte that could double a symbol before them. -/
def doublings : List String := ["=", "<", ">", "/"]

theorem doublings_spec : ∀ symbol ∈ doublings,
    symbol ∈ symbols ∧ symbol ≠ "[" ∧ symbol ≠ "." ∧
      (Bytes.ofString symbol).all (fun b => !isSpace b && b != '-'.toUInt8) ∧
      ∀ text ∈ fixedTexts, startsWith (.ofString symbol) never (.ofString text) →
        Kind.fixed text ∈ doubled := by decide +kernel

theorem operator_fixed (op : BinaryOp) : op.text ∈ fixedTexts ∧ op.text ≠ "[" ∧ op.text ≠ "." := by
  cases op <;> decide

theorem operator_symbol_spec : ∀ op ∈ [BinaryOp.lt, .gt, .div], op.text ∈ symbols ∧
    ∀ text ∈ fixedTexts, startsWith (.ofString op.text) never (.ofString text) ↔
      Kind.fixed text ∈ operatorKinds op := by decide +kernel

theorem continuations_operator : ∀ op ∈ [BinaryOp.lt, .gt, .div],
    ∀ b ∈ continuations op.text, ∃ symbol ∈ doublings, Bytes.ofString symbol = [b] := by decide +kernel

end Tables

/-- The test for an operator rules out all that could follow it, apart from three operators. -/
theorem joins_operator {op : BinaryOp} (h : op ∉ [BinaryOp.lt, .gt, .div]) :
    joins op.text = barredAfterBinary op := by
  cases op with
  | or | and => exact joins_word (by decide)
  | bitXor => exact joins_tilde
  | concat => exact joins_dots
  | lt | gt | div => exact absurd (by decide) h
  | _ => exact joins_plain (by decide)

theorem barredAfterBinary_operator {op : BinaryOp} (h : op ∈ [BinaryOp.lt, .gt, .div]) :
    barredAfterBinary op = never := by
  simp only [List.mem_cons, List.not_mem_nil, or_false] at h
  rcases h with rfl | rfl | rfl <;> rfl

theorem operatorKinds_eq {op : BinaryOp} (h : op ∉ [BinaryOp.lt, .gt, .div]) :
    operatorKinds op = [.fixed op.text] := by
  cases op with
  | lt | gt | div => exact absurd (by decide) h
  | _ => rfl

theorem operatorKinds_fixed (op : BinaryOp) : ∀ kind ∈ operatorKinds op, ∃ text, kind = .fixed text := by
  cases op <;> simp [operatorKinds]

theorem joins_unary (op : UnaryOp) : joins op.text = barredAfterUnary op := by
  cases op with
  | not => exact joins_word (by decide)
  | bitNot => exact joins_tilde
  | _ => exact joins_plain (by decide)

variable {c m : Cursor} {sm : Stream} {span : Span}

theorem eq_of_skipTrivia (h : skipTrivia c = .ok () m) (hs : ¬ startsTrivium c.rest) : m = c := by
  have hstay : skipTrivia c = .ok () c := skipTrivia_iff.mpr ⟨.refl, hs⟩
  rw [hstay] at h
  cases h
  rfl

/-- A symbol whose test leaves out some bytes that could follow it, in front of something
that does not begin with one of these. -/
theorem sound_symbolUnless {text : String} {barred : UInt8 → Bool} (ht : text ∈ fixedTexts)
    (hbracket : text ≠ "[") (hdot : text ≠ ".")
    (hj : ∀ b, joins text b → barred b ∨ ∃ symbol ∈ doublings, Bytes.ofString symbol = [b])
    (ho : symbolUnless barred text c = .ok (some span) m) (hm : Lexed m sm) (hn : ¬ sm.Next doubled) :
    ∃ s, Lexed c s ∧ s.Takes text span sm := by
  obtain ⟨⟨u, span⟩, htoken, rfl⟩ := map_eq_some.mp ho
  obtain ⟨place, hscan, rfl, hskip⟩ := token_eq_some.mp htoken
  obtain ⟨hfront, rfl⟩ := Scan.text_eq_some.mp hscan
  obtain ⟨hp, hnext⟩ := startsWith_iff.mp hfront
  have hexact : startsWith (.ofString text) (joins text) c.rest := by
    refine startsWith_iff.mpr ⟨hp, fun b hb hjoin => ?_⟩
    rcases hj b hjoin with hbar | ⟨symbol, hsymbol, hbyte⟩
    · exact hnext b hb hbar
    obtain ⟨hs, hbr, hd, hall, hkinds⟩ := doublings_spec symbol hsymbol
    obtain ⟨tail, htail⟩ := List.head?_eq_some_iff.mp hb
    have hquiet : ¬ startsTrivium (b :: tail) := by
      rw [hbyte] at hall
      cases tail <;> simp_all [startsTrivium, startsComment]
    have hstay : m = ⟨c.toPlace.advance (Bytes.ofString text).length, _⟩ :=
      eq_of_skipTrivia hskip (by rw [Place.advance, htail]; exact hquiet)
    have hrest : m.rest = b :: tail := by rw [hstay]; exact htail
    have hsome : sm.next? ≠ none := fun hnone => by simp [hm.next_eq_none.mp hnone] at hrest
    obtain ⟨token, htoken⟩ := Option.ne_none_iff_exists'.mp hsome
    obtain ⟨p', hread⟩ := hm.next_reads htoken
    have hlead : startsWith (.ofString symbol) never m.rest := by
      rw [hbyte, hrest]
      exact startsWith_never.mpr ⟨tail, rfl⟩
    obtain ⟨text', rfl, hlead'⟩ := (hread.symbol_iff hs hbr hd (by simp)).mp hlead
    cases hread with
    | fixed ht' _ _ => exact hn ⟨_, htoken, hkinds text' ht' hlead'⟩
  have htoken' : token (Scan.text (.ofString text) (joins text)) c = .ok (some ((), _)) m :=
    token_eq_some.mpr ⟨_, Scan.text_eq_some.mpr ⟨hexact, rfl⟩, rfl, hskip⟩
  exact (follows_symbolUnless ht rfl hbracket hdot).sound (map_eq_some.mpr ⟨_, htoken', rfl⟩) hm

variable {s s' : Stream}

/-- A symbol is read where it stands if its test bars no more than could make it longer. -/
theorem complete_symbolUnless {text : String} {p : UInt8 → Bool}
    (hbar : ∀ b, p b → joins text b) (hl : Lexed c s) (ht : s.Takes text span s') :
    ∃ c', symbolUnless p text c = .ok (some span) c' ∧ Lexed c' s' := by
  obtain ⟨lexeme, c', hreads, hl', htoken, rfl⟩ := hl.takes_reads ht
  obtain ⟨place, hread, hp', hskip⟩ := hreads.token
  rw [htoken] at hread
  cases hread with
  | fixed _ hs _ =>
    obtain ⟨hp, hnext⟩ := startsWith_iff.mp hs
    have hfront := startsWith_iff.mpr ⟨hp, fun b hm hb => hnext b hm (hbar b hb)⟩
    have htoken : token (Scan.text (.ofString text) p) c = .ok (some ((), lexeme.span)) c' := by
      refine token_eq_some.mpr ⟨_, Scan.text_eq_some.mpr ⟨hfront, rfl⟩, ?_, hskip⟩
      rw [hp'.offset, ← hreads.offset]
      rfl
    exact ⟨c', map_eq_some.mpr ⟨_, htoken, rfl⟩, hl'⟩

/-- An equals sign that is not told from the front of another symbol, in front of something
that does not begin with one more. -/
theorem follows_equalsThen {β : Type} {f : Span → Parse β} {Q : Span → Phrase β} {kinds : List Kind}
    (hf : ∀ span, (f span).Follows (Q span)) (ho : ∀ {span s b s'}, Q span s b s' → s.Next kinds)
    (hk : ∀ kind ∈ kinds, kind ∉ doubled) (label : Label) :
    (expect (symbol "=") label >>= f).Follows fun s b s' => ∃ span m, s.Takes "=" span m ∧ Q span m b s' where
  sound hok hl := by
    obtain ⟨span, m, hok, hok'⟩ := bind_eq_ok.mp hok
    obtain ⟨sm, hm, hb⟩ := (hf span).sound hok' hl
    have hj : ∀ b, joins "=" b → never b ∨ ∃ symbol ∈ doublings, Bytes.ofString symbol = [b] := by
      intro b hb
      rw [joins_equals] at hb
      obtain rfl : b = '='.toUInt8 := by simpa [isByte] using hb
      exact .inr ⟨"=", by decide, by decide⟩
    obtain ⟨s, hs, htakes⟩ := sound_symbolUnless (by decide) (by decide) (by decide) hj
      (expect_eq_ok.mp hok) hm ((ho hb).disjoint hk)
    exact ⟨s, hs, span, sm, htakes, hb⟩
  complete := by
    rintro c s b s' hl ⟨span, m, ht, hb⟩
    obtain ⟨cm, hok, hm⟩ := complete_symbolUnless (p := never) (by simp) hl ht
    obtain ⟨c', hok', hl'⟩ := (hf span).complete hm hb
    exact ⟨c', bind_eq_ok.mpr ⟨span, cm, expect_eq_ok.mpr hok, hok'⟩, hl'⟩

variable {op found : BinaryOp}

theorem follows_binaryOperator (h : op ∉ [BinaryOp.lt, .gt, .div]) :
    Rule.Follows (binaryOperator op) (fun s found s' => ∃ span, s.Takes op.text span s' ∧ found = op)
      fun s => ¬ s.Next [op.text] := by
  obtain ⟨ht, hbracket, hdot⟩ := operator_fixed op
  exact (follows_symbolUnless ht (joins_operator h) hbracket hdot).map fun _ => op

theorem follows_unaryOperator (op : UnaryOp) :
    Rule.Follows (unaryOperator op) (fun s found s' => ∃ span, s.Takes op.text span s' ∧ found = (op, span))
      fun s => ¬ s.Next [op.text] :=
  (follows_symbolUnless (by cases op <;> decide) (joins_unary op) (by cases op <;> decide)
    (by cases op <;> decide)).map fun span => (op, span)

theorem sound_binaryOperator (ho : binaryOperator op c = .ok (some found) m) (hm : Lexed m sm)
    (hn : ¬ sm.Next doubled) : ∃ s span, Lexed c s ∧ s.Takes op.text span sm ∧ found = op := by
  obtain ⟨span, hsymbol, rfl⟩ := map_eq_some.mp ho
  obtain ⟨ht, hbracket, hdot⟩ := operator_fixed op
  have hj : ∀ b, joins op.text b → barredAfterBinary op b ∨
      ∃ symbol ∈ doublings, Bytes.ofString symbol = [b] := by
    intro b hb
    by_cases hraw : op ∈ [BinaryOp.lt, .gt, .div]
    · rw [joins_symbol (operator_symbol_spec op hraw).1] at hb
      exact .inr (continuations_operator op hraw b (by simpa using hb))
    · exact .inl (joins_operator hraw ▸ hb)
  obtain ⟨s, hs, htakes⟩ := sound_symbolUnless ht hbracket hdot hj hsymbol hm hn
  exact ⟨s, span, hs, htakes, rfl⟩

theorem complete_binaryOperator (hl : Lexed c s) (ht : s.Takes op.text span s') :
    ∃ c', binaryOperator op c = .ok (some op) c' ∧ Lexed c' s' := by
  have hbar : ∀ b, barredAfterBinary op b → joins op.text b := by
    intro b hb
    by_cases hraw : op ∈ [BinaryOp.lt, .gt, .div]
    · rw [barredAfterBinary_operator hraw] at hb
      cases hb
    · rwa [joins_operator hraw]
  obtain ⟨c', ho, hl'⟩ := complete_symbolUnless hbar hl ht
  exact ⟨c', map_eq_some.mpr ⟨_, ho, rfl⟩, hl'⟩

theorem declines_binaryOperator (hl : Lexed c s) :
    binaryOperator op c = .ok none c ↔ ¬ s.Next (operatorKinds op) := by
  by_cases hraw : op ∈ [BinaryOp.lt, .gt, .div]
  · obtain ⟨hsymbol, hkinds⟩ := operator_symbol_spec op hraw
    obtain ⟨ht, hbracket, hdot⟩ := operator_fixed op
    rw [binaryOperator, map_eq_none, symbolUnless, map_eq_none, token_eq_none, exists_text_eq_none,
      barredAfterBinary_operator hraw]
    refine (and_iff_left rfl).trans
      (hl.iff_not_next (fun hr => hr ▸ not_startsWith_nil ht) fun {token p'} hread => ?_)
    rw [hread.symbol_iff hsymbol hbracket hdot (by simp)]
    refine not_congr ⟨?_, fun hk => ?_⟩
    · rintro ⟨text, rfl, hfront⟩
      cases hread with
      | fixed ht' _ _ => exact (hkinds text ht').mp hfront
    · cases token with
      | fixed text =>
        cases hread with
        | fixed ht' _ _ => exact ⟨text, rfl, (hkinds text ht').mpr hk⟩
      | _ =>
        obtain ⟨text, htext⟩ := operatorKinds_fixed op _ hk
        cases htext
  · rw [operatorKinds_eq hraw]
    exact (follows_binaryOperator hraw).declines hl

end LuaSyntax
