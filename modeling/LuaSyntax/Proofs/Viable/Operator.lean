import LuaSyntax.Proofs.Viable.Terminal
import LuaSyntax.Proofs.Phrase.Expression

/-! # Operators in two sources

A test for a symbol may take the front of a longer one. No operand begins with what is left of that, so the
rule fails right there, and goes on with the operand that is missing.
-/
namespace LuaSyntax

open Rule Parse Grammar

variable {α β γ ι : Type} {deep : Prop} {start mid stop : Ahead} {rule : Rule α} {accepts : Token → Prop}

section Supplies
variable {label : Label} {text : String}

/-- A token of a kind comes next that ends what stands before it. -/
def Ahead.Wants (kind : Kind) : Ahead → Prop
  | .anything => True
  | .limited halts bars _ => kind ∈ halts ∧ kind ∉ bars

theorem Ahead.anything_wants (kind : Kind) : Ahead.anything.Wants kind := trivial

instance (kind : Kind) (ahead : Ahead) : Decidable (ahead.Wants kind) :=
  match ahead with
  | .anything => isTrue trivial
  | .limited halts bars _ => inferInstanceAs (Decidable (kind ∈ halts ∧ kind ∉ bars))

theorem Ahead.Wants.ends {token : Token} {s : Stream} (h : start.Wants token.kind) (hn : s.next? = some token) :
    start.Ends s := by
  cases start with
  | anything => exact trivial
  | limited halts bars firm =>
    refine ⟨.inr ⟨token, hn, h.1⟩, ?_⟩
    rintro ⟨token', hn', hbar⟩
    rw [hn] at hn'
    obtain rfl := Option.some.inj hn'
    exact h.2 hbar

theorem Ahead.Wants.admits (h : start.Wants (.fixed text)) : start.Admits (.fixed text) := by
  cases start with
  | anything => exact trivial
  | limited halts bars firm => exact ⟨h.2, fun _ => nofun⟩

/-- A reserved word or a symbol that a label asks for. -/
theorem Label.supplies_fixed (hgets : ∀ {span s s'}, s.Takes (.fixed text) span s' → rule.Gets (fun _ => True) s s')
    (ht : text ∈ fixedTexts) (hlabel : ∀ item, label.Asks item ↔ item = lineFeed :: Bytes.ofString text)
    (hstart : start.Wants (.fixed text)) :
    label.Supplies start stop fun s s' => ∀ _ : ι, rule.Gets (fun _ => True) s s' := by
  refine ⟨⟨_, (hlabel _).mpr rfl⟩, fun item hitem => ?_⟩
  obtain rfl := (hlabel item).mp hitem
  refine ⟨fun b hb => (Option.some.inj hb).symm, [.fixed text], [], writes_line (writes_text (.fixed ht)), ?_, ?_⟩
  · exact List.forall_mem_singleton.mpr (.fixed ht)
  · intro s s' hspells _
    obtain ⟨span, htakes⟩ := Stream.spells_singleton.mp hspells
    exact ⟨@Ahead.Wants.ends start (.fixed text) s hstart htakes.next, fun _ => hgets htakes⟩

theorem Rule.Lexes.supplies_name (h : rule.Lexes Token.IsName)
    (hlabel : ∀ item, label.Asks item ↔ ∃ text, Identifier text ∧ item = lineFeed :: text) (hstart : start.Wants .name) :
    label.Supplies start stop fun s s' => ∀ _ : ι, rule.Gets (fun _ => True) s s' := by
  refine ⟨⟨_, (hlabel _).mpr ⟨['x'.toUInt8], ⟨by decide, by decide +kernel, by decide⟩, rfl⟩⟩, fun item hitem => ?_⟩
  obtain ⟨text, hid, rfl⟩ := (hlabel item).mp hitem
  refine ⟨fun b hb => (Option.some.inj hb).symm, [.name text], [], writes_line (writes_text (.name hid)), ?_, ?_⟩
  · exact List.forall_mem_singleton.mpr (.name hid)
  · intro s s' hspells _
    obtain ⟨span, htakes⟩ := Stream.spells_singleton.mp hspells
    exact ⟨@Ahead.Wants.ends start (.name text) s hstart htakes.next, fun _ => h.gets ⟨text, rfl, hid⟩ htakes⟩

theorem Rule.Lexes.tracks_expect (h : rule.Lexes (· = .fixed text)) (hs : rule.Steady) (ht : text ∈ fixedTexts)
    (hlabel : ∀ item, label.Asks item ↔ item = lineFeed :: Bytes.ofString text) (hstart : start.Wants (.fixed text)) :
    (expect rule label).Tracks deep (fun _ : ι => expect rule label) AnyResult start stop :=
  (h.tracks_fixed hstart.admits).expect hs fun _ => Label.supplies_fixed (h.gets rfl) ht hlabel hstart

theorem tracks_expectSymbol (ht : text ∈ plainSymbols)
    (hlabel : ∀ item, label.Asks item ↔ item = lineFeed :: Bytes.ofString text) (hstart : start.Wants (.fixed text)) :
    (expect (symbol text) label).Tracks deep (fun _ : ι => expect (symbol text) label) AnyResult start stop :=
  (lexes_symbol ht).tracks_expect (predicts_symbol ht).steady (plainSymbols_fixed text ht).1 hlabel hstart

theorem tracks_expectKeyword (hw : text ∈ reservedWords)
    (hlabel : ∀ item, label.Asks item ↔ item = lineFeed :: Bytes.ofString text) (hstart : start.Wants (.fixed text)) :
    (expect (keyword text) label).Tracks deep (fun _ : ι => expect (keyword text) label) AnyResult start stop :=
  (lexes_keyword hw).tracks_expect (predicts_keyword hw).steady (List.mem_append_left _ hw) hlabel hstart

theorem Rule.Lexes.tracks_name (h : rule.Lexes Token.IsName) (hstart : start.Admits .name) :
    rule.Tracks deep (fun _ : ι => rule) AnyResult start stop :=
  h.tracks (by
    rintro _ ⟨text, rfl, -⟩
    exact hstart)

theorem Rule.Lexes.tracks_expectName (h : rule.Lexes Token.IsName) (hs : rule.Steady)
    (hlabel : ∀ item, label.Asks item ↔ ∃ text, Identifier text ∧ item = lineFeed :: text) :
    (expect rule label).Tracks deep (fun _ : ι => expect rule label) AnyResult .anything stop :=
  (h.tracks_name (Ahead.anything_admits _)).expect hs fun _ => h.supplies_name hlabel trivial

end Supplies

/-- A rule takes the front of a longer symbol than its own. -/
structure Cursor.Grazes (c : Cursor) (text : String) (m : Cursor) : Prop where
  fixed : text ∈ fixedTexts
  passes : c.toPlace.Passes (.ofString text) m.toPlace
  doubled : ∃ b ∈ doublingBytes, m.rest.head? = some b

/-- A rule matches single tokens of some kind, or the fronts of longer symbols. -/
structure Rule.Grabs (rule : Rule α) (accepts : Token → Prop) (start : Ahead) : Prop where
  reads : ∀ {c a m}, rule c = .ok (some a) m → (∃ lexeme, c.Reads lexeme m ∧ accepts lexeme.token) ∨
    ∃ text, accepts (.fixed text) ∧ c.Grazes text m ∧ ∀ s : Stream, s.next? = some (.fixed text) → start.Sees c s
  gets : ∀ {token span s s'}, accepts token → s.Takes token span s' → rule.Gets (fun _ => True) s s'
  breaks : ∀ {c label offset c'}, c.Ready → rule c = .error (.expected label offset) c' →
    label.Served fun item => ∃ token, accepts token ∧ c.toPlace.Opens token ∧ c.Breaks offset item [token]

/-- A rule declines in front of the bytes that double a symbol, or has no level left to look. -/
def Rule.Avoids (rule : Rule α) : Prop :=
  ∀ ⦃c : Cursor⦄ ⦃b⦄, b ∈ doublingBytes → c.rest.head? = some b →
    rule c = .ok none c ∨ ∃ offset c', rule c = .error (.tooDeep offset) c'

theorem Rule.Avoids.expect (h : rule.Avoids) {c : Cursor} {b : UInt8} (hb : b ∈ doublingBytes)
    (hc : c.rest.head? = some b) (label : Label) :
    Parse.expect rule label c = .error (.expected label c.offset) c ∨
      ∃ offset c', Parse.expect rule label c = .error (.tooDeep offset) c' := by
  rcases h hb hc with hnone | ⟨offset, c', hdeep⟩
  · exact .inl (expect_eq_error.mpr (.inr ⟨hnone, rfl⟩))
  · exact .inr ⟨offset, c', expect_eq_error.mpr (.inl hdeep)⟩

theorem Cursor.Grazes.breaks {c m : Cursor} {text : String} {item : Bytes} {tokens : List Token}
    (h : c.Grazes text m) (hline : OnNewLine item) (hw : Writes item tokens) :
    c.Breaks m.offset item (.fixed text :: tokens) := by
  have hoffset := h.passes.offset
  have hlength := h.passes.length
  have hne := ofString_ne_nil text h.fixed
  have hpos := List.length_pos_iff.mpr hne
  refine ⟨by omega, ?_, [], List.forall_mem_nil _, fun heq => by omega, ?_, ?_⟩
  · rw [Place.sourceEnd]
    omega
  · rw [List.append_nil]
    exact hline.unbracketed
  · have htake : c.rest.take (m.offset - c.offset) = Bytes.ofString text := by
      rw [h.passes.rest, hoffset, Nat.add_sub_cancel_left, List.take_left]
    have hparted (tail : Bytes) : Parted (item ++ lineFeed :: tail) := by
      cases item with
      | nil => exact parted_lineFeed tail
      | cons b others =>
        obtain rfl := hline b rfl
        exact parted_lineFeed _
    rw [htake, List.append_nil]
    exact hw.afterToken (fun tail _ => reads_text (.fixed h.fixed) ⟨rfl, rfl⟩ (hparted tail))
      fun tail => not_startsTrivium_text (.fixed h.fixed) (hparted tail)

/-- A test for a symbol, and an operand after it. -/
theorem Rule.Grabs.tracks [Nonempty α] [Nonempty β] {operand : Rule β} {operand' : ι → Rule β} {label : Label}
    {f : α → β → Parse γ} {g : ι → α → β → Parse γ} {R : β → β → Prop} {S : γ → γ → Prop}
    (h : rule.Grabs accepts start) (hstart : ∀ {token}, accepts token → start.Admits token.kind)
    (hoperand : operand.Tracks deep operand' R .anything mid) (hsteady : operand.Steady) (havoids : operand.Avoids)
    (hsupplies : deep → label.Supplies .anything mid fun s s' => ∀ i, (operand' i).Gets (fun _ => True) s s')
    (hf : ∀ a b, (f a b).Tracks deep (fun x : (ι × α) × β => g x.1.1 x.1.2 x.2) S mid stop) :
    Tracks deep (rule.andThen fun a => expect operand label >>= f a)
      (fun i => rule.andThen fun a => expect (operand' i) label >>= g i a) S start stop := by
  have hexpect := hoperand.expect hsteady hsupplies
  have hrest (a : α) : Parse.Tracks deep (expect operand label >>= f a)
      (fun x : ι × α => expect (operand' x.1) label >>= g x.1 x.2) S .anything stop :=
    (hexpect.reindex Prod.fst).bind fun b => hf a b
  have hreads {c m : Cursor} {lexeme : Lexeme} (hreads : c.Reads lexeme m) (haccepts : accepts lexeme.token) :
      c.Carried m start .anything fun s s' => rule.Gets (fun _ => True) s s' := by
    refine ⟨[lexeme.token], hreads.cuts, fun s s' hspells _ => ?_⟩
    obtain ⟨span, htakes⟩ := Stream.spells_singleton.mp hspells
    obtain ⟨place, hread, -⟩ := hreads.token
    exact ⟨(hstart haccepts).sees (.reads hread) htakes.next, h.gets haccepts htakes⟩
  constructor
  · intro c b c' hc ho
    obtain ⟨a, m, hrule, hok⟩ := andThen_eq_some.mp ho
    rcases h.reads hrule with ⟨lexeme, hlexeme, haccepts⟩ | ⟨text, -, ⟨-, -, byte, hbyte, hhead⟩, -⟩
    · have hfirst := hreads hlexeme haccepts
      refine (hfirst.trans ((hrest a).ok (hfirst.ready hc) hok)).mono ?_
      rintro s s' ⟨t, hgets, hall⟩ i
      exact hgets.andThen fun a _ => hall (i, a)
    · obtain ⟨_, _, hoperand, -⟩ := bind_eq_ok.mp hok
      rcases havoids.expect hbyte hhead label with hfails | ⟨_, _, hfails⟩
      · rw [hfails] at hoperand
        cases hoperand
      · rw [hfails] at hoperand
        cases hoperand
  · intro hd c found offset c' hc he
    rcases andThen_eq_error.mp he with he | ⟨a, m, hrule, he⟩
    · obtain ⟨word, hword, hall⟩ := (hrest Classical.ofNonempty).closes hd
      refine Label.Served.mono (h.breaks hc he) ?_
      rintro item ⟨token, haccepts, hopens, hbreaks⟩
      refine ⟨[token], word, hbreaks, hword, fun s s' hspells hstop => ?_⟩
      obtain ⟨t, ht, ht'⟩ := Stream.spells_append.mp hspells
      obtain ⟨span, htakes⟩ := Stream.spells_singleton.mp ht
      exact ⟨(hstart haccepts).sees hopens htakes.next,
        fun i => (h.gets haccepts htakes).andThen fun a _ => (hall t s' ht' hstop).2 (i, a)⟩
    · rcases h.reads hrule with ⟨lexeme, hlexeme, haccepts⟩ | ⟨text, haccepts, hgrazes, hsees⟩
      · have hfirst := hreads hlexeme haccepts
        refine (hfirst.completed hc ((hrest a).error hd (hfirst.ready hc) he)).mono ?_
        rintro s s' ⟨t, hgets, hall⟩ i
        exact hgets.andThen fun a _ => hall (i, a)
      · obtain ⟨byte, hbyte, hhead⟩ := hgrazes.doubled
        rcases havoids.expect hbyte hhead label with hfails | ⟨_, _, hfails⟩
        · -- the failure is right behind the symbol
          rw [bind_of_error hfails] at he
          cases he
          refine Label.Served.mono ((hsupplies hd).before ((hf Classical.ofNonempty Classical.ofNonempty).closes hd)) ?_
          rintro item ⟨hline, tokens, word, hwrites, hwritten, hall⟩
          refine ⟨.fixed text :: tokens, word, hgrazes.breaks hline hwrites, (List.forall_mem_append.mp hwritten).2,
            fun s s' hspells hstop => ?_⟩
          obtain ⟨span, t, htakes, hspells⟩ := hspells
          obtain ⟨-, t', hgets, hrest⟩ := hall t s' hspells hstop
          exact ⟨hsees s htakes.next, fun i => (h.gets haccepts htakes).andThen fun a _ =>
            (hgets i).expect.bind fun b _ => hrest ((i, a), b)⟩
        · rw [bind_of_error hfails] at he
          cases he

section Symbols
variable {text : String} {barred : UInt8 → Bool}

theorem not_startsTrivium_doubling {bytes : Bytes} {b : UInt8} (hb : b ∈ doublingBytes) (h : bytes.head? = some b) :
    ¬ startsTrivium bytes := by
  refine not_startsTrivium_of_head fun c hc => ?_
  obtain rfl := Option.some.inj (h.symm.trans hc)
  exact (by decide +kernel : ∀ b ∈ doublingBytes, ¬ isSpace b ∧ b ≠ '-'.toUInt8) b hb

theorem Scan.text_reads_or_grazes {p place : Place} {u : Unit} (ht : text ∈ fixedTexts) (hbracket : text ≠ "[")
    (hj : ∀ b, joins text b → barred b ∨ b ∈ doublingBytes)
    (h : Scan.text (.ofString text) barred p = .ok (some u, place)) :
    p.Reads (.fixed text) place ∨
      (∃ b ∈ doublingBytes, place.rest.head? = some b) ∧ ¬ ∀ b, joins text b → barred b := by
  obtain ⟨hstart, rfl⟩ := Scan.text_eq_some.mp h
  obtain ⟨hp, hnext⟩ := startsWith_iff.mp hstart
  by_cases hjoin : ∀ b ∈ (p.rest.drop (Bytes.ofString text).length).head?, ¬ joins text b
  · exact .inl (.fixed ht (startsWith_iff.mpr ⟨hp, hjoin⟩) fun heq => (hbracket heq).elim)
  · right
    cases hhead : (p.rest.drop (Bytes.ofString text).length).head? with
    | none => exact (hjoin (by simp [hhead])).elim
    | some b =>
      have hb : joins text b := by simpa [hhead] using hjoin
      have hbar : ¬ barred b := hnext b hhead
      exact ⟨⟨b, (hj b hb).resolve_left hbar, hhead⟩, fun hall => hbar (hall b hb)⟩

theorem Rule.grabs_symbolUnless (ht : text ∈ fixedTexts) (hbracket : text ≠ "[")
    (hj : ∀ b, joins text b → barred b ∨ b ∈ doublingBytes) (hbar : ∀ b, barred b → joins text b)
    (hsees : ∀ {c : Cursor} {s : Stream}, Bytes.ofString text <+: c.rest → (¬ ∀ b, joins text b → barred b) →
      s.next? = some (.fixed text) → start.Sees c s) :
    Grabs (symbolUnless barred text) (· = .fixed text) start where
  reads {c a m} ho := by
    obtain ⟨⟨u, span⟩, htoken, rfl⟩ := map_eq_some.mp ho
    obtain ⟨place, hscan, -, hskip⟩ := token_eq_some.mp htoken
    obtain ⟨hstart, hplace⟩ := Scan.text_eq_some.mp hscan
    have hprefix := (startsWith_iff.mp hstart).1
    have hp : c.toPlace.Passes (.ofString text) place := hplace ▸ Place.passes_of_prefix hprefix
    rcases Scan.text_reads_or_grazes ht hbracket hj hscan with hread | ⟨⟨b, hb, hhead⟩, hmore⟩
    · exact .inl ⟨⟨.fixed text, c.offset, .ofString text⟩, ⟨rfl, place, hread, hp, hskip⟩, rfl⟩
    · obtain rfl := eq_of_skipTrivia hskip (not_startsTrivium_doubling hb hhead)
      exact .inr ⟨text, rfl, ⟨ht, hp, b, hb, hhead⟩, fun s => hsees hprefix hmore⟩
  gets := by
    rintro _ span s s' rfl htakes d hd
    obtain ⟨d', ho, hd'⟩ := complete_symbolUnless hbar hd htakes
    exact ⟨span, d', ho, trivial, hd'⟩
  breaks {c label offset c'} hc he := by
    rcases andThen_eq_error.mp he with he | ⟨_, _, -, he⟩
    · rcases token_eq_error.mp he with ⟨hscan, -⟩ | ⟨a, place, hscan, hskip⟩
      · exact (Scan.text_ne_error hscan).elim
      · obtain ⟨hstart, hplace⟩ := Scan.text_eq_some.mp hscan
        have hp : c.toPlace.Passes (.ofString text) place :=
          hplace ▸ Place.passes_of_prefix (startsWith_iff.mp hstart).1
        rcases Scan.text_reads_or_grazes ht hbracket hj hscan with hread | ⟨⟨b, hb, hhead⟩, -⟩
        · exact (hread.breaks_trivia hp hc hskip).mono fun item hbreaks => ⟨_, rfl, .reads hread, hbreaks⟩
        · have hstay : skipTrivia ⟨place, place.offset⟩ = .ok () ⟨place, place.offset⟩ :=
            skipTrivia_iff.mpr ⟨.refl, not_startsTrivium_doubling hb hhead⟩
          rw [hstay] at hskip
          cases hskip
    · cases he

end Symbols

section Operators
variable {op : BinaryOp} {ops : List BinaryOp}

theorem joins_binaryOperator (op : BinaryOp) (b : UInt8) (hb : joins op.text b) :
    barredAfterBinary op b ∨ op ∈ [BinaryOp.lt, .gt, .div] ∧ b ∈ doublingBytes := by
  by_cases hraw : op ∈ [BinaryOp.lt, .gt, .div]
  · rw [joins_symbol (operator_symbol_spec op hraw).1] at hb
    obtain ⟨symbol, hsymbol, hbyte⟩ := continuations_operator op hraw b (by simpa using hb)
    have hall : ∀ symbol ∈ doublings, ∀ b ∈ Bytes.ofString symbol, b ∈ doublingBytes := by decide +kernel
    exact .inr ⟨hraw, hall symbol hsymbol b (hbyte ▸ List.mem_singleton_self b)⟩
  · exact .inl (joins_operator hraw ▸ hb)

theorem grabs_binaryOperator (hstart : start.Admits (.fixed op.text)) :
    (binaryOperator op).Grabs (· = .fixed op.text) start := by
  obtain ⟨ht, hbracket, -⟩ := operator_fixed op
  have hbar : ∀ b, barredAfterBinary op b → joins op.text b := by
    intro b hb
    by_cases hraw : op ∈ [BinaryOp.lt, .gt, .div]
    · rw [barredAfterBinary_operator hraw] at hb
      cases hb
    · rwa [joins_operator hraw]
  have hgrabs : Grabs (symbolUnless (barredAfterBinary op) op.text) (· = .fixed op.text) start := by
    refine grabs_symbolUnless ht hbracket (fun b hb => (joins_binaryOperator op b hb).imp_right And.right) hbar ?_
    intro c s hprefix hmore hnext
    have hraw : op ∈ [BinaryOp.lt, .gt, .div] := by
      refine Classical.byContradiction fun hraw => hmore fun b hb => ?_
      exact (joins_binaryOperator op b hb).resolve_right fun h => hraw h.1
    exact @Ahead.Admits.sees start c s (.fixed op.text) hstart (.front hraw hprefix) hnext
  refine ⟨fun ho => ?_, fun ha ht => (hgrabs.gets ha ht).andThen fun _ _ => .pure trivial, fun hc he => ?_⟩
  · obtain ⟨span, ho, -⟩ := map_eq_some.mp ho
    exact hgrabs.reads ho
  · rcases andThen_eq_error.mp he with he | ⟨_, _, -, he⟩
    · exact hgrabs.breaks hc he
    · cases he

theorem grabs_operators (hp : ops.Pairwise fun first second => .fixed second.text ∉ operatorKinds first)
    (hstart : ∀ op ∈ ops, start.Admits (.fixed op.text)) :
    Rule.Grabs (firstOf (ops.map binaryOperator)) (fun token => ∃ op ∈ ops, token = .fixed op.text) start where
  reads {c a m} ho := by
    clear hp
    induction ops with
    | nil => exact (firstOf_nil_ne_some ho).elim
    | cons op others ih =>
      rcases firstOf_cons_eq_some.mp ho with hop | ⟨e, hnone, hothers⟩
      · have hgrabs := grabs_binaryOperator (hstart op List.mem_cons_self)
        rcases hgrabs.reads hop with ⟨lexeme, hreads, htoken⟩ | ⟨text, htoken, hgrazes⟩
        · exact .inl ⟨lexeme, hreads, op, List.mem_cons_self, htoken⟩
        · exact .inr ⟨text, ⟨op, List.mem_cons_self, htoken⟩, hgrazes⟩
      · obtain rfl := (steady_binaryOperator op).stays hnone
        rcases ih (fun op hm => hstart op (List.mem_cons_of_mem _ hm)) hothers with
          ⟨lexeme, hreads, op, hm, htoken⟩ | ⟨text, ⟨op, hm, htoken⟩, hgrazes⟩
        · exact .inl ⟨lexeme, hreads, op, List.mem_cons_of_mem _ hm, htoken⟩
        · exact .inr ⟨text, ⟨op, List.mem_cons_of_mem _ hm, htoken⟩, hgrazes⟩
  gets := by
    rintro _ span s s' ⟨op, hm, rfl⟩ htakes d hd
    obtain ⟨d', ho, hd'⟩ := complete_operators hp hm hd htakes
    exact ⟨op, d', ho, trivial, hd'⟩
  breaks {c label offset c'} hc he := by
    clear hp
    induction ops with
    | nil => cases he
    | cons op others ih =>
      rcases firstOf_cons_eq_error.mp he with hop | ⟨e, hnone, hothers⟩
      · have hgrabs := grabs_binaryOperator (hstart op List.mem_cons_self)
        refine (hgrabs.breaks hc hop).mono ?_
        rintro item ⟨token, htoken, hall⟩
        exact ⟨token, ⟨op, List.mem_cons_self, htoken⟩, hall⟩
      · obtain rfl := (steady_binaryOperator op).stays hnone
        refine (ih (fun op hm => hstart op (List.mem_cons_of_mem _ hm)) hothers).mono ?_
        rintro item ⟨token, ⟨op, hm, htoken⟩, hall⟩
        exact ⟨token, ⟨op, List.mem_cons_of_mem _ hm, htoken⟩, hall⟩

theorem Place.Opens.not_operator {p : Place} {found : Token} (h : p.Opens found)
    (hn : ¬ startsWith (.ofString op.text) (barredAfterBinary op) p.rest) : found.kind ∉ operatorKinds op := by
  obtain ⟨ht, hbracket, hdot⟩ := operator_fixed op
  by_cases hraw : op ∈ [BinaryOp.lt, .gt, .div]
  · rw [barredAfterBinary_operator hraw] at hn
    obtain ⟨hsymbol, hkinds⟩ := operator_symbol_spec op hraw
    intro hk
    obtain ⟨text, htext⟩ := operatorKinds_fixed op _ hk
    cases h with
    | reads hread =>
      obtain rfl := Token.kind_eq_fixed.mp htext
      cases hread with
      | fixed ht' hs hb =>
        have hread := Place.Reads.fixed ht' hs hb
        exact hn ((hread.symbol_iff hsymbol hbracket hdot (by simp)).mpr ⟨text, rfl, (hkinds text ht').mpr hk⟩)
    | @front other ho hp =>
      have hsame : ∀ op ∈ [BinaryOp.lt, .gt, .div], ∀ other ∈ [BinaryOp.lt, .gt, .div],
          Kind.fixed other.text ∈ operatorKinds op → other = op := by decide
      obtain rfl := hsame op hraw other ho hk
      exact hn (startsWith_never.mpr hp)
    | number | string => cases htext
  · rw [operatorKinds_eq hraw]
    rw [← joins_operator hraw] at hn
    exact h.not_fixed hn ht hbracket hdot (by cases op <;> first | decide | exact absurd (by decide) hraw)

theorem settles_operators :
    Rule.Settles deep (firstOf (ops.map binaryOperator)) (firstOf (ops.map binaryOperator)) (ops.flatMap operatorKinds) [] where
  tells {_ _} ho _ hopens := by
    induction ops with
    | nil => exact List.not_mem_nil
    | cons op others ih =>
      obtain ⟨m, hnone, hothers⟩ := firstOf_cons_eq_none.mp ho
      obtain rfl := (steady_binaryOperator op).stays hnone
      rw [List.flatMap_cons, List.mem_append, not_or]
      exact ⟨hopens.not_operator (exists_text_eq_none.mp (scan_of_token_none (map_eq_none.mp hnone))), ih hothers⟩
  lacks _ _ hn _ hd := (declines_operators hd).mpr fun hnext => hn (hnext.mono fun _ => List.mem_append_left _)

theorem lexes_binaryOperator (h : op ∉ [BinaryOp.lt, .gt, .div]) : (binaryOperator op).Lexes (· = .fixed op.text) :=
  have hfixed := operator_fixed op
  (lexes_symbolUnless hfixed.1 (joins_operator h) hfixed.2.1).map _

theorem settles_binaryOperator : (binaryOperator op).Settles deep (binaryOperator op) (operatorKinds op) [] where
  tells {_ _} ho _ hopens :=
    hopens.not_operator (exists_text_eq_none.mp (scan_of_token_none (map_eq_none.mp ho)))
  lacks _ _ hn _ hd := (declines_binaryOperator hd).mpr fun hnext => hn (hnext.mono fun _ => List.mem_append_left _)

end Operators

end LuaSyntax
