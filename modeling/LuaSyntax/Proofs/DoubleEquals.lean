import LuaSyntax.Proofs.Phrase.Nested
import LuaSyntax.Proofs.Shift.Grammar
import LuaSyntax.Proofs.Loop

/-! # A double equals sign

Where the grammar takes a single `=`, a `==` is none: a name with `==` after it is no named field, and
neither a local declaration nor a loop nor an assignment goes on there. Only the field with a key in
brackets takes the first half of a `==`, and fails at the other half.
-/
namespace LuaSyntax

open Parse Rule

variable {α β : Type} {b : UInt8} {c m : Cursor}

/-- The source goes on with `==`. -/
def Cursor.FacesDouble (c : Cursor) : Prop := ∃ tail, c.rest = .ofString "==" ++ tail

/-- A rule that declines in front of a byte. -/
def Rule.Shuns (b : UInt8) (rule : Rule α) : Prop := ∀ c : Cursor, c.rest.head? = some b → rule c = .ok none c

namespace Rule
variable {rule : Rule α}

theorem Shuns.andThen (h : rule.Shuns b) (f : α → Parse β) : Shuns b (rule.andThen f) :=
  fun c hc => andThen_eq_none.mpr (h c hc)

theorem Shuns.map (h : rule.Shuns b) (f : α → β) : Shuns b (rule.map f) := h.andThen _

theorem Shuns.firstOf {rules : List (Rule α)} (h : ∀ rule ∈ rules, rule.Shuns b) : Shuns b (firstOf rules) := by
  induction rules with
  | nil => exact fun c _ => rfl
  | cons rule others ih =>
    intro c hc
    have hfirst := h rule List.mem_cons_self c hc
    exact firstOf_cons_eq_none.mpr ⟨c, hfirst, ih (fun other hm => h other (List.mem_cons_of_mem _ hm)) c hc⟩

/-- A text with another first byte. -/
theorem shuns_symbolUnless (barred : UInt8 → Bool) {text : String} (hne : Bytes.ofString text ≠ [])
    (hb : (Bytes.ofString text).head? ≠ some b) : Shuns b (symbolUnless barred text) := by
  intro c hc
  have hnot : ¬ startsWith (.ofString text) barred c.rest := by
    intro hs
    obtain ⟨tail, htail⟩ := (startsWith_iff.mp hs).1
    obtain ⟨first, others, hfirst⟩ := List.exists_cons_of_ne_nil hne
    rw [← htail, hfirst, List.cons_append, List.head?_cons] at hc
    exact hb (hfirst ▸ hc)
  exact map_eq_none.mpr (token_eq_none.mpr ⟨⟨_, Scan.text_eq_none.mpr ⟨hnot, rfl⟩⟩, rfl⟩)

theorem shuns_token {scan : Scan (Option α)} (h : ∀ p : Place, p.rest.head? = some b → scan p = .ok (none, p)) :
    Shuns b (token scan) := fun c hc => token_eq_none.mpr ⟨⟨_, h c.toPlace hc⟩, rfl⟩

theorem firstOf_of_none {others : List (Rule α)} (h : rule c = .ok none c) : firstOf (rule :: others) c = firstOf others c :=
  bind_of_ok h

theorem firstOf_singleton (rule : Rule α) (c : Cursor) : firstOf [rule] c = rule c := by
  cases hrule : rule c with
  | error e m => exact bind_of_error hrule
  | ok found m => cases found <;> exact bind_of_ok hrule

end Rule

namespace Grammar

section Equals

/-- The bytes that double a symbol of one byte before them. -/
def doublingBytes : Bytes := ['='.toUInt8, '<'.toUInt8, '>'.toUInt8, '/'.toUInt8]

theorem shuns_nameToken (hb : b ∈ doublingBytes) : Shuns b (token Scan.name) := by
  refine shuns_token fun p hp => Scan.name_eq_none.mpr ⟨?_, rfl⟩
  rintro ⟨hstart, -⟩
  rw [startsName, hp] at hstart
  exact (by decide +kernel : ∀ b ∈ doublingBytes, ¬ (some b).any isNameStart) b hb hstart

theorem shuns_number (hb : b ∈ doublingBytes) : number.Shuns b := by
  refine (shuns_token fun p hp => ?_).map _
  obtain ⟨tail, htail⟩ := List.head?_eq_some_iff.mp hp
  obtain ⟨hzero, hdigit, hdot⟩ :=
    (by decide +kernel : ∀ b ∈ doublingBytes, (b == '0'.toUInt8) = false ∧ isDigit b = false ∧ (b == '.'.toUInt8) = false) b hb
  have hhex : startsHexadecimal p.rest = false := by
    rw [htail]
    cases tail with
    | nil => rfl
    | cons => rw [startsHexadecimal, hzero, Bool.false_and]
  have hdec : startsDecimal p.rest = false := by
    rw [htail, startsDecimal, hdigit, hdot, Bool.false_and, Bool.or_false]
  exact Scan.numeral_eq_none.mpr ⟨hhex, hdec, rfl⟩

theorem shuns_string (hb : b ∈ doublingBytes) : string.Shuns b := by
  refine (shuns_token fun p hp => ?_).map _
  obtain ⟨tail, htail⟩ := List.head?_eq_some_iff.mp hp
  obtain ⟨hdouble, hsingle, hbracket⟩ :=
    (by decide +kernel : ∀ b ∈ doublingBytes, some b ≠ some '"'.toUInt8 ∧ some b ≠ some '\''.toUInt8 ∧
      (b == '['.toUInt8) = false) b hb
  refine Scan.string_eq_none.mpr ⟨?_, ?_, ?_, rfl⟩
  · rwa [hp]
  · rwa [hp]
  · rw [htail, LongBracket.level?, hbracket, Bool.false_and]
    rfl

variable {nested : Nested}

theorem shuns_suffixed (hb : b ∈ doublingBytes) : Shuns b (suffixed nested) := by
  refine .andThen (.firstOf ?_) _
  simp only [List.mem_cons, List.not_mem_nil, or_false, forall_eq_or_imp, forall_eq]
  exact ⟨(shuns_nameToken hb).map _, .andThen (shuns_symbolUnless _ (by decide)
    ((by decide +kernel : ∀ b ∈ doublingBytes, (Bytes.ofString "(").head? ≠ some b) b hb)) _⟩

theorem shuns_simple (hb : b ∈ doublingBytes) : Shuns b (simple nested) := by
  have hfixed {barred : UInt8 → Bool} {text : String} (hne : Bytes.ofString text ≠ [])
      (hhead : ∀ b ∈ doublingBytes, (Bytes.ofString text).head? ≠ some b) : Shuns b (symbolUnless barred text) :=
    shuns_symbolUnless barred hne (hhead b hb)
  refine .firstOf ?_
  simp only [List.mem_cons, List.not_mem_nil, or_false, forall_eq_or_imp, forall_eq]
  exact ⟨shuns_number hb, shuns_string hb, .map (hfixed (by decide) (by decide +kernel)) _,
    .map (hfixed (by decide) (by decide +kernel)) _, .map (hfixed (by decide) (by decide +kernel)) _,
    .map (hfixed (by decide) (by decide +kernel)) _, .andThen (hfixed (by decide) (by decide +kernel)) _,
    .andThen (hfixed (by decide) (by decide +kernel)) _, shuns_suffixed hb⟩

theorem shuns_unary (hb : b ∈ doublingBytes) : Shuns b (unary nested) := by
  refine .firstOf ?_
  simp only [List.mem_cons, List.not_mem_nil, or_false, forall_eq_or_imp, forall_eq]
  refine ⟨.andThen (.firstOf fun rule hm => ?_) _, .andThen (shuns_simple hb) _⟩
  obtain ⟨op, -, rfl⟩ := List.mem_map.mp hm
  have hhead : ∀ b ∈ doublingBytes, (Bytes.ofString op.text).head? ≠ some b := by cases op <;> decide +kernel
  exact .map (shuns_symbolUnless _ (by cases op <;> decide) (hhead b hb)) _

theorem shuns_chains {operand : Rule Node} (h : operand.Shuns b) (tiers : List Tier) :
    Shuns b (chains operand tiers) := by
  induction tiers with
  | nil => exact h
  | cons tier tighter ih => exact ih.andThen _

/-- No expression begins with an equals sign, or with another byte that doubles a symbol. -/
theorem shuns_expression (hb : b ∈ doublingBytes) : Shuns b (expression nested) :=
  shuns_chains (.andThen (shuns_chains (shuns_unary hb) tightTiers) _) looseTiers

theorem shuns_statementForms : ∀ rule ∈ statementForms nested, rule.Shuns '='.toUInt8 := by
  have hfixed {f : Span → Parse Node} {barred : UInt8 → Bool} {text : String} (hne : Bytes.ofString text ≠ [])
      (hb : (Bytes.ofString text).head? ≠ some '='.toUInt8) :
      Shuns '='.toUInt8 (Rule.map ((symbolUnless barred text).andThen f) some) :=
    ((shuns_symbolUnless barred hne hb).andThen f).map some
  simp only [statementForms, List.map_cons, List.map_nil, List.mem_cons, List.not_mem_nil, or_false,
    forall_eq_or_imp, forall_eq]
  exact ⟨.map (shuns_symbolUnless _ (by decide) (by decide)) _, hfixed (by decide) (by decide),
    hfixed (by decide) (by decide), hfixed (by decide) (by decide), hfixed (by decide) (by decide),
    hfixed (by decide) (by decide), hfixed (by decide) (by decide), hfixed (by decide) (by decide),
    hfixed (by decide) (by decide), hfixed (by decide) (by decide), hfixed (by decide) (by decide),
    .map ((shuns_suffixed (by decide)).andThen _) _⟩

end Equals

section Statements

theorem plainSymbols_fixed : ∀ text ∈ plainSymbols, text ∈ fixedTexts ∧ text ≠ "[" ∧ text ≠ "." := by decide

variable {nested : Nested} {token : Token} {p : Place}

theorem keyword_of_reads {word : String} (h : c.toPlace.Reads token p) (hw : word ∈ reservedWords)
    (hne : token ≠ .fixed word) : keyword word c = .ok none c := by
  have hnot : ¬ startsWith (.ofString word) isNamePart c.rest := fun hs => hne ((h.word_iff hw).mp hs)
  exact map_eq_none.mpr (token_eq_none.mpr ⟨⟨_, Scan.text_eq_none.mpr ⟨hnot, rfl⟩⟩, rfl⟩)

theorem symbol_of_reads {text : String} (h : c.toPlace.Reads token p) (ht : text ∈ plainSymbols)
    (hne : token ≠ .fixed text) : symbol text c = .ok none c := by
  have hmem := plainSymbols_fixed text ht
  have hnot : ¬ startsWith (.ofString text) never c.rest := by
    rw [← joins_plain ht, h.exact_iff hmem.1 hmem.2.1 hmem.2.2]
    exact hne
  exact map_eq_none.mpr (token_eq_none.mpr ⟨⟨_, Scan.text_eq_none.mpr ⟨hnot, rfl⟩⟩, rfl⟩)

theorem form_of_reads {word : String} {f : Span → Parse Node} (h : c.toPlace.Reads token p)
    (hw : word ∈ reservedWords) (hne : token ≠ .fixed word) :
    Rule.map ((keyword word).andThen f) some c = .ok none c :=
  map_eq_none.mpr (andThen_eq_none.mpr (keyword_of_reads h hw hne))

theorem emptyForm_of_reads (h : c.toPlace.Reads token p) (hne : token ≠ .fixed ";") :
    Rule.map (symbol ";") (fun _ => (none : Option Node)) c = .ok none c :=
  map_eq_none.mpr (symbol_of_reads h (by decide) hne)

theorem reads_of_keyword {word : String} {span : Span} (hw : word ∈ reservedWords)
    (h : keyword word c = .ok (some span) m) : ∃ p, c.toPlace.Reads (.fixed word) p := by
  obtain ⟨_, htoken, -⟩ := map_eq_some.mp h
  obtain ⟨_, hscan, -⟩ := token_eq_some.mp htoken
  obtain ⟨hs, -⟩ := Scan.text_eq_some.mp hscan
  rw [← joins_word hw] at hs
  refine ⟨_, .fixed (List.mem_append_left _ hw) hs ?_⟩
  rintro rfl
  exact absurd hw (by decide)

theorem reads_of_name {v : Node} (h : name c = .ok (some v) m) : ∃ text p, c.toPlace.Reads (.name text) p := by
  obtain ⟨_, htoken, -⟩ := map_eq_some.mp h
  obtain ⟨_, hscan, -⟩ := token_eq_some.mp htoken
  exact ⟨_, _, .name hscan⟩

section Forms
variable (front : List (Rule (Option Node))) {others : List (Rule (Option Node))} {form : Rule Node}
  (hforms : statementForms nested = front ++ form.map some :: others) (hfront : ∀ rule ∈ front, rule c = .ok none c)
include hforms hfront

theorem firstOf_statementForms : firstOf (statementForms nested) c = firstOf (form.map some :: others) c := by
  rw [hforms]
  clear hforms
  induction front with
  | nil => rfl
  | cons rule front ih =>
    rw [List.cons_append, firstOf_of_none (hfront rule List.mem_cons_self)]
    exact ih fun other hm => hfront other (List.mem_cons_of_mem _ hm)

theorem statement_of_ok {v : Node} (h : form c = .ok (some v) m) : statement nested c = .ok (some v) m := by
  refine expect_eq_ok.mpr ?_
  rw [firstOf_statementForms front hforms hfront]
  exact firstOf_cons_eq_some.mpr (.inl (map_eq_some.mpr ⟨v, h, rfl⟩))

theorem statement_of_error {e : Failure} (h : form c = .error e m) : statement nested c = .error e m := by
  refine bind_of_error ?_
  rw [firstOf_statementForms front hforms hfront]
  exact bind_of_error (andThen_eq_error.mpr (.inl h))

end Forms

end Statements

section Double
variable {nested : Nested}

theorem head_of_double (h : c.FacesDouble) : c.rest.head? = some '='.toUInt8 := by
  obtain ⟨tail, htail⟩ := h
  rw [htail]
  rfl

theorem single_of_double (h : c.FacesDouble) : single '=' c = .ok none c := by
  obtain ⟨tail, htail⟩ := h
  have hnot : ¬ startsWith (.ofString '='.toString) (isByte '=') c.rest := by
    rw [htail, startsWith_iff]
    rintro ⟨-, hnext⟩
    exact hnext '='.toUInt8 rfl rfl
  exact map_eq_none.mpr (token_eq_none.mpr ⟨⟨_, Scan.text_eq_none.mpr ⟨hnot, rfl⟩⟩, rfl⟩)

/-- A symbol that bars nothing is read all the same, and the other half is left. -/
theorem symbol_of_double (h : c.FacesDouble) :
    ∃ span m, symbol "=" c = .ok (some span) m ∧ m.rest.head? = some '='.toUInt8 ∧ m.offset = c.offset + 1 := by
  obtain ⟨tail, htail⟩ := h
  have hstarts : startsWith (.ofString "=") never c.rest := by
    rw [htail, startsWith_never]
    exact ⟨'='.toUInt8 :: tail, rfl⟩
  have hrest : (c.toPlace.advance 1).rest = '='.toUInt8 :: tail := by
    rw [Place.advance, htail]
    rfl
  have hstay : skipTrivia ⟨c.toPlace.advance 1, (c.toPlace.advance 1).offset⟩ = .ok ()
      ⟨c.toPlace.advance 1, (c.toPlace.advance 1).offset⟩ := by
    refine skipTrivia_of_spelling .none ?_ (.refl _) rfl
    rw [hrest]
    exact not_startsTrivium_of_head fun b hb => Option.some.inj hb ▸ by decide
  refine ⟨_, _, map_eq_some.mpr ⟨((), _), token_eq_some.mpr ⟨_, Scan.text_eq_some.mpr ⟨hstarts, rfl⟩, rfl, hstay⟩, rfl⟩, ?_, rfl⟩
  change (c.toPlace.advance 1).rest.head? = _
  rw [hrest]
  rfl

/-- A field with a key in brackets goes on with the first half, and lacks its value. -/
theorem field_of_bracket {levels : Nat} {first close : Span} {c₁ c₂ c₃ : Cursor} {e : Node}
    (hopen : openBracket c = .ok (some first) c₁) (hkey : (nesting levels).expression c₁ = .ok (some e) c₂)
    (hclose : symbol "]" c₂ = .ok (some close) c₃) (h : c₃.FacesDouble) :
    ∃ m, field (nesting levels) c = .error (.expected .pairValue (c₃.offset + 1)) m := by
  obtain ⟨levels, rfl⟩ : ∃ l, levels = l + 1 := by
    cases levels with
    | zero => cases hkey
    | succ l => exact ⟨l, rfl⟩
  obtain ⟨span, m, hequals, hhead, hoffset⟩ := symbol_of_double h
  have hvalue : expect (nesting (levels + 1)).expression .pairValue m = .error (.expected .pairValue m.offset) m :=
    bind_of_ok (shuns_expression (by decide) m hhead)
  rw [← hoffset]
  refine ⟨m, bind_of_error ?_⟩
  refine (bind_of_ok hopen).trans (bind_of_error ?_)
  refine (bind_of_ok (expect_eq_ok.mpr hkey)).trans ((bind_of_ok (expect_eq_ok.mpr hclose)).trans ?_)
  exact (bind_of_ok (expect_eq_ok.mpr hequals)).trans (bind_of_error hvalue)

theorem field_of_name {v : Node} (hkey : key c = .ok (some v) m) (h : m.FacesDouble) :
    field nested c = nested.expression c := by
  have hopen : openBracket c = .ok none c := by
    obtain ⟨_, htoken, -⟩ := map_eq_some.mp hkey
    obtain ⟨_, hscan, -⟩ := token_eq_some.mp htoken
    obtain ⟨hstart, -⟩ := Scan.name_eq_some.mp hscan
    obtain ⟨b, hb, hname⟩ := Option.any_eq_true .. |>.mp hstart
    refine openBracket_eq_ok.mpr ?_
    split
    · exact ⟨rfl, rfl⟩
    · refine shuns_symbolUnless never (by decide) ?_ c hb
      rintro hbracket
      obtain rfl := Option.some.inj hbracket
      exact absurd hname (by decide)
  have hpair : both key (single '=') c = .ok none c :=
    both_eq_none.mpr (.inr ⟨rfl, v, m, m, hkey, single_of_double h⟩)
  have hbracket : bracketField nested c = .ok none c := andThen_eq_none.mpr hopen
  have hnamed : namedField nested c = .ok none c := andThen_eq_none.mpr hpair
  exact (firstOf_of_none hbracket).trans ((firstOf_of_none hnamed).trans (firstOf_singleton _ c))

theorem statement_of_double (h : c.FacesDouble) : statement nested c = .error (.expected .statement c.offset) c :=
  bind_of_ok (Shuns.firstOf shuns_statementForms c (head_of_double h))

theorem nameList_of_double (v : Node) (h : c.FacesDouble) : nameList v c = .ok (.ofItems .nameList [v] 0) c := by
  have hcomma : symbol "," c = .ok none c := shuns_symbolUnless never (by decide) (by decide) c (head_of_double h)
  have hstep : nameStep [v] c = .ok none c := map_eq_none.mpr (both_eq_none.mpr (.inl hcomma))
  have hloop : iterate nameStep [v] c = .ok [v] c := (iterate_eq_ok steady_nameStep).mpr ⟨.refl, hstep⟩
  exact bind_of_ok hloop

theorem local_of_double {first : Span} {v : Node} {c₁ c₂ : Cursor} (hword : keyword "local" c = .ok (some first) c₁)
    (hname : name c₁ = .ok (some v) c₂) (h : c₂.FacesDouble) :
    ∃ declaration names values, statement nested c = .ok (some declaration) c₂ ∧
      declaration.form = .localNames names values ∧ names.form = .nameList [v] ∧ values.form = .valueList [] := by
  obtain ⟨p, hreads⟩ := reads_of_keyword (by decide) hword
  obtain ⟨text, p', hnext⟩ := reads_of_name hname
  have hfunction : keyword "function" c₁ = .ok none c₁ := keyword_of_reads hnext (by decide) nofun
  have hvalues : (single '=').andThen (fun _ => expect (expressions nested .listValue) .localValues) c₂ = .ok none c₂ :=
    andThen_eq_none.mpr (single_of_double h)
  have hnames : localNames nested first c₁ = _ :=
    (bind_of_ok (expect_eq_ok.mpr hname)).trans ((bind_of_ok (nameList_of_double v h)).trans (bind_of_ok hvalues))
  have hform : localStatement nested c = .ok (some _) c₂ :=
    andThen_eq_some.mpr ⟨first, c₁, hword, (bind_of_ok hfunction).trans hnames⟩
  refine ⟨_, _, _, statement_of_ok [(symbol ";").map fun _ => none, (ifStatement nested).map some,
    (doStatement nested).map some, (whileStatement nested).map some, (repeatStatement nested).map some,
    (forStatement nested).map some] rfl ?_ hform, rfl, rfl, rfl⟩
  simp only [List.mem_cons, List.not_mem_nil, or_false, forall_eq_or_imp, forall_eq]
  exact ⟨emptyForm_of_reads hreads (by decide), form_of_reads hreads (by decide) (by decide),
    form_of_reads hreads (by decide) (by decide), form_of_reads hreads (by decide) (by decide),
    form_of_reads hreads (by decide) (by decide), form_of_reads hreads (by decide) (by decide)⟩

theorem for_of_double {first : Span} {v : Node} {c₁ c₂ : Cursor} (hword : keyword "for" c = .ok (some first) c₁)
    (hname : name c₁ = .ok (some v) c₂) (h : c₂.FacesDouble) :
    statement nested c = .error (.expected .forIn c₂.offset) c₂ := by
  obtain ⟨p, hreads⟩ := reads_of_keyword (by decide) hword
  have hin : keyword "in" c₂ = .ok none c₂ :=
    shuns_symbolUnless isNamePart (by decide) (by decide) c₂ (head_of_double h)
  have hloop : genericFor nested first v c₂ = .error (.expected .forIn c₂.offset) c₂ :=
    (bind_of_ok (nameList_of_double v h)).trans (bind_of_error (bind_of_ok hin))
  have hform : forStatement nested c = .error (.expected .forIn c₂.offset) c₂ := by
    refine andThen_eq_error.mpr (.inr ⟨first, c₁, hword, ?_⟩)
    exact (bind_of_ok (expect_eq_ok.mpr hname)).trans ((bind_of_ok (single_of_double h)).trans hloop)
  refine statement_of_error [(symbol ";").map fun _ => none, (ifStatement nested).map some,
    (doStatement nested).map some, (whileStatement nested).map some, (repeatStatement nested).map some] rfl ?_ hform
  simp only [List.mem_cons, List.not_mem_nil, or_false, forall_eq_or_imp, forall_eq]
  exact ⟨emptyForm_of_reads hreads (by decide), form_of_reads hreads (by decide) (by decide),
    form_of_reads hreads (by decide) (by decide), form_of_reads hreads (by decide) (by decide),
    form_of_reads hreads (by decide) (by decide)⟩

theorem reads_of_suffixed {v : Node} (h : suffixed nested c = .ok (some v) m) :
    ∃ token p, c.toPlace.Reads token p ∧ ((∃ text, token = .name text) ∨ token = .fixed "(") := by
  obtain ⟨first, c₁, hfirst, -⟩ := andThen_eq_some.mp h
  rcases firstOf_cons_eq_some.mp hfirst with hname | ⟨c₂, hname, hothers⟩
  · obtain ⟨text, p, hreads⟩ := reads_of_name hname
    exact ⟨_, p, hreads, .inl ⟨text, rfl⟩⟩
  obtain rfl := steady_name.stays hname
  rcases firstOf_cons_eq_some.mp hothers with hparen | ⟨_, -, hnil⟩
  · obtain ⟨opening, _, hopening, -⟩ := andThen_eq_some.mp hparen
    obtain ⟨_, htoken, -⟩ := map_eq_some.mp hopening
    obtain ⟨_, hscan, -⟩ := token_eq_some.mp htoken
    obtain ⟨hstarts, -⟩ := Scan.text_eq_some.mp hscan
    have hjoins : joins "(" = never := joins_plain (by decide)
    rw [← hjoins] at hstarts
    have hbracket : "(" = "[" → LongBracket.level? c₂.rest = none := fun he => absurd he (by decide)
    exact ⟨.fixed "(", _, .fixed (by decide) hstarts hbracket, .inr rfl⟩
  · exact (firstOf_nil_ne_some hnil).elim

theorem assignment_of_double (hs : nested.Steady) {first : Node} {targets : List Node} {c₁ c₂ : Cursor}
    (hfirst : suffixed nested c = .ok (some first) c₁) (hassign : first.form.isAssignable)
    (htargets : iterate (targetStep nested) [first] c₁ = .ok targets c₂) (h : c₂.FacesDouble) :
    statement nested c = .error (.expected .statement c.offset) c₂ := by
  obtain ⟨token, p, hreads, htoken⟩ := reads_of_suffixed hfirst
  have hpos := suffixed_start hs hfirst
  have hcall : first.form.isCall = false := by
    cases hform : first.form <;> rw [hform] at hassign <;> first | rfl | cases hassign
  have hrest : assignment nested first c₁ = .error (.expected .statement c.offset) c₂ := by
    refine (bind_of_ok htargets).trans ((bind_of_ok (single_of_double h)).trans ?_)
    rw [hpos, Nat.add_sub_cancel]
    rfl
  have hform : expressionStatement nested c = .error (.expected .statement c.offset) c₂ := by
    refine andThen_eq_error.mpr (.inr ⟨first, c₁, hfirst, ?_⟩)
    rw [hcall, if_neg Bool.false_ne_true, if_pos hassign]
    exact hrest
  have hfixed {text : String} (hne : text ≠ "(") : token ≠ .fixed text := by
    rintro rfl
    rcases htoken with ⟨_, hname⟩ | hparen
    · cases hname
    · exact hne (Token.fixed.inj hparen)
  have hother {word : String} {f : Span → Parse Node} (hw : word ∈ reservedWords) (hne : word ≠ "(") :
      Rule.map ((keyword word).andThen f) some c = .ok none c := form_of_reads hreads hw (hfixed hne)
  have hlabel : labelStatement.map some c = .ok none c :=
    map_eq_none.mpr (andThen_eq_none.mpr (symbol_of_reads hreads (by decide) (hfixed (by decide))))
  have hbreak : breakStatement.map some c = .ok none c :=
    map_eq_none.mpr (map_eq_none.mpr (keyword_of_reads hreads (by decide) (hfixed (by decide))))
  refine statement_of_error [(symbol ";").map fun _ => none, (ifStatement nested).map some,
    (doStatement nested).map some, (whileStatement nested).map some, (repeatStatement nested).map some,
    (forStatement nested).map some, (localStatement nested).map some, (functionStatement nested).map some,
    breakStatement.map some, labelStatement.map some, gotoStatement.map some] rfl ?_ hform
  simp only [List.mem_cons, List.not_mem_nil, or_false, forall_eq_or_imp, forall_eq]
  exact ⟨emptyForm_of_reads hreads (hfixed (by decide)), hother (by decide) (by decide),
    hother (by decide) (by decide), hother (by decide) (by decide), hother (by decide) (by decide),
    hother (by decide) (by decide), hother (by decide) (by decide), hother (by decide) (by decide), hbreak, hlabel,
    hother (by decide) (by decide)⟩

/-- What becomes of a `==` in each place where the grammar takes a single `=`: behind a key in brackets
its first half is taken, and nowhere else. -/
theorem double_equals (levels : Nat) (c : Cursor) :
    (∀ first c₁ e c₂ close c₃, openBracket c = .ok (some first) c₁ →
      (nesting levels).expression c₁ = .ok (some e) c₂ → symbol "]" c₂ = .ok (some close) c₃ → c₃.FacesDouble →
      ∃ m, field (nesting levels) c = .error (.expected .pairValue (c₃.offset + 1)) m) ∧
    (∀ v c₁, key c = .ok (some v) c₁ → c₁.FacesDouble →
      field (nesting levels) c = (nesting levels).expression c) ∧
    (∀ first c₁ v c₂, keyword "local" c = .ok (some first) c₁ → name c₁ = .ok (some v) c₂ → c₂.FacesDouble →
      (∃ declaration names values, statement (nesting levels) c = .ok (some declaration) c₂ ∧
        declaration.form = .localNames names values ∧ names.form = .nameList [v] ∧ values.form = .valueList []) ∧
      statement (nesting levels) c₂ = .error (.expected .statement c₂.offset) c₂) ∧
    (∀ first c₁ v c₂, keyword "for" c = .ok (some first) c₁ → name c₁ = .ok (some v) c₂ → c₂.FacesDouble →
      statement (nesting levels) c = .error (.expected .forIn c₂.offset) c₂) ∧
    (∀ first c₁ targets c₂, suffixed (nesting levels) c = .ok (some first) c₁ → first.form.isAssignable →
      iterate (targetStep (nesting levels)) [first] c₁ = .ok targets c₂ → c₂.FacesDouble →
      statement (nesting levels) c = .error (.expected .statement c.offset) c₂) := by
  refine ⟨?_, ?_, ?_, ?_, ?_⟩
  · intro first c₁ e c₂ close c₃ hopen hkey hclose h
    exact field_of_bracket hopen hkey hclose h
  · intro v c₁ hkey h
    exact field_of_name hkey h
  · intro first c₁ v c₂ hword hname h
    exact ⟨local_of_double hword hname h, statement_of_double h⟩
  · intro first c₁ v c₂ hword hname h
    exact for_of_double hword hname h
  · intro first c₁ targets c₂ hfirst hassign htargets h
    exact assignment_of_double (steady_nesting levels) hfirst hassign htargets h

theorem double_equals_bracket :
    ∃ m, field (nesting 1) ⟨⟨.ofString "[x]==2\x7d", 8⟩, 8⟩ = .error (.expected .pairValue 12) m := by
  have hopen : openBracket ⟨⟨.ofString "[x]==2\x7d", 8⟩, 8⟩ = .ok (some ⟨9, 9⟩) ⟨⟨.ofString "x]==2\x7d", 9⟩, 9⟩ := rfl
  have hkey : (nesting 1).expression ⟨⟨.ofString "x]==2\x7d", 9⟩, 9⟩ =
      .ok (some ⟨.name (.ofString "x"), ⟨10, 10⟩⟩) ⟨⟨.ofString "]==2\x7d", 10⟩, 10⟩ := rfl
  have hclose : symbol "]" ⟨⟨.ofString "]==2\x7d", 10⟩, 10⟩ = .ok (some ⟨11, 11⟩) ⟨⟨.ofString "==2\x7d", 11⟩, 11⟩ := rfl
  exact (double_equals 1 _).1 _ _ _ _ _ _ hopen hkey hclose ⟨.ofString "2\x7d", rfl⟩

end Double

end Grammar

end LuaSyntax
