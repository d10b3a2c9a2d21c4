import LuaSyntax.Proofs.Viable.Table

/-! # Suffixes in two sources

Names and expressions in parentheses with what comes behind them. Whether the result may be called or
assigned to is the same in both sources.
-/
namespace LuaSyntax.Grammar

open Rule Parse Phrase

variable {ι : Type} {deep : Prop} {start stop : Ahead} {nested nested' : Nested}

/-- Arguments in parentheses. -/
def argumentList (nested : Nested) : Rule (List Node) :=
  (symbol "(").andThen fun _ => do
    let values ← expressions nested .argument
    let _ ← expect (symbol ")") .argumentsClose
    return values.getD []

/-- Arguments without parentheses. -/
def loneArgument (nested : Nested) : List (Rule (List Node)) :=
  [(table nested).map fun node => [node], string.map fun node => [node]]

variable (h : Nested.Tracks deep nested nested')
include h

theorem steady_argumentList : (argumentList nested).Steady :=
  (steady_symbol (by decide)).andThen fun _ => .bind (steady_expressions h.steady _).forward fun _ =>
    .bind (.expect (steady_symbol (by decide)) _) fun _ => .pure _

theorem tracks_argumentList (hstart : start.Admits "(") :
    (argumentList nested).Tracks deep (fun _ : ι => argumentList nested') AnyResult start stop := by
  have hvalues {ι : Type} : (expressions nested .argument).Tracks deep (fun _ : ι => expressions nested' .argument) AnyResult
      (.limited [")"] [] true) (.limited [")"] [.number] false) :=
    (tracks_expressions h (fun _ => Iff.rfl) (by decide) (by decide)).within (by decide) (.refl _)
  refine ((lexes_symbol (by decide)).tracks_fixed hstart).andThen fun _ =>
    hvalues.bindOptional (fun _ => settles_expressions h) (steady_expressions h.steady _) (by decide) (fun values => ?_) ?_
  · exact (tracks_expectSymbol (by decide) (fun _ => Iff.rfl) (by decide)).bind fun _ => .pure fun _ => trivial
  · exact (tracks_expectSymbol (by decide) (fun _ => Iff.rfl) (by decide)).bind fun _ => .pure fun _ => trivial

theorem tracks_loneArgument (hbrace : start.Admits "\x7b") (hstring : start.Admits .string) :
    Rule.Tracks deep (firstOf (loneArgument nested)) (fun _ : ι => firstOf (loneArgument nested')) AnyResult start stop := by
  have htext : string.Tracks deep (fun _ : ι => string) AnyResult start stop :=
    lexes_string.tracks (by
      rintro _ ⟨value, rfl⟩
      exact hstring)
  obtain ⟨phrases, hfollows⟩ := h.follows
  refine (tracks_table h hbrace).map.firstOf_of ((steady_table h.steady).map _) (fun _ _ _ _ _ hgets => ?_)
    htext.map.singleton
  exact ((predicts_table hfollows).map _).lacks_of_gets (predicts_string.map _).firstOf_singleton (by decide) hgets

theorem tracks_arguments (hparen : start.Admits "(") (hbrace : start.Admits "\x7b") (hstring : start.Admits .string) :
    (arguments nested).Tracks deep (fun _ : ι => arguments nested') AnyResult start stop := by
  obtain ⟨phrases, hfollows⟩ := h.follows
  have hlone : Rule.Predicts (firstOf (loneArgument nested')) _ ["\x7b", .string] :=
    ((predicts_table hfollows).map fun node => [node]).firstOf_cons
      (predicts_string.map fun node => [node]).firstOf_singleton (by decide)
  refine (tracks_argumentList h hparen).firstOf_of (steady_argumentList h) (fun _ _ _ _ _ hgets => ?_)
    (tracks_loneArgument h hbrace hstring)
  exact ((predicts_symbol (by decide)).lacks_of_gets hlone (by decide) hgets).andThen

omit h in
theorem writes_parentheses : Writes (.ofString "()") ["(", ")"] := by
  have hclose : Writes (Token.text ")") [")"] := writes_text (.fixed (by decide))
  have hjoins (tail : Bytes) : ∀ b ∈ tail.head?, ¬ joins "(" b := fun b _ => not_joins_plain (by decide) b
  refine @Writes.afterToken _ (.ofString "(") "(" _ hclose (fun tail offset => ?_) fun tail => ?_
  · exact reads_fixed (by decide) (hjoins _) nofun offset
  · exact not_startsTrivium_of_head fun b hb => Option.some.inj hb ▸ by decide

theorem gets_parentheses (hd : deep) {s s' : Stream} (hspells : s.Spells ["(", ")"] s') :
    (arguments nested').Gets (fun _ => True) s s' := by
  obtain ⟨opening, t, hopening, closing, t', hclosing, rfl⟩ := hspells
  have hends : Ahead.Ends (.limited [")"] [] true) t :=
    ⟨.inr ⟨_, hclosing.next, List.mem_cons_self⟩, fun ⟨_, _, hk⟩ => List.not_mem_nil hk⟩
  have hopen : (symbol "(").Gets (fun _ => True) s t := (lexes_symbol (by decide)).gets rfl hopening
  have hclose : (symbol ")").Gets (fun _ => True) t s' := (lexes_symbol (by decide)).gets rfl hclosing
  have hnone : (expressions nested' .argument).Lacks t := (settles_expressions h).ends hd hends (by decide)
  refine Rule.Gets.firstOf_head (hopen.andThen fun _ _ => hnone.bind ?_)
  exact hclose.expect.bind fun _ _ => .pure trivial

/-- Arguments that a label asks for as a pair of parentheses. -/
theorem supplies_arguments (hd : deep) : Label.Supplies .methodArguments .anything stop fun s s' =>
    ∀ _ : ι, (arguments nested').Gets (fun _ => True) s s' := by
  have hwritten : ∀ token ∈ (["(", ")"] : List Token), token.Written := by
    simp only [List.mem_cons, List.not_mem_nil, or_false, forall_eq_or_imp, forall_eq]
    exact ⟨.fixed (by decide), .fixed (by decide)⟩
  refine ⟨⟨_, rfl⟩, ?_⟩
  rintro item rfl
  exact ⟨fun b hb => (Option.some.inj hb).symm, ["(", ")"], [], writes_line writes_parentheses, hwritten,
    fun s s' hspells _ => ⟨trivial, fun _ => gets_parentheses h hd hspells⟩⟩

/-- Both nodes may be called or assigned to, or neither may. -/
def SameRole (a b : Node) : Prop := a.form.isCall = b.form.isCall ∧ a.form.isAssignable = b.form.isAssignable

/-- The kinds of tokens that a suffix begins with. -/
def suffixKinds : List Kind := [".", "[", ":", "(", "\x7b", .string]

/-- What comes next may go on with a suffix, or ends it. -/
structure SuffixAhead (loop : Ahead) : Prop where
  admits : ∀ kind ∈ suffixKinds, loop.Admits kind
  spares : loop.Spares suffixKinds [.number]

omit h in
theorem sameRole_of_forms {a b : Node} {form form' : Form Node} (hc : form.isCall = form'.isCall)
    (ha : form.isAssignable = form'.isAssignable) (h : a.form = form) (h' : b.form = form') : SameRole a b := by
  subst h
  subst h'
  exact ⟨hc, ha⟩

/-- A name behind a dot. -/
def fieldSuffix (object : Node) : Rule Node :=
  (single '.').andThen fun _ => do return indexed object (← expect key .fieldName)

/-- An index in brackets. -/
def indexSuffix (nested : Nested) (object : Node) : Rule Node :=
  openBracket.andThen fun _ => do
    let key ← expect nested.expression .indexKey
    let _ ← expect (symbol "]") .indexClose
    nodeFrom object.span (.index object key)

/-- A method with its arguments. -/
def methodSuffix (nested : Nested) (object : Node) : Rule Node :=
  (single ':').andThen fun _ => do
    let method ← expect key .methodName
    let values ← expect (arguments nested) .methodArguments
    nodeFrom object.span (.invoke object method values)

def callSuffix (nested : Nested) (object : Node) : Rule Node :=
  (arguments nested).andThen fun values => nodeFrom object.span (.call object values)

omit h in
theorem steady_fieldSuffix (object : Node) : (fieldSuffix object).Steady :=
  (steady_single (by decide)).andThen fun _ => .bind (.expect steady_key _) fun _ => .pure _

theorem steady_indexSuffix (object : Node) : (indexSuffix nested object).Steady :=
  steady_openBracket.andThen fun _ => .bind (.expect h.steady.expression _) fun _ =>
    .bind (.expect (steady_symbol (by decide)) _) fun _ => .nodeFrom _ _

theorem steady_methodSuffix (object : Node) : (methodSuffix nested object).Steady :=
  (steady_single (by decide)).andThen fun _ => .bind (.expect steady_key _) fun _ =>
    .bind (.expect (steady_arguments h.steady) _) fun _ => .nodeFrom _ _

section
variable {loop : Ahead} (hl : SuffixAhead loop) (object : Node)
include hl

omit h in
theorem tracks_fieldSuffix : (fieldSuffix object).Tracks deep (fun x : ι × Node => fieldSuffix x.2) SameRole loop stop := by
  have hdot : (single '.').Tracks deep (fun _ : ι × Node => single '.') AnyResult loop .anything :=
    lexes_dot.tracks_fixed (hl.admits _ (by decide))
  exact hdot.andThen fun _ => (lexes_key.tracks_expectName steady_key fun _ => Iff.rfl).bind fun key =>
    .pure fun _ => ⟨rfl, rfl⟩

theorem tracks_indexSuffix :
    (indexSuffix nested object).Tracks deep (fun x : ι × Node => indexSuffix nested' x.2) SameRole loop stop := by
  have hopen : openBracket.Tracks deep (fun _ : ι × Node => openBracket) AnyResult loop .anything :=
    lexes_openBracket.tracks_fixed (hl.admits _ (by decide))
  exact hopen.andThen fun _ => .bind (h.expression.expect fun _ => Iff.rfl) fun key =>
    .bind (tracks_expectSymbol (by decide) (fun _ => Iff.rfl) (by decide)) fun _ => .nodeOf fun _ _ _ => sameRole_of_forms rfl rfl

theorem tracks_methodSuffix :
    (methodSuffix nested object).Tracks deep (fun x : ι × Node => methodSuffix nested' x.2) SameRole loop stop := by
  have hcolon : (single ':').Tracks deep (fun _ : ι × Node => single ':') AnyResult loop .anything :=
    lexes_colon.tracks_fixed (hl.admits _ (by decide))
  have harguments {ι : Type} : (expect (arguments nested) .methodArguments).Tracks deep
      (fun _ : ι => expect (arguments nested') .methodArguments) AnyResult .anything stop :=
    (tracks_arguments h (Ahead.anything_admits _) (Ahead.anything_admits _) (Ahead.anything_admits _)).expect
      (steady_arguments h.steady) (supplies_arguments h)
  exact hcolon.andThen fun _ => (lexes_key.tracks_expectName steady_key fun _ => Iff.rfl).bind fun method =>
    harguments.bind fun values => .nodeOf fun _ _ _ => sameRole_of_forms rfl rfl

theorem tracks_callSuffix :
    (callSuffix nested object).Tracks deep (fun x : ι × Node => callSuffix nested' x.2) SameRole loop stop := by
  have harguments : (arguments nested).Tracks deep (fun _ : ι × Node => arguments nested') AnyResult loop stop :=
    tracks_arguments h (hl.admits _ (by decide)) (hl.admits _ (by decide)) (hl.admits _ (by decide))
  exact harguments.andThen fun values => .nodeOf fun _ _ _ => sameRole_of_forms rfl rfl

theorem tracks_suffix : (suffix nested object).Tracks deep (fun x : ι × Node => suffix nested' x.2) SameRole loop stop :=
  (tracks_fieldSuffix hl object).firstOf_cons (fun _ => settles_dot.andThen _ _) (steady_fieldSuffix object)
    (hl.spares.mono (by decide) (by decide))
    ((tracks_indexSuffix h hl object).firstOf_cons (fun _ => settles_openBracket.andThen _ _) (steady_indexSuffix h object)
      (hl.spares.mono (by decide) (by decide))
      ((tracks_methodSuffix h hl object).firstOf_cons (fun _ => settles_colon.andThen _ _) (steady_methodSuffix h object)
        (hl.spares.mono (by decide) (by decide)) (tracks_callSuffix h hl object).singleton))

end

theorem settles_arguments : Rule.Settles deep (arguments nested) (arguments nested') ["(", "\x7b", .string] [] := by
  have hlist : (argumentList nested).Settles deep (argumentList nested') ["("] [] := (settles_symbol (by decide)).andThen _ _
  have htable : (table nested).Settles deep (table nested') ["\x7b"] [] := (settles_symbol (by decide)).andThen _ _
  have htext : string.Settles deep string [.string] [] := settles_string
  exact hlist.firstOf_cons ((htable.map _ _).firstOf_cons ((htext.map _ _).singleton (steady_string.map _))
    ((steady_table h.steady).map _)) (steady_argumentList h)

theorem settles_suffix (object object' : Node) :
    (suffix nested object).Settles deep (suffix nested' object') suffixKinds [.number] := by
  have hcall : (callSuffix nested object).Settles deep (callSuffix nested' object') ["(", "\x7b", .string] [] :=
    (settles_arguments h).andThen _ _
  have hmethod : (methodSuffix nested object).Settles deep (methodSuffix nested' object') [":"] [] := settles_colon.andThen _ _
  have hindex : (indexSuffix nested object).Settles deep (indexSuffix nested' object') ["["] [] :=
    settles_openBracket.andThen _ _
  have hfield : (fieldSuffix object).Settles deep (fieldSuffix object') ["."] [.number] := settles_dot.andThen _ _
  have hsteady : (callSuffix nested object).Steady := (steady_arguments h.steady).andThen fun _ => .nodeFrom _ _
  exact (hfield.firstOf_cons (hindex.firstOf_cons (hmethod.firstOf_cons (hcall.singleton hsteady) (steady_methodSuffix h object))
    (steady_indexSuffix h object)) (steady_fieldSuffix object)).congr (by decide) (by decide)

theorem tracks_parenthesized (hstart : start.Admits "(") :
    (parenthesized nested).Tracks deep (fun _ : ι => parenthesized nested') SameRole start stop :=
  ((lexes_symbol (by decide)).tracks_fixed hstart).andThen fun first =>
    .bind (h.expression.expect fun _ => Iff.rfl) fun inner =>
    .bind (tracks_expectSymbol (by decide) (fun _ => Iff.rfl) (by decide)) fun _ => .nodeOf fun _ _ _ => sameRole_of_forms rfl rfl

omit h in
theorem form_of_name {c c' : Cursor} {v : Node} (h : name c = .ok (some v) c') : ∃ text, v.form = .name text := by
  obtain ⟨⟨text, span⟩, -, rfl⟩ := map_eq_some.mp h
  exact ⟨text, rfl⟩

theorem tracks_primary (hname : name.Tracks deep (fun _ : ι => name) AnyResult start stop) (hstart : start.Admits "(") :
    (primary nested).Tracks deep (fun _ : ι => primary nested') SameRole start stop := by
  obtain ⟨phrases, hfollows⟩ := h.follows
  have hrole : name.Tracks deep (fun _ : ι => name) SameRole start stop := by
    refine (hname.results form_of_name form_of_name).mono ?_
    rintro a b ⟨⟨text, ha⟩, text', hb⟩
    exact @sameRole_of_forms a b (.name text) (.name text') rfl rfl ha hb
  refine hrole.firstOf_of steady_name (fun _ _ _ _ _ hgets => ?_) (tracks_parenthesized h hstart).singleton
  exact predicts_name.lacks_of_gets (predicts_parenthesized hfollows).firstOf_singleton (by decide) hgets

/-- The suffixes after an expression, up to what does not go on with another one. -/
theorem tracks_suffixes {loop : Ahead} (hl : SuffixAhead loop) (hstop : stop.Within loop)
    (hk : stop.Spares suffixKinds [.number]) {first : Node} {first' : ι → Node} (hfirst : ∀ i, SameRole first (first' i)) :
    (iterate (suffix nested) first).Tracks deep (fun i => iterate (suffix nested') (first' i)) SameRole loop stop := by
  have hsuffix (object : Node) {last : Ahead} :
      (suffix nested object).Tracks deep (fun x : ι × Node => suffix nested' x.2) SameRole loop last := tracks_suffix h hl object
  refine .iterate_of (steady_suffix h.steady) (fun _ => steady_suffix h.steady') ?_ ?_ (fun _ => hstop) (.refl stop) ?_ ?_ hfirst
  · intro a c b m hc ho
    exact ((hsuffix a).ok hc ho).mono fun _ _ hall i a' _ => hall (i, a')
  · intro hd a c label offset c' hc he
    exact ((hsuffix a).error hd hc he).mono fun _ _ hall i a' _ => hall (i, a')
  · intro i a b c c' s _ ho hsees
    exact (settles_suffix h a b).sees ho hsees hk
  · intro hd i b s hends
    exact (settles_suffix h b b).ends hd hends hk

theorem tracks_suffixed {loop : Ahead} (hl : SuffixAhead loop) (hstop : stop.Within loop) (hk : stop.Spares suffixKinds [.number])
    (hname : name.Tracks deep (fun _ : ι => name) AnyResult start loop) (hstart : start.Admits "(") :
    (suffixed nested).Tracks deep (fun _ : ι => suffixed nested') SameRole start stop := by
  refine (tracks_primary h hname hstart).andThenAlike (fun first => tracks_suffixes h hl hstop hk fun x => x.2.2) fun hd => ?_
  refine Ahead.Closed.within (.refl fun s hends _ a => ?_) hstop (.refl stop)
  exact .iterate_done (steady_suffix h.steady') ((settles_suffix h a a).ends hd hends hk) trivial

end LuaSyntax.Grammar
