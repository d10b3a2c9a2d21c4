import LuaSyntax.Proofs.Congruence.Grammar

/-! # Progress of the grammar

Every rule of the grammar makes progress where the nested rules do, hence at every nesting level. The numbers of
the trees it builds have the properties that numerals give them.
-/
namespace LuaSyntax

open Parse Rule
open List (Forall₂)

/-- Reading goes on, and numbers have a property. -/
abbrev Sequencing.progress (number : Number → Prop) : Sequencing where
  toLikeness := .same number (fun _ => True) (fun _ => True) fun _ => trivial
  Runs _ _ _ V p _ := p.Gives fun a => ∃ b, V a b
  weaken h := h
  pure hv := .pure ⟨_, hv⟩
  bind h hf := h.bind fun _ ha => ha.elim fun _ hv => hf hv
  get := .get fun c => ⟨c, rfl, trivial⟩
  failAt _ := .failAt

abbrev Combining.progress (number : Number → Prop) : Combining where
  toSequencing := .progress number
  Rules _ _ _ V r _ := Rule.Gives (fun a => ∃ b, V a b) r
  weakenRule h := h
  run h := h.rel
  declines := .declines
  andThen h hf := h.andThen fun _ ha => ha.elim fun _ hv => hf hv
  orElse h ho := h.orElse ho
  orElse_late h ho := h.orElse ho
  always h := h.always _

theorem gives_read {α : Type} {scan : Scan (Option α)} {P : Number → Prop} (h : scan.Steady) :
    Rule.Gives (fun a => ∃ b, (Sequencing.progress P).read a b) (token scan) :=
  ⟨.token h, fun _ => ⟨_, rfl, ⟨rfl, trivial⟩, rfl⟩⟩

/-- Every rule goes on where the tokens do, and the numbers have a property if numerals give it to them. -/
abbrev Congruence.progress (P : Number → Prop) (hn : ∀ {c a c'}, token Scan.numeral c = .ok (some a) c' → P a.1) :
    Congruence where
  toCombining := .progress P
  Tests _ := True
  tests_level := trivial
  tests_endsBlock := trivial
  guarded {_ _ _ _ _ test _} _ h := h.guarded (t := fun c => test c.rest)
  iterate h hab := (Sequencing.progress P).iterate_of_rest (fun hc => congrArg (·.rest) hc.1)
    (fun hv => (Combining.progress P).run (h hv)) hab
  iterate_items {_ _ _ _ _ _ item' separator} h hs _ :=
    (Sequencing.progress P).iterate_of_rest (g := itemStep item' separator) (fun hc => congrArg (·.rest) hc.1)
      (fun hv => (Combining.progress P).run ((Combining.progress P).itemStep h hs hv))
      (a := ([], true)) (b := ([], true)) ⟨.nil, rfl⟩
  read_bind h _ hnone hf := (Sequencing.progress P).bind_found ((Combining.progress P).run h) hnone hf
  read_andThen h _ hf := (Combining.progress P).andThen h hf
  both h _ _ h' _ := h.both_rel h'
  read_word hw := gives_read (Scan.steady_text _ (isPlain_iff.mp (isWord_iff.mp hw).1).1)
  read_semicolon := gives_read (Scan.steady_text _ (List.cons_ne_nil _ _))
  read_name := gives_read Scan.steady_name
  read_numeral := ⟨.token Scan.steady_numeral, fun ho => ⟨_, hn ho, rfl, ⟨rfl, trivial⟩, rfl⟩⟩
  read_string := gives_read Scan.steady_string

/-- Reading goes on. -/
abbrev Congruence.steady : Congruence := .progress (fun _ => True) fun _ => trivial

namespace Congruence.steady
variable {α : Type} {V : α → α → Prop} {late : Bool}

theorem of_rules {r : Rule α} (h : Congruence.steady.Rules late V r r) : r.Steady :=
  Rule.Gives.toSteady h

theorem of_runs {p : Parse α} (h : Congruence.steady.Runs late V p p) : p.Forward :=
  Parse.Gives.toForward h

theorem node_self (v : Node) : Congruence.steady.node v v := ⟨rfl, fun _ _ _ _ => trivial⟩

theorem rules_self {rule : Rule Node} (h : rule.Steady) : Congruence.steady.Rules late Congruence.steady.node rule rule :=
  ⟨h, fun _ => ⟨_, node_self _⟩⟩

theorem begun_self (v : Node) : Congruence.steady.begun v v := ⟨node_self v, rfl, trivial⟩

end Congruence.steady

namespace Grammar

open Congruence.steady

theorem forward_skipShebang : (modify skipShebang : Parse PUnit).Forward := by
  constructor
  intro c u c' ho
  obtain rfl := modify_eq_ok.mp ho
  unfold skipShebang
  split
  · exact ⟨_, Place.passes_takeWhile _⟩
  · exact Place.le_refl _

theorem forward_skipTrivia : skipTrivia.Forward := by
  constructor
  intro c u c' ho
  obtain ⟨bytes, -, -, hp, -⟩ := skipTrivia_spelling ho
  exact ⟨bytes, hp⟩

/-- The nested rules make progress. -/
structure Nested.Steady (nested : Nested) : Prop where
  expression : nested.expression.Steady
  concatenation : nested.concatenation.Steady
  unary : nested.unary.Steady
  block : nested.block.Forward

theorem Nested.Steady.congr {nested : Nested} (h : nested.Steady) : Nested.Congr .steady nested nested :=
  ⟨rules_self h.expression, rules_self h.concatenation, rules_self h.unary, ⟨h.block, fun _ => ⟨_, node_self _⟩⟩⟩

section Numbers
variable {P : Number → Prop} (hn : ∀ {c a c'}, token Scan.numeral c = .ok (some a) c' → P a.1)
include hn

theorem progress_nesting (levels : Nat) : Nested.Congr (.progress P hn) (nesting levels) (nesting levels) := by
  induction levels with
  | zero => exact ⟨⟨⟨nofun, nofun⟩, nofun⟩, ⟨⟨nofun, nofun⟩, nofun⟩, ⟨⟨nofun, nofun⟩, nofun⟩, ⟨⟨nofun⟩, nofun⟩⟩
  | succ levels ih => exact ih.succ

/-- The numbers of a source have every property that numerals give them. -/
theorem numbers_chunk {limit : Nat} {c c' : Cursor} {root : Node} (h : chunk limit c = .ok root c') : root.Numbers P := by
  have hline : (modify skipShebang : Parse PUnit).Gives fun a => ∃ b, a = b :=
    ⟨forward_skipShebang, fun _ => ⟨_, rfl⟩⟩
  have hskip : skipTrivia.Gives fun a => ∃ b, a = b := ⟨forward_skipTrivia, fun _ => ⟨_, rfl⟩⟩
  have hgives := congr_chunk (progress_nesting hn limit) hline hskip rfl fun hc => by rw [hc.1]; exact ⟨rfl, rfl⟩
  obtain ⟨_, -, hnumbers⟩ := Gives.result hgives h
  exact hnumbers

end Numbers

/-- The rules make progress however many nesting levels are left. -/
theorem steady_nesting (levels : Nat) : (nesting levels).Steady := by
  have h := progress_nesting (P := fun _ => True) (fun _ => trivial) levels
  exact ⟨of_rules h.expression, of_rules h.concatenation, of_rules h.unary, of_runs h.block⟩

theorem steady_name : name.Steady := of_rules terminal_name.like

theorem steady_key : key.Steady := of_rules terminal_key.like

theorem steady_number : number.Steady := of_rules terminal_number.like

theorem steady_string : string.Steady := of_rules terminal_string.like

theorem steady_varargs : varargs.Steady := of_rules terminal_varargs.like

theorem steady_binaryOperator (op : BinaryOp) : (binaryOperator op).Steady := of_rules (terminal_binaryOperator op).like

theorem steady_unaryOperator (op : UnaryOp) : (unaryOperator op).Steady := of_rules (terminal_unaryOperator op).like

theorem steady_unaryOperators : Steady (firstOf (unaryOperators.map unaryOperator)) :=
  of_rules terminal_unaryOperators.like

theorem steady_separator : Steady (firstOf [symbol ",", symbol ";"]) := of_rules terminal_separator.like

theorem steady_parameterStep (listed : List Node) : (parameterStep listed).Steady :=
  of_rules (congr_parameterStep (List.forall₂_same.mpr fun v _ => node_self v))

theorem steady_pathStep (object : Node) : (pathStep object).Steady := of_rules (congr_pathStep (begun_self object))

theorem steady_nameStep (names : List Node) : (nameStep names).Steady :=
  of_rules (congr_nameStep (V := fun _ _ => True) fun _ => trivial)

theorem steady_breakStatement : breakStatement.Steady := of_rules congr_breakStatement

theorem steady_labelStatement : labelStatement.Steady := of_rules congr_labelStatement

theorem steady_gotoStatement : gotoStatement.Steady := of_rules congr_gotoStatement

section Operands
variable {operand right : Rule Node}

theorem steady_chainStep (h : operand.Steady) (tier : Tier) (left : Node) : (chainStep operand tier left).Steady :=
  of_rules (congr_chainStep (rules_self h) tier (node_self left))

theorem steady_chain (h : operand.Steady) (tier : Tier) : (chain operand tier).Steady :=
  of_rules (congr_chain (rules_self h) tier)

theorem steady_chains (h : operand.Steady) (tiers : List Tier) : (chains operand tiers).Steady :=
  of_rules (congr_chains (rules_self h) tiers)

theorem steady_withRight (h : operand.Steady) (hr : right.Steady) (op : BinaryOp) (missing : Label) :
    (withRight operand op right missing).Steady :=
  of_rules (congr_withRight (rules_self h) (rules_self hr) op missing)

end Operands

section Rules
variable {nested : Nested} (h : nested.Steady)
include h

theorem steady_expressions (missing : Label) : Steady (expressions nested missing) :=
  of_rules (congr_expressions h.congr missing)

theorem steady_valueStep (missing : Label) (values : List Node) : (valueStep nested missing values).Steady :=
  of_rules (congr_valueStep h.congr missing (List.forall₂_same.mpr fun v _ => node_self v))

theorem steady_functionLiteral : (functionLiteral nested).Steady := of_rules (congr_functionLiteral h.congr)

theorem steady_functionStatement : (functionStatement nested).Steady := of_rules (congr_functionStatement h.congr)

theorem steady_parenthesized : (parenthesized nested).Steady := of_rules (congr_parenthesized h.congr)

theorem steady_bracketField : (bracketField nested).Steady := of_rules (congr_bracketField h.congr)

theorem steady_namedField : (namedField nested).Steady := of_rules (congr_namedField h.congr)

theorem steady_fieldStep (listed : List Node × Bool) : (fieldStep nested listed).Steady :=
  of_rules (congr_fieldStep h.congr ⟨List.forall₂_same.mpr fun v _ => node_self v, rfl⟩)

theorem steady_table : (table nested).Steady := of_rules (congr_table h.congr)

theorem steady_arguments : Steady (arguments nested) := of_rules (congr_arguments h.congr)

theorem steady_suffix (object : Node) : (suffix nested object).Steady :=
  of_rules (congr_suffix h.congr (begun_self object))

theorem steady_suffixed : (suffixed nested).Steady := of_rules (congr_suffixed h.congr)

theorem steady_simple : (simple nested).Steady := of_rules (congr_simple h.congr)

theorem steady_unary : (unary nested).Steady := of_rules (congr_unary h.congr)

theorem steady_concatenation : (concatenation nested).Steady := of_rules (congr_concatenation h.congr)

theorem steady_branchStep (branches : List (Node × Node)) : (branchStep nested branches).Steady :=
  of_rules (congr_branchStep h.congr (List.forall₂_same.mpr fun v _ => ⟨node_self v.1, node_self v.2⟩))

theorem steady_ifStatement : (ifStatement nested).Steady := of_rules (congr_ifStatement h.congr)

theorem steady_doStatement : (doStatement nested).Steady := of_rules (congr_doStatement h.congr)

theorem steady_whileStatement : (whileStatement nested).Steady := of_rules (congr_whileStatement h.congr)

theorem steady_repeatStatement : (repeatStatement nested).Steady := of_rules (congr_repeatStatement h.congr)

theorem steady_forStatement : (forStatement nested).Steady := of_rules (congr_forStatement h.congr)

theorem steady_localStatement : (localStatement nested).Steady := of_rules (congr_localStatement h.congr)

theorem steady_returnStatement : (returnStatement nested).Steady := of_rules (congr_returnStatement h.congr)

theorem steady_targetStep (targets : List Node) : (targetStep nested targets).Steady :=
  of_rules (congr_targetStep h.congr (V := fun _ _ => True) fun _ => trivial)

theorem steady_expressionStatement : (expressionStatement nested).Steady := of_rules (congr_expressionStatement h.congr)

theorem steady_statementForms : Steady (firstOf (statementForms nested)) :=
  of_rules (Congruence.steady.firstOf (congr_statementForms h.congr))

theorem steady_statementStep (listed : List Node) : (statementStep nested listed).Steady :=
  of_rules (congr_statementStep h.congr (V := fun _ _ => True) fun _ => trivial)

theorem forward_statements : (statements nested).Forward := of_runs (congr_statements h.congr)

end Rules

section Starts
variable {nested : Nested} {c c' : Cursor} {v : Node}

theorem nodeFrom_pos {first : Span} {form : Form Node} (ho : nodeFrom first form c = .ok v c') :
    v.span.pos = first.pos := by
  obtain ⟨rfl, -⟩ := nodeFrom_eq_ok.mp ho
  rfl

/-- A suffix leaves the expression where it starts. -/
theorem suffix_pos {object : Node} (ho : suffix nested object c = .ok (some v) c') :
    v.span.pos = object.span.pos := by
  rcases firstOf_cons_eq_some.mp ho with ho | ⟨_, -, ho⟩
  · obtain ⟨_, _, -, ho⟩ := andThen_eq_some.mp ho
    obtain ⟨key, _, -, ho⟩ := bind_eq_ok.mp ho
    obtain ⟨rfl, -⟩ := pure_eq_ok.mp ho
    rfl
  rcases firstOf_cons_eq_some.mp ho with ho | ⟨_, -, ho⟩
  · obtain ⟨_, _, -, ho⟩ := andThen_eq_some.mp ho
    obtain ⟨_, _, -, ho⟩ := bind_eq_ok.mp ho
    obtain ⟨_, _, -, ho⟩ := bind_eq_ok.mp ho
    exact nodeFrom_pos ho
  rcases firstOf_cons_eq_some.mp ho with ho | ⟨_, -, ho⟩
  · obtain ⟨_, _, -, ho⟩ := andThen_eq_some.mp ho
    obtain ⟨_, _, -, ho⟩ := bind_eq_ok.mp ho
    obtain ⟨_, _, -, ho⟩ := bind_eq_ok.mp ho
    exact nodeFrom_pos ho
  rcases firstOf_cons_eq_some.mp ho with ho | ⟨_, -, ho⟩
  · obtain ⟨_, _, -, ho⟩ := andThen_eq_some.mp ho
    exact nodeFrom_pos ho
  · exact (firstOf_nil_ne_some ho).elim

theorem token_start {α : Type} {scan : Scan (Option α)} {found : α × Span}
    (ho : token scan c = .ok (some found) c') : found.2.pos = c.offset + 1 := by
  obtain ⟨_, -, hspan, -⟩ := token_eq_some.mp ho
  rw [hspan]

/-- An expression with suffixes starts where it was looked for. -/
theorem suffixed_start (hs : nested.Steady) (ho : suffixed nested c = .ok (some v) c') : v.span.pos = c.offset + 1 := by
  obtain ⟨first, m, hfirst, hloop⟩ := andThen_eq_some.mp ho
  obtain ⟨hsteps, -⟩ := (iterate_eq_ok (steady_suffix hs)).mp hloop
  refine Steps.invariant (P := fun v => v.span.pos = c.offset + 1)
    (fun hx hnext => (suffix_pos hnext).trans hx) ?_ hsteps
  rcases firstOf_cons_eq_some.mp hfirst with hname | ⟨m', hname, hothers⟩
  · obtain ⟨_, htoken, rfl⟩ := map_eq_some.mp hname
    exact token_start htoken
  obtain rfl := steady_name.stays hname
  rcases firstOf_cons_eq_some.mp hothers with hparen | ⟨_, -, hnil⟩
  · obtain ⟨opening, _, hopening, hparen⟩ := andThen_eq_some.mp hparen
    obtain ⟨_, _, -, hparen⟩ := bind_eq_ok.mp hparen
    obtain ⟨_, _, -, hparen⟩ := bind_eq_ok.mp hparen
    obtain ⟨_, htoken, rfl⟩ := map_eq_some.mp hopening
    exact (nodeFrom_pos hparen).trans (token_start htoken)
  · exact (firstOf_nil_ne_some hnil).elim

end Starts

end Grammar

end LuaSyntax
