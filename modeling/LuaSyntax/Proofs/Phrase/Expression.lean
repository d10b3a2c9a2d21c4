import LuaSyntax.Proofs.Phrase.Function

/-! # Expressions follow the grammar -/
namespace LuaSyntax.Grammar

open Rule Parse Phrase

section Operators
variable {c c' m : Cursor} {s s' sm : Stream} {ops : List BinaryOp} {found op : BinaryOp} {span : Span}

theorem sound_operators (ho : firstOf (ops.map binaryOperator) c = .ok (some found) m)
    (hm : Lexed m sm) (hn : ¬ sm.Next doubled) :
    found ∈ ops ∧ ∃ s span, Lexed c s ∧ s.Takes found.text span sm := by
  induction ops with
  | nil => exact (firstOf_nil_ne_some ho).elim
  | cons op others ih =>
    rcases firstOf_cons_eq_some.mp ho with hop | ⟨c', hc, hrest⟩
    · obtain ⟨s, span, hs, htakes, rfl⟩ := sound_binaryOperator hop hm hn
      exact ⟨List.mem_cons_self, s, span, hs, htakes⟩
    · obtain rfl := (steady_binaryOperator op).stays hc
      obtain ⟨hmem, hs⟩ := ih hrest
      exact ⟨List.mem_cons_of_mem _ hmem, hs⟩

theorem complete_operators (hp : ops.Pairwise fun first second => .fixed second.text ∉ operatorKinds first)
    (hmem : op ∈ ops) (hl : Lexed c s) (ht : s.Takes op.text span s') :
    ∃ c', firstOf (ops.map binaryOperator) c = .ok (some op) c' ∧ Lexed c' s' := by
  induction hp with
  | nil => cases hmem
  | @cons first others hfirst _ ih =>
    rcases List.mem_cons.mp hmem with rfl | hmem
    · obtain ⟨c', ho, hl'⟩ := complete_binaryOperator hl ht
      exact ⟨c', firstOf_cons_eq_some.mpr (.inl ho), hl'⟩
    · obtain ⟨c', ho, hl'⟩ := ih hmem
      have hn : ¬ s.Next (operatorKinds first) := by
        rintro ⟨token, hnext, hk⟩
        rw [ht.next] at hnext
        cases hnext
        exact hfirst op hmem hk
      exact ⟨c', firstOf_cons_eq_some.mpr (.inr ⟨c, (declines_binaryOperator hl).mpr hn, ho⟩), hl'⟩

theorem declines_operators (hl : Lexed c s) :
    firstOf (ops.map binaryOperator) c = .ok none c ↔ ¬ s.Next (ops.flatMap operatorKinds) := by
  induction ops with
  | nil => simp [firstOf_nil_eq_none, Stream.Next]
  | cons op others ih =>
    rw [List.map_cons, firstOf_cons_eq_none, List.flatMap_cons, Stream.next_append, not_or, ← ih,
      ← declines_binaryOperator hl]
    constructor
    · rintro ⟨m, hc, ho⟩
      obtain rfl := (steady_binaryOperator op).stays hc
      exact ⟨hc, ho⟩
    · rintro ⟨hc, ho⟩
      exact ⟨c, hc, ho⟩

variable {operand left right : Rule Node} {P Q : Phrase Node} {kinds : List Kind}

theorem follows_chainStep {tier : Tier} (ho : operand.Predicts P kinds)
    (hk : ∀ kind ∈ kinds, kind ∉ doubled)
    (hp : tier.operators.Pairwise fun first second => .fixed second.text ∉ operatorKinds first)
    (left : Node) :
    Rule.Follows (chainStep operand tier left) (ChainStep P tier left)
      fun s => ¬ s.Next (tier.operators.flatMap operatorKinds) where
  sound hc hl := by
    obtain ⟨op, m, hop, hc⟩ := andThen_eq_some.mp hc
    obtain ⟨right, _, hright, hv⟩ := bind_eq_ok.mp hc
    obtain ⟨rfl, rfl⟩ := pure_eq_ok.mp hv
    obtain ⟨sm, hm, hr⟩ := ho.follows.sound (expect_eq_ok.mp hright) hl
    obtain ⟨hmem, s, span, hs, htakes⟩ := sound_operators hop hm ((ho.opens hr).disjoint hk)
    exact ⟨s, hs, op, hmem, span, sm, htakes, right, hr, rfl⟩
  complete := by
    rintro c s v s' hl ⟨op, hmem, span, sm, htakes, right, hr, rfl⟩
    obtain ⟨m, hop, hm⟩ := complete_operators hp hmem hl htakes
    obtain ⟨c', hc, hl'⟩ := ho.follows.complete hm hr
    refine ⟨c', andThen_eq_some.mpr ⟨op, m, hop, ?_⟩, hl'⟩
    exact bind_eq_ok.mpr ⟨right, c', expect_eq_ok.mpr hc, pure_eq_ok.mpr ⟨rfl, rfl⟩⟩
  declines hl := by rw [chainStep, andThen_eq_none, declines_operators hl]

theorem predicts_chain {tier : Tier} (ho : operand.Predicts P kinds)
    (hk : ∀ kind ∈ kinds, kind ∉ doubled)
    (hp : tier.operators.Pairwise fun first second => .fixed second.text ∉ operatorKinds first) :
    Rule.Predicts (chain operand tier) (Chain P tier) kinds :=
  ho.andThen (fun first => .iterate (A := fun _ s => ¬ s.Next (tier.operators.flatMap operatorKinds))
    (follows_chainStep ho hk hp) (steady_chainStep ho.steady tier) first) (steady_chain ho.steady tier)

theorem predicts_chains (ho : operand.Predicts P kinds) (hk : ∀ kind ∈ kinds, kind ∉ doubled)
    {tiers : List Tier}
    (hp : ∀ tier ∈ tiers, tier.operators.Pairwise fun first second =>
      .fixed second.text ∉ operatorKinds first) :
    Rule.Predicts (chains operand tiers) (Chains P tiers) kinds := by
  induction tiers with
  | nil => exact ho
  | cons tier tighter ih =>
    exact predicts_chain (ih fun other hm => hp other (List.mem_cons_of_mem _ hm)) hk
      (hp tier List.mem_cons_self)

theorem withRight_eq (left : Rule Node) (op : BinaryOp) (right : Rule Node) (missing : Label) :
    withRight left op right missing = left.andThen fun first => binaryOperator op >>= fun found =>
      found.elim (pure first) fun op =>
        expect right missing >>= fun operand => pure (Node.binary op first operand) := by
  unfold withRight
  congr
  funext first
  congr
  funext found
  cases found with
  | none => rfl
  | some op => rfl

theorem predicts_withRight (hl : left.Predicts P kinds) (hr : Rule.Follows right Q absent)
    (hs : right.Steady) {op : BinaryOp} (hop : op ∉ [BinaryOp.lt, .gt, .div]) (missing : Label) :
    Rule.Predicts (withRight left op right missing) (WithRight P op Q) kinds := by
  have hright := fun (first : Node) (op : BinaryOp) => (hr.expect missing).return (Node.binary op first)
  have hsteady := steady_withRight hl.steady hs op missing
  rw [withRight_eq] at hsteady ⊢
  refine (hl.andThen (fun first => Parse.Follows.bindOptional
    ((follows_binaryOperator hop).optional (steady_binaryOperator op)) (hright first) (.pure first))
    hsteady).congr fun s v s' => ?_
  refine exists_congr fun first => exists_congr fun m => and_congr_right fun _ => or_congr_left ?_
  constructor
  · rintro ⟨_, m', ⟨span, ht, rfl⟩, operand, hq, rfl⟩
    exact ⟨span, m', ht, operand, hq, rfl⟩
  · rintro ⟨span, m', ht, operand, hq, rfl⟩
    exact ⟨op, m', ⟨span, ht, rfl⟩, operand, hq, rfl⟩

end Operators

variable {nested : Nested} {phrases : Phrases} (h : nested.Follows phrases)
include h

theorem predicts_parenthesized : Rule.Predicts (parenthesized nested) (Parenthesized phrases) ["("] :=
  (predicts_symbol (by decide)).andThen (fun first =>
    .bind (h.expression.expect _) fun _ =>
    .node ((predicts_symbol (by decide)).expect _) first _) (steady_parenthesized h.steady)

theorem predicts_bracketField :
    Rule.Predicts (bracketField nested) (BracketField phrases) ["["] := by
  have hvalue := fun (first : Span) (key : Node) => follows_equalsThen
    (fun _ => (h.expression.expect .pairValue).node first (.pair key))
    (fun ⟨_, hv, _⟩ => h.opens hv) (by decide) .pairAssign
  exact predicts_openBracket.andThen (fun first =>
    .bind (h.expression.expect _) fun key =>
    .bind ((predicts_symbol (by decide)).expect _) fun _ => hvalue first key)
    (steady_bracketField h.steady)

omit h in
theorem key_of_next {c : Cursor} {s : Stream} (hl : Lexed c s) (h : s.Next [.name]) :
    ∃ key m, Key s key m := by
  obtain ⟨token, hn, hk⟩ := h
  obtain ⟨span, m, ht⟩ := Stream.takes_of_next hn
  obtain ⟨p', hread⟩ := hl.next_reads hn
  cases hread with
  | name hread => exact ⟨_, m, _, Scan.name_identifier hread, span, ht, rfl⟩
  | _ => simp [Token.kind] at hk

theorem follows_namedField :
    Rule.Follows (namedField nested) (NamedField phrases) NoNamedField := by
  have hboth := predicts_key.follows.both predicts_equals.follows predicts_equals.steady
    fun {_ s} hl => (Classical.em (s.Next [.name])).symm.imp_right (key_of_next hl)
  refine (hboth.andThen fun found => (h.expression.expect .pairValue).node found.1.span (.pair found.1)).congr
    (fun s v s' => ?_) fun s => Iff.rfl
  constructor
  · rintro ⟨⟨key, span⟩, m, ⟨m', hk, ht⟩, hv⟩
    exact ⟨key, m', hk, span, m, ht, hv⟩
  · rintro ⟨key, m', hk, span, m, ht, hv⟩
    exact ⟨(key, span), m, ⟨m', hk, ht⟩, hv⟩

theorem follows_field : Rule.Follows (field nested) (Field phrases) (NoField phrases) := by
  have hlast := h.expression.firstOf_singleton h.steady.expression
  have hnamed := (follows_namedField h).orElse hlast (steady_namedField h.steady)
  refine ((predicts_bracketField h).follows.or hnamed (steady_bracketField h.steady) ?_)
  rintro s v s' (⟨key, m, ⟨text, -, span, ht, -⟩, -⟩ | ⟨-, hv⟩)
  · exact ht.opens.disjoint (by simp [Token.kind])
  · exact (h.opens hv).disjoint (by decide)

section Fields

/-- The phrase of one field and its separator, after those listed so far in reverse. -/
def FieldStep (phrases : Phrases) (state : List Node × Bool) : Phrase (List Node × Bool) := fun s next s' =>
  state.2 = true ∧ ∃ v m, Field phrases s v m ∧
    ∃ separator, Optional (fun s span s' => s.Takes "," span s' ∨ s.Takes ";" span s')
      (¬ ·.Next [",", ";"]) m separator s' ∧ next = (v :: state.1, Option.isSome separator)

theorem follows_fieldStep (state : List Node × Bool) :
    Rule.Follows (fieldStep nested state) (FieldStep phrases state)
      (fun s => state.2 = false ∨ NoField phrases s) := by
  obtain ⟨listed, separated⟩ := state
  have hseparator := (predicts_symbol (by decide : "," ∈ plainSymbols)).firstOf_cons
    (predicts_symbol (by decide : ";" ∈ plainSymbols)).firstOf_singleton (by decide)
  cases separated with
  | false =>
    exact ⟨fun ho _ => (nomatch ho), fun _ hv => (nomatch hv.1), fun _ => iff_of_true rfl (.inl rfl)⟩
  | true =>
    exact ((follows_field h).andThen fun v => hseparator.optional.return
      fun separator => (v :: listed, Option.isSome separator)).congr (fun s next s' => by simp [FieldStep])
      fun s => by simp

omit h in
theorem fields_of_steps {x z : List Node × Bool} {s s' : Stream}
    (hs : Steps (fun x s y s' => FieldStep phrases x s y s') x s z s')
    (hend : z.2 = false ∨ NoField phrases s') :
    (x.2 = false ∧ z = x ∧ s' = s) ∨
      (x.2 = true ∧ ∃ others, Fields phrases s others s' ∧ z.1 = others.reverse ++ x.1) := by
  induction hs with
  | @refl x s =>
    cases hx : x.2 with
    | false => exact .inl ⟨rfl, rfl, rfl⟩
    | true => exact .inr ⟨rfl, [], .none (hend.resolve_left (by simp [hx])), rfl⟩
  | @cons x s y m z s' hstep _ ih =>
    obtain ⟨hx, v, m', hv, separator, hsep, rfl⟩ := hstep
    refine .inr ⟨hx, ?_⟩
    cases separator with
    | some span =>
      rcases ih hend with ⟨hnone, -⟩ | ⟨-, others, ho, hz⟩
      · cases hnone
      · exact ⟨v :: others, .more hv hsep ho, by simpa using hz⟩
    | none =>
      obtain ⟨hn, rfl⟩ := hsep
      rcases ih hend with ⟨-, rfl, rfl⟩ | ⟨hsome, -⟩
      · exact ⟨[v], .last hv hn, rfl⟩
      · cases hsome

omit h in
theorem steps_of_fields {s s' : Stream} {all : List Node} (hf : Fields phrases s all s')
    (listed : List Node) :
    ∃ separated, Steps (fun x s y s' => FieldStep phrases x s y s') (listed, true) s
      (all.reverse ++ listed, separated) s' ∧ (separated = false ∨ NoField phrases s') := by
  induction hf generalizing listed with
  | none hn => exact ⟨true, .refl, .inr hn⟩
  | @last s s' v hv hn =>
    exact ⟨false, .cons ⟨rfl, v, s', hv, none, ⟨hn, rfl⟩, rfl⟩ .refl, .inl rfl⟩
  | @more s m m' s' v span others hv hsep _ ih =>
    obtain ⟨separated, hs, hend⟩ := ih (v :: listed)
    refine ⟨separated, .cons ⟨rfl, v, m, hv, some span, hsep, rfl⟩ ?_, hend⟩
    simpa using hs

theorem follows_fields : (fields nested).Follows (Fields phrases) := by
  refine ((Follows.iterate (follows_fieldStep h) (steady_fieldStep h.steady) ([], true)).return
    (fun z => z.1.reverse)).congr fun s all s' => ?_
  constructor
  · rintro ⟨z, ⟨hs, hend⟩, rfl⟩
    rcases fields_of_steps hs hend with ⟨hnone, -⟩ | ⟨-, others, ho, hz⟩
    · cases hnone
    · simpa [hz] using ho
  · intro hf
    obtain ⟨separated, hs, hend⟩ := steps_of_fields hf []
    exact ⟨_, ⟨hs, hend⟩, by simp⟩

end Fields

theorem predicts_table : Rule.Predicts (table nested) (Table phrases) ["\x7b"] :=
  (predicts_symbol (by decide)).andThen (fun first =>
    .bind (follows_fields h) fun _ =>
    .node ((predicts_symbol (by decide)).expect _) first _) (steady_table h.steady)

theorem predicts_arguments :
    Rule.Predicts (arguments nested) (Arguments phrases) ["(", "\x7b", .string] := by
  have hlist : Rule.Predicts _ (fun s values s' => ∃ first m₁, s.Takes "(" first m₁ ∧
      ∃ listed m₂, Optional (Expressions phrases) phrases.noExpression m₁ listed m₂ ∧
      ∃ close, m₂.Takes ")" close s' ∧ values = listed.getD []) ["("] :=
    (predicts_symbol (by decide)).andThen (fun first =>
      .bind ((follows_expressions h .argument).optional (steady_expressions h.steady _)) fun values =>
      .return ((predicts_symbol (by decide)).expect .argumentsClose) fun _ => values.getD [])
      ((steady_symbol (by decide)).andThen fun _ =>
        .bind (steady_expressions h.steady _).forward fun _ =>
        .bind (.expect (steady_symbol (by decide)) _) fun _ => .pure _)
  exact hlist.firstOf_cons (((predicts_table h).map _).firstOf_cons (predicts_string.map _).firstOf_singleton
    (by decide)) (by decide)

omit h in
theorem noDot_of_opens {s : Stream} {kinds : List Kind} (hn : s.Next kinds)
    (hk : ∀ kind ∈ kinds, kind ≠ .fixed "." ∧ kind ≠ .number) : s.NoDot := by
  obtain ⟨token, hn, hm⟩ := hn
  refine ⟨?_, fun lexeme hl value hv => ?_⟩
  · rintro ⟨token', hn', hm'⟩
    rw [hn] at hn'
    cases hn'
    exact (hk _ hm).1 (List.mem_singleton.mp hm')
  · have hnext : s.next? = some lexeme.token := by rw [Stream.next?, hl]; rfl
    rw [hn] at hnext
    cases hnext
    exact ((hk _ hm).2 (by rw [hv]; rfl)).elim

theorem follows_suffix (object : Node) :
    Rule.Follows (suffix nested object) (Suffix phrases object) NoSuffix := by
  have hdot := follows_dot.andThen fun _ => (predicts_key.expect .fieldName).return (indexed object)
  have hclose := predicts_symbol (by decide : "]" ∈ plainSymbols)
  have hindex := predicts_openBracket.andThen (fun _ =>
    .bind (h.expression.expect .indexKey) fun key =>
    .node (hclose.expect .indexClose) object.span (fun _ => .index object key))
    (steady_openBracket.andThen fun _ =>
      .bind (.expect h.steady.expression _) fun _ => .bind (.expect hclose.steady _) fun _ => .nodeFrom _ _)
  have hinvoke := predicts_colon.andThen (fun _ =>
    .bind (predicts_key.expect .methodName) fun method =>
    .node ((predicts_arguments h).expect .methodArguments) object.span (.invoke object method))
    ((steady_single (by decide)).andThen fun _ =>
      .bind (.expect steady_key _) fun _ =>
      .bind (.expect (steady_arguments h.steady) _) fun _ => .nodeFrom _ _)
  have hcall : Rule.Predicts ((arguments nested).andThen fun values =>
      nodeFrom object.span (.call object values)) (fun s v s' => ∃ values, Arguments phrases s values s' ∧
        v = ⟨.call object values, object.span.pos, s'.lastEnd⟩) ["(", "\x7b", .string] := by
    refine ⟨(predicts_arguments h).follows.node, ?_,
      (steady_arguments h.steady).andThen fun _ => .nodeFrom _ _⟩
    rintro s v s' ⟨values, hv, -⟩
    exact (predicts_arguments h).opens hv
  have hothers := hindex.firstOf_cons (hinvoke.firstOf_cons hcall.firstOf_singleton (by decide)) (by decide)
  exact hdot.or hothers.follows
    ((steady_single (by decide)).andThen fun _ => .bind (.expect steady_key _) fun _ => .pure _)
    fun hv => noDot_of_opens (hothers.opens hv) (by decide)

theorem predicts_suffixed : Rule.Predicts (suffixed nested) (Suffixed phrases) [.name, "("] :=
  (predicts_name.firstOf_cons (predicts_parenthesized h).firstOf_singleton (by decide)).andThen
    (fun first => .iterate (A := fun _ => NoSuffix) (follows_suffix h) (steady_suffix h.steady) first)
    (steady_suffixed h.steady)

theorem predicts_simple : Rule.Predicts (simple nested) (Simple phrases)
    [.number, ".", .string, "nil", "false", "true", "...", "function", "\x7b", .name, "("] :=
  predicts_number.firstOf_cons (predicts_string.firstOf_cons
    (((predicts_keyword (by decide)).map _).firstOf_cons (((predicts_keyword (by decide)).map _).firstOf_cons
      (((predicts_keyword (by decide)).map _).firstOf_cons (predicts_varargs.firstOf_cons
        ((predicts_functionLiteral h).firstOf_cons ((predicts_table h).firstOf_cons
          (predicts_suffixed h).firstOf_singleton (by decide)) (by decide)) (by decide)) (by decide))
      (by decide)) (by decide)) (by decide)) (by decide)

omit h in
theorem predicts_unaryOperator (op : UnaryOp) : Rule.Predicts (unaryOperator op)
    (fun s found s' => ∃ span, s.Takes op.text span s' ∧ found = (op, span)) [op.text] :=
  ⟨follows_unaryOperator op, fun ⟨_, ht, _⟩ => ht.opens, steady_unaryOperator op⟩

theorem predicts_unaryOperation :
    Rule.Predicts (unaryOperation nested) (UnaryOperation phrases) ["not", "-", "#", "~"] := by
  have hops := (predicts_unaryOperator .not).firstOf_cons ((predicts_unaryOperator .negate).firstOf_cons
    ((predicts_unaryOperator .length).firstOf_cons (predicts_unaryOperator .bitNot).firstOf_singleton
      (by decide)) (by decide)) (by decide)
  refine (hops.andThen (fun found => (h.unary.expect .unaryOperand).return fun operand =>
    (⟨.unary found.1 operand, .between found.2 operand.span⟩ : Node)) ?_).congr fun s v s' => ?_
  · exact steady_unaryOperators.andThen fun _ => .bind (.expect h.steady.unary _) fun _ => .pure _
  · constructor
    · rintro ⟨⟨op, first⟩, m, hop, hv⟩
      refine ⟨op, first, m, ?_, hv⟩
      rcases hop with ⟨span, ht, heq⟩ | ⟨span, ht, heq⟩ | ⟨span, ht, heq⟩ | ⟨span, ht, heq⟩ <;>
        (cases heq; exact ht)
    · rintro ⟨op, first, m, ht, hv⟩
      refine ⟨(op, first), m, ?_, hv⟩
      cases op with
      | not => exact .inl ⟨first, ht, rfl⟩
      | negate => exact .inr (.inl ⟨first, ht, rfl⟩)
      | length => exact .inr (.inr (.inl ⟨first, ht, rfl⟩))
      | bitNot => exact .inr (.inr (.inr ⟨first, ht, rfl⟩))

theorem predicts_unary : Rule.Predicts (unary nested) (Unary phrases) expressionKinds :=
  (predicts_unaryOperation h).firstOf_cons
    (predicts_withRight (predicts_simple h) h.unary h.steady.unary (by decide) _).firstOf_singleton (by decide)

theorem predicts_concatenation :
    Rule.Predicts (concatenation nested) (Concatenation phrases) expressionKinds :=
  predicts_withRight (predicts_chains (predicts_unary h) (by decide) (by decide)) h.concatenation
    h.steady.concatenation (by decide) _

theorem predicts_expression : Rule.Predicts (expression nested) (Expression phrases) expressionKinds :=
  predicts_chains (predicts_concatenation h) (by decide) (by decide)

end LuaSyntax.Grammar
