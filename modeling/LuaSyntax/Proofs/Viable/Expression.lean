import LuaSyntax.Proofs.Viable.Suffix

/-! # Expressions of one level in two sources

What the rules of one nesting level match, from single operands to whole expressions, if the rules of the
next level match as much.
-/
namespace LuaSyntax.Grammar

open Rule Parse Phrase

variable {ι : Type} {deep : Prop} {start stop : Ahead} {nested nested' : Nested}

section Operations
variable {ops : List UnaryOp}

theorem tracks_unaryOperators : Rule.Tracks deep (firstOf (ops.map unaryOperator))
    (fun _ : ι => firstOf (ops.map unaryOperator)) AnyResult .same stop := by
  induction ops with
  | nil => exact .nil
  | cons op others ih =>
    have hfirst : (unaryOperator op).Tracks deep (fun _ : ι => unaryOperator op) AnyResult .same stop :=
      (lexes_unaryOperator op).tracks_fixed (Ahead.same_admits nofun)
    exact hfirst.firstOf_cons (fun _ => settles_unaryOperator op) (steady_unaryOperator op)
      (Ahead.same_spares _) ih

theorem settles_unaryOperators : Rule.Settles deep (firstOf (ops.map unaryOperator)) (firstOf (ops.map unaryOperator))
    (ops.map fun op => .fixed op.text) [] := by
  induction ops with
  | nil => exact settles_firstOf_nil
  | cons op others ih => exact (settles_unaryOperator op).firstOf_cons ih (steady_unaryOperator op)

end Operations

variable (h : Nested.Tracks deep nested nested')
include h

theorem tracks_unaryOperation :
    (unaryOperation nested).Tracks deep (fun _ : ι => unaryOperation nested') AnyResult .same .closed :=
  tracks_unaryOperators.andThen fun _ => (h.unary.expect fun _ => Iff.rfl).bind fun _ => .pure fun _ => trivial

omit h in
theorem suffixAhead_closed : SuffixAhead .closed := by
  refine ⟨?_, ?_⟩ <;> decide

omit h in
/-- A reserved word that stands for an expression. -/
theorem tracks_word {word : String} (hw : word ∈ reservedWords) {k : Span → Node} :
    Rule.Tracks deep ((keyword word).map k) (fun _ : ι => (keyword word).map k) AnyResult .same stop :=
  ((lexes_keyword hw).tracks_fixed (Ahead.same_admits nofun)).map

theorem tracks_simple : (simple nested).Tracks deep (fun _ : ι => simple nested') AnyResult .same .closed := by
  have hnumber : number.Tracks deep (fun _ : ι => number) AnyResult .same .closed :=
    lexes_number.tracks (by
      rintro _ ⟨value, rfl⟩
      exact Ahead.same_admits nofun)
  have hstring : string.Tracks deep (fun _ : ι => string) AnyResult .same .closed :=
    lexes_string.tracks (by
      rintro _ ⟨value, rfl⟩
      exact Ahead.same_admits nofun)
  have hvarargs : varargs.Tracks deep (fun _ : ι => varargs) AnyResult .same .closed :=
    lexes_varargs.tracks_fixed (Ahead.same_admits nofun)
  have hfunction : (functionLiteral nested).Tracks deep (fun _ : ι => functionLiteral nested') AnyResult .same .closed :=
    tracks_functionLiteral h (Ahead.same_admits nofun)
  have htable : (table nested).Tracks deep (fun _ : ι => table nested') AnyResult .same .closed :=
    tracks_table h (Ahead.same_admits nofun)
  have hsuffixed : (suffixed nested).Tracks deep (fun _ : ι => suffixed nested') AnyResult .same .closed :=
    (tracks_suffixed h suffixAhead_closed (.refl _) (by decide) (tracks_name List.not_mem_nil (by decide))
      (Ahead.same_admits nofun)).any
  exact hnumber.firstOf_cons (fun _ => settles_number) steady_number (Ahead.same_spares _)
    (hstring.firstOf_cons (fun _ => settles_string) steady_string (Ahead.same_spares _)
    ((tracks_word (by decide)).firstOf_cons (fun _ => (settles_keyword (by decide)).map _ _) ((steady_keyword (by decide)).map _)
      (Ahead.same_spares _)
    ((tracks_word (by decide)).firstOf_cons (fun _ => (settles_keyword (by decide)).map _ _) ((steady_keyword (by decide)).map _)
      (Ahead.same_spares _)
    ((tracks_word (by decide)).firstOf_cons (fun _ => (settles_keyword (by decide)).map _ _) ((steady_keyword (by decide)).map _)
      (Ahead.same_spares _)
    (hvarargs.firstOf_cons (fun _ => settles_varargs) steady_varargs (Ahead.same_spares _)
    (hfunction.firstOf_cons (fun _ => (settles_keyword (by decide)).andThen _ _) (steady_functionLiteral h.steady)
      (Ahead.same_spares _)
    (htable.firstOf_cons (fun _ => (settles_symbol (by decide)).andThen _ _) (steady_table h.steady) (Ahead.same_spares _)
      hsuffixed.singleton)))))))

theorem steady_unaryOperation : (unaryOperation nested).Steady :=
  steady_unaryOperators.andThen fun _ => .bind (.expect h.steady.unary _) fun _ => .pure _

theorem settles_suffixed : Rule.Settles deep (suffixed nested) (suffixed nested') [.name, "("] [] := by
  have hparen : (parenthesized nested).Settles deep (parenthesized nested') ["("] [] := (settles_symbol (by decide)).andThen _ _
  have hprimary : (primary nested).Settles deep (primary nested') [.name, "("] [] :=
    settles_name.firstOf_cons (hparen.singleton (steady_parenthesized h.steady)) steady_name
  exact hprimary.andThen _ _

theorem settles_simple : Rule.Settles deep (simple nested) (simple nested')
    [.number, ".", .string, "nil", "false", "true", "...", "function", "\x7b", .name, "("] [] := by
  have hword {word : String} (hw : word ∈ reservedWords) (k : Span → Node) :
      Rule.Settles deep ((keyword word).map k) ((keyword word).map k) [.fixed word] [] := (settles_keyword hw).map _ _
  have hfunction : (functionLiteral nested).Settles deep (functionLiteral nested') ["function"] [] :=
    (settles_keyword (by decide)).andThen _ _
  have htable : (table nested).Settles deep (table nested') ["\x7b"] [] := (settles_symbol (by decide)).andThen _ _
  exact settles_number.firstOf_cons (settles_string.firstOf_cons
    ((hword (by decide) _).firstOf_cons ((hword (by decide) _).firstOf_cons ((hword (by decide) _).firstOf_cons
      (settles_varargs.firstOf_cons (hfunction.firstOf_cons (htable.firstOf_cons
        ((settles_suffixed h).singleton (steady_suffixed h.steady)) (steady_table h.steady))
        (steady_functionLiteral h.steady)) steady_varargs) ((steady_keyword (by decide)).map _))
        ((steady_keyword (by decide)).map _)) ((steady_keyword (by decide)).map _)) steady_string) steady_number

theorem settles_unary : Rule.Settles deep (unary nested) (unary nested') expressionKinds [] := by
  have hops : Rule.Settles deep (firstOf (unaryOperators.map unaryOperator)) (firstOf (unaryOperators.map unaryOperator))
      ["not", "-", "#", "~"] [] := settles_unaryOperators
  have hoperation : (unaryOperation nested).Settles deep (unaryOperation nested') ["not", "-", "#", "~"] [] := hops.andThen _ _
  have hpower : (power nested).Settles deep (power nested')
      [.number, ".", .string, "nil", "false", "true", "...", "function", "\x7b", .name, "("] [] :=
    (settles_simple h).andThen _ _
  exact hoperation.firstOf_cons (hpower.singleton (steady_withRight (steady_simple h.steady) h.steady.unary _ _))
    (steady_unaryOperation h)

theorem settles_expression : Rule.Settles deep (expression nested) (expression nested') expressionKinds [] :=
  ((settles_unary h).chains.andThen _ _).chains

omit h in
theorem fills_simple : (simple nested').Fills := by
  intro span s s' htakes _
  have hother {kinds : List Kind} (hk : .fixed "nil" ∉ kinds) : ¬ s.Next kinds := by
    rintro ⟨token, hn, hm⟩
    rw [htakes.next] at hn
    obtain rfl := Option.some.inj hn
    exact hk hm
  have hnil : (keyword "nil").Gets (fun _ => True) s s' := (lexes_keyword (by decide)).gets rfl htakes
  refine .firstOf_tail (predicts_number.lacks (hother (by decide))) ?_
  refine .firstOf_tail (predicts_string.lacks (hother (by decide))) ?_
  exact .firstOf_head (hnil.andThen fun _ _ => .pure trivial)

omit h in
theorem fills_unary : (unary nested').Fills := by
  intro span s s' htakes hends
  have hops : Rule.Settles True (firstOf (unaryOperators.map unaryOperator)) (firstOf (unaryOperators.map unaryOperator))
      ["not", "-", "#", "~"] [] := settles_unaryOperators
  have hlacks : Rule.Lacks (firstOf (unaryOperators.map unaryOperator)) s := by
    refine hops.lacks (.inl trivial) ?_
    rintro ⟨token, hn, hm⟩
    rw [htakes.next] at hn
    obtain rfl := Option.some.inj hn
    exact absurd hm (by decide)
  refine .firstOf_tail hlacks.andThen (.firstOf_head ?_)
  exact fills_simple.withRight (by decide) htakes hends

theorem operand_simple : Rule.Operand deep (simple nested) (simple nested') where
  tracks := tracks_simple h
  steady := steady_simple h.steady
  steady' := steady_simple h.steady'
  avoids := Rule.Shuns.avoids shuns_simple
  fills _ := fills_simple

theorem operand_power : Rule.Operand deep (power nested) (power nested') :=
  (operand_simple h).withRight h.unary (by decide) (by decide) fun _ => Iff.rfl

theorem operand_unary : Rule.Operand deep (unary nested) (unary nested') where
  tracks := by
    have hops : Rule.Settles deep (firstOf (unaryOperators.map unaryOperator)) (firstOf (unaryOperators.map unaryOperator))
        ["not", "-", "#", "~"] [] := settles_unaryOperators
    exact (tracks_unaryOperation h).firstOf_cons (fun _ => hops.andThen _ _) (steady_unaryOperation h) (Ahead.same_spares _)
      (operand_power h).tracks.singleton
  steady := steady_unary h.steady
  steady' := steady_unary h.steady'
  avoids := Rule.Shuns.avoids shuns_unary
  fills _ := fills_unary

omit h in
theorem apart_looseTiers : ∀ tier ∈ looseTiers, tier.Apart := by
  simp only [looseTiers, List.mem_cons, List.not_mem_nil, or_false, forall_eq_or_imp, forall_eq]
  exact ⟨⟨by decide, by decide, fun _ => Iff.rfl⟩, ⟨by decide, by decide, fun _ => Iff.rfl⟩, ⟨by decide, by decide, fun _ => Iff.rfl⟩,
    ⟨by decide, by decide, fun _ => Iff.rfl⟩, ⟨by decide, by decide, fun _ => Iff.rfl⟩, ⟨by decide, by decide, fun _ => Iff.rfl⟩,
    ⟨by decide, by decide, fun _ => Iff.rfl⟩⟩

omit h in
theorem apart_tightTiers : ∀ tier ∈ tightTiers, tier.Apart := by
  simp only [tightTiers, List.mem_cons, List.not_mem_nil, or_false, forall_eq_or_imp, forall_eq]
  exact ⟨⟨by decide, by decide, fun _ => Iff.rfl⟩, ⟨by decide, by decide, fun _ => Iff.rfl⟩⟩

omit h in
theorem fills_concatenation (hs : nested'.Steady) : (concatenation nested').Fills :=
  (fills_unary.chains (steady_unary hs) apart_tightTiers).withRight (by decide)

omit h in
theorem fills_expression (hs : nested'.Steady) : (expression nested').Fills :=
  (fills_concatenation hs).chains (steady_concatenation hs) apart_looseTiers

theorem operand_concatenation : Rule.Operand deep (concatenation nested) (concatenation nested') :=
  ((operand_unary h).chains apart_tightTiers).withRight h.concatenation (by decide) (by decide) fun _ => Iff.rfl

theorem operand_expression : Rule.Operand deep (expression nested) (expression nested') :=
  (operand_concatenation h).chains apart_looseTiers

end LuaSyntax.Grammar
