import LuaSyntax.Proofs.Phrase.Expression

/-! # Statements and blocks follow the grammar -/
namespace LuaSyntax.Grammar

open Rule Parse Phrase

section Names

theorem follows_nameStep (names : List Node) : Rule.Follows (nameStep names)
    (fun s next s' => ∃ v, After "," Name s v s' ∧ next = v :: names) NoNextName := by
  have hboth := (predicts_symbol (by decide : "," ∈ plainSymbols)).follows.both predicts_name.follows
    predicts_name.steady fun {_ s} _ => ?_
  · refine (hboth.map fun found => found.2 :: names).congr (fun s next s' => ?_) fun s => Iff.rfl
    constructor
    · rintro ⟨⟨span, v⟩, ⟨m, ht, hv⟩, rfl⟩
      exact ⟨v, ⟨span, m, ht, hv⟩, rfl⟩
    · rintro ⟨v, ⟨span, m, ht, hv⟩, rfl⟩
      exact ⟨(span, v), ⟨m, ht, hv⟩, rfl⟩
  · refine (Classical.em (s.Next [","])).symm.imp_right ?_
    rintro ⟨token, hn, hk⟩
    rw [List.mem_singleton, Token.kind_eq_fixed] at hk
    exact Stream.takes_of_next (hk ▸ hn)

theorem follows_nameList (first : Node) : (nameList first).Follows (NameList first) :=
  ((Follows.iterateList follows_nameStep steady_nameStep [first]).return
    fun names => Node.ofItems .nameList names.reverse 0).congr fun s v s' => by
    constructor
    · rintro ⟨_, ⟨others, ho, rfl⟩, rfl⟩
      exact ⟨others, ho, by simp⟩
    · rintro ⟨others, ho, rfl⟩
      exact ⟨_, ⟨others, ho, rfl⟩, by simp⟩

end Names

variable {nested : Nested} {phrases : Phrases} (h : nested.Follows phrases)
include h

theorem follows_branch (condition closing : Label) :
    (branch nested condition closing).Follows (Branch phrases) :=
  .bind (h.expression.expect _) fun condition =>
  .bind ((predicts_keyword (by decide)).expect _) fun _ =>
  .return h.block fun body => (condition, body)

theorem follows_branchStep (branches : List (Node × Node)) : Rule.Follows (branchStep nested branches)
    (fun s next s' => ∃ b, After "elseif" (Branch phrases) s b s' ∧ next = b :: branches)
    (¬ ·.Next ["elseif"]) :=
  ((predicts_keyword (by decide)).follows.andThen fun _ =>
    (follows_branch h .elseifCondition .elseifThen).return (· :: branches)).congr (fun s next s' => by
      constructor
      · rintro ⟨span, m, ht, b, hb, rfl⟩
        exact ⟨b, ⟨span, m, ht, hb⟩, rfl⟩
      · rintro ⟨b, ⟨span, m, ht, hb⟩, rfl⟩
        exact ⟨span, m, ht, b, hb, rfl⟩) fun _ => Iff.rfl

theorem predicts_ifStatement : Rule.Predicts (ifStatement nested) (IfStatement phrases) ["if"] := by
  have helse : Parse.Follows _ (Optional (After "else" phrases.block) (¬ ·.Next ["else"])) :=
    ((predicts_keyword (by decide)).andThen (fun _ => h.block)
      ((steady_keyword (by decide)).andThen fun _ => h.steady.block)).optional
  refine ((predicts_keyword (by decide)).andThen (fun first =>
    .bind (follows_branch h .ifCondition .ifThen) fun head =>
    .bind (.iterateList (follows_branchStep h) (steady_branchStep h.steady) [head]) fun branches =>
    .bind helse fun otherwise =>
    .node ((predicts_keyword (by decide)).expect _) first fun _ => .conditional branches.reverse otherwise)
    (steady_ifStatement h.steady)).congr fun s v s' => ?_
  refine exists_congr fun first => exists_congr fun m₁ => and_congr_right fun _ =>
    exists_congr fun head => exists_congr fun m₂ => and_congr_right fun _ => ?_
  constructor
  · rintro ⟨_, m₃, ⟨others, ho, rfl⟩, otherwise, m₄, he, last, hl, rfl⟩
    exact ⟨others, m₃, ho, otherwise, m₄, he, last, hl, by simp⟩
  · rintro ⟨others, m₃, ho, otherwise, m₄, he, last, hl, rfl⟩
    exact ⟨_, m₃, ⟨others, ho, rfl⟩, otherwise, m₄, he, last, hl, by simp⟩

theorem predicts_doStatement : Rule.Predicts (doStatement nested) (DoStatement phrases) ["do"] :=
  (predicts_keyword (by decide)).andThen (fun first =>
    .bind h.block fun _ => .node ((predicts_keyword (by decide)).expect _) first _)
    (steady_doStatement h.steady)

theorem predicts_whileStatement :
    Rule.Predicts (whileStatement nested) (WhileStatement phrases) ["while"] :=
  (predicts_keyword (by decide)).andThen (fun first =>
    .bind (h.expression.expect _) fun _ =>
    .bind ((predicts_keyword (by decide)).expect _) fun _ =>
    .bind h.block fun _ => .node ((predicts_keyword (by decide)).expect _) first _)
    (steady_whileStatement h.steady)

theorem predicts_repeatStatement :
    Rule.Predicts (repeatStatement nested) (RepeatStatement phrases) ["repeat"] :=
  (predicts_keyword (by decide)).andThen (fun first =>
    .bind h.block fun _ =>
    .bind ((predicts_keyword (by decide)).expect _) fun _ => .node (h.expression.expect _) first _)
    (steady_repeatStatement h.steady)

theorem follows_forBody : (forBody nested).Follows (ForBody phrases) :=
  .bind ((predicts_keyword (by decide)).expect _) fun _ =>
  .bind h.block fun body => .return ((predicts_keyword (by decide)).expect _) fun _ => body

theorem follows_numericFor (first : Span) (counter : Node) :
    (numericFor nested first counter).Follows (NumericFor phrases first counter) := by
  have hstep : Parse.Follows _ (Optional (After "," phrases.expression) (¬ ·.Next [","])) :=
    ((predicts_symbol (by decide)).andThen (fun _ => h.expression.expect .forStep)
      ((steady_symbol (by decide)).andThen fun _ => .expect h.steady.expression _)).optional
  exact .bind (h.expression.expect _) fun _ =>
    .bind ((predicts_symbol (by decide)).expect _) fun _ =>
    .bind (h.expression.expect _) fun _ =>
    .bind hstep fun _ => .node (follows_forBody h) first _

theorem follows_genericFor (first : Span) (counter : Node) :
    (genericFor nested first counter).Follows (GenericFor phrases first counter) :=
  .bind (follows_nameList counter) fun _ =>
  .bind ((predicts_keyword (by decide)).expect _) fun _ =>
  .bind ((follows_expressions h _).expect _) fun _ => .node (follows_forBody h) first _

theorem predicts_forStatement : Rule.Predicts (forStatement nested) (ForStatement phrases) ["for"] :=
  (predicts_keyword (by decide)).andThen (fun first =>
    .bind (predicts_name.expect _) fun counter =>
    .bindOptional predicts_equals.optional (fun _ => follows_numericFor h first counter)
      (follows_genericFor h first counter)) (steady_forStatement h.steady)

theorem follows_localNames (first : Span) :
    (localNames nested first).Follows (LocalNames phrases first) := by
  have hvalues : Parse.Follows _ (Optional (After "=" (Expressions phrases)) (¬ ·.Next ["="])) :=
    (predicts_equals.andThen (fun _ => (follows_expressions h .listValue).expect .localValues)
      ((steady_single (by decide)).andThen fun _ => .expect (steady_expressions h.steady _) _)).optional
  exact .bind (predicts_name.expect _) fun declared =>
    .bind (follows_nameList declared) fun _ => .node hvalues first _

theorem predicts_localStatement :
    Rule.Predicts (localStatement nested) (LocalStatement phrases) ["local"] :=
  (predicts_keyword (by decide)).andThen (fun first =>
    .bindOptional (predicts_keyword (by decide)).optional (fun second => follows_localFunction h first second)
      (follows_localNames h first)) (steady_localStatement h.steady)

omit h in
theorem predicts_breakStatement :
    Rule.Predicts breakStatement (Atom "break" .breakLoop) ["break"] :=
  (predicts_keyword (by decide)).map _

omit h in
theorem predicts_labelStatement : Rule.Predicts labelStatement LabelStatement ["::"] :=
  ((predicts_symbol (by decide)).andThen (fun first =>
    .bind (predicts_nameToken.expect .labelName) fun found =>
    .node ((predicts_symbol (by decide)).expect .labelClose) first fun _ => .label found.1)
    steady_labelStatement).congr fun s v s' => by simp only [LabelStatement, Prod.exists]

omit h in
theorem predicts_gotoStatement : Rule.Predicts gotoStatement GotoStatement ["goto"] :=
  ((predicts_keyword (by decide)).andThen (fun first =>
    .node (predicts_nameToken.expect .gotoLabel) first fun found => .goto found.1)
    steady_gotoStatement).congr fun s v s' => by simp only [GotoStatement, Prod.exists]

theorem predicts_returnStatement :
    Rule.Predicts (returnStatement nested) (ReturnStatement phrases) ["return"] :=
  (predicts_keyword (by decide)).andThen (fun first =>
    .bind ((follows_expressions h .returnValue).optional (steady_expressions h.steady _)) fun values =>
    .node (predicts_symbol (by decide)).optional first fun _ => .returnValues (values.getD []))
    (steady_returnStatement h.steady)

theorem follows_target : (target nested).Follows (Target phrases) := by
  refine (Follows.getBind (f := fun c => expect (suffixed nested) .target >>= fun node =>
    if node.form.isAssignable then pure node else failAt .target c.offset) (Q := fun _ s v s' =>
      ∃ node m, Suffixed phrases s node m ∧ (node.form.isAssignable ∧ v = node ∧ s' = m ∨
        ¬ node.form.isAssignable ∧ False)) fun c => ?_).congr fun s v s' => ?_
  · exact .bind ((predicts_suffixed h).expect .target) fun node => .ite (.pure node) (.failAt _ _)
  · constructor
    · rintro ⟨node, m, hv, ⟨ha, rfl, rfl⟩ | ⟨-, hf⟩⟩
      · exact ⟨hv, ha⟩
      · exact hf.elim
    · rintro ⟨hv, ha⟩
      exact ⟨v, s', hv, .inl ⟨ha, rfl, rfl⟩⟩

theorem follows_targetStep (targets : List Node) : Rule.Follows (targetStep nested targets)
    (fun s next s' => ∃ v, After "," (Target phrases) s v s' ∧ next = v :: targets)
    (¬ ·.Next [","]) :=
  ((predicts_symbol (by decide)).follows.andThen fun _ => (follows_target h).return (· :: targets)).congr
    (fun s next s' => by
      constructor
      · rintro ⟨span, m, ht, v, hv, rfl⟩
        exact ⟨v, ⟨span, m, ht, hv⟩, rfl⟩
      · rintro ⟨v, ⟨span, m, ht, hv⟩, rfl⟩
        exact ⟨span, m, ht, v, hv, rfl⟩) fun _ => Iff.rfl

theorem follows_assignment (first : Node) :
    (assignment nested first).Follows (Assignment phrases first) := by
  refine (Follows.bind (.iterateList (follows_targetStep h) (steady_targetStep h.steady) [first])
    fun targets => .bindOptional predicts_equals.optional
      (fun _ => .node ((follows_expressions h .listValue).expect .assignmentValues) first.span fun values =>
        .assignment (.ofItems .targetList targets.reverse 0)
          (valueList values (.ofItems .targetList targets.reverse 0)))
      (.failAt .statement (first.span.pos - 1))).congr fun s v s' => ?_
  constructor
  · rintro ⟨_, m₁, ⟨others, ho, rfl⟩, ⟨equals, m₂, ht, values, hv, rfl⟩ | ⟨-, hf⟩⟩
    · exact ⟨others, m₁, ho, equals, m₂, ht, values, hv, by simp⟩
    · exact hf.elim
  · rintro ⟨others, m₁, ho, equals, m₂, ht, values, hv, rfl⟩
    exact ⟨_, m₁, ⟨others, ho, rfl⟩, .inl ⟨equals, m₂, ht, values, hv, by simp⟩⟩

theorem predicts_expressionStatement :
    Rule.Predicts (expressionStatement nested) (ExpressionStatement phrases) [.name, "("] :=
  ((predicts_suffixed h).andThen (fun first =>
    .ite (.pure first) (.ite (follows_assignment h first) (.failAt .statement (first.span.pos - 1))))
    (steady_expressionStatement h.steady)).congr fun s v s' => by
    refine exists_congr fun first => exists_congr fun m => and_congr_right fun _ => or_congr_right ?_
    simp

/-- The kinds of tokens that a statement begins with. -/
def statementKinds : List Kind := [
  ";", "if", "do", "while", "repeat", "for", "local", "function", "break", "::", "goto", .name, "("]

theorem predicts_statementForms :
    Rule.Predicts (firstOf (statementForms nested)) (StatementOrEmpty phrases) statementKinds := by
  have hempty := (predicts_symbol (by decide : ";" ∈ plainSymbols)).map fun _ => (none : Option Node)
  refine (hempty.firstOf_cons (((predicts_ifStatement h).map some).firstOf_cons
    (((predicts_doStatement h).map some).firstOf_cons (((predicts_whileStatement h).map some).firstOf_cons
    (((predicts_repeatStatement h).map some).firstOf_cons (((predicts_forStatement h).map some).firstOf_cons
    (((predicts_localStatement h).map some).firstOf_cons
    (((predicts_functionStatement h).map some).firstOf_cons ((predicts_breakStatement.map some).firstOf_cons
    ((predicts_labelStatement.map some).firstOf_cons ((predicts_gotoStatement.map some).firstOf_cons
    ((predicts_expressionStatement h).map some).firstOf_singleton (by decide)) (by decide)) (by decide))
    (by decide)) (by decide)) (by decide)) (by decide)) (by decide)) (by decide)) (by decide))
    (by decide)).congr fun s found s' => ?_
  simp only [StatementOrEmpty, Statement, or_and_right, exists_or]

section Blocks

omit h in
theorem startsWithKeyword_iff {c : Cursor} {s : Stream} {word : String} (hl : Lexed c s)
    (hw : word ∈ reservedWords) : startsWithKeyword word c.rest ↔ s.Next [word] := by
  have hnot : ¬ startsWithKeyword word c.rest ↔ ¬ s.Next [word] :=
    hl.iff_not_next (fun hr => hr ▸ not_startsWith_nil (List.mem_append_left _ hw)) fun hread => by
      rw [startsWithKeyword, hread.word_iff hw, List.mem_singleton, Token.kind_eq_fixed]
  constructor
  · exact fun hs => Classical.byContradiction fun hn => hnot.mpr hn hs
  · exact fun hn => Decidable.byContradiction fun hs => hnot.mp hs hn

omit h in
theorem endsBlock_iff {c : Cursor} {s : Stream} (hl : Lexed c s) : endsBlock c.rest ↔ BlockEnds s := by
  have hall : ∀ word ∈ blockEnds, word ∈ reservedWords := by decide
  simp only [endsBlock, Bool.or_eq_true, List.isEmpty_iff, List.any_eq_true, BlockEnds, hl.nil_iff]
  refine or_congr_right ?_
  constructor
  · rintro ⟨word, hm, hs⟩
    obtain ⟨token, hn, hk⟩ := (startsWithKeyword_iff hl (hall word hm)).mp hs
    refine ⟨token, hn, ?_⟩
    rw [List.mem_singleton.mp hk]
    exact List.mem_map_of_mem (f := Kind.fixed) hm
  · rintro ⟨token, hn, hk⟩
    obtain ⟨word, hm, hkind⟩ := List.mem_map.mp (show token.kind ∈ blockEnds.map Kind.fixed from hk)
    exact ⟨word, hm, (startsWithKeyword_iff hl (hall word hm)).mpr
      ⟨token, hn, List.mem_singleton.mpr hkind.symm⟩⟩

/-- The phrase of one further statement, in front of those listed so far in reverse. -/
def StatementStep (phrases : Phrases) (listed : List Node) : Phrase (List Node) := fun s next s' =>
  ∃ found, StatementOrEmpty phrases s found s' ∧ next = found.toList ++ listed

theorem follows_statementStep (listed : List Node) :
    Rule.Follows (statementStep nested listed) (StatementStep phrases listed) BlockEnds := by
  have hforms := predicts_statementForms h
  have hread := (((hforms.expect .statement).map Option.toList).map (· ++ listed))
  refine ((follows_some hread).unless endsBlock_iff).congr (fun s next s' => ?_) fun s => or_iff_left id
  constructor
  · rintro ⟨-, _, ⟨found, hf, rfl⟩, rfl⟩
    exact ⟨found, hf, rfl⟩
  · rintro ⟨found, hf, rfl⟩
    refine ⟨?_, _, ⟨found, hf, rfl⟩, rfl⟩
    have hopens := hforms.opens hf
    rintro (hnil | hends)
    · obtain ⟨token, hn, -⟩ := hopens
      simp [Stream.next?, hnil] at hn
    · exact hopens.disjoint (by decide) hends

omit h in
theorem steps_statements_iff {listed z : List Node} {s s' : Stream} :
    Steps (fun x s y s' => StatementStep phrases x s y s') listed s z s' ↔
      ∃ found, Sequence (StatementOrEmpty phrases) s found s' ∧
        z = (found.flatMap Option.toList).reverse ++ listed := by
  have hreverse : ∀ found : Option Node, found.toList.reverse = found.toList := by
    intro found
    cases found <;> rfl
  constructor
  · intro hs
    induction hs with
    | refl => exact ⟨[], .nil, rfl⟩
    | cons hstep _ ih =>
      obtain ⟨first, hf, rfl⟩ := hstep
      obtain ⟨found, ho, rfl⟩ := ih
      exact ⟨first :: found, .cons hf ho, by simp [hreverse]⟩
  · rintro ⟨found, ho, rfl⟩
    induction ho generalizing listed with
    | nil => exact .refl
    | @cons s m s' first others hf _ ih =>
      refine .cons ⟨first, hf, rfl⟩ ?_
      simpa [hreverse] using @ih (first.toList ++ listed)

theorem follows_statements : (statements nested).Follows (Statements phrases) := by
  refine (Follows.bind (.iterate (A := fun _ => BlockEnds) (follows_statementStep h)
    (steady_statementStep h.steady) []) fun listed =>
    (predicts_returnStatement h).optional.return fun last => (last.toList ++ listed).reverse).congr
      fun s listed s' => ?_
  have hreverse : ∀ found : Option Node, found.toList.reverse = found.toList := by
    intro found
    cases found <;> rfl
  constructor
  · rintro ⟨_, m, ⟨hs, hend⟩, last, hl, rfl⟩
    obtain ⟨found, ho, rfl⟩ := steps_statements_iff.mp hs
    exact ⟨found, m, ⟨ho, hend⟩, last, hl, by simp [hreverse]⟩
  · rintro ⟨found, m, ⟨ho, hend⟩, last, hl, rfl⟩
    exact ⟨_, m, ⟨steps_statements_iff.mpr ⟨found, ho, rfl⟩, hend⟩, last, hl, by simp [hreverse]⟩

theorem follows_block : (block nested).Follows (Block phrases) :=
  Follows.getBind (Q := fun start s v s' => ∃ listed, Statements phrases s listed s' ∧
      v = Node.ofItems .block listed (start + 1)) fun c =>
    (follows_statements h).return fun listed => Node.ofItems .block listed (c.offset + 1)

end Blocks

omit h in
/-- The rules of every nesting level follow its grammar. -/
theorem follows_nesting (levels : Nat) : (nesting levels).Follows (LuaSyntax.phrases levels) := by
  induction levels with
  | zero =>
    have hrule : ∀ phrase : Phrase Node, (∀ s v s', ¬ phrase s v s') →
        Rule.Follows (tooDeep : Rule Node) phrase fun _ => False := fun phrase hn =>
      ⟨fun ho _ => (nomatch ho), fun _ hv => (hn _ _ _ hv).elim, fun _ => by simp [tooDeep]⟩
    exact ⟨steady_nesting 0, hrule _ fun _ _ _ => id, hrule _ fun _ _ _ => id, hrule _ fun _ _ _ => id,
      ⟨fun ho _ => (nomatch ho), fun _ hv => hv.elim⟩, fun hv => hv.elim⟩
  | succ levels ih =>
    exact ⟨steady_nesting (levels + 1), (predicts_expression ih).follows,
      (predicts_concatenation ih).follows, (predicts_unary ih).follows, follows_block ih,
      (predicts_expression ih).opens⟩

end LuaSyntax.Grammar
