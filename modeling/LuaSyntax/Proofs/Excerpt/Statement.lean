import LuaSyntax.Proofs.Excerpt.Expression

/-! # Excerpts of statements

Statements may be taken out of their stream, and so may blocks if there is a token after
them. Names end in front of a comma with no name after it, and must not go on there with a name
after the excerpt.
-/
namespace LuaSyntax

namespace Room

/-- What is left after a statement. -/
abbrev statement : Room := .apart ("=" :: "," :: continuing)

/-- What is left after the last statement of a block. -/
abbrev last : Room := .apart ("return" :: ";" :: "=" :: "," :: (continuing ++ Phrase.expressionKinds : List Kind))

end Room

variable {x : Excerpt} {room : Room} {nested nested' : Phrases} {s s' : Stream}

namespace Phrase

open Grammar (Tier indexed selfParameter valueList)

theorem node_valueList (values : List Node) (before : Node) :
    x.node (valueList values before) = valueList (values.map x.node) (x.node before) := by
  refine Excerpt.node_ofItems rfl fun _ => ?_
  rw [Excerpt.node_span]
  rfl

section Lists

theorem noNextName_stream (hc : x.Covers s) (hl : x.Leaves (.apart [","]) s) (hclear : x.Clear s)
    (hs : NoNextName s) : NoNextName (x.stream s) := by
  rcases hs with hs | ⟨comma, m, ht, hm⟩
  · exact .inl (Excerpt.keeps_not_next (by decide) s hl hs)
  · rcases Nat.eq_or_lt_of_le hl.le with heq | hlt
    · -- the comma is not part of the excerpt
      left
      rintro ⟨token, hn, hk⟩
      rw [Stream.next?, Excerpt.lexemes_eq_tail (Nat.le_of_eq heq.symm), Option.map_eq_some_iff] at hn
      obtain ⟨lexeme, hfirst, rfl⟩ := hn
      exact hl.2 heq.symm lexeme hfirst hk
    · have hle : x.after ≤ m.lexemes.length := by
        have hlength := ht.length
        omega
      refine .inr ⟨x.span comma, x.stream m, Excerpt.takes ht hc hle, ?_⟩
      have hroom : x.Leaves (.apart [.name]) m := by
        refine ⟨hle, fun _ => ?_⟩
        rcases hclear with hname | hcomma
        · exact hname
        · exact (hcomma ht.opens).elim
      exact Excerpt.keeps_not_next (by decide) m hroom hm

theorem carries_nameList (first : Node) :
    Carries x (.apart [","]) (Cleared x (NameList first)) (NameList (x.node first)) x.node := by
  rintro s v s' ⟨⟨others, ⟨hothers, hend⟩, rfl⟩, hclear⟩
  have hnames : Carries x (.apart [","]) (Sequence (After "," Name)) (Sequence (After "," Name)) (List.map x.node) :=
    (closes_name.carries.after ",").sequence
  obtain ⟨hr, ht⟩ := hnames hothers
  refine ⟨hr, fun hc hl => ⟨others.map x.node, ⟨ht hc hl, noNextName_stream (hc.reaches hr) hl hclear hend⟩, ?_⟩⟩
  exact Excerpt.node_ofItems rfl nofun

end Lists

section Statements
variable (h : nested.Carries x nested')
include h

theorem carries_branch : Carries x .token (Branch nested) (Branch nested') (Prod.map x.node x.node) :=
  (h.expression.mono Room.within_token).bind fun _ => (carries_takes "then").bind fun _ => h.block.return fun _ _ => rfl

theorem closes_ifStatement : Closes x (IfStatement nested) (IfStatement nested') x.node := by
  refine (carries_takes "if").close fun first => (carries_branch h).close fun head => ?_
  refine (((carries_branch h).after "elseif").sequence.until
    (Excerpt.keeps_not_next Room.within_token)).close fun others => ?_
  refine ((h.block.after "else").optional (Excerpt.keeps_not_next Room.within_token)).close fun otherwise => ?_
  refine (closes_takes "end").return fun _ s' => ?_
  simp [Excerpt.node, Node.respan]
  exact ⟨⟨rfl, rfl⟩, rfl⟩

theorem closes_doStatement : Closes x (DoStatement nested) (DoStatement nested') x.node :=
  (carries_takes "do").close fun _ => h.block.close fun _ => (closes_takes "end").return fun _ _ => rfl

theorem closes_whileStatement : Closes x (WhileStatement nested) (WhileStatement nested') x.node :=
  (carries_takes "while").close fun _ => (h.expression.mono Room.within_token).close fun _ =>
    (carries_takes "do").close fun _ => h.block.close fun _ => (closes_takes "end").return fun _ _ => rfl

theorem carries_repeatStatement : Carries x .expression (RepeatStatement nested) (RepeatStatement nested') x.node := by
  refine (carries_takes "repeat").bind fun first => h.block.ahead (fun body => ?_) fun body => ?_
  · exact (carries_takes "until").bind fun _ => h.expression.return fun _ _ => rfl
  · refine (consumes_takes "until").bind ?_
    rintro _ m v s' ⟨condition, hcondition, -⟩
    exact h.expression.leads hcondition

theorem closes_forBody : Closes x (ForBody nested) (ForBody nested') x.node :=
  (carries_takes "do").close fun _ => h.block.close fun _ => (closes_takes "end").return fun _ _ => rfl

theorem closes_numericFor (first : Span) (counter : Node) :
    Closes x (NumericFor nested first counter) (NumericFor nested' (x.span first) (x.node counter)) x.node := by
  have hexpression : Carries x .token nested.expression nested'.expression x.node := h.expression.mono Room.within_token
  refine hexpression.close fun start => (carries_takes ",").close fun _ => hexpression.close fun limit => ?_
  refine ((hexpression.after ",").optional (Excerpt.keeps_not_next Room.within_token)).close fun step => ?_
  refine (closes_forBody h).return fun body s' => ?_
  simp [Excerpt.node, Node.respan]
  exact ⟨rfl, rfl⟩

theorem closes_genericFor (first : Span) (counter : Node) :
    Closes x (GenericFor nested first counter) (GenericFor nested' (x.span first) (x.node counter)) x.node := by
  have hnames : Carries x .token (Cleared x (NameList counter)) (NameList (x.node counter)) x.node :=
    (carries_nameList counter).mono Room.within_token
  -- the word after the names is no comma
  suffices hcleared : Closes x (fun s v s' => ∃ names m₁, Cleared x (NameList counter) s names m₁ ∧
      ∃ span m₂, m₁.Takes "in" span m₂ ∧ ∃ values m₃, Expressions nested m₂ values m₃ ∧
      ∃ body, ForBody nested m₃ body s' ∧
        v = ⟨.genericFor names (valueList values names) body, first.pos, s'.lastEnd⟩)
      (GenericFor nested' (x.span first) (x.node counter)) x.node by
    refine hcleared.of_imp ?_
    rintro s v s' ⟨names, m₁, hnames, span, m₂, hin, hrest⟩
    exact ⟨names, m₁, ⟨hnames, .inr (hin.opens.disjoint (by decide))⟩, span, m₂, hin, hrest⟩
  refine hnames.close fun names => (carries_takes "in").close fun _ => ?_
  refine ((carries_expressions h).mono Room.within_token).close fun values =>
    (closes_forBody h).return fun body s' => ?_
  have hvalues := node_valueList (x := x) values names
  simp only [Excerpt.node] at hvalues
  simp only [Excerpt.node, Node.respan, hvalues]
  rfl

theorem closes_forStatement : Closes x (ForStatement nested) (ForStatement nested') x.node := by
  refine (carries_takes "for").close fun first => closes_name.carries.close fun counter => Closes.or ?_ ?_
  · exact (carries_takes "=").close fun _ => closes_numericFor h first counter
  · have hgeneric := closes_genericFor h (x := x) first counter
    refine ⟨?_, fun _ _ _ hv => hgeneric.consumes hv.2⟩
    rintro s v s' ⟨hs, hv⟩
    obtain ⟨hr, ht⟩ := hgeneric.free hv
    refine ⟨hr, fun hc hl => ⟨?_, ht hc hl⟩⟩
    have hlt : x.Leaves .token s := Nat.lt_of_le_of_lt hl.le (hgeneric.consumes hv)
    exact Excerpt.keeps_not_next Room.within_token s hlt hs

theorem carries_localNames (first : Span) :
    Carries x .statement (Cleared x (LocalNames nested first)) (LocalNames nested' (x.span first)) x.node := by
  have hvalues : Carries x .statement (Optional (After "=" (Expressions nested)) (¬ ·.Next ["="]))
      (Optional (After "=" (Expressions nested')) (¬ ·.Next ["="])) (Option.map (List.map x.node)) :=
    (((carries_expressions h).mono (by decide)).after "=").optional (Excerpt.keeps_not_next (by decide))
  suffices hcleared : Carries x .statement (fun s v s' => ∃ declared m₁, Name s declared m₁ ∧
      ∃ names m₂, Cleared x (NameList declared) m₁ names m₂ ∧
      ∃ values, Optional (After "=" (Expressions nested)) (¬ ·.Next ["="]) m₂ values s' ∧
        v = ⟨.localNames names (valueList (values.getD []) names), first.pos, s'.lastEnd⟩)
      (LocalNames nested' (x.span first)) x.node by
    rintro s v s' ⟨⟨declared, m₁, hdeclared, names, m₂, hnames, values, hvalues, rfl⟩, hclear⟩
    refine hcleared ⟨declared, m₁, hdeclared, names, m₂, ⟨hnames, ?_⟩, values, hvalues, rfl⟩
    cases values with
    | none => exact hvalues.2 ▸ hclear
    | some values =>
      obtain ⟨span, m, ht, -⟩ := hvalues
      exact .inr (ht.opens.disjoint (by decide))
  refine closes_name.carries.bind fun declared => ((carries_nameList declared).mono (by decide)).bind fun names =>
    hvalues.return fun values s' => ?_
  have hvalues := node_valueList (x := x) (values.getD []) names
  have hmap : (values.getD []).map x.node = (values.map (List.map x.node)).getD [] := by cases values <;> rfl
  rw [hmap] at hvalues
  simp only [Excerpt.node] at hvalues
  simp only [Excerpt.node, Node.respan, hvalues]
  rfl

theorem carries_localStatement :
    Carries x .statement (Cleared x (LocalStatement nested)) (LocalStatement nested') x.node := by
  suffices hcleared : Carries x .statement (fun s v s' => ∃ first m₁, s.Takes "local" first m₁ ∧
      ((∃ second m₂, m₁.Takes "function" second m₂ ∧ LocalFunction nested first second m₂ v s') ∨
        ¬ m₁.Next ["function"] ∧ Cleared x (LocalNames nested first) m₁ v s')) (LocalStatement nested') x.node by
    rintro s v s' ⟨⟨first, m₁, ht, hv⟩, hclear⟩
    exact hcleared ⟨first, m₁, ht, hv.imp_right fun hv => ⟨hv.1, hv.2, hclear⟩⟩
  refine (carries_takes "local").bind fun first => Carries.or ?_ ?_
  · exact (carries_takes "function").bind fun second => (closes_localFunction h first second).carries
  · rintro s v s' ⟨hs, hv⟩
    obtain ⟨hr, ht⟩ := carries_localNames h first hv
    refine ⟨hr, fun hc hl => ?_⟩
    have hnew := ht hc hl
    refine ⟨?_, hnew⟩
    obtain ⟨declared, m, ⟨text, -, span, htakes, -⟩, -⟩ := hnew
    exact htakes.opens.disjoint (by simp [Token.kind])

omit h in
theorem closes_identifier (text : Bytes) : Closes x (fun s span s' => s.Takes (.name text) span s' ∧ Identifier text)
    (fun s span s' => s.Takes (.name text) span s' ∧ Identifier text) x.span :=
  ⟨(carries_takes _).until fun _ _ hid => hid, fun _ _ _ ht => consumes_takes _ ht.1⟩

omit h in
theorem closes_labelStatement : Closes x LabelStatement LabelStatement x.node :=
  (carries_takes "::").close fun _ => Closes.exists fun text => (closes_identifier text).carries.close fun _ =>
    (closes_takes "::").return fun _ _ => rfl

omit h in
theorem closes_gotoStatement : Closes x GotoStatement GotoStatement x.node :=
  (carries_takes "goto").close fun _ => Closes.exists fun text => (closes_identifier text).return fun _ _ => rfl

theorem carries_returnStatement : Carries x .last (ReturnStatement nested) (ReturnStatement nested') x.node := by
  have hvalues : Carries x .last (Optional (Expressions nested) nested.noExpression)
      (Optional (Expressions nested') nested'.noExpression) (Option.map (List.map x.node)) :=
    ((carries_expressions h).mono (by decide)).optional (h.noExpression.mono (by decide))
  refine (carries_takes "return").bind fun first => hvalues.bind fun values => ?_
  refine ((carries_takes ";").optional (Excerpt.keeps_not_next (by decide))).return fun _ s' => ?_
  cases values with
  | none => rfl
  | some values =>
    simp [Excerpt.node, Node.respan]
    rfl

omit h in
theorem node_isCall (v : Node) : (x.node v).form.isCall = v.form.isCall := by
  obtain ⟨form, span⟩ := v
  cases form <;> rfl

omit h in
theorem node_isAssignable (v : Node) : (x.node v).form.isAssignable = v.form.isAssignable := by
  obtain ⟨form, span⟩ := v
  cases form <;> rfl

theorem carries_target : Carries x .expression (Target nested) (Target nested') x.node := by
  rintro s v s' ⟨hv, hassign⟩
  obtain ⟨hr, ht⟩ := carries_suffixed h hv
  exact ⟨hr, fun hc hl => ⟨ht hc hl, (node_isAssignable v).trans hassign⟩⟩

theorem carries_assignment (first : Node) :
    Carries x .expressions (Assignment nested first) (Assignment nested' (x.node first)) x.node := by
  have htarget : Carries x .expressions (Target nested) (Target nested') x.node := (carries_target h).mono (by decide)
  refine ((htarget.after ",").sequence.until (Excerpt.keeps_not_next (by decide))).bind fun others => ?_
  refine (carries_takes "=").bind fun _ => (carries_expressions h).return fun values s' => ?_
  have htargets : x.node (.ofItems .targetList (first :: others) 0) =
      .ofItems .targetList ((first :: others).map x.node) 0 := Excerpt.node_ofItems rfl nofun
  have hvalues := node_valueList (x := x) values (.ofItems .targetList (first :: others) 0)
  rw [htargets] at hvalues
  simp only [Excerpt.node] at htargets hvalues
  simp only [Excerpt.node, Node.respan, htargets, hvalues, Node.respan_span]
  rfl

theorem carries_expressionStatement :
    Carries x .expressions (ExpressionStatement nested) (ExpressionStatement nested') x.node := by
  refine ((carries_suffixed h).mono (by decide)).bind fun first => Carries.or ?_ ?_
  · rw [node_isCall]
    exact carries_none rfl fun _ _ hc => hc
  · rw [node_isCall, node_isAssignable]
    exact (carries_assignment h first).and.and

theorem carries_statement : Carries x .statement (Cleared x (Statement nested)) (Statement nested') x.node :=
  (closes_ifStatement h).carries.cleared.clearedOr <| (closes_doStatement h).carries.cleared.clearedOr <|
    (closes_whileStatement h).carries.cleared.clearedOr <|
    ((carries_repeatStatement h).mono (by decide)).cleared.clearedOr <|
    (closes_forStatement h).carries.cleared.clearedOr <| (carries_localStatement h).clearedOr <|
    Carries.cleared <| (closes_functionStatement h).carries.or <| (closes_atom fun _ => rfl).carries.or <|
    closes_labelStatement.carries.or <| closes_gotoStatement.carries.or
      ((carries_expressionStatement h).mono (by decide))

theorem carries_statementOrEmpty :
    Carries x .statement (Cleared x (StatementOrEmpty nested)) (StatementOrEmpty nested') (Option.map x.node) := by
  refine Carries.clearedOr (Carries.cleared ?_) ?_
  · exact (carries_takes ";").return fun _ _ => rfl
  · rintro s found s' ⟨⟨v, hv, rfl⟩, hclear⟩
    obtain ⟨hr, ht⟩ := carries_statement h ⟨hv, hclear⟩
    exact ⟨hr, fun hc hl => ⟨x.node v, ht hc hl, rfl⟩⟩

omit h in
/-- No statement begins with a comma. -/
theorem not_next_of_statement {found : Option Node} (hs : StatementOrEmpty nested s found s') : ¬ s.Next [","] := by
  have hopens {token : Token} {span : Span} {m : Stream} (ht : s.Takes token span m) (hne : token ≠ .fixed ",") :
      ¬ s.Next [","] := ht.opens.disjoint (by simpa [Token.kind_eq_fixed] using hne)
  rcases hs with ⟨span, ht, -⟩ | ⟨v, ⟨_, _, ht, -⟩ | ⟨_, _, ht, -⟩ | ⟨_, _, ht, -⟩ | ⟨_, _, ht, -⟩ | ⟨_, _, ht, -⟩ |
    ⟨_, _, ht, -⟩ | ⟨_, _, ht, -⟩ | ⟨_, ht, -⟩ | ⟨_, _, ht, -⟩ | ⟨_, _, ht, -⟩ |
    ⟨_, _, ⟨_, _, ⟨_, -, _, ht, -⟩ | ⟨_, _, ht, -⟩, -⟩, -⟩, -⟩
  all_goals exact hopens ht (by simp)

/-- Statements one after the other; only the last one may be away from the end of the excerpt. -/
theorem carries_sequence : Carries x .statement (Cleared x (Sequence (StatementOrEmpty nested)))
    (Sequence (StatementOrEmpty nested')) (List.map (Option.map x.node)) := by
  rintro s found s' ⟨hs, hclear⟩
  induction hs with
  | nil => exact ⟨.refl, fun _ _ => .nil⟩
  | @cons s m s' first others hfirst hothers ih =>
    have hm : x.Clear m := by
      cases hothers with
      | nil => exact hclear
      | cons hnext _ => exact .inr (not_next_of_statement hnext)
    obtain ⟨hr, ht⟩ := carries_statementOrEmpty h ⟨hfirst, hm⟩
    obtain ⟨hr', ht'⟩ := ih hclear
    refine ⟨hr.trans hr', fun hc hl => ?_⟩
    exact .cons (ht hc (hl.before hr'.length_le)) (ht' (hc.reaches hr) hl)

theorem carries_statements (hw : Room.last.Within room) (hends : x.Keeps room BlockEnds BlockEnds) :
    Carries x room (Statements nested) (Statements nested') (List.map x.node) := by
  have hreturn : Carries x room (Optional (ReturnStatement nested) (¬ ·.Next ["return"]))
      (Optional (ReturnStatement nested') (¬ ·.Next ["return"])) (Option.map x.node) := by
    have hkeeps : x.Keeps .last (¬ ·.Next ["return"]) (¬ ·.Next ["return"]) := Excerpt.keeps_not_next (by decide)
    exact ((carries_returnStatement h).mono hw).optional (hkeeps.mono hw)
  suffices hcleared : Carries x room (fun s listed s' => ∃ found m,
      (Cleared x (Sequence (StatementOrEmpty nested)) s found m ∧ BlockEnds m) ∧
      ∃ last, Optional (ReturnStatement nested) (¬ ·.Next ["return"]) m last s' ∧
        listed = found.flatMap Option.toList ++ last.toList) (Statements nested') (List.map x.node) by
    rintro s listed s' ⟨found, m, ⟨hfound, hend⟩, hlast⟩
    refine hcleared ⟨found, m, ⟨⟨hfound, .inr ?_⟩, hend⟩, hlast⟩
    rcases hend with hnil | hnext
    · exact Stream.not_next_of_nil hnil
    · exact hnext.disjoint (by decide)
  have hstatement : Room.statement.Within .last := by decide
  refine (((carries_sequence h).mono (hstatement.trans hw)).until hends).bind fun found => ?_
  refine hreturn.return fun last s' => ?_
  have hfound : (found.flatMap Option.toList).map x.node = (found.map (Option.map x.node)).flatMap Option.toList := by
    rw [List.map_flatMap, List.flatMap_map]
    congr 1
    funext v
    cases v <;> rfl
  rw [List.map_append, hfound]
  cases last <;> rfl

theorem carries_block : Carries x .token (Block nested) (Block nested') x.node := by
  rintro s v s' ⟨listed, hlisted, rfl⟩
  obtain ⟨hr, ht⟩ := carries_statements h Room.within_token Excerpt.keeps_blockEnds hlisted
  refine ⟨hr, fun hc hl => ⟨listed.map x.node, ht hc hl, ?_⟩⟩
  have hlt : x.after < s.lexemes.length := Nat.lt_of_lt_of_le hl hr.length_le
  refine Excerpt.node_ofItems rfl fun _ => ?_
  exact Excerpt.stream_position hc hlt

end Statements

end Phrase

/-- All phrases may be taken out of their stream, and have more nesting levels elsewhere. -/
theorem phrases_carries (levels more : Nat) : (phrases levels).Carries x (phrases (levels + more)) := by
  induction levels with
  | zero => exact ⟨nofun, nofun, nofun, nofun, nofun, nofun, nofun⟩
  | succ levels ih =>
    rw [Nat.succ_add]
    refine ⟨Phrase.carries_expression ih, Phrase.carries_concatenation ih, Phrase.carries_unary ih,
      Phrase.carries_block ih, Excerpt.keeps_not_next (by decide), Phrase.consumes_expression ih, ?_⟩
    exact fun s hs hn => hs (hn.mono (by decide))

end LuaSyntax
