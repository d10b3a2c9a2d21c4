import LuaSyntax.Proofs.Viable.Statement

/-! # Blocks in two sources

Statements, blocks of them, and the rules of all nesting levels. A block of the one source ends where a block
of the other ends.
-/
namespace LuaSyntax

open Rule Parse Grammar Phrase

instance : Nonempty Cursor := ⟨.start []⟩

section Words
variable {p : Place} {token : Token}

theorem Place.Opens.ne_nil (h : p.Opens token) : p.rest ≠ [] := by
  intro hnil
  cases h with
  | reads hread =>
    obtain ⟨text, hne, hp⟩ := hread.lt
    have hrest := hp.rest
    rw [hnil] at hrest
    exact hne (List.append_eq_nil_iff.mp hrest.symm).1
  | @front op _ hp =>
    rw [hnil, List.prefix_nil] at hp
    exact absurd hp (by cases op <;> decide)
  | number he =>
    rw [Scan.numeral_eq_none.mpr ⟨by rw [hnil]; rfl, by rw [hnil]; rfl, rfl⟩] at he
    cases he
  | string he =>
    rw [Scan.string_eq_none.mpr ⟨by rw [hnil]; nofun, by rw [hnil]; nofun, by rw [hnil]; rfl, rfl⟩] at he
    cases he

theorem Place.Opens.reads_of_startsName (h : p.Opens token) (hname : startsName p.rest) : ∃ p', p.Reads token p' := by
  cases h with
  | reads hread => exact ⟨_, hread⟩
  | @front op hop hp =>
    obtain ⟨b, tail, hrest, hb, -⟩ := head_of_symbol (operator_symbol_spec op hop).1 hp
    rw [startsName, hrest] at hname
    exact (hb hname).elim
  | number he =>
    have hn : ¬ (startsHexadecimal p.rest ∨ startsDecimal p.rest) := fun hn => not_startsName_of_numeral hn hname
    simp only [not_or, Bool.not_eq_true] at hn
    rw [Scan.numeral_eq_none.mpr ⟨hn.1, hn.2, rfl⟩] at he
    cases he
  | string he =>
    have hn : ¬ (p.rest.head? = some '"'.toUInt8 ∨ p.rest.head? = some '\''.toUInt8 ∨ LongBracket.level? p.rest ≠ none) := by
      intro hn
      rw [startsName] at hname
      rcases head_of_string hn with hb | hb | hb <;> exact absurd hname (by rw [hb]; decide)
    simp only [not_or, Decidable.not_not] at hn
    rw [Scan.string_eq_none.mpr ⟨hn.1, hn.2.1, hn.2.2, rfl⟩] at he
    cases he

theorem Place.Opens.word {word : String} (h : p.Opens token) (hw : word ∈ reservedWords)
    (hs : startsWithKeyword word p.rest) : token = .fixed word := by
  obtain ⟨p', hread⟩ := h.reads_of_startsName (takeWhile_of_word hw hs).2
  exact (hread.word_iff hw).mp hs

end Words

namespace Grammar

variable {ι : Type} {deep : Prop} {nested nested' : Nested}

section Statements

theorem tracks_wordForm {word : String} {f f' : Span → Parse Node} {others others' : List (Rule (Option Node))}
    (hform : Rule.Tracks deep ((keyword word).andThen f) (fun _ : ι => (keyword word).andThen f') AnyResult .further .further)
    (hs : Steady ((keyword word).andThen f)) (hw : word ∈ reservedWords) (hk : Ahead.further.Spares [.fixed word] [])
    (ho : Rule.Tracks deep (firstOf others) (fun _ : ι => firstOf others') AnyResult .further .further) :
    Rule.Tracks deep (firstOf (Rule.map ((keyword word).andThen f) some :: others))
      (fun _ : ι => firstOf (Rule.map ((keyword word).andThen f') some :: others')) AnyResult .further .further :=
  hform.map.firstOf_cons (fun _ => ((settles_keyword hw).andThen f f').map _ _) (hs.map _) hk ho

variable (h : Nested.Tracks deep nested nested')
include h

theorem tracks_statementForms : Rule.Tracks deep (firstOf (statementForms nested))
    (fun _ : ι => firstOf (statementForms nested')) AnyResult .further .further := by
  have hempty : (symbol ";").Tracks deep (fun _ : ι => symbol ";") AnyResult .further .further :=
    (lexes_symbol (by decide)).tracks_fixed (by decide)
  have hsemicolon : Rule.Settles deep ((symbol ";").map fun _ => (none : Option Node)) ((symbol ";").map fun _ => none) [";"] [] :=
    (settles_symbol (by decide)).map _ _
  have hlabel : (labelStatement.map some).Settles deep (labelStatement.map some) ["::"] [] :=
    ((settles_symbol (by decide)).andThen _ _).map _ _
  exact hempty.map.firstOf_cons (fun _ => hsemicolon) ((steady_symbol (by decide)).map _) (by decide)
    (tracks_wordForm (tracks_ifStatement h) (steady_ifStatement h.steady) (by decide) (by decide)
    (tracks_wordForm (tracks_doStatement h) (steady_doStatement h.steady) (by decide) (by decide)
    (tracks_wordForm (tracks_whileStatement h) (steady_whileStatement h.steady) (by decide) (by decide)
    (tracks_wordForm (tracks_repeatStatement h) (steady_repeatStatement h.steady) (by decide) (by decide)
    (tracks_wordForm (tracks_forStatement h) (steady_forStatement h.steady) (by decide) (by decide)
    (tracks_wordForm (tracks_localStatement h) (steady_localStatement h.steady) (by decide) (by decide)
    (tracks_wordForm (tracks_functionStatement h (by decide)) (steady_functionStatement h.steady) (by decide) (by decide)
    (tracks_wordForm tracks_breakStatement steady_breakStatement (by decide) (by decide)
    (tracks_labelStatement.map.firstOf_cons (fun _ => hlabel) (steady_labelStatement.map _) (by decide)
    (tracks_wordForm tracks_gotoStatement steady_gotoStatement (by decide) (by decide)
    (tracks_expressionStatement h).map.singleton))))))))))

theorem gets_statementForms {s s' : Stream} {P : Node → Prop} (hgets : (expressionStatement nested').Gets P s s') :
    Rule.Gets (firstOf (statementForms nested')) (fun _ => True) s s' := by
  obtain ⟨phrases, hphrases⟩ := h.follows
  intro d hd
  obtain ⟨v, d', ho, -, hd'⟩ := hgets hd
  obtain ⟨t, ht, hexpression⟩ := (predicts_expressionStatement hphrases).follows.sound ho hd'
  have hstatement : Statement phrases t v s' := by simp only [Statement, hexpression, or_true]
  obtain ⟨m, hm, hlexed⟩ := (predicts_statementForms hphrases).follows.complete ht (.inr ⟨v, hstatement, rfl⟩)
  exact ⟨some v, m, hm, trivial, hlexed⟩

theorem tracks_statement : (statement nested).Tracks deep (fun _ : ι => statement nested') AnyResult .further .further :=
  (tracks_statementForms h).expect (steady_statementForms h.steady) fun hd =>
    (supplies_expressionStatement h hd).mono fun _ _ hall i => gets_statementForms h (hall i)

end Statements

section Blocks
variable {c c' : Cursor} {s s' : Stream} {listed : List Node}

/-- What the source ends a block with comes next in the other source, or a word that ends blocks. -/
theorem blockEnds_of_sees (hends : endsBlock c.rest) (hsees : Ahead.ended.Sees c s) : BlockEnds s := by
  rcases hsees.1 with ⟨⟨token, hopens, hn⟩, -⟩ | hnil | hnext
  · simp only [endsBlock, Bool.or_eq_true, List.isEmpty_iff, List.any_eq_true] at hends
    rcases hends with hrest | ⟨word, hm, hword⟩
    · exact (hopens.ne_nil hrest).elim
    · have hall : ∀ word ∈ blockEnds, word ∈ reservedWords ∧
          Kind.fixed word ∈ (["return", "end", "elseif", "else", "until"] : List Kind) := by decide
      obtain rfl := hopens.word (hall word hm).1 hword
      exact .inr ⟨_, hn, (hall word hm).2⟩
  · exact .inl hnil
  · exact .inr (hnext.mono (by decide))

theorem blockEnds_of_ends (h : Ahead.ended.Ends s) : BlockEnds s := h.1.imp_right fun hn => hn.mono (by decide)

theorem lacks_statementStep (h : BlockEnds s) : (statementStep nested listed).Lacks s :=
  fun _ hd => if_pos ((endsBlock_iff hd).mpr h)

theorem statementStep_eq_none : statementStep nested listed c = .ok none c' ↔ endsBlock c.rest ∧ c = c' := by
  rw [statementStep]
  split
  · next hends => simp [hends]
  · next hends => simp [hends, map_eq_ok]

theorem statement_of_step {next : List Node} (ho : statementStep nested listed c = .ok (some next) c') :
    ∃ found, statement nested c = .ok found c' := by
  rw [statementStep] at ho
  split at ho
  · cases ho
  · obtain ⟨_, ho, -⟩ := map_eq_ok.mp ho
    obtain ⟨_, ho, -⟩ := map_eq_ok.mp ho
    obtain ⟨found, ho, -⟩ := map_eq_ok.mp ho
    exact ⟨found, ho⟩

theorem statement_of_step_error {e : Failure} (he : statementStep nested listed c = .error e c') :
    statement nested c = .error e c' := by
  rw [statementStep] at he
  split at he
  · cases he
  · exact map_eq_error.mp (map_eq_error.mp (map_eq_error.mp he))

variable (h : Nested.Tracks deep nested nested')
include h

theorem gets_statementStep {P : Option Node → Prop} (hgets : (statement nested').Gets P s s') :
    (statementStep nested' listed).Gets (fun _ => True) s s' := by
  obtain ⟨phrases, hphrases⟩ := h.follows
  intro d hd
  obtain ⟨found, d', ho, -, hd'⟩ := hgets hd
  obtain ⟨t, ht, hfound⟩ := ((predicts_statementForms hphrases).expect .statement).sound ho hd'
  obtain ⟨m, hm, hlexed⟩ := (follows_statementStep hphrases listed).complete ht ⟨found, hfound, rfl⟩
  exact ⟨_, m, hm, trivial, hlexed⟩

theorem tracks_listed : (iterate (statementStep nested) []).Tracks deep (fun _ : ι => iterate (statementStep nested') [])
    AnyResult .further .ended := by
  have hok {listed next : List Node} {c m : Cursor} (hc : c.Ready) (ho : statementStep nested listed c = .ok (some next) m) :
      c.Carried m .further .further fun s s' => ∀ (_ : ι) listed', AnyResult listed listed' →
        (statementStep nested' listed').Gets (AnyResult next) s s' := by
    obtain ⟨found, ho⟩ := statement_of_step ho
    refine ((tracks_statement (ι := ι) h).ok hc ho).mono fun s s' hall i listed' _ => ?_
    exact (gets_statementStep h (hall i)).mono fun _ _ => trivial
  have herror (hd : deep) {listed : List Node} {c : Cursor} {label : Label} {offset : Nat} {c' : Cursor} (hc : c.Ready)
      (he : statementStep nested listed c = .error (.expected label offset) c') :
      c.Completed label offset .further .further fun s s' => ∀ (_ : ι) listed', AnyResult listed listed' →
        (statementStep nested' listed').Gets (fun _ => True) s s' := by
    refine ((tracks_statement (ι := ι) h).error hd hc (statement_of_step_error he)).mono fun s s' hall i listed' _ => ?_
    exact gets_statementStep h (hall i)
  have hwithin : Ahead.ended.Within .further := by decide
  exact .iterate_of (steady_statementStep h.steady) (fun _ => steady_statementStep h.steady') hok herror
    (fun _ => hwithin) hwithin (fun _ ho hsees => lacks_statementStep (blockEnds_of_sees (statementStep_eq_none.mp ho).1 hsees))
    (fun _ _ _ _ hends => lacks_statementStep (blockEnds_of_ends hends)) fun _ => trivial

theorem tracks_statements :
    (statements nested).Tracks deep (fun _ : ι => statements nested') AnyResult .further .ended := by
  have hlast : Parse.Tracks deep (returnStatement nested) (fun _ : ι × List Node => returnStatement nested') AnyResult
      .ended .ended :=
    (tracks_returnStatement h).optional (fun _ => (settles_keyword (by decide)).andThen _ _)
      (steady_returnStatement h.steady) (.refl _) (by decide)
  exact (tracks_listed h).bind fun _ => hlast.bind fun _ => .pure fun _ => trivial

omit h in
theorem tracks_get {start : Ahead} :
    (get : Parse Cursor).Tracks deep (fun _ : ι => (get : Parse Cursor)) AnyResult start start where
  ok hc ho := by
    obtain ⟨rfl, rfl⟩ := get_eq_ok.mp ho
    exact .refl fun s _ _ d hd => ⟨d, d, rfl, trivial, hd⟩
  error _ _ _ _ _ _ he := nomatch he
  closes _ := .refl fun _ _ _ d hd => ⟨d, d, rfl, trivial, hd⟩

theorem tracks_block : (block nested).Tracks deep (fun _ : ι => block nested') AnyResult .further .ended :=
  tracks_get.bind fun _ => (tracks_statements h).bind fun _ => .pure fun _ => trivial

end Blocks

section Nesting
variable {limit limit' : Nat} {rule' : Rule Node}

theorem statements_nil {phrases : Phrases} {s : Stream} (hends : Ahead.ended.Ends s) : Statements phrases s [] s := by
  have hreturn : ¬ s.Next ["return"] := hends.not_next (by decide : Ahead.ended.Spares ["return"] [])
  exact ⟨[], s, ⟨.nil, blockEnds_of_ends hends⟩, none, ⟨hreturn, rfl⟩, rfl⟩

theorem gets_emptyBlock {phrases : Phrases} (h : nested'.Follows phrases) {s : Stream} (hends : Ahead.ended.Ends s) :
    (block nested').Gets (fun _ => True) s s := by
  intro d hd
  obtain ⟨m, hm, hlexed⟩ := (follows_block h).complete hd ⟨[], statements_nil hends, rfl⟩
  exact ⟨_, m, hm, trivial, hlexed⟩

theorem operand_tooDeep (hs : rule'.Steady) (hf : deep → rule'.Fills) : Rule.Operand deep tooDeep rule' where
  tracks := ⟨fun _ ho => (nomatch ho), fun _ _ _ _ _ _ he => (nomatch he)⟩
  steady := (steady_nesting 0).expression
  steady' := hs
  avoids c _ _ _ := .inr ⟨c.offset, c, rfl⟩
  fills := hf

theorem tracks_zero (hdeep : deep → 0 < limit) : Nested.Tracks deep (nesting 0) (nesting limit) := by
  have hsteady := steady_nesting limit
  have hlevel (hd : deep) : ∃ levels, limit = levels + 1 := ⟨limit - 1, (Nat.sub_add_cancel (hdeep hd)).symm⟩
  refine ⟨steady_nesting 0, hsteady, ⟨_, follows_nesting limit⟩, operand_tooDeep hsteady.expression fun hd => ?_,
    operand_tooDeep hsteady.concatenation fun hd => ?_, operand_tooDeep hsteady.unary fun hd => ?_, ⟨nofun, ?_⟩,
    ⟨fun _ ho => (nomatch ho), fun _ _ _ _ _ _ he => (nomatch he), fun hd => ?_⟩⟩
  · obtain ⟨levels, rfl⟩ := hlevel hd
    exact fills_expression (steady_nesting levels)
  · obtain ⟨levels, rfl⟩ := hlevel hd
    exact fills_concatenation (steady_nesting levels)
  · obtain ⟨levels, rfl⟩ := hlevel hd
    exact fills_unary
  · rintro (hd | ⟨c, c', ho⟩) s hn
    · obtain ⟨levels, rfl⟩ := hlevel hd
      exact (predicts_expression (follows_nesting levels)).lacks fun hnext => hn (hnext.mono fun _ => List.mem_append_left _)
    · cases ho
  · obtain ⟨levels, rfl⟩ := hlevel hd
    have hempty : Ahead.ended.Closed .ended fun s s' => Unit → (block (nesting levels)).Gets (fun _ => True) s s' :=
      .refl fun _ hends _ => gets_emptyBlock (follows_nesting levels) hends
    exact hempty.within (by decide) (.refl _)

theorem tracks_nesting (hle : limit ≤ limit') (hdeep : deep → limit < limit') :
    Nested.Tracks deep (nesting limit) (nesting limit') := by
  induction limit generalizing limit' with
  | zero => exact tracks_zero hdeep
  | succ levels ih =>
    obtain ⟨levels', rfl⟩ : ∃ levels', limit' = levels' + 1 := ⟨limit' - 1, by omega⟩
    have h := ih (Nat.le_of_succ_le_succ hle) fun hd => Nat.lt_of_succ_lt_succ (hdeep hd)
    exact ⟨steady_nesting _, steady_nesting _, ⟨_, follows_nesting _⟩, operand_expression h, operand_concatenation h,
      operand_unary h, settles_expression h, tracks_block h⟩

end Nesting

end Grammar
end LuaSyntax
