import LuaSyntax.Proofs.Print.Definition

/-! # Reading printed trees

A block is read back from its statements, with an empty statement for each semicolon between
them. By induction on its shape every tree is read back by the phrases for its role.
-/
namespace LuaSyntax

open Phrase

namespace Node

variable {v : Node} {levels : Nat} {s s' : Stream} {span : Span}

section Blocks
variable {statements : List Node} {last : Option Node} (h : ∀ v ∈ statements, v.ReadsStatement)
  (hl : ∀ v ∈ last, v.ReadsLast)
include h hl

theorem reads_statements (hw : ∀ v ∈ statements ++ last.toList, v.weight ≤ levels)
    (hs : s.Spells (separated (.fixed ";") ((statements ++ last.toList).map tokens)) s') (hf : s'.EndsBlock) :
    ∃ listed, Statements (phrases levels) s listed s' ∧ AllEqBare listed (statements ++ last.toList) := by
  have hreturn : ¬ s'.Next ["return"] := hf.statement.not_next (by decide)
  have hend : BlockEnds s' := hf.imp_right fun hn => hn.mono (by decide)
  induction statements generalizing s with
  | nil =>
    cases last with
    | none =>
      obtain rfl : s' = s := hs
      exact ⟨[], ⟨[], s', ⟨.nil, hend⟩, none, ⟨hreturn, rfl⟩, rfl⟩, rfl⟩
    | some v =>
      obtain ⟨v', hv', halike⟩ := hl v rfl levels (hw v List.mem_cons_self) hs hf
      have hnext : s.Next ["return"] := by
        obtain ⟨first, m, ht, -⟩ := hv'
        exact ht.opens
      exact ⟨[v'], ⟨[], s, ⟨.nil, .inr (hnext.mono (by decide))⟩, some v', hv', rfl⟩,
        by simpa [AllEqBare, EqBare] using halike⟩
  | cons v statements ih =>
    obtain ⟨hv, h⟩ := List.forall_mem_cons.mp h
    obtain ⟨hwv, hw⟩ := List.forall_mem_cons.mp hw
    cases hothers : statements ++ last.toList with
    | nil =>
      rw [List.cons_append, hothers] at hs
      obtain ⟨v', hv', halike⟩ := hv levels hwv hs hf.statement
      refine ⟨[v'], ⟨[some v'], s', ⟨.cons (.inr ⟨v', hv', rfl⟩) .nil, hend⟩, none, ⟨hreturn, rfl⟩, rfl⟩, ?_⟩
      rw [List.cons_append, hothers]
      simpa [AllEqBare, EqBare] using halike
    | cons w others =>
      rw [List.cons_append, hothers] at hs
      obtain ⟨m, hfirst, found, m', hsemicolon, hrest⟩ := Stream.spells_append.mp hs
      have hspells : m'.Spells (separated (.fixed ";") ((statements ++ last.toList).map tokens)) s' := by
        rw [hothers]
        exact hrest
      obtain ⟨v', hv', halike⟩ := hv levels hwv hfirst (.inr (hsemicolon.opens.mono (by decide)))
      obtain ⟨listed, ⟨statements', m'', ⟨hstatements, hend⟩, last', hlast, rfl⟩, halikes⟩ := ih h hw hspells
      refine ⟨v' :: (statements'.flatMap Option.toList ++ last'.toList), ⟨some v' :: none :: statements', m'',
        ⟨.cons (.inr ⟨v', hv', rfl⟩) (.cons (.inl ⟨found, hsemicolon, rfl⟩) hstatements), hend⟩, last', hlast, rfl⟩, ?_⟩
      simp only [AllEqBare, EqBare, List.cons_append, List.map_cons] at halike halikes ⊢
      rw [halike, halikes]

theorem reads_block : ReadsBlock ⟨.block (statements ++ last.toList), span⟩ := by
  intro levels hw s s' hs hf
  rw [tokens, tokensEach_eq_map] at hs
  obtain ⟨listed, hlisted, halikes⟩ := reads_statements h hl (fun v hm => Nat.le_of_lt (weight_child hw hm)) hs hf
  refine ⟨_, ⟨listed, hlisted, rfl⟩, ?_⟩
  simp only [AllEqBare, EqBare, bare] at halikes ⊢
  simp only [ofItems, respan, respanEach_eq_map, halikes]

end Blocks

/-- No function that is a method. -/
def Plain (v : Node) : Prop := ∀ parameters body, v.form ≠ .function parameters body true

/-- A tree is read back as what its role stands for. -/
def Reads : Role → Node → Prop
  | .block, v => v.ReadsBlock
  | .statement, v => v.ReadsStatement
  | .last, v => v.ReadsLast
  | .names, v => ∃ first others span, v = ⟨.nameList (first :: others), span⟩ ∧ ∀ u ∈ first :: others, u.ReadsName
  | .targets, v => ∃ first others span, v = ⟨.targetList (first :: others), span⟩ ∧
      (∀ u ∈ first :: others, u.ReadsBase) ∧ ∀ u ∈ first :: others, u.form.isAssignable
  | .values, v => ∃ values span, v = ⟨.valueList values, span⟩ ∧ ∀ u ∈ values, u.ReadsExpression ∧ u.Plain
  | .expression, v => v.ReadsExpression ∧ v.Plain
  | .base, v => v.ReadsBase ∧ v.Plain
  | .field, v => v.ReadsField
  | .function, v => ∃ parameters body span, v = ⟨.function parameters body false, span⟩ ∧ ReadsFunction false v
  | .method, v => ∃ parameters body span, v = ⟨.function parameters body true, span⟩ ∧ ReadsFunction true v
  | .name, v => v.ReadsName ∧ v.Unnamed ∧ v.Plain
  | .key, v => v.ReadsKey
  | .rest, v => v.ReadsRest
  | .path, v => v.ReadsPath

/-- Trees of every shape are read back. -/
theorem reads_of_shaped {role : Role} (h : Shaped role v) : Reads role v := by
  induction h with
  | name h => exact ⟨readsName_of_identifier h, unnamed_name h, nofun⟩
  | key h => exact readsKey_of_identifier h
  | rest => exact readsRest_varargs
  | pathName h =>
    cases h with
    | name h => exact readsPath_name h
  | pathIndex _ _ iho ihk => exact readsPath_index iho ihk
  | baseName _ ih => exact ⟨reads_name ih.1 ih.2.1, ih.2.2⟩
  | paren _ ih => exact ⟨reads_paren ih.1, nofun⟩
  | index _ _ iho ihk => exact ⟨reads_index iho.1 ihk.1, nofun⟩
  | call _ _ ihc iha => exact ⟨reads_call ihc.1 fun v hm => (iha v hm).1, nofun⟩
  | invoke _ _ _ iho ihm iha => exact ⟨reads_invoke iho.1 ihm fun v hm => (iha v hm).1, nofun⟩
  | string => exact ⟨reads_string, nofun⟩
  | number => exact ⟨reads_number, nofun⟩
  | boolean => exact ⟨reads_boolean, nofun⟩
  | nil => exact ⟨reads_nil, nofun⟩
  | varargs => exact ⟨reads_varargs, nofun⟩
  | table _ ih => exact ⟨reads_table ih, nofun⟩
  | expressionFunction _ ih =>
    obtain ⟨parameters, body, span, rfl, ih⟩ := ih
    exact ⟨reads_function ih, nofun⟩
  | expressionBase h ih => exact ⟨reads_base ih.1 h.rank_base, ih.2⟩
  | binary _ _ ha ihl ihr => exact ⟨reads_binary ihl.1 ihr.1 ha, nofun⟩
  | unary _ ha ih => exact ⟨reads_unary ih.1 ha, nofun⟩
  | fieldItem _ ih => exact reads_item ih.1
  | pair _ _ ihk ihv => exact reads_pair ihk.1 ihv.1
  | function _ _ _ ihn ihr ihb =>
    exact ⟨_, _, _, rfl, readsFunction_function (fun v hm => (ihn v hm).1) ihr ihb⟩
  | method _ _ _ ihn ihr ihb =>
    exact ⟨_, _, _, rfl, readsFunction_method (fun v hm => (ihn v hm).1) ihr ihb⟩
  | names _ hne ih =>
    obtain ⟨first, others, rfl⟩ := List.exists_cons_of_ne_nil hne
    exact ⟨first, others, _, rfl, fun v hm => (ih v hm).1⟩
  | targets _ ha hne ih =>
    obtain ⟨first, others, rfl⟩ := List.exists_cons_of_ne_nil hne
    exact ⟨first, others, _, rfl, fun v hm => (ih v hm).1, ha⟩
  | values _ ih => exact ⟨_, _, rfl, ih⟩
  | doBlock _ ih => exact reads_doBlock ih
  | conditional hne _ _ _ ihc ihb iho => exact reads_conditional hne (fun b hm => (ihc b hm).1) ihb iho
  | whileLoop _ _ ihc ihb => exact reads_whileLoop ihc.1 ihb
  | repeatLoop _ _ ihb ihc => exact reads_repeatLoop ihb ihc.1
  | numericFor _ _ _ _ _ ihn ihs ihl ihp ihb =>
    exact reads_numericFor ihn.1 ihs.1 ihl.1 (fun v hm => (ihp v hm).1) ihb
  | genericFor _ _ hne _ ihn ihv ihb =>
    obtain ⟨first, names, _, rfl, ihn⟩ := ihn
    obtain ⟨values, _, rfl, ihv⟩ := ihv
    obtain ⟨value, values, rfl⟩ := List.exists_cons_of_ne_nil hne
    exact reads_genericFor ihn (fun v hm => (ihv v hm).1) ihb
  | localNames _ _ ihn ihv =>
    obtain ⟨first, names, _, rfl, ihn⟩ := ihn
    obtain ⟨values, _, rfl, ihv⟩ := ihv
    exact reads_localNames ihn fun v hm => (ihv v hm).1
  | localFunction _ _ ihn ihf =>
    obtain ⟨parameters, body, span, rfl, ihf⟩ := ihf
    exact reads_localFunction ihn.1 ihf
  | assignment _ _ hne iht ihv =>
    obtain ⟨first, targets, _, rfl, iht, ha⟩ := iht
    obtain ⟨values, _, rfl, ihv⟩ := ihv
    obtain ⟨value, values, rfl⟩ := List.exists_cons_of_ne_nil hne
    exact reads_assignment iht ha (fun v hm => (ihv v hm).1) fun v hm => (ihv v hm).2
  | methodDefinition _ _ _ iho ihk ihf =>
    obtain ⟨parameters, body, span, rfl, ihf⟩ := ihf
    exact reads_methodDefinition iho ihk ihf
  | label h => exact reads_label h
  | goto h => exact reads_goto h
  | breakLoop => exact reads_breakLoop
  | statementCall _ hc ih => exact reads_statementCall ih.1 hc
  | returnValues _ ih => exact reads_returnValues fun v hm => (ih v hm).1
  | block _ _ ihs ihl => exact reads_block ihs ihl

theorem reads_root (h : Shaped .block v) (hw : v.weight ≤ levels) (hs : s.Spells v.tokens s') (hnil : s'.lexemes = []) :
    ∃ root, Chunk levels s root ∧ root.EqBare v := by
  cases h with
  | @block statements last _ hst hl =>
    rw [tokens, tokensEach_eq_map] at hs
    obtain ⟨listed, hlisted, halikes⟩ := reads_statements (fun v hm => reads_of_shaped (hst v hm))
      (fun v hm => reads_of_shaped (hl v hm)) (fun v hm => Nat.le_of_lt (weight_child hw hm)) hs (.inl hnil)
    refine ⟨_, ⟨listed, s', hlisted, hnil, rfl⟩, ?_⟩
    simp only [AllEqBare, EqBare, bare] at halikes ⊢
    simp only [respan, respanEach_eq_map, halikes]

end Node

end LuaSyntax
