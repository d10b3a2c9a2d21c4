import LuaSyntax.Proofs.Print.Function

/-! # Reading printed statements

A statement is read back in front of a semicolon or of what ends its block, and a block in
front of what ends it. Lists of names, targets and values are read back where what follows
does not go on with them.
-/
namespace LuaSyntax

open Phrase
open Grammar (valueList indexed)

namespace Stream

/-- The source ends, or a token comes next that ends a block. -/
def EndsBlock (s : Stream) : Prop := s.lexemes = [] ∨ s.Next ["end", "elseif", "else", "until"]

/-- A block ends, or a semicolon comes next. -/
def EndsStatement (s : Stream) : Prop := s.lexemes = [] ∨ s.Next [";", "end", "elseif", "else", "until"]

variable {s : Stream} {kinds : List Kind}

theorem EndsBlock.statement (h : s.EndsBlock) : s.EndsStatement := h.imp_right fun hn => hn.mono (by decide)

theorem EndsStatement.closes (h : s.EndsStatement) : s.Closes := h.imp_right fun hn => hn.mono (by decide)

theorem EndsStatement.not_next (h : s.EndsStatement)
    (hk : ∀ kind ∈ [Kind.fixed ";", "end", "elseif", "else", "until"], kind ∉ kinds) : ¬ s.Next kinds := by
  rcases h with h | h
  · exact not_next_of_nil h
  · exact h.disjoint hk

end Stream

namespace Node

section Lists
variable {v : Node} {others : List Node} {levels : Nat} {s s' : Stream} {span : Span}

theorem isAssignable_of_eqBare {v v' : Node} (h : v'.EqBare v) : v'.form.isAssignable = v.form.isAssignable := by
  have hbare (w : Node) : w.bare.form.isAssignable = w.form.isAssignable := by
    obtain ⟨form, span⟩ := w
    cases form <;> rfl
  rw [← hbare v', ← hbare v, h]

theorem isCall_of_eqBare {v v' : Node} (h : v'.EqBare v) : v'.form.isCall = v.form.isCall := by
  have hbare (w : Node) : w.bare.form.isCall = w.form.isCall := by
    obtain ⟨form, span⟩ := w
    cases form <;> rfl
  rw [← hbare v', ← hbare v, h]

/-- Names with commas between them are read back, the first on its own. -/
theorem reads_names (h : ∀ w ∈ v :: others, w.ReadsName)
    (hs : s.Spells (tokens ⟨.nameList (v :: others), span⟩) s') (hf : ¬ s'.Next [","]) :
    ∃ declared m names, Name s declared m ∧ NameList declared m names s' ∧ names.EqBare ⟨.nameList (v :: others), span⟩ ∧
      (m = s' ∨ m.Next [","]) := by
  rw [tokens, tokensEach_eq_map] at hs
  obtain ⟨declared, m, names, hdeclared, hnames, halikes⟩ := readable_list h (fun _ => trivial) hs trivial
  refine ⟨declared, m, _, hdeclared, ⟨names, ⟨hnames, .inl hf⟩, rfl⟩, ?_, ?_⟩
  · simp only [AllEqBare, EqBare, bare, ofItems, respan, respanEach_eq_map] at halikes ⊢
    rw [halikes]
  · cases hnames with
    | nil => exact .inl rfl
    | cons h _ =>
      obtain ⟨found, m', hc, -⟩ := h
      exact .inr hc.opens

theorem reads_values (h : ∀ w ∈ v :: others, w.ReadsExpression) (hw : ∀ w ∈ v :: others, w.weight < levels)
    (hs : s.Spells (tokens ⟨.valueList (v :: others), span⟩) s') (hf : s'.Closes) (hc : ¬ s'.Next [","]) :
    ∃ values, Expressions (phrases levels) s values s' ∧ AllEqBare values (v :: others) := by
  rw [tokens, tokensEach_eq_map] at hs
  obtain ⟨v', m, others', hv, hothers, halikes⟩ := readable_list (fun w hm => (h w hm).nested (hw w hm))
    (fun hn => .inr (hn.mono (by decide))) hs hf
  exact ⟨v' :: others', ⟨v', m, hv, others', ⟨hothers, hc⟩, rfl⟩, halikes⟩

theorem eqBare_valueList {values : List Node} {before : Node} (h : AllEqBare values (v :: others)) :
    (valueList values before).EqBare ⟨.valueList (v :: others), span⟩ := by
  simp only [AllEqBare, EqBare, bare, valueList, ofItems, respan, respanEach_eq_map] at h ⊢
  rw [h]

end Lists

/-- A statement is read back. -/
def ReadsStatement (v : Node) : Prop :=
  ∀ levels, v.weight ≤ levels → Readable (Statement (phrases levels)) Stream.EndsStatement v.tokens v

/-- A statement that ends its block is read back. -/
def ReadsLast (v : Node) : Prop :=
  ∀ levels, v.weight ≤ levels → Readable (ReturnStatement (phrases levels)) Stream.EndsBlock v.tokens v

section Statements
variable {condition body : Node} {branches : List (Node × Node)} {otherwise : Option Node} {levels : Nat}
  {s s' : Stream} {span : Span}

theorem reads_doBlock (hb : body.ReadsBlock) : ReadsStatement ⟨.doBlock body, span⟩ := by
  intro levels hw s s' hs _
  simp only [tokens, Stream.spells_append, Stream.Spells] at hs
  obtain ⟨m₂, ⟨first, m₁, hdo, hblock⟩, last, m₃, hend, rfl⟩ := hs
  have hweight : body.weight < levels := weight_child hw List.mem_cons_self
  obtain ⟨body', hbody, halike⟩ := hb.nested hweight hblock (.inr (hend.opens.mono (by decide)))
  refine ⟨⟨.doBlock body', first.pos, s'.lastEnd⟩, .inr (.inl ⟨first, m₁, hdo, body', m₂, hbody, last, hend, rfl⟩), ?_⟩
  simp only [EqBare, bare, respan] at halike ⊢
  rw [halike]

theorem reads_whileLoop (hc : condition.ReadsExpression) (hb : body.ReadsBlock) :
    ReadsStatement ⟨.whileLoop condition body, span⟩ := by
  intro levels hw s s' hs _
  simp only [tokens, Stream.spells_append, Stream.Spells] at hs
  obtain ⟨m₄, ⟨m₂, ⟨first, m₁, hwhile, hcondition⟩, found, m₃, hdo, hblock⟩, last, m₅, hend, rfl⟩ := hs
  have hwc : condition.weight < levels := weight_child hw List.mem_cons_self
  have hwb : body.weight < levels := weight_child hw (List.mem_cons_of_mem _ List.mem_cons_self)
  obtain ⟨condition', hcondition, hcalike⟩ := hc.nested hwc hcondition (.inr (hdo.opens.mono (by decide)))
  obtain ⟨body', hbody, hbalike⟩ := hb.nested hwb hblock (.inr (hend.opens.mono (by decide)))
  refine ⟨⟨.whileLoop condition' body', first.pos, s'.lastEnd⟩, .inr (.inr (.inl ⟨first, m₁, hwhile, condition', m₂,
    hcondition, found, m₃, hdo, body', m₄, hbody, last, hend, rfl⟩)), ?_⟩
  simp only [EqBare, bare, respan] at hcalike hbalike ⊢
  rw [hcalike, hbalike]

theorem reads_repeatLoop (hb : body.ReadsBlock) (hc : condition.ReadsExpression) :
    ReadsStatement ⟨.repeatLoop body condition, span⟩ := by
  intro levels hw s s' hs hf
  simp only [tokens, Stream.spells_append, Stream.Spells] at hs
  obtain ⟨m₂, ⟨first, m₁, hrepeat, hblock⟩, found, m₃, huntil, hcondition⟩ := hs
  have hwb : body.weight < levels := weight_child hw List.mem_cons_self
  have hwc : condition.weight < levels := weight_child hw (List.mem_cons_of_mem _ List.mem_cons_self)
  obtain ⟨body', hbody, hbalike⟩ := hb.nested hwb hblock (.inr (huntil.opens.mono (by decide)))
  obtain ⟨condition', hcondition, hcalike⟩ := hc.nested hwc hcondition hf.closes
  refine ⟨⟨.repeatLoop body' condition', first.pos, s'.lastEnd⟩, .inr (.inr (.inr (.inl ⟨first, m₁, hrepeat, body', m₂,
    hbody, found, m₃, huntil, condition', hcondition, rfl⟩))), ?_⟩
  simp only [EqBare, bare, respan] at hcalike hbalike ⊢
  rw [hcalike, hbalike]

section Conditionals

/-- A branch is read back after its first word. -/
theorem reads_branch (hc : condition.ReadsExpression) (hb : body.ReadsBlock) (hwc : condition.weight < levels)
    (hwb : body.weight < levels) (hs : s.Spells (condition.tokens ++ .fixed "then" :: body.tokens) s')
    (hf : s'.Next ["elseif", "else", "end"]) :
    ∃ condition' body', Branch (phrases levels) s (condition', body') s' ∧ condition'.EqBare condition ∧
      body'.EqBare body := by
  obtain ⟨m₁, hcondition, found, m₂, hthen, hblock⟩ := Stream.spells_append.mp hs
  obtain ⟨condition', hcondition, hcalike⟩ := hc.nested hwc hcondition (.inr (hthen.opens.mono (by decide)))
  obtain ⟨body', hbody, hbalike⟩ := hb.nested hwb hblock (.inr (hf.mono (by decide)))
  exact ⟨condition', body', ⟨condition', m₁, hcondition, found, m₂, hthen, body', hbody, rfl⟩, hcalike, hbalike⟩

/-- Branches that differ at most in their spans, one by one. -/
def BranchesEqBare (branches branches' : List (Node × Node)) : Prop :=
  branches.map (Prod.map bare bare) = branches'.map (Prod.map bare bare)

theorem reads_branches (hc : ∀ b ∈ branches, b.1.ReadsExpression) (hb : ∀ b ∈ branches, b.2.ReadsBlock)
    (hw : ∀ b ∈ branches, b.1.weight < levels ∧ b.2.weight < levels)
    (hs : s.Spells (branchTokens "elseif" branches) s') (hf : s'.Next ["else", "end"]) :
    ∃ branches', Sequence (After "elseif" (Branch (phrases levels))) s branches' s' ∧
      BranchesEqBare branches' branches ∧ s.Next ["elseif", "else", "end"] := by
  induction branches generalizing s with
  | nil =>
    obtain rfl : s' = s := hs
    exact ⟨[], .nil, rfl, hf.mono (by decide)⟩
  | cons branch branches ih =>
    obtain ⟨condition, body⟩ := branch
    obtain ⟨hc, hcothers⟩ := List.forall_mem_cons.mp hc
    obtain ⟨hb, hbothers⟩ := List.forall_mem_cons.mp hb
    obtain ⟨⟨hwc, hwb⟩, hwothers⟩ := List.forall_mem_cons.mp hw
    obtain ⟨m, hfirst, hrest⟩ := Stream.spells_append.mp hs
    obtain ⟨found, m₁, ht, hbranch⟩ := hfirst
    obtain ⟨branches', hbranches, halikes, hnext⟩ := ih hcothers hbothers hwothers hrest
    obtain ⟨condition', body', hbranch, hcalike, hbalike⟩ := reads_branch hc hb hwc hwb hbranch hnext
    refine ⟨(condition', body') :: branches', .cons ⟨found, m₁, ht, hbranch⟩ hbranches, ?_, ht.opens.mono (by decide)⟩
    simp only [BranchesEqBare, EqBare, List.map_cons, Prod.map_apply] at hcalike hbalike halikes ⊢
    rw [hcalike, hbalike, halikes]

theorem reads_conditional (hne : branches ≠ []) (hc : ∀ b ∈ branches, b.1.ReadsExpression)
    (hb : ∀ b ∈ branches, b.2.ReadsBlock) (ho : ∀ v ∈ otherwise, v.ReadsBlock) :
    ReadsStatement ⟨.conditional branches otherwise, span⟩ := by
  intro levels hw s s' hs _
  have hweight : ∀ child ∈ Form.children (.conditional branches otherwise), child.weight < levels :=
    fun child hm => weight_child hw hm
  simp only [Form.children, List.forall_mem_append, List.forall_mem_flatMap, List.forall_mem_cons, List.not_mem_nil,
    false_imp_iff, implies_true, and_true, Option.mem_toList] at hweight
  obtain ⟨hwb, hwo⟩ := hweight
  obtain ⟨⟨condition, body⟩, branches, rfl⟩ := List.exists_cons_of_ne_nil hne
  obtain ⟨hc, hcothers⟩ := List.forall_mem_cons.mp hc
  obtain ⟨hb, hbothers⟩ := List.forall_mem_cons.mp hb
  obtain ⟨⟨hwc, hwb⟩, hwothers⟩ := List.forall_mem_cons.mp hwb
  simp only [tokens, Stream.spells_append] at hs
  obtain ⟨m₄, ⟨m₃, hbranches, helse⟩, last, m, hend, rfl⟩ := hs
  have hotherwise : ∃ otherwise', Optional (After "else" (phrases levels).block) (¬ ·.Next ["else"]) m₃ otherwise' m₄ ∧
      otherwise'.map bare = otherwise.map bare ∧ m₃.Next ["else", "end"] := by
    cases otherwise with
    | none =>
      obtain rfl : m₄ = m₃ := helse
      exact ⟨none, ⟨hend.opens.disjoint (by decide), rfl⟩, rfl, hend.opens.mono (by decide)⟩
    | some body =>
      obtain ⟨found, m, ht, hblock⟩ := helse
      obtain ⟨body', hbody, halike⟩ := (ho body rfl).nested (hwo body rfl) hblock (.inr (hend.opens.mono (by decide)))
      exact ⟨some body', ⟨found, m, ht, hbody⟩, congrArg some halike, ht.opens.mono (by decide)⟩
  obtain ⟨otherwise', hotherwise, hoalike, hnext⟩ := hotherwise
  obtain ⟨m₂, hhead, hothers⟩ := Stream.spells_append.mp hbranches
  obtain ⟨first, m₁, hif, hhead⟩ := hhead
  obtain ⟨others', hothers, halikes, hnext'⟩ := reads_branches hcothers hbothers hwothers hothers hnext
  obtain ⟨condition', body', hhead, hcalike, hbalike⟩ := reads_branch hc hb hwc hwb hhead hnext'
  refine ⟨⟨.conditional ((condition', body') :: others') otherwise', first.pos, s'.lastEnd⟩, .inl ⟨first, m₁, hif,
    (condition', body'), m₂, hhead, others', m₃, ⟨hothers, hnext.disjoint (by decide)⟩, otherwise', m₄, hotherwise, last,
    hend, rfl⟩, ?_⟩
  simp only [BranchesEqBare, EqBare] at hcalike hbalike halikes ⊢
  simp only [bare, respan, respanBranches_eq_map, respanOption_eq_map] at hcalike hbalike halikes hoalike ⊢
  simp only [List.map_cons, hcalike, hbalike, hoalike]
  exact congrArg (fun others => Node.mk (.conditional (_ :: others) _) _) halikes

end Conditionals

end Statements

end Node

end LuaSyntax
