import LuaSyntax.Proofs.Excerpt.Derived
import LuaSyntax.Proofs.Span.Statement

/-! # Derivations of all statements

Statements and blocks are read where they stand, and so are all nodes in them. From there it
follows by induction on the nesting levels that all nodes of a tree are.
-/
namespace LuaSyntax

open Phrase

variable {whole : Stream} {limit : Nat}

namespace Phrase

open Grammar (Tier indexed selfParameter valueList)

variable {levels : Nat} {s m s' : Stream} {v : Node}

section Lists

theorem derives_items {form : List Node → Form Node} {items : List Node} {anchor : Nat} {standing : Standing}
    (hstanding : standing = .list ∨ standing = .other)
    (hform : ∀ standing span, (⟨form items, span⟩ : Node).parts standing =
      items.map (if standing = .list then .expression else .other, ·))
    (h : ∀ v ∈ items, Derives whole limit .expression v) :
    Derives whole limit standing (.ofItems form items anchor) :=
  .list standing hstanding (fun standing => hform standing _) h

theorem derives_valueList {values : List Node} {before : Node} {standing : Standing}
    (hstanding : standing = .list ∨ standing = .other) (h : ∀ v ∈ values, Derives whole limit .expression v) :
    Derives whole limit standing (valueList values before) :=
  derives_items hstanding (fun _ _ => rfl) h

theorem derives_nameList {first : Node} (hk : levels ≤ limit) (hs : whole.Reaches s)
    (hf : Derives whole limit .expression first) (h : NameList first s v s') : Derives whole limit .list v := by
  obtain ⟨others, ⟨hothers, -⟩, rfl⟩ := h
  refine derives_items (.inl rfl) (fun _ _ => rfl) (List.forall_mem_cons.mpr ⟨hf, ?_⟩)
  refine forall_sequence (fun hs h => ?_) hs hothers
  obtain ⟨span, m, hc, hv⟩ := h
  exact ⟨hc.reaches.trans (closes_name.reaches hv), derives_name hk (hs.trans hc.reaches) hv⟩

end Lists

section Statements
variable (hk : levels ≤ limit) (hd : (phrases levels).Derives whole limit)

section Blocks
include hd

theorem derives_branch {branch : Node × Node} (hs : whole.Reaches s) (h : Branch (phrases levels) s branch s')
    (hne : s'.lexemes ≠ []) : Derives whole limit .expression branch.1 ∧ Derives whole limit .block branch.2 := by
  have hcarries : (phrases levels).Carries default (phrases levels) := phrases_carries levels 0
  obtain ⟨condition, m₁, hc, span, m₂, ht, body, hb, rfl⟩ := h
  have hs₁ := hs.trans (hcarries.expression.reaches hc)
  exact ⟨hd.expression hs hc, hd.block (hs₁.trans ht.reaches) hb hne⟩

theorem parts_ifStatement (hs : whole.Reaches s) (h : IfStatement (phrases levels) s v s') :
    ∀ part ∈ v.parts .statement, Derives whole limit part.1 part.2 := by
  have hcarries : (phrases levels).Carries default (phrases levels) := phrases_carries levels 0
  obtain ⟨first, m₁, hif, head, m₂, hhead, others, m₃, ⟨hothers, -⟩, otherwise, m₄, hotherwise, last, hend, rfl⟩ := h
  have hbranches := (carries_branch hcarries).after "elseif"
  have hr₃ : m₃.Reaches m₄ :=
    ((hcarries.block.after "else").optional (Excerpt.keeps_not_next Room.within_token)).reaches hotherwise
  have hne₃ := hr₃.ne_nil hend.ne_nil
  have hr₂ : m₂.Reaches m₃ := hbranches.sequence.reaches hothers
  have hs₁ := hs.trans hif.reaches
  have hs₂ := hs₁.trans ((carries_branch hcarries).reaches hhead)
  have hs₃ := hs₂.trans hr₂
  have hheadDerives := derives_branch hd hs₁ hhead (hr₂.ne_nil hne₃)
  have hothersDerives := forall_sequence_ahead (p := fun branch : Node × Node =>
    Derives whole limit .expression branch.1 ∧ Derives whole limit .block branch.2) hbranches.reaches (fun hs h hne => by
      obtain ⟨span, m, ht, hbranch⟩ := h
      exact derives_branch hd (hs.trans ht.reaches) hbranch hne) hs₂ hne₃ hothers
  simp only [Node.parts, List.flatMap_cons, List.forall_mem_append, List.forall_mem_cons, List.not_mem_nil,
    false_imp_iff, implies_true, and_true, List.forall_mem_map, List.forall_mem_flatMap, Option.mem_toList]
  refine ⟨⟨hheadDerives, fun branch hm => hothersDerives branch hm⟩, fun body hm => ?_⟩
  cases hm
  obtain ⟨span, m, ht, hbody⟩ := hotherwise
  exact hd.block (hs₃.trans ht.reaches) hbody hend.ne_nil

theorem parts_whileStatement (hs : whole.Reaches s) (h : WhileStatement (phrases levels) s v s') :
    ∀ part ∈ v.parts .statement, Derives whole limit part.1 part.2 := by
  have hcarries : (phrases levels).Carries default (phrases levels) := phrases_carries levels 0
  obtain ⟨first, m₁, hwhile, condition, m₂, hc, span, m₃, hdo, body, m₄, hb, last, hlast, rfl⟩ := h
  have hs₁ := hs.trans hwhile.reaches
  have hs₂ := hs₁.trans (hcarries.expression.reaches hc)
  simp only [Node.parts, List.forall_mem_cons, List.not_mem_nil, false_imp_iff, implies_true, and_true]
  exact ⟨hd.expression hs₁ hc, hd.block (hs₂.trans hdo.reaches) hb hlast.ne_nil⟩

theorem parts_repeatStatement (hs : whole.Reaches s) (h : RepeatStatement (phrases levels) s v s') :
    ∀ part ∈ v.parts .statement, Derives whole limit part.1 part.2 := by
  have hcarries : (phrases levels).Carries default (phrases levels) := phrases_carries levels 0
  obtain ⟨first, m₁, hrepeat, body, m₂, hb, span, m₃, hu, condition, hc, rfl⟩ := h
  have hs₁ := hs.trans hrepeat.reaches
  have hs₂ := hs₁.trans ((hcarries.block hb).1)
  simp only [Node.parts, List.forall_mem_cons, List.not_mem_nil, false_imp_iff, implies_true, and_true]
  exact ⟨hd.block hs₁ hb hu.ne_nil, hd.expression (hs₂.trans hu.reaches) hc⟩

end Blocks

include hk hd

theorem parts_forStatement (hs : whole.Reaches s) (h : ForStatement (phrases levels) s v s') :
    ∀ part ∈ v.parts .statement, Derives whole limit part.1 part.2 := by
  have hcarries : (phrases levels).Carries default (phrases levels) := phrases_carries levels 0
  obtain ⟨first, m₁, hfor, counter, m₂, hcounter, ⟨equals, m₃, hequals, start, m₄, hstart, comma, m₅, hcomma, last, m₆,
    hlast, step, m₇, hstep, body, hbody, rfl⟩ | ⟨-, names, m₃, hnames, span, m₄, hin, values, m₅, hvalues, body,
    hbody, rfl⟩⟩ := h
  · have hs₁ := hs.trans hfor.reaches
    have hs₃ := (hs₁.trans (closes_name.reaches hcounter)).trans hequals.reaches
    have hs₅ := (hs₃.trans (hcarries.expression.reaches hstart)).trans hcomma.reaches
    have hs₆ := hs₅.trans (hcarries.expression.reaches hlast)
    have hoptional := (hcarries.expression.mono Room.within_token).after ","
    have hs₇ := hs₆.trans ((hoptional.optional (Excerpt.keeps_not_next Room.within_token)).reaches hstep)
    obtain ⟨span, m₈, hdo, block, m₉, hblock, last, hend, rfl⟩ := hbody
    simp only [Node.parts, List.forall_mem_append, List.forall_mem_cons, List.not_mem_nil, false_imp_iff,
      implies_true, and_true, List.forall_mem_map, Option.mem_toList]
    refine ⟨⟨⟨derives_name hk hs₁ hcounter, hd.expression hs₃ hstart, hd.expression hs₅ hlast⟩, fun v hm => ?_⟩,
      hd.block (hs₇.trans hdo.reaches) hblock hend.ne_nil⟩
    cases hm
    obtain ⟨span, m, hc, hv⟩ := hstep
    exact hd.expression (hs₆.trans hc.reaches) hv
  · have hs₁ := hs.trans hfor.reaches
    have hs₂ := hs₁.trans (closes_name.reaches hcounter)
    have hs₄ := (hs₂.trans ((carries_nameList counter).reaches_cleared hnames)).trans hin.reaches
    have hs₅ := hs₄.trans ((carries_expressions hcarries).reaches hvalues)
    obtain ⟨span, m₆, hdo, block, m₇, hblock, last, hend, rfl⟩ := hbody
    simp only [Node.parts, List.forall_mem_cons, List.not_mem_nil, false_imp_iff, implies_true, and_true]
    exact ⟨derives_nameList hk hs₂ (derives_name hk hs₁ hcounter) hnames,
      derives_valueList (.inl rfl) (derives_expressions hd hs₄ hvalues), hd.block (hs₅.trans hdo.reaches) hblock hend.ne_nil⟩

theorem parts_localStatement (hs : whole.Reaches s) (h : LocalStatement (phrases levels) s v s') :
    ∀ part ∈ v.parts .statement, Derives whole limit part.1 part.2 := by
  obtain ⟨first, m₁, hlocal, ⟨second, m₂, hfunction, declared, m₃, hdeclared, function, hbody, rfl⟩ |
    ⟨-, declared, m₂, hdeclared, names, m₃, hnames, values, hvalues, rfl⟩⟩ := h
  · have hs₂ := (hs.trans hlocal.reaches).trans hfunction.reaches
    have hs₃ := hs₂.trans (closes_name.reaches hdeclared)
    obtain ⟨hparts, -, -⟩ := derives_functionBody hk hd hs₃ hbody
    simp only [Node.parts, List.forall_mem_cons, List.not_mem_nil, false_imp_iff, implies_true, and_true]
    refine ⟨.list _ (.inl rfl) (fun _ => rfl) (List.forall_mem_singleton.mpr (derives_name hk hs₂ hdeclared)), ?_⟩
    exact .mk trivial (List.forall_mem_singleton.mpr (.mk trivial (hparts _)))
  · have hs₁ := hs.trans hlocal.reaches
    have hs₂ := hs₁.trans (closes_name.reaches hdeclared)
    have hs₃ := hs₂.trans ((carries_nameList declared).reaches_cleared hnames)
    simp only [Node.parts, List.forall_mem_cons, List.not_mem_nil, false_imp_iff, implies_true, and_true]
    refine ⟨derives_nameList hk hs₂ (derives_name hk hs₁ hdeclared) hnames, derives_valueList (.inl rfl) ?_⟩
    cases values with
    | none => exact List.forall_mem_nil _
    | some values =>
      obtain ⟨span, m, ht, hv⟩ := hvalues
      exact derives_expressions hd (hs₃.trans ht.reaches) hv

/-- A dotted name is read as an expression, and that of a method is up to its colon. -/
theorem derives_functionName {target : Node × Bool} (hs : whole.Reaches s) (h : FunctionName s target s') :
    Derives whole limit (if target.2 then .other else .expression) target.1 := by
  obtain ⟨base, m₁, hbase, path, m₂, ⟨hpath, -⟩, hend⟩ := h
  have hsteps : Steps (fun x s y s' => Suffix (phrases levels) x s y s') base m₁ path m₂ := by
    clear hbase hend
    induction hpath with
    | refl => exact .refl
    | cons hx _ ih => exact .cons (.inl hx) ih
  have hopen := derives_suffixes hk hd hs (derives_name hk hs hbase) ⟨base, m₁, .inl hbase, .refl⟩ hsteps
  rcases hend with ⟨colon, m₃, hc, method, hm, rfl⟩ | ⟨-, rfl, rfl⟩
  · refine .mk trivial ?_
    simp only [indexed, Node.parts, Node.keyStanding, Span.between, Nat.lt_irrefl, if_false, List.forall_mem_cons,
      List.not_mem_nil, false_imp_iff, implies_true, and_true]
    exact ⟨hopen.1, derives_key hm⟩
  · exact hopen.1

theorem parts_functionStatement (hs : whole.Reaches s) (h : FunctionStatement (phrases levels) s v s') :
    ∀ part ∈ v.parts .statement, Derives whole limit part.1 part.2 := by
  obtain ⟨first, m₁, hfunction, target, m₂, htarget, function, hbody, rfl⟩ := h
  have hs₁ := hs.trans hfunction.reaches
  have hs₂ := hs₁.trans (carries_functionName.reaches htarget)
  have hname := derives_functionName hk hd hs₁ htarget
  obtain ⟨hparts, hmethod, hpos⟩ := derives_functionBody hk hd hs₂ hbody
  simp only [Node.parts, List.forall_mem_cons, List.not_mem_nil, false_imp_iff, implies_true, and_true,
    Node.valuesStanding, hpos, Nat.lt_irrefl, if_false, Node.targetsStanding, Node.children, Form.children,
    List.any_cons, List.any_nil, Bool.or_false, hmethod]
  refine ⟨?_, .mk trivial (List.forall_mem_singleton.mpr (.mk trivial (hparts _)))⟩
  cases hm : target.2 with
  | true =>
    rw [hm] at hname
    exact .mk trivial (List.forall_mem_singleton.mpr hname)
  | false =>
    rw [hm] at hname
    exact .mk trivial (List.forall_mem_singleton.mpr hname)

theorem parts_assignment {first : Node} (hs : whole.Reaches s) (hf : Derives whole limit .expression first)
    (h : Assignment (phrases levels) first s v s') :
    ∀ part ∈ v.parts .statement, Derives whole limit part.1 part.2 := by
  have hcarries : (phrases levels).Carries default (phrases levels) := phrases_carries levels 0
  obtain ⟨others, m₁, ⟨hothers, -⟩, equals, m₂, hequals, values, hvalues, rfl⟩ := h
  have hs₁ := hs.trans (((carries_target hcarries).after ",").sequence.reaches hothers)
  have hstanding {p : Prop} [Decidable p] : (if p then Standing.list else .other) = .list ∨
      (if p then Standing.list else .other) = .other := by split <;> simp
  have hstanding' {p : Prop} [Decidable p] : (if p then Standing.other else .list) = .list ∨
      (if p then Standing.other else .list) = .other := by split <;> simp
  have htargets := forall_sequence (p := fun v => Derives whole limit .expression v) (fun hs h => by
    obtain ⟨span, m, hc, ht⟩ := h
    exact ⟨hc.reaches.trans ((carries_target hcarries).reaches ht),
      derives_suffixed hk hd (hs.trans hc.reaches) ht.1⟩) hs hothers
  simp only [Node.parts, List.forall_mem_cons, List.not_mem_nil, false_imp_iff, implies_true, and_true]
  refine ⟨derives_items hstanding' (fun _ _ => rfl) (List.forall_mem_cons.mpr ⟨hf, htargets⟩), ?_⟩
  exact derives_valueList hstanding (derives_expressions hd (hs₁.trans hequals.reaches) hvalues)

omit hk hd in
/-- What a node that is no list has below it does not depend on what it stands for. -/
theorem parts_of_isCall (hc : v.form.isCall) (standing : Standing) : v.parts standing = v.parts .expression := by
  obtain ⟨form, span⟩ := v
  cases form <;> first | rfl | cases hc

theorem parts_statement (hs : whole.Reaches s) (h : Statement (phrases levels) s v s') :
    ∀ part ∈ v.parts .statement, Derives whole limit part.1 part.2 := by
  have hcarries : (phrases levels).Carries default (phrases levels) := phrases_carries levels 0
  rcases h with h | h | h | h | h | h | h | h | h | h | h
  · exact parts_ifStatement hd hs h
  · obtain ⟨first, m₁, hdo, body, m₂, hb, last, hend, rfl⟩ := h
    exact List.forall_mem_singleton.mpr (hd.block (hs.trans hdo.reaches) hb hend.ne_nil)
  · exact parts_whileStatement hd hs h
  · exact parts_repeatStatement hd hs h
  · exact parts_forStatement hk hd hs h
  · exact parts_localStatement hk hd hs h
  · exact parts_functionStatement hk hd hs h
  · obtain ⟨span, -, rfl⟩ := h
    exact List.forall_mem_nil _
  · obtain ⟨first, m₁, -, text, span, m₂, -, last, -, rfl⟩ := h
    exact List.forall_mem_nil _
  · obtain ⟨first, m, -, text, span, -, rfl⟩ := h
    exact List.forall_mem_nil _
  · obtain ⟨first, m, hf, ⟨hcall, rfl, rfl⟩ | ⟨-, -, ha⟩⟩ := h
    · rw [parts_of_isCall hcall]
      exact (Derives.iff_parts.mp (derives_suffixed hk hd hs hf)).2
    · exact parts_assignment hk hd (hs.trans ((carries_suffixed hcarries).reaches hf)) (derives_suffixed hk hd hs hf) ha

theorem derives_statement (hs : whole.Reaches s) (h : Statement (phrases levels) s v s') :
    Derives whole limit .statement v :=
  .mk ⟨levels, hk, s, s', hs, .last h⟩ (parts_statement hk hd hs h)

theorem derives_returnStatement (hs : whole.Reaches s) (h : ReturnStatement (phrases levels) s v s') :
    Derives whole limit .statement v := by
  refine .mk ⟨levels, hk, s, s', hs, .ret h⟩ ?_
  obtain ⟨first, m₁, hr, values, m₂, hvalues, semicolon, -, rfl⟩ := h
  simp only [Node.parts, List.forall_mem_map]
  cases values with
  | none => exact List.forall_mem_nil _
  | some values => exact derives_expressions hd (hs.trans hr.reaches) hvalues

theorem derives_statements {listed : List Node} (hs : whole.Reaches s) (h : Statements (phrases levels) s listed s') :
    ∀ v ∈ listed, Derives whole limit .statement v := by
  have hcarries : (phrases levels).Carries default (phrases levels) := phrases_carries levels 0
  obtain ⟨found, m, ⟨hfound, -⟩, last, hlast, rfl⟩ := h
  have hm := hs.trans ((carries_sequence hcarries).reaches_cleared hfound)
  have hall := forall_sequence (p := fun found : Option Node => ∀ v ∈ found.toList, Derives whole limit .statement v)
    (fun hs h => by
      refine ⟨(carries_statementOrEmpty hcarries).reaches_cleared h, ?_⟩
      rcases h with ⟨span, ht, rfl⟩ | ⟨v, hv, rfl⟩
      · exact List.forall_mem_nil _
      · exact List.forall_mem_singleton.mpr (derives_statement hk hd hs hv)) hs hfound
  rw [List.forall_mem_append]
  refine ⟨fun v hv => ?_, ?_⟩
  · obtain ⟨found, hf, hv⟩ := List.mem_flatMap.mp hv
    exact hall found hf v hv
  · cases last with
    | none => exact List.forall_mem_nil _
    | some v => exact List.forall_mem_singleton.mpr (derives_returnStatement hk hd hm hlast)

end Statements

section Blocks
variable {size : Nat}

theorem series_spans {listed : List Node} (ho : s.Ordered size) (h : Series (phrases levels) s listed s') :
    Span.cover? (listed.map Node.span) = some ⟨s.position + 1, s'.lastEnd⟩ := by
  have hspans := phrases_spanned size levels
  induction h with
  | last h =>
    have hv := spanned_statement hspans ho h
    simp [Span.cover?, Span.between, hv.pos, hv.endPos]
  | ret h =>
    have hv := spanned_returnStatement hspans ho h
    simp [Span.cover?, Span.between, hv.pos, hv.endPos]
  | @more s m m' s' v others blanks h hb hrest ih =>
    have hv := spanned_statement hspans ho h
    have hreach : m.Reaches m' := reaches_of_blanks hb
    have hothers := ih (hreach.ordered hv.ordered)
    cases others with
    | nil => cases hothers
    | cons w others =>
      simp only [List.map_cons, Span.cover?, Option.some.injEq, Span.between, Span.mk.injEq] at hothers ⊢
      exact ⟨hv.pos, by rw [List.getLast_cons (List.cons_ne_nil _ _)]; exact hothers.2⟩

theorem derives_block (hk : levels ≤ limit) (hd : (phrases levels).Derives whole limit) (ho : whole.Ordered size)
    (hs : whole.Reaches s) (h : Block (phrases levels) s v s') (hne' : s'.lexemes ≠ []) :
    Derives whole limit .block v := by
  have hblock := h
  obtain ⟨listed, hlisted, rfl⟩ := h
  refine .mk ⟨fun hne => ?_, levels, hk, s, s', hs, hblock, hne'⟩ ?_
  · obtain ⟨blanks, m, e, hblanks, hseries⟩ := series_of_statements hlisted hne
    have hreach : s.Reaches m := reaches_of_blanks hblanks
    have hm := hs.trans hreach
    refine ⟨levels, hk, m, e, hm, hseries, ?_⟩
    rw [Node.ofItems, series_spans (hm.ordered ho) hseries]
    rfl
  · simp only [Node.ofItems, Node.parts, List.forall_mem_map]
    exact derives_statements hk hd hs hlisted

end Blocks

end Phrase

theorem phrases_derive {size levels : Nat} (ho : whole.Ordered size) (hk : levels ≤ limit) :
    (phrases levels).Derives whole limit := by
  induction levels with
  | zero => exact ⟨fun _ h => h.elim, fun _ h => h.elim, fun _ h => h.elim, fun _ h => h.elim⟩
  | succ levels ih =>
    have hk' : levels ≤ limit := by omega
    have hd := ih hk'
    have hrank {rank : Nat} (hr : rank ≤ operandRank) {s s' : Stream} {v : Node} (hs : whole.Reaches s)
        (h : Tiered (phrases levels) rank s v s') : Derives whole limit .expression v :=
      derives_rank hk' hd hr hs h
    exact ⟨hrank (by decide : 0 ≤ operandRank), hrank (by decide : 7 ≤ operandRank),
      hrank (by decide : 10 ≤ operandRank), derives_block hk' hd ho⟩

end LuaSyntax
