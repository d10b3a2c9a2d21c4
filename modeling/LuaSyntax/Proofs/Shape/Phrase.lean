import LuaSyntax.Proofs.Shape.Basic
import LuaSyntax.Proofs.Phrase.Chunk

/-! # The shape of parsed trees

Every phrase of the grammar yields a tree of the shape of its role, and an operation where
operators of its rank or tighter ones are read.
-/
namespace LuaSyntax

/-- A phrase that yields trees of a role. -/
def Phrase.Yields (role : Role) (phrase : Phrase Node) : Prop :=
  ∀ {s v s'}, phrase s v s' → Shaped role v

/-- A phrase that yields expressions with no operators looser than a rank outside them. -/
def Phrase.Binds (rank : Nat) (phrase : Phrase Node) : Prop :=
  ∀ {s v s'}, phrase s v s' → Shaped .expression v ∧ rank ≤ v.rank

/-- The nested phrases yield trees of their roles. -/
structure Phrases.Shaped (nested : Phrases) : Prop where
  expression : nested.expression.Yields .expression
  concatenation : nested.concatenation.Binds BinaryOp.concat.rank
  unary : nested.unary.Binds unaryRank
  block : nested.block.Yields .block

theorem forall_of_sequence {α : Type} {phrase : Phrase α} {P : α → Prop} {s s' : Stream} {items : List α}
    (h : ∀ {s a s'}, phrase s a s' → P a) (hs : Sequence phrase s items s') : ∀ a ∈ items, P a := by
  induction hs with
  | nil => exact List.forall_mem_nil _
  | cons ha _ ih => exact List.forall_mem_cons.mpr ⟨h ha, ih⟩

theorem forall_of_optional {α : Type} {phrase : Phrase α} {absent : Stream → Prop} {P : α → Prop}
    {s s' : Stream} {found : Option α} (h : ∀ {s a s'}, phrase s a s' → P a)
    (hf : Optional phrase absent s found s') : ∀ a ∈ found, P a := by
  cases found with
  | none => simp
  | some a => simpa using h hf

namespace Phrase

open Grammar (Tier looseTiers tightTiers)

variable {s s' : Stream} {v : Node}

theorem name_yields : Name.Yields .name := by
  rintro s v s' ⟨text, htext, span, -, rfl⟩
  exact .name htext

theorem key_yields : Key.Yields .key := by
  rintro s v s' ⟨text, htext, span, -, rfl⟩
  exact .key htext

theorem varargs_yields : Varargs.Yields .rest := by
  rintro s v s' ⟨span, -, rfl⟩
  exact .rest

theorem parameters_shaped {listed : List Node} (h : Parameters s listed s') :
    ∃ (names : List Node) (rest : Option Node), listed = names ++ rest.toList ∧
      (∀ v ∈ names, Shaped .name v) ∧ ∀ v ∈ rest, Shaped .rest v := by
  induction h with
  | @last s s' v h _ => exact ⟨[v], none, rfl, by simpa using name_yields h, by simp⟩
  | @varargs s s' v h => exact ⟨[], some v, rfl, by simp, by simpa using varargs_yields h⟩
  | @more s m m' s' v _ others h _ _ ih =>
    obtain ⟨names, rest, rfl, hnames, hrest⟩ := ih
    exact ⟨v :: names, rest, rfl, List.forall_mem_cons.mpr ⟨name_yields h, hnames⟩, hrest⟩

/-- A dotted name, or one that ends with a method name. -/
theorem functionName_shaped {target : Node × Bool} (h : FunctionName s target s') :
    (target.2 = false ∧ Shaped .path target.1) ∨
      target.2 = true ∧ ∃ object key span, target.1 = ⟨.index object key, span⟩ ∧
        Shaped .path object ∧ Shaped .key key := by
  obtain ⟨base, m₁, hb, path, m₂, ⟨hsteps, -⟩, hend⟩ := h
  have hpath : Shaped .path path := by
    refine Steps.invariant (P := Shaped .path) (fun hx hstep => ?_) (.pathName (name_yields hb)) hsteps
    obtain ⟨dot, m, -, key, hk, rfl⟩ := hstep
    exact .pathIndex hx (key_yields hk)
  rcases hend with ⟨colon, m₃, -, method, hm, rfl⟩ | ⟨-, rfl, rfl⟩
  · exact .inr ⟨rfl, path, method, _, rfl, hpath, key_yields hm⟩
  · exact .inl ⟨rfl, hpath⟩

/-- Dotted names can be assigned to. -/
theorem shaped_of_path (h : Shaped .path v) : Shaped .base v ∧ v.form.isAssignable := by
  generalize hrole : Role.path = role at h
  induction h with
  | pathName h => exact ⟨.baseName h, by cases h; rfl⟩
  | pathIndex _ hk ih =>
    refine ⟨.index (ih hrole).1 ?_, rfl⟩
    cases hk
    exact .string
  | _ => cases hrole

section Operators
variable {operand left right : Phrase Node} {rank : Nat}

/-- Tiers of ascending ranks whose operators group to the left. -/
def Ascends : Nat → List Tier → Prop
  | _, [] => True
  | rank, tier :: tighter => (∀ op ∈ tier.operators, op.rank = rank ∧ op ≠ .concat ∧ op ≠ .pow) ∧
      Ascends (rank + 1) tighter

instance : (rank : Nat) → (tiers : List Tier) → Decidable (Ascends rank tiers)
  | _, [] => inferInstanceAs (Decidable True)
  | rank, _ :: tighter =>
    have := instDecidableAscends (rank + 1) tighter
    inferInstanceAs (Decidable (_ ∧ _))

theorem binds_chains {tiers : List Tier} (ht : Ascends rank tiers)
    (ho : operand.Binds (rank + tiers.length)) : (Chains operand tiers).Binds rank := by
  induction tiers generalizing rank with
  | nil => exact ho
  | cons tier tighter ih =>
    obtain ⟨hranks, htighter⟩ := ht
    have hoperand : (Chains operand tighter).Binds (rank + 1) := by
      refine ih htighter ?_
      rw [List.length_cons, ← Nat.add_assoc, Nat.add_right_comm] at ho
      exact ho
    rintro s v s' ⟨first, m, hfirst, hsteps, -⟩
    obtain ⟨hshaped, hrank⟩ := hoperand hfirst
    refine Steps.invariant (P := fun x => Shaped .expression x ∧ rank ≤ x.rank) (fun hx hstep => ?_)
      ⟨hshaped, by omega⟩ hsteps
    obtain ⟨op, hmem, span, m, -, y, hy, rfl⟩ := hstep
    obtain ⟨hrank, hc, hp⟩ := hranks op hmem
    obtain ⟨hy, hrank'⟩ := hoperand hy
    exact ⟨.binary hx.1 hy ((BinaryOp.admits_iff_of_left hc hp).mpr ⟨by omega, by omega⟩), Nat.le_of_eq hrank.symm⟩

theorem binds_withRight (op : BinaryOp) {n m : Nat} (hl : left.Binds n) (hr : right.Binds m)
    (hle : op.rank ≤ n) (hop : ∀ {l r}, n ≤ l → m ≤ r → op.Admits l r) :
    (WithRight left op right).Binds op.rank := by
  rintro s v s' ⟨first, m, hfirst, ⟨span, m', -, operand, hoperand, rfl⟩ | ⟨-, rfl, -⟩⟩
  · obtain ⟨hfirst, hrank⟩ := hl hfirst
    obtain ⟨hoperand, hrank'⟩ := hr hoperand
    exact ⟨.binary hfirst hoperand (hop hrank hrank'), Nat.le_refl _⟩
  · obtain ⟨hfirst, hrank⟩ := hl hfirst
    exact ⟨hfirst, Nat.le_trans hle hrank⟩

end Operators

section Expressions
variable {nested : Phrases} (hnested : nested.Shaped)
include hnested

theorem functionBody_shaped {first : Span} {isMethod : Bool} (h : FunctionBody nested first isMethod s v s') :
    Shaped (if isMethod then .method else .function) v := by
  obtain ⟨opening, m₁, -, listed, m₂, hlisted, closing, m₃, -, body, m₄, hbody, last, -, rfl⟩ := h
  have hparameters : ∃ (names : List Node) (rest : Option Node), listed = names ++ rest.toList ∧
      (∀ v ∈ names, Shaped .name v) ∧ ∀ v ∈ rest, Shaped .rest v := by
    rcases hlisted with hlisted | ⟨-, rfl, rfl⟩
    · exact parameters_shaped hlisted
    · exact ⟨[], none, rfl, by simp, by simp⟩
  obtain ⟨names, rest, rfl, hnames, hrest⟩ := hparameters
  cases isMethod with
  | true => exact .method hnames hrest (hnested.block hbody)
  | false => exact .function hnames hrest (hnested.block hbody)

theorem functionLiteral_yields : (FunctionLiteral nested).Yields .function := by
  rintro s v s' ⟨first, m, -, hbody⟩
  exact functionBody_shaped hnested hbody

theorem expressions_shaped {values : List Node} (h : Expressions nested s values s') :
    values ≠ [] ∧ ∀ v ∈ values, Shaped .expression v := by
  obtain ⟨first, m, hfirst, others, ⟨hothers, -⟩, rfl⟩ := h
  refine ⟨List.cons_ne_nil _ _, List.forall_mem_cons.mpr ⟨hnested.expression hfirst, ?_⟩⟩
  exact forall_of_sequence (fun ⟨_, _, _, hv⟩ => hnested.expression hv) hothers

theorem parenthesized_yields : (Parenthesized nested).Yields .base := by
  rintro s v s' ⟨first, m₁, -, inner, m₂, hinner, close, -, rfl⟩
  exact .paren (hnested.expression hinner)

theorem field_yields : (Field nested).Yields .field := by
  rintro s v s' (⟨first, m₁, -, key, m₂, hkey, close, m₃, -, equals, m₄, -, value, hvalue, rfl⟩ |
    ⟨key, m₁, hkey, equals, m₂, -, value, hvalue, rfl⟩ | ⟨-, h⟩)
  · exact .pair (hnested.expression hkey) (hnested.expression hvalue)
  · refine .pair ?_ (hnested.expression hvalue)
    obtain ⟨text, -, span, -, rfl⟩ := hkey
    exact .string
  · exact .fieldItem (hnested.expression h)

theorem table_yields : (Table nested).Yields .expression := by
  rintro s v s' ⟨first, m₁, -, fields, m₂, hfields, close, -, rfl⟩
  refine .table ?_
  clear first close
  induction hfields with
  | none _ => exact List.forall_mem_nil _
  | last h _ => exact List.forall_mem_singleton.mpr (field_yields hnested h)
  | more h _ _ ih => exact List.forall_mem_cons.mpr ⟨field_yields hnested h, ih⟩

theorem arguments_shaped {values : List Node} (h : Arguments nested s values s') :
    ∀ v ∈ values, Shaped .expression v := by
  rcases h with ⟨first, m₁, -, listed, m₂, hlisted, close, -, rfl⟩ | ⟨v, hv, rfl⟩ | ⟨v, ⟨value, span, -, rfl⟩, rfl⟩
  · cases listed with
    | none => exact List.forall_mem_nil _
    | some listed => exact (expressions_shaped hnested hlisted).2
  · exact List.forall_mem_singleton.mpr (table_yields hnested hv)
  · exact List.forall_mem_singleton.mpr .string

theorem suffixed_yields : (Suffixed nested).Yields .base := by
  rintro s v s' ⟨first, m, hfirst, hsteps, -⟩
  have hbase : Shaped .base first := by
    rcases hfirst with hfirst | hfirst
    · exact .baseName (name_yields hfirst)
    · exact parenthesized_yields hnested hfirst
  refine Steps.invariant (P := Shaped .base) (fun hx hstep => ?_) hbase hsteps
  rcases hstep with ⟨dot, m, -, key, ⟨text, -, span, -, rfl⟩, rfl⟩ |
    ⟨bracket, m₁, -, key, m₂, hkey, close, -, rfl⟩ |
    ⟨colon, m₁, -, method, m₂, hmethod, values, hvalues, rfl⟩ | ⟨values, hvalues, rfl⟩
  · exact .index hx .string
  · exact .index hx (hnested.expression hkey)
  · exact .invoke hx (key_yields hmethod) (arguments_shaped hnested hvalues)
  · exact .call hx (arguments_shaped hnested hvalues)

theorem simple_binds : (Simple nested).Binds operandRank := by
  rintro s v s' (⟨value, span, -, rfl⟩ | ⟨value, span, -, rfl⟩ | ⟨span, -, rfl⟩ | ⟨span, -, rfl⟩ |
    ⟨span, -, rfl⟩ | ⟨span, -, rfl⟩ | h | h | h)
  · exact ⟨.number, Nat.le_refl _⟩
  · exact ⟨.string, Nat.le_refl _⟩
  · exact ⟨.nil, Nat.le_refl _⟩
  · exact ⟨.boolean, Nat.le_refl _⟩
  · exact ⟨.boolean, Nat.le_refl _⟩
  · exact ⟨.varargs, Nat.le_refl _⟩
  · have hshaped := functionLiteral_yields hnested h
    exact ⟨.expressionFunction hshaped, by cases hshaped; exact Nat.le_refl _⟩
  · refine ⟨table_yields hnested h, ?_⟩
    obtain ⟨first, m₁, -, fields, m₂, -, close, -, rfl⟩ := h
    exact Nat.le_refl _
  · have hshaped := suffixed_yields hnested h
    exact ⟨.expressionBase hshaped, Nat.le_of_eq hshaped.rank_base.symm⟩

theorem power_binds : (Power nested).Binds BinaryOp.pow.rank :=
  binds_withRight .pow (simple_binds hnested) hnested.unary (by decide) fun hl hr => ⟨hl, hr⟩

theorem unary_binds : (Unary nested).Binds unaryRank := by
  rintro s v s' (⟨op, first, m, -, operand, hoperand, rfl⟩ | h)
  · obtain ⟨hoperand, hrank⟩ := hnested.unary hoperand
    exact ⟨.unary hoperand hrank, Nat.le_refl _⟩
  · obtain ⟨hshaped, hrank⟩ := power_binds hnested h
    exact ⟨hshaped, Nat.le_of_succ_le hrank⟩

theorem concatenation_binds : (Concatenation nested).Binds BinaryOp.concat.rank :=
  binds_withRight .concat (n := 8) (binds_chains (by decide) (unary_binds hnested))
    hnested.concatenation (by decide) fun hl hr => ⟨hl, hr⟩

theorem expression_yields : (Expression nested).Yields .expression := fun h =>
  (binds_chains (by decide : Ascends 0 looseTiers) (concatenation_binds hnested) h).1

end Expressions

section Statements
variable {nested : Phrases} (hnested : nested.Shaped)

theorem nameList_yields {declared : Node} (hd : Shaped .name declared) :
    (NameList declared).Yields .names := by
  rintro s v s' ⟨others, ⟨hothers, -⟩, rfl⟩
  refine .names (List.forall_mem_cons.mpr ⟨hd, ?_⟩) (List.cons_ne_nil _ _)
  exact forall_of_sequence (fun ⟨_, _, _, hv⟩ => name_yields hv) hothers

include hnested

theorem branch_shaped {branch : Node × Node} (h : Branch nested s branch s') :
    Shaped .expression branch.1 ∧ Shaped .block branch.2 := by
  obtain ⟨condition, m₁, hcondition, span, m₂, -, body, hbody, rfl⟩ := h
  exact ⟨hnested.expression hcondition, hnested.block hbody⟩

theorem ifStatement_yields : (IfStatement nested).Yields .statement := by
  rintro s v s' ⟨first, m₁, -, head, m₂, hhead, others, m₃, ⟨hothers, -⟩, otherwise, m₄,
    hotherwise, last, -, rfl⟩
  have hbranches : ∀ branch ∈ head :: others, Shaped .expression branch.1 ∧ Shaped .block branch.2 := by
    refine List.forall_mem_cons.mpr ⟨branch_shaped hnested hhead, ?_⟩
    exact forall_of_sequence (fun ⟨_, _, _, hb⟩ => branch_shaped hnested hb) hothers
  refine .conditional (List.cons_ne_nil _ _) (fun branch hm => (hbranches branch hm).1)
    (fun branch hm => (hbranches branch hm).2) ?_
  exact forall_of_optional (fun ⟨_, _, _, hb⟩ => hnested.block hb) hotherwise

theorem forBody_yields : (ForBody nested).Yields .block := by
  rintro s v s' ⟨span, m₁, -, block, m₂, hblock, last, -, rfl⟩
  exact hnested.block hblock

theorem forStatement_yields : (ForStatement nested).Yields .statement := by
  rintro s v s' ⟨first, m₁, -, counter, m₂, hcounter, ⟨equals, m₃, -, start, m₄, hstart, comma, m₅, -,
    limit, m₆, hlimit, step, m₇, hstep, body, hbody, rfl⟩ | ⟨-, names, m₃, hnames, span, m₄, -, values, m₅,
    hvalues, body, hbody, rfl⟩⟩
  · refine .numericFor (name_yields hcounter) (hnested.expression hstart) (hnested.expression hlimit) ?_
      (forBody_yields hnested hbody)
    exact forall_of_optional (fun ⟨_, _, _, hv⟩ => hnested.expression hv) hstep
  · obtain ⟨hne, hvalues⟩ := expressions_shaped hnested hvalues
    exact .genericFor (nameList_yields (name_yields hcounter) hnames) (.values hvalues) hne
      (forBody_yields hnested hbody)

theorem localStatement_yields : (LocalStatement nested).Yields .statement := by
  rintro s v s' ⟨first, m₁, -, ⟨second, m₂, -, declared, m₃, hdeclared, function, hfunction, rfl⟩ |
    ⟨-, declared, m₂, hdeclared, names, m₃, hnames, values, hvalues, rfl⟩⟩
  · exact .localFunction (name_yields hdeclared) (functionBody_shaped hnested hfunction)
  · refine .localNames (nameList_yields (name_yields hdeclared) hnames) (.values ?_)
    cases values with
    | none => exact List.forall_mem_nil _
    | some values =>
      obtain ⟨span, m, -, hvalues⟩ := hvalues
      exact (expressions_shaped hnested hvalues).2

theorem functionStatement_yields : (FunctionStatement nested).Yields .statement := by
  rintro s v s' ⟨first, m₁, -, target, m₂, htarget, function, hfunction, rfl⟩
  have hshaped := functionBody_shaped hnested hfunction
  obtain ⟨target, isMethod⟩ := target
  rcases functionName_shaped htarget with ⟨hmethod, hpath⟩ | ⟨hmethod, object, key, span, htarget, ho, hk⟩
  · obtain rfl : isMethod = false := hmethod
    obtain ⟨hbase, hassignable⟩ := shaped_of_path hpath
    refine .assignment (.targets ?_ ?_ (List.cons_ne_nil _ _)) (.values ?_) (List.cons_ne_nil _ _)
    · exact List.forall_mem_singleton.mpr hbase
    · exact List.forall_mem_singleton.mpr hassignable
    · exact List.forall_mem_singleton.mpr (.expressionFunction hshaped)
  · obtain rfl : isMethod = true := hmethod
    obtain rfl : target = ⟨.index object key, span⟩ := htarget
    exact .methodDefinition ho hk hshaped

theorem expressionStatement_yields : (ExpressionStatement nested).Yields .statement := by
  rintro s v s' ⟨first, m, hfirst, ⟨hcall, rfl, rfl⟩ | ⟨-, hassignable, others, m₁, ⟨hothers, -⟩, equals,
    m₂, -, values, hvalues, rfl⟩⟩
  · exact .statementCall (suffixed_yields hnested hfirst) hcall
  · have htargets := forall_of_sequence (fun ⟨_, _, _, hv, ha⟩ =>
      And.intro (suffixed_yields hnested hv) ha) hothers
    obtain ⟨hne, hvalues⟩ := expressions_shaped hnested hvalues
    refine .assignment (.targets ?_ ?_ (List.cons_ne_nil _ _)) (.values hvalues) hne
    · exact List.forall_mem_cons.mpr ⟨suffixed_yields hnested hfirst, fun v hm => (htargets v hm).1⟩
    · exact List.forall_mem_cons.mpr ⟨hassignable, fun v hm => (htargets v hm).2⟩

theorem statement_yields : (Statement nested).Yields .statement := by
  rintro s v s' (h | ⟨first, m₁, -, body, m₂, hbody, last, -, rfl⟩ |
    ⟨first, m₁, -, condition, m₂, hcondition, span, m₃, -, body, m₄, hbody, last, -, rfl⟩ |
    ⟨first, m₁, -, body, m₂, hbody, span, m₃, -, condition, hcondition, rfl⟩ | h | h | h | ⟨span, -, rfl⟩ |
    ⟨first, m₁, -, text, span, m₂, ⟨-, htext⟩, last, -, rfl⟩ | ⟨first, m, -, text, span, ⟨-, htext⟩, rfl⟩ | h)
  · exact ifStatement_yields hnested h
  · exact .doBlock (hnested.block hbody)
  · exact .whileLoop (hnested.expression hcondition) (hnested.block hbody)
  · exact .repeatLoop (hnested.block hbody) (hnested.expression hcondition)
  · exact forStatement_yields hnested h
  · exact localStatement_yields hnested h
  · exact functionStatement_yields hnested h
  · exact .breakLoop
  · exact .label htext
  · exact .goto htext
  · exact expressionStatement_yields hnested h

theorem returnStatement_yields : (ReturnStatement nested).Yields .last := by
  rintro s v s' ⟨first, m₁, -, values, m₂, hvalues, semicolon, -, rfl⟩
  refine .returnValues ?_
  cases values with
  | none => exact List.forall_mem_nil _
  | some values => exact (expressions_shaped hnested hvalues).2

theorem statements_shaped {listed : List Node} {span : Span} (h : Statements nested s listed s') :
    Shaped .block ⟨.block listed, span⟩ := by
  obtain ⟨found, m, ⟨hfound, -⟩, last, hlast, rfl⟩ := h
  refine .block ?_ (forall_of_optional (returnStatement_yields hnested) hlast)
  have hall : ∀ v ∈ found, ∀ statement ∈ v.toList, Shaped .statement statement := by
    refine forall_of_sequence (fun h => ?_) hfound
    rcases h with ⟨span, -, rfl⟩ | ⟨v, hv, rfl⟩
    · exact List.forall_mem_nil _
    · exact List.forall_mem_singleton.mpr (statement_yields hnested hv)
  intro v hm
  obtain ⟨v', hm', hv⟩ := List.mem_flatMap.mp hm
  exact hall v' hm' v hv

theorem block_yields : (Block nested).Yields .block := by
  rintro s v s' ⟨listed, hlisted, rfl⟩
  exact statements_shaped hnested hlisted

end Statements

end Phrase

theorem phrases_shaped (levels : Nat) : (phrases levels).Shaped := by
  induction levels with
  | zero => exact ⟨fun h => h.elim, fun h => h.elim, fun h => h.elim, fun h => h.elim⟩
  | succ levels ih =>
    exact ⟨Phrase.expression_yields ih, Phrase.concatenation_binds ih, Phrase.unary_binds ih,
      Phrase.block_yields ih⟩

/-- Parsed trees have the shape of a block. -/
theorem shaped_of_parse {source : Bytes} {limit : Nat} {filename : String} {root : Node}
    (h : parse source limit filename = .ok root) : Shaped .block root := by
  obtain ⟨m, s, -, -, listed, s', hlisted, -, rfl⟩ := parse_eq_ok.mp h
  exact Phrase.statements_shaped (phrases_shaped limit) hlisted

end LuaSyntax
