import LuaSyntax.Proofs.Shape.Basic
import LuaSyntax.Proofs.Span.Statement

/-! # Spans of siblings

The children of a node lie one after the other in the source, with their tokens between them.
Three kinds of nodes have children that do not: the values of a function statement or of a local
function begin before its name, and the values of names without an initializer lie on the
last byte of the names.
-/
namespace LuaSyntax

/-- The forms whose children may lie one in the other. -/
def Form.plain {α : Type} : Form α → Bool
  | .localFunction _ _ => false
  | .assignment _ _ => false
  | .localNames _ _ => false
  | _ => true

namespace Node

/-- One node begins before another and ends after it. -/
def Around (outer inner : Node) : Prop :=
  outer.span.pos < inner.span.pos ∧ inner.span.endPos < outer.span.endPos

/-- The children of a node lie one after the other, the exceptions aside. -/
def Apart (node : Node) : Prop :=
  match node.form with
  | .localFunction names values => node.span.pos < values.span.pos ∧ values.Around names
  | .assignment targets values =>
    targets.span.endPos < values.span.pos ∨
      values.span.pos = node.span.pos ∧ values.Around targets
  | .localNames names values =>
    if values.children = [] then values.span = .point names.span.endPos
    else names.span.endPos < values.span.pos
  | form => form.children.Pairwise fun first second => first.span.endPos < second.span.pos

end Node

namespace Consecutive
variable {first last : Nat} {items : List Node}

theorem pairwise (h : Consecutive first items last) :
    items.Pairwise fun v w => v.span.endPos < w.span.pos := by
  induction h with
  | nil => exact .nil
  | @cons _ _ v others _ _ ho ih => exact .cons (fun w hm => (ho.within w hm).pos) ih

end Consecutive

/-- Nodes that lie one after the other from a position on and up to the last token read, and
so do the children of all nodes below them. -/
structure Stream.Row (limit first : Nat) (items : List Node) (s : Stream) : Prop where
  ordered : s.Ordered limit
  consecutive : Consecutive first items s.lastEnd
  apart : ∀ v ∈ items, v.Every Node.Apart

/-- The same up to the first byte of the next token, on which an empty block lies. -/
structure Stream.OpenRow (limit first : Nat) (items : List Node) (s : Stream) : Prop where
  ordered : s.Ordered limit
  consecutive : Consecutive first items (s.position + 1)
  apart : ∀ v ∈ items, v.Every Node.Apart

namespace Stream
variable {limit first : Nat} {items others : List Node} {s m s' : Stream} {v : Node} {token : Token}
  {taken : Span}

theorem Row.nil (ho : s.Ordered limit) : s.Row limit s.lastEnd [] :=
  ⟨ho, .nil (Nat.le_refl _), List.forall_mem_nil _⟩

theorem Row.takes (h : s.Row limit first items) (ht : s.Takes token taken s') : s'.Row limit first items := by
  obtain ⟨ho, hn, hp, he, hlt⟩ := h.ordered.takes ht
  have hnext := h.ordered.next
  exact ⟨ho, h.consecutive.mono (Nat.le_refl _) (by omega), h.apart⟩

theorem OpenRow.takes (h : s.OpenRow limit first items) (ht : s.Takes token taken s') :
    s'.Row limit first items := by
  obtain ⟨ho, hn, hp, he, hlt⟩ := h.ordered.takes ht
  exact ⟨ho, h.consecutive.mono (Nat.le_refl _) (by omega), h.apart⟩

theorem Row.append (h : m.Row limit first items) (ho : s.Row limit m.lastEnd others) :
    s.Row limit first (items ++ others) :=
  ⟨ho.ordered, h.consecutive.append ho.consecutive, List.forall_mem_append.mpr ⟨h.apart, ho.apart⟩⟩

/-- A node read from a stream, whose children lie as they should. -/
theorem Spans.row (h : s.Spans limit (s.position + 1) v s') (ho : s.Ordered limit) (hv : v.Every Node.Apart) :
    s'.Row limit s.lastEnd [v] :=
  ⟨h.ordered, (h.lists ho).items, List.forall_mem_singleton.mpr hv⟩

/-- Nodes of a row are the children of a node. -/
theorem Row.every {form : Form Node} {span : Span} (h : s.Row limit first form.children) (hp : form.plain) :
    Node.Every Node.Apart ⟨form, span⟩ := by
  refine Node.every_mk.mpr ⟨?_, h.apart⟩
  have hpairwise := h.consecutive.pairwise
  cases form <;> first | exact hpairwise | cases hp

/-- Nodes of a row are the items of a list node, which lies where they do. -/
theorem Row.list {form : List Node → Form Node} (h : s.Row limit first (v :: others))
    (hform : (form (v :: others)).children = v :: others) (hp : (form (v :: others)).plain) (anchor : Nat) :
    s.Row limit first [.ofItems form (v :: others) anchor] := by
  have hwithin := h.consecutive.ofItems hform anchor
  refine ⟨h.ordered, .singleton hwithin.pos hwithin.spanned hwithin.endPos, List.forall_mem_singleton.mpr ?_⟩
  rw [← hform] at h
  exact h.every hp

end Stream

/-- A phrase that yields nodes whose children lie as they should. -/
def Phrase.Rows (limit : Nat) (phrase : Phrase Node) : Prop :=
  ∀ {s v s'}, s.Ordered limit → phrase s v s' → s'.Row limit s.lastEnd [v]

/-- The nested phrases yield nodes whose children lie as they should. -/
structure Phrases.Rows (limit : Nat) (nested : Phrases) : Prop where
  spanned : nested.Spanned limit
  expression : nested.expression.Rows limit
  concatenation : nested.concatenation.Rows limit
  unary : nested.unary.Rows limit
  block : ∀ {s v s'}, s.Ordered limit → nested.block s v s' → v.Every Node.Apart

theorem Sequence.row {α : Type} {limit : Nat} {phrase : Phrase α} {f : α → List Node} {s s' : Stream}
    {items : List α} (h : ∀ {s a s'}, s.Ordered limit → phrase s a s' → s'.Row limit s.lastEnd (f a))
    (ho : s.Ordered limit) (hs : Sequence phrase s items s') : s'.Row limit s.lastEnd (items.flatMap f) := by
  induction hs with
  | nil => exact .nil ho
  | cons ha _ ih =>
    have hfirst := h ho ha
    rw [List.flatMap_cons]
    exact hfirst.append (ih hfirst.ordered)

namespace Phrase

open Grammar (Tier indexed selfParameter valueList looseTiers tightTiers)

variable {limit : Nat} {s m m' s' : Stream} {v : Node}

section Terminals

theorem rows_atom {token : Token} {form : Form Node} (hform : form.children = []) (hp : form.plain) :
    (Atom token form).Rows limit := by
  intro s v s' ho h
  have hspans := spanned_atom hform ho h
  obtain ⟨span, -, rfl⟩ := h
  have hnil : s.Row limit s.lastEnd form.children := hform ▸ .nil ho
  exact hspans.row ho (hnil.every hp)

theorem rows_name : Name.Rows limit := fun ho ⟨_, _, h⟩ => rows_atom rfl rfl ho h

theorem rows_key : Key.Rows limit := fun ho ⟨_, _, h⟩ => rows_atom rfl rfl ho h

theorem rows_varargs : Varargs.Rows limit := rows_atom rfl rfl

theorem after_rows {separator : Token} {item : Phrase Node} (hi : item.Rows limit) :
    (After separator item).Rows limit := by
  rintro s v s' ho ⟨span, m, ht, hv⟩
  have htaken := (Stream.Row.nil ho).takes ht
  exact htaken.append (hi htaken.ordered hv)

theorem sequence_rows {phrase : Phrase Node} {items : List Node} (h : phrase.Rows limit) (ho : s.Ordered limit)
    (hs : Sequence phrase s items s') : s'.Row limit s.lastEnd items := by
  have hrow := Sequence.row (f := fun v => [v]) h ho hs
  rwa [List.flatMap_singleton'] at hrow

/-- One row more where there is one. -/
theorem optional_row {phrase : Phrase Node} {absent : Stream → Prop} {found : Option Node} (h : phrase.Rows limit)
    (ho : s.Ordered limit) (hf : Optional phrase absent s found s') : s'.Row limit s.lastEnd found.toList := by
  cases found with
  | some v => exact h ho hf
  | none =>
    obtain ⟨-, rfl⟩ := hf
    exact .nil ho

end Terminals

/-- A node that is read from the start of a stream, and on which further steps build. -/
structure Builds (limit : Nat) (s : Stream) (v : Node) (s' : Stream) : Prop where
  spans : s.Spans limit (s.position + 1) v s'
  apart : v.Every Node.Apart

theorem Rows.builds {phrase : Phrase Node} (h : phrase.Rows limit) (hspans : phrase.Spanned limit)
    (ho : s.Ordered limit) (hv : phrase s v s') : Builds limit s v s' :=
  ⟨hspans ho hv, (h ho hv).apart v List.mem_cons_self⟩

theorem Builds.row (h : Builds limit s v s') (ho : s.Ordered limit) : s'.Row limit s.lastEnd [v] :=
  h.spans.row ho h.apart

section Functions
variable {nested : Phrases}

theorem pathStep_builds {object : Node} (ho : s.Ordered limit) (h : Builds limit s object m)
    (hs : PathStep object m v m') : Builds limit s v m' := by
  refine ⟨pathStep_spans h.spans hs, ?_⟩
  obtain ⟨dot, e, hd, key, hk, rfl⟩ := hs
  have hdot := (h.row ho).takes hd
  exact (hdot.append (rows_key hdot.ordered hk)).every rfl

theorem functionName_builds {target : Node × Bool} (ho : s.Ordered limit) (h : FunctionName s target s') :
    Builds limit s target.1 s' := by
  have hspans := functionName_spans ho h
  obtain ⟨base, m₁, hb, path, m₂, ⟨hpath, -⟩, hend⟩ := h
  have hpath : Builds limit s path m₂ :=
    Steps.keeps (P := Builds limit s) (pathStep_builds ho) (rows_name.builds spanned_name ho hb) hpath
  rcases hend with ⟨colon, m₃, hc, method, hm, rfl⟩ | ⟨-, rfl, rfl⟩
  · have hcolon := (hpath.row ho).takes hc
    exact ⟨hspans, (hcolon.append (rows_key hcolon.ordered hm)).every rfl⟩
  · exact hpath

theorem parameters_row {listed : List Node} (ho : s.Ordered limit) (h : Parameters s listed s') :
    s'.Row limit s.lastEnd listed := by
  induction h with
  | last h _ => exact rows_name ho h
  | varargs h => exact rows_varargs ho h
  | more h hc _ ih =>
    have hname := (rows_name ho h).takes hc
    exact hname.append (ih hname.ordered)

/-- The implicit parameter of a method lies on the parenthesis that opens its list. -/
theorem self_row {opening : Span} (ho : s.Ordered limit) (h : s.Takes "(" opening s') :
    s'.Row limit s.lastEnd [selfParameter opening] := by
  obtain ⟨ho', hn, hp, he, hlt⟩ := ho.takes h
  have hnext := ho.next
  have hself : (selfParameter opening).span = .point (s.position + 1) := by rw [selfParameter, hp]
  have hnil : s.Row limit s.lastEnd (Form.name (.ofString "self") : Form Node).children := .nil ho
  refine ⟨ho', .singleton ?_ ?_ ?_, List.forall_mem_singleton.mpr (hnil.every rfl)⟩
  · rw [hself]
    exact Nat.lt_succ_of_le hnext
  · exact Node.spanned_of_children (Nat.le_refl _) (List.forall_mem_nil _)
  · rw [hself]
    exact hlt

variable (hnested : nested.Rows limit)
include hnested

/-- A block after other nodes. -/
theorem block_row {items : List Node} {first : Nat} {body : Node} (h : s.Row limit first items)
    (hb : nested.block s body s') : s'.OpenRow limit first (items ++ [body]) := by
  have hbody := hnested.spanned.block h.ordered hb
  refine ⟨hbody.ordered, h.consecutive.append ?_, ?_⟩
  · exact .singleton hbody.within.pos hbody.within.spanned hbody.within.endPos
  · exact List.forall_mem_append.mpr ⟨h.apart, List.forall_mem_singleton.mpr (hnested.block h.ordered hb)⟩

theorem functionBody_row {first : Span} {isMethod : Bool} (ho : s.Ordered limit)
    (h : FunctionBody nested first isMethod s v s') : v.Every Node.Apart := by
  obtain ⟨opening, m₁, hopen, listed, m₂, hlisted, closing, m₃, hclose, body, m₄, hbody, last, hlast,
    rfl⟩ := h
  have hself : m₁.Row limit s.lastEnd (if isMethod then [selfParameter opening] else []) := by
    cases isMethod with
    | true => exact self_row ho hopen
    | false => exact (Stream.Row.nil ho).takes hopen
  have hparameters : m₂.Row limit m₁.lastEnd listed := by
    rcases hlisted with hlisted | ⟨-, rfl, rfl⟩
    · exact parameters_row hself.ordered hlisted
    · exact .nil hself.ordered
  have hall := (block_row hnested ((hself.append hparameters).takes hclose) hbody).takes hlast
  cases isMethod with
  | true => exact hall.every rfl
  | false => exact hall.every rfl

theorem rows_functionLiteral : (FunctionLiteral nested).Rows limit := by
  intro s v s' ho h
  have hspans := spanned_functionLiteral hnested.spanned ho h
  obtain ⟨first, m, ht, hbody⟩ := h
  exact hspans.row ho (functionBody_row hnested (ho.takes ht).1 hbody)

end Functions

section Operators
variable {operand left right : Phrase Node}

theorem chainStep_builds {tier : Tier} {x : Node} (hspans : operand.Spanned limit) (hr : operand.Rows limit)
    (ho : s.Ordered limit) (h : Builds limit s x m) (hs : ChainStep operand tier x m v m') :
    Builds limit s v m' := by
  refine ⟨chainStep_spans hspans h.spans hs, ?_⟩
  obtain ⟨op, -, span, e, ht, y, hy, rfl⟩ := hs
  have htaken := (h.row ho).takes ht
  exact (htaken.append (hr htaken.ordered hy)).every rfl

theorem rows_chains (hspans : operand.Spanned limit) (hr : operand.Rows limit) (tiers : List Tier) :
    (Chains operand tiers).Rows limit := by
  induction tiers with
  | nil => exact hr
  | cons tier tighter ih =>
    rintro s v s' ho ⟨first, m, hfirst, hsteps, -⟩
    have hchains : (Chains operand tighter).Spanned limit := spanned_chains hspans tighter
    exact (Steps.keeps (P := Builds limit s) (chainStep_builds hchains ih ho) (ih.builds hchains ho hfirst)
      hsteps).row ho

theorem rows_withRight (hl : left.Spanned limit) (hl' : left.Rows limit) (op : BinaryOp)
    (hr : right.Spanned limit) (hr' : right.Rows limit) : (WithRight left op right).Rows limit := by
  intro s v s' ho h
  have hspans := spanned_withRight hl op hr ho h
  obtain ⟨first, m, hfirst, ⟨span, m₁, ht, operand, hoperand, rfl⟩ | ⟨-, rfl, rfl⟩⟩ := h
  · have htaken := (hl' ho hfirst).takes ht
    exact hspans.row ho ((htaken.append (hr' htaken.ordered hoperand)).every rfl)
  · exact hl' ho hfirst

end Operators

section Expressions
variable {nested : Phrases} (hnested : nested.Rows limit)
include hnested

theorem expressions_row {values : List Node} (ho : s.Ordered limit) (h : Expressions nested s values s') :
    s'.Row limit s.lastEnd values := by
  obtain ⟨value, m, hvalue, others, ⟨hothers, -⟩, rfl⟩ := h
  have hfirst := hnested.expression ho hvalue
  exact hfirst.append (sequence_rows (after_rows hnested.expression) hfirst.ordered hothers)

theorem rows_parenthesized : (Parenthesized nested).Rows limit := by
  intro s v s' ho h
  have hspans := spanned_parenthesized hnested.spanned ho h
  obtain ⟨first, m₁, hopen, inner, m₂, hinner, close, hclose, rfl⟩ := h
  exact hspans.row ho ((hnested.expression (ho.takes hopen).1 hinner).every rfl)

theorem rows_field : (Field nested).Rows limit := by
  intro s v s' ho h
  have hspans := spanned_field hnested.spanned ho h
  rcases h with ⟨first, m₁, hopen, key, m₂, hkey, close, m₃, hclose, equals, m₄, hequals, value, hvalue, rfl⟩ |
    ⟨key, m₁, hkey, equals, m₂, hequals, value, hvalue, rfl⟩ | ⟨-, h⟩
  · have hequals := ((hnested.expression (ho.takes hopen).1 hkey).takes hclose).takes hequals
    exact hspans.row ho ((hequals.append (hnested.expression hequals.ordered hvalue)).every rfl)
  · have hequals := (rows_key ho hkey).takes hequals
    exact hspans.row ho ((hequals.append (hnested.expression hequals.ordered hvalue)).every rfl)
  · exact hnested.expression ho h

theorem fields_row {fields : List Node} (ho : s.Ordered limit) (h : Fields nested s fields s') :
    s'.Row limit s.lastEnd fields := by
  induction h with
  | none _ => exact .nil ho
  | last h _ => exact rows_field hnested ho h
  | @more s m m' s' v span others h hs _ ih =>
    have hfield := rows_field hnested ho h
    have hseparator : m'.Row limit s.lastEnd [v] := by
      rcases hs with hs | hs
      · exact hfield.takes hs
      · exact hfield.takes hs
    exact hseparator.append (ih hseparator.ordered)

theorem rows_table : (Table nested).Rows limit := by
  intro s v s' ho h
  have hspans := spanned_table hnested.spanned ho h
  obtain ⟨first, m₁, hopen, fields, m₂, hfields, close, hclose, rfl⟩ := h
  exact hspans.row ho ((fields_row hnested (ho.takes hopen).1 hfields).every rfl)

theorem arguments_row {values : List Node} (ho : s.Ordered limit) (h : Arguments nested s values s') :
    s'.Row limit s.lastEnd values := by
  rcases h with ⟨first, m₁, hopen, listed, m₂, hlisted, close, hclose, rfl⟩ | ⟨v, hv, rfl⟩ | ⟨v, ⟨value, hv⟩, rfl⟩
  · have hopen := (Stream.Row.nil ho).takes hopen
    have hvalues : m₂.Row limit m₁.lastEnd (listed.getD []) := by
      cases listed with
      | some values => exact expressions_row hnested hopen.ordered hlisted
      | none =>
        obtain ⟨-, rfl⟩ := hlisted
        exact .nil hopen.ordered
    exact (hopen.append hvalues).takes hclose
  · exact rows_table hnested ho hv
  · exact rows_atom rfl rfl ho hv

theorem suffix_builds {object : Node} (ho : s.Ordered limit) (h : Builds limit s object m)
    (hs : Suffix nested object m v m') : Builds limit s v m' := by
  refine ⟨suffix_spans hnested.spanned h.spans hs, ?_⟩
  have hobject := h.row ho
  rcases hs with ⟨dot, m₁, hd, key, hk, rfl⟩ | ⟨bracket, m₁, hopen, key, m₂, hkey, close, hclose, rfl⟩ |
    ⟨colon, m₁, hcolon, method, m₂, hmethod, values, hvalues, rfl⟩ | ⟨values, hvalues, rfl⟩
  · have hdot := hobject.takes hd
    exact (hdot.append (rows_key hdot.ordered hk)).every rfl
  · have hopen := hobject.takes hopen
    exact (hopen.append (hnested.expression hopen.ordered hkey)).every rfl
  · have hcolon := hobject.takes hcolon
    have hmethod := hcolon.append (rows_key hcolon.ordered hmethod)
    exact (hmethod.append (arguments_row hnested hmethod.ordered hvalues)).every rfl
  · exact (hobject.append (arguments_row hnested hobject.ordered hvalues)).every rfl

theorem rows_suffixed : (Suffixed nested).Rows limit := by
  rintro s v s' ho ⟨first, m, hfirst, hsteps, -⟩
  have hbuilds : Builds limit s first m := by
    rcases hfirst with hfirst | hfirst
    · exact rows_name.builds spanned_name ho hfirst
    · exact Rows.builds (rows_parenthesized hnested) (spanned_parenthesized hnested.spanned) ho hfirst
  exact (Steps.keeps (P := Builds limit s) (suffix_builds hnested ho) hbuilds hsteps).row ho

theorem rows_simple : (Simple nested).Rows limit := by
  rintro s v s' ho (⟨value, h⟩ | ⟨value, h⟩ | h | h | h | h | h | h | h)
  · exact rows_atom rfl rfl ho h
  · exact rows_atom rfl rfl ho h
  · exact rows_atom rfl rfl ho h
  · exact rows_atom rfl rfl ho h
  · exact rows_atom rfl rfl ho h
  · exact rows_varargs ho h
  · exact rows_functionLiteral hnested ho h
  · exact rows_table hnested ho h
  · exact rows_suffixed hnested ho h

theorem rows_unary : (Unary nested).Rows limit := by
  intro s v s' ho h
  have hspans := spanned_unary hnested.spanned ho h
  rcases h with ⟨op, first, m, ht, operand, hoperand, rfl⟩ | h
  · exact hspans.row ho ((hnested.unary (ho.takes ht).1 hoperand).every rfl)
  · exact rows_withRight (spanned_simple hnested.spanned) (rows_simple hnested) _ hnested.spanned.unary hnested.unary ho h

theorem rows_concatenation : (Concatenation nested).Rows limit :=
  rows_withRight (spanned_chains (spanned_unary hnested.spanned) _)
    (rows_chains (spanned_unary hnested.spanned) (rows_unary hnested) _) _ hnested.spanned.concatenation
    hnested.concatenation

theorem rows_expression : (Expression nested).Rows limit :=
  rows_chains (spanned_concatenation hnested.spanned) (rows_concatenation hnested) _

end Expressions

section Statements
variable {nested : Phrases}

theorem nameList_row {declared names : Node} {last : Nat} (h : m.Row limit last [declared])
    (hn : NameList declared m names s') : s'.Row limit last [names] := by
  obtain ⟨others, ⟨hothers, -⟩, rfl⟩ := hn
  have hall := h.append (sequence_rows (after_rows rows_name) h.ordered hothers)
  exact hall.list rfl rfl _

variable (hnested : nested.Rows limit)
include hnested

/-- Values after other nodes, as a list node. -/
theorem valueList_row {items values : List Node} {last : Nat} (before : Node) (h : m.Row limit last items)
    (hv : Expressions nested m values s') : s'.Row limit last (items ++ [valueList values before]) := by
  have hrow := expressions_row hnested h.ordered hv
  obtain ⟨value, e, -, others, -, rfl⟩ := hv
  exact h.append (hrow.list rfl rfl _)

theorem branch_row {items : List Node} {branch : Node × Node} {first : Nat} (h : s.Row limit first items)
    (hb : Branch nested s branch s') : s'.OpenRow limit first (items ++ [branch.1, branch.2]) := by
  obtain ⟨condition, m₁, hcondition, span, m₂, hthen, body, hbody, rfl⟩ := hb
  have hcondition := (h.append (hnested.expression h.ordered hcondition)).takes hthen
  have hall := block_row hnested hcondition hbody
  rwa [List.append_assoc] at hall

theorem branches_row {items : List Node} {others : List (Node × Node)} {first : Nat}
    (h : s.OpenRow limit first items) (hs : Sequence (After "elseif" (Branch nested)) s others s') :
    s'.OpenRow limit first (items ++ others.flatMap fun branch => [branch.1, branch.2]) := by
  induction hs generalizing items with
  | nil => rwa [List.flatMap_nil, List.append_nil]
  | cons hbranch _ ih =>
    obtain ⟨span, m, ht, hbranch⟩ := hbranch
    have hfirst := ih (branch_row hnested (h.takes ht) hbranch)
    rwa [List.append_assoc] at hfirst

theorem rows_ifStatement : (IfStatement nested).Rows limit := by
  intro s v s' ho h
  have hspans := spanned_ifStatement hnested.spanned ho h
  obtain ⟨first, m₁, hif, head, m₂, hhead, others, m₃, ⟨hothers, -⟩, otherwise, m₄, hotherwise, last, hlast,
    rfl⟩ := h
  have hbranches := branches_row hnested (branch_row hnested ((Stream.Row.nil ho).takes hif) hhead) hothers
  have hall : m₄.OpenRow limit s.lastEnd (Form.conditional (head :: others) otherwise).children := by
    cases otherwise with
    | some body =>
      obtain ⟨span, m, ht, hbody⟩ := hotherwise
      exact block_row hnested (hbranches.takes ht) hbody
    | none =>
      obtain ⟨-, rfl⟩ := hotherwise
      simpa [Form.children] using hbranches
  exact hspans.row ho ((hall.takes hlast).every rfl)

theorem rows_doStatement : (DoStatement nested).Rows limit := by
  intro s v s' ho h
  have hspans := spanned_doStatement hnested.spanned ho h
  obtain ⟨first, m₁, hdo, body, m₂, hbody, last, hlast, rfl⟩ := h
  have hall := block_row hnested ((Stream.Row.nil ho).takes hdo) hbody
  exact hspans.row ho ((hall.takes hlast).every rfl)

theorem rows_whileStatement : (WhileStatement nested).Rows limit := by
  intro s v s' ho h
  have hspans := spanned_whileStatement hnested.spanned ho h
  obtain ⟨first, m₁, hwhile, condition, m₂, hcondition, span, m₃, hdo, body, m₄, hbody, last, hlast, rfl⟩ := h
  have hall := block_row hnested ((hnested.expression (ho.takes hwhile).1 hcondition).takes hdo) hbody
  exact hspans.row ho ((hall.takes hlast).every rfl)

theorem rows_repeatStatement : (RepeatStatement nested).Rows limit := by
  intro s v s' ho h
  have hspans := spanned_repeatStatement hnested.spanned ho h
  obtain ⟨first, m₁, hrepeat, body, m₂, hbody, span, m₃, huntil, condition, hcondition, rfl⟩ := h
  have hbody := (block_row hnested ((Stream.Row.nil ho).takes hrepeat) hbody).takes huntil
  exact hspans.row ho ((hbody.append (hnested.expression hbody.ordered hcondition)).every rfl)

theorem forBody_row {items : List Node} {first : Nat} {body : Node} (h : s.Row limit first items)
    (hb : ForBody nested s body s') : s'.Row limit first (items ++ [body]) := by
  obtain ⟨span, m₁, hdo, block, m₂, hblock, last, hlast, rfl⟩ := hb
  exact (block_row hnested (h.takes hdo) hblock).takes hlast

theorem numericFor_every {first : Span} {counter : Node} {last : Nat} (h : s.Row limit last [counter])
    (hv : NumericFor nested first counter s v s') : v.Every Node.Apart := by
  obtain ⟨start, m₁, hstart, comma, m₂, hcomma, bound, m₃, hbound, step, m₄, hstep, body, hbody, rfl⟩ := hv
  have hstart := (h.append (hnested.expression h.ordered hstart)).takes hcomma
  have hbound := hstart.append (hnested.expression hstart.ordered hbound)
  have hstep := hbound.append (optional_row (after_rows hnested.expression) hbound.ordered hstep)
  exact (forBody_row hnested hstep hbody).every rfl

theorem genericFor_every {first : Span} {counter : Node} {last : Nat} (h : s.Row limit last [counter])
    (hv : GenericFor nested first counter s v s') : v.Every Node.Apart := by
  obtain ⟨names, m₁, hnames, span, m₂, hin, values, m₃, hvalues, body, hbody, rfl⟩ := hv
  have hnames := (nameList_row h hnames).takes hin
  exact (forBody_row hnested (valueList_row hnested _ hnames hvalues) hbody).every rfl

theorem rows_forStatement : (ForStatement nested).Rows limit := by
  intro s v s' ho h
  have hspans := spanned_forStatement hnested.spanned ho h
  obtain ⟨first, m₁, hfor, counter, m₂, hcounter, hrest⟩ := h
  have hcounter := rows_name (ho.takes hfor).1 hcounter
  rcases hrest with ⟨equals, m₃, hequals, hrest⟩ | ⟨-, hrest⟩
  · exact hspans.row ho (numericFor_every hnested (hcounter.takes hequals) hrest)
  · exact hspans.row ho (genericFor_every hnested hcounter hrest)

theorem localNames_every {first : Span} (ho : s.Ordered limit) (h : LocalNames nested first s v s') :
    v.Every Node.Apart := by
  obtain ⟨declared, m₁, hdeclared, names, m₂, hnames, values, hvalues, rfl⟩ := h
  have hnames := nameList_row (rows_name ho hdeclared) hnames
  cases values with
  | none =>
    have hnil : m₂.Row limit m₂.lastEnd (Form.valueList [] : Form Node).children := .nil hnames.ordered
    refine Node.every_mk.mpr ⟨rfl, List.forall_mem_cons.mpr ⟨hnames.apart _ List.mem_cons_self, ?_⟩⟩
    exact List.forall_mem_singleton.mpr (hnil.every rfl)
  | some values =>
    obtain ⟨span, m, ht, hvalues⟩ := hvalues
    have hall := valueList_row hnested names (hnames.takes ht) hvalues
    refine Node.every_mk.mpr ⟨?_, hall.apart⟩
    obtain ⟨value, e, -, others, -, rfl⟩ := hvalues
    have hpairwise := hall.consecutive.pairwise
    simpa [Node.Apart, valueList, Node.ofItems, Node.children, Form.children] using hpairwise

omit hnested in
/-- The parts of a definition: a name, and a function whose tokens are around it. -/
theorem definition_every {target function : Node} {form : Form Node} {list : List Node → Form Node} {span : Span}
    {last : Nat} (ht : m.Row limit last [target]) (hf : function.Every Node.Apart)
    (hlist : (list [target]).children = [target]) (hp : (list [target]).plain)
    (hform : form.children = [⟨list [target], target.span⟩, ⟨.valueList [function], function.span⟩])
    (h : Node.Apart ⟨form, span⟩) : Node.Every Node.Apart ⟨form, span⟩ := by
  have htarget : Node.Every Node.Apart ⟨list [target], target.span⟩ := by
    rw [← hlist] at ht
    exact ht.every hp
  have hfunction : Node.Every Node.Apart ⟨.valueList [function], function.span⟩ :=
    Node.every_mk.mpr ⟨List.pairwise_singleton _ _, List.forall_mem_singleton.mpr hf⟩
  refine Node.every_mk.mpr ⟨h, ?_⟩
  rw [hform]
  exact List.forall_mem_cons.mpr ⟨htarget, List.forall_mem_singleton.mpr hfunction⟩

theorem localFunction_every {first second : Span} (ho : s.Ordered limit) (hf : first.pos < second.pos)
    (hsecond : second.pos ≤ s.lastEnd) (h : LocalFunction nested first second s v s') : v.Every Node.Apart := by
  obtain ⟨declared, m, hdeclared, function, hfunction, rfl⟩ := h
  have hname := rows_name ho hdeclared
  have hspans := spanned_name ho hdeclared
  have hbody := functionBody_spans hnested.spanned hname.ordered (Nat.le_trans hsecond hname.consecutive.le) hfunction
  refine definition_every hname (functionBody_row hnested hname.ordered hfunction) rfl rfl rfl ?_
  have hn := ho.next
  have hlt := hbody.lt
  have hnext := hspans.next
  refine ⟨?_, ?_, ?_⟩
  · simpa [hbody.pos] using hf
  · simp only [hbody.pos, hspans.pos]
    omega
  · simp only [hbody.endPos, hspans.endPos]
    omega

theorem rows_localStatement : (LocalStatement nested).Rows limit := by
  intro s v s' ho h
  have hspans := spanned_localStatement hnested.spanned ho h
  obtain ⟨first, m₁, hlocal, ⟨second, m₂, hfunction, hrest⟩ | ⟨-, hrest⟩⟩ := h
  · obtain ⟨ho₁, hn₁, hp₁, he₁, hlt₁⟩ := ho.takes hlocal
    obtain ⟨ho₂, hn₂, hp₂, he₂, hlt₂⟩ := ho₁.takes hfunction
    exact hspans.row ho (localFunction_every hnested ho₂ (by omega) (by omega) hrest)
  · exact hspans.row ho (localNames_every hnested (ho.takes hlocal).1 hrest)

/-- The function of a function statement begins where the statement does, and has the name inside. -/
theorem functionStatement_around (ho : s.Ordered limit) (h : FunctionStatement nested s v s') (targets values : Node)
    (hv : v.form = .assignment targets values) : values.span.pos = v.span.pos ∧ values.Around targets := by
  obtain ⟨first, m₁, ht, target, m₂, htarget, function, hfunction, rfl⟩ := h
  cases hv
  obtain ⟨ho₁, hn₁, hp₁, he₁, hlt₁⟩ := ho.takes ht
  obtain ⟨ho₂, hn₂, hp₂, he₂, hlt₂, -⟩ := functionName_spans ho₁ htarget
  obtain ⟨-, -, hpos, hend, hlt, -⟩ := functionBody_spans hnested.spanned ho₂ (by omega) hfunction
  refine ⟨hpos, ?_, ?_⟩
  · simp only [hpos, hp₂]
    omega
  · simp only [hend, he₂]
    omega

theorem rows_functionStatement : (FunctionStatement nested).Rows limit := by
  intro s v s' ho h
  have hspans := spanned_functionStatement hnested.spanned ho h
  have haround := functionStatement_around hnested ho h
  obtain ⟨first, m₁, ht, target, m₂, htarget, function, hfunction, rfl⟩ := h
  obtain ⟨ho₁, -⟩ := ho.takes ht
  have hname := (functionName_builds ho₁ htarget).row ho₁
  have hbody := functionBody_row hnested hname.ordered hfunction
  exact hspans.row ho (definition_every hname hbody rfl rfl rfl (.inr (haround _ _ rfl)))

theorem rows_returnStatement : (ReturnStatement nested).Rows limit := by
  intro s v s' ho h
  have hspans := spanned_returnStatement hnested.spanned ho h
  obtain ⟨first, m₁, ht, values, m₂, hvalues, semicolon, hend, rfl⟩ := h
  have hreturn := (Stream.Row.nil ho).takes ht
  have hall : m₂.Row limit m₁.lastEnd (Form.returnValues (values.getD []) : Form Node).children := by
    cases values with
    | some values => exact expressions_row hnested hreturn.ordered hvalues
    | none =>
      obtain ⟨-, rfl⟩ := hvalues
      exact .nil hreturn.ordered
  exact hspans.row ho (hall.every rfl)

theorem assignment_row {first : Node} {last : Nat} (h : s.Row limit last [first])
    (hv : Assignment nested first s v s') : ∃ targets values, v.form = .assignment targets values ∧
      s'.Row limit last [targets, values] := by
  obtain ⟨others, m₁, ⟨hothers, -⟩, equals, m₂, hequals, values, hvalues, rfl⟩ := hv
  have htarget : (After "," (Target nested)).Rows limit :=
    after_rows fun ho h => rows_suffixed hnested ho h.1
  have htargets := h.append (sequence_rows htarget h.ordered hothers)
  have hlist : m₁.Row limit last [.ofItems .targetList (first :: others) 0] := htargets.list rfl rfl 0
  exact ⟨_, _, rfl, valueList_row hnested _ (hlist.takes hequals) hvalues⟩

/-- The values of an assignment come after its targets. -/
theorem expressionStatement_before (ho : s.Ordered limit) (h : ExpressionStatement nested s v s')
    (targets values : Node) (hv : v.form = .assignment targets values) : targets.span.endPos < values.span.pos := by
  obtain ⟨first, m, hfirst, ⟨hcall, rfl, -⟩ | ⟨-, -, ha⟩⟩ := h
  · rw [hv] at hcall
    cases hcall
  · obtain ⟨targets', values', hform, hrow⟩ := assignment_row hnested (rows_suffixed hnested ho hfirst) ha
    rw [hv] at hform
    cases hform
    exact (List.pairwise_cons.mp hrow.consecutive.pairwise).1 values (List.mem_singleton_self _)

theorem rows_expressionStatement : (ExpressionStatement nested).Rows limit := by
  intro s v s' ho h
  have hspans := spanned_expressionStatement hnested.spanned ho h
  have hbefore := expressionStatement_before hnested ho h
  obtain ⟨first, m, hfirst, ⟨-, rfl, rfl⟩ | ⟨-, -, ha⟩⟩ := h
  · exact rows_suffixed hnested ho hfirst
  · obtain ⟨targets, values, hform, hrow⟩ := assignment_row hnested (rows_suffixed hnested ho hfirst) ha
    obtain ⟨form, span⟩ := v
    cases hform
    exact hspans.row ho (Node.every_mk.mpr ⟨.inl (hbefore targets values rfl), hrow.apart⟩)

theorem rows_statement : (Statement nested).Rows limit := by
  rintro s v s' ho (h | h | h | h | h | h | h | h | h | h | h)
  · exact rows_ifStatement hnested ho h
  · exact rows_doStatement hnested ho h
  · exact rows_whileStatement hnested ho h
  · exact rows_repeatStatement hnested ho h
  · exact rows_forStatement hnested ho h
  · exact rows_localStatement hnested ho h
  · exact rows_functionStatement hnested ho h
  · exact rows_atom rfl rfl ho h
  · have hspans := spanned_labelStatement ho h
    obtain ⟨first, m₁, hopen, text, span, m₂, -, last, -, rfl⟩ := h
    have hnil : s.Row limit s.lastEnd (Form.label text : Form Node).children := .nil ho
    exact hspans.row ho (hnil.every rfl)
  · have hspans := spanned_gotoStatement ho h
    obtain ⟨first, m, hopen, text, span, -, rfl⟩ := h
    have hnil : s.Row limit s.lastEnd (Form.goto text : Form Node).children := .nil ho
    exact hspans.row ho (hnil.every rfl)
  · exact rows_expressionStatement hnested ho h

theorem statements_row {listed : List Node} (ho : s.Ordered limit) (h : Statements nested s listed s') :
    s'.Row limit s.lastEnd listed := by
  obtain ⟨found, m, ⟨hfound, -⟩, last, hlast, rfl⟩ := h
  have hrow := Sequence.row (f := Option.toList) (fun hs ha => by
    rcases ha with ⟨span, ht, rfl⟩ | ⟨v, hv, rfl⟩
    · exact (Stream.Row.nil hs).takes ht
    · exact rows_statement hnested hs hv) ho hfound
  exact hrow.append (optional_row (rows_returnStatement hnested) hrow.ordered hlast)

theorem block_every (ho : s.Ordered limit) (h : Block nested s v s') : v.Every Node.Apart := by
  obtain ⟨listed, hlisted, rfl⟩ := h
  have hrow : s'.Row limit s.lastEnd (Form.block listed).children := statements_row hnested ho hlisted
  exact hrow.every rfl

end Statements

end Phrase

theorem phrases_rows (limit levels : Nat) : (phrases levels).Rows limit := by
  have hspanned := phrases_spanned limit levels
  induction levels with
  | zero => exact ⟨hspanned, fun _ h => h.elim, fun _ h => h.elim, fun _ h => h.elim, fun _ h => h.elim⟩
  | succ levels ih =>
    have hrows := ih (phrases_spanned limit levels)
    exact ⟨hspanned, Phrase.rows_expression hrows, Phrase.rows_concatenation hrows, Phrase.rows_unary hrows,
      Phrase.block_every hrows⟩

theorem chunk_every {limit levels : Nat} {s : Stream} {root : Node} (ho : s.Ordered limit)
    (h : Phrase.Chunk levels s root) : root.Every Node.Apart := by
  obtain ⟨listed, s', hlisted, hnil, rfl⟩ := h
  have hrow : s'.Row limit s.lastEnd (Form.block listed).children :=
    Phrase.statements_row (phrases_rows limit levels) ho hlisted
  exact hrow.every rfl

end LuaSyntax
