import LuaSyntax.Proofs.Span.Order
import LuaSyntax.Proofs.Phrase.Grammar

/-! # Spans of expressions

Every phrase of the grammar yields a node that spans its tokens, if the nested ones do.
-/
namespace LuaSyntax

/-- A phrase that yields nodes from its first token to its last one. -/
def Phrase.Spanned (limit : Nat) (phrase : Phrase Node) : Prop :=
  ∀ {s v s'}, s.Ordered limit → phrase s v s' → s.Spans limit (s.position + 1) v s'

/-- The nested phrases yield nodes that span their tokens. -/
structure Phrases.Spanned (limit : Nat) (nested : Phrases) : Prop where
  expression : nested.expression.Spanned limit
  concatenation : nested.concatenation.Spanned limit
  unary : nested.unary.Spanned limit
  block : ∀ {s v s'}, s.Ordered limit → nested.block s v s' → s.Encloses limit v s'

namespace Phrase

open Grammar (Tier indexed selfParameter valueList looseTiers tightTiers)

variable {limit : Nat} {s s' : Stream}

section Terminals

theorem spanned_atom {token : Token} {form : Form Node} (hform : form.children = []) :
    (Atom token form).Spanned limit := by
  rintro s v s' ho ⟨span, ht, rfl⟩
  obtain ⟨ho', hn, hp, he, hlt⟩ := ho.takes ht
  refine ⟨ho', hn, hp, he, hlt, Node.spanned_of_children (by omega) ?_⟩
  simp [hform]

theorem spanned_name : Name.Spanned limit := by
  rintro s v s' ho ⟨text, -, h⟩
  exact spanned_atom rfl ho h

theorem spanned_key : Key.Spanned limit := by
  rintro s v s' ho ⟨text, -, h⟩
  exact spanned_atom rfl ho h

theorem spanned_number : Number.Spanned limit := by
  rintro s v s' ho ⟨value, h⟩
  exact spanned_atom rfl ho h

theorem spanned_string : String.Spanned limit := by
  rintro s v s' ho ⟨value, h⟩
  exact spanned_atom rfl ho h

theorem spanned_varargs : Varargs.Spanned limit := spanned_atom rfl

end Terminals

section Functions
variable {nested : Phrases} {first : Nat} {m : Stream}

/-- A node over an earlier node and a later one, from the start of the first on. -/
theorem between_spans {form : Form Node} {object key : Node} (hp : object.span.pos = first)
    (hv : object.Spanned) (he : object.span.endPos ≤ m.position) (hm : s.position ≤ m.position)
    (hk : m.Spans limit (m.position + 1) key s') (hform : form.children = [object, key]) :
    s.Spans limit first ⟨form, .between object.span key.span⟩ s' := by
  obtain ⟨ho', hn', hp', he', hlt', hv'⟩ := hk
  have hle := hv.le
  exact ⟨ho', hn', hp, he', by omega, Node.spanned_of_pair hform (by omega)
    ⟨Nat.le_refl _, by omega, hv⟩ ⟨by omega, Nat.le_refl _, hv'⟩⟩

theorem pathStep_spans {object v : Node} {m' : Stream} (h : s.Spans limit first object m)
    (hs : PathStep object m v m') : s.Spans limit first v m' := by
  obtain ⟨dot, m₁, hd, key, hk, rfl⟩ := hs
  obtain ⟨ho, hn, hp, he, hlt, hv⟩ := h
  obtain ⟨ho₁, hn₁, hp₁, he₁, hlt₁⟩ := ho.takes hd
  exact between_spans hp hv (by omega) (by omega) (spanned_key ho₁ hk) rfl

/-- The name of a function with the span of its tokens. -/
theorem functionName_spans {target : Node × Bool} (ho : s.Ordered limit)
    (h : FunctionName s target s') : s.Spans limit (s.position + 1) target.1 s' := by
  obtain ⟨base, m₁, hb, path, m₂, ⟨hpath, -⟩, hend⟩ := h
  have hspans : s.Spans limit (s.position + 1) path m₂ :=
    .steps pathStep_spans (spanned_name ho hb) hpath
  rcases hend with ⟨colon, m₃, hc, method, hm, rfl⟩ | ⟨-, rfl, rfl⟩
  · obtain ⟨ho₂, hn₂, hp₂, he₂, hlt₂, hv₂⟩ := hspans
    obtain ⟨ho₃, hn₃, hp₃, he₃, hlt₃⟩ := ho₂.takes hc
    exact between_spans hp₂ hv₂ (by omega) (by omega) (spanned_key ho₃ hm) rfl
  · exact hspans

theorem parameters_lists {listed : List Node} (ho : s.Ordered limit) (h : Parameters s listed s') :
    s.Lists limit listed s' := by
  induction h with
  | last h _ => exact (spanned_name ho h).lists ho
  | varargs h => exact (spanned_varargs ho h).lists ho
  | @more s m m' s' v span others h hc _ ih =>
    have hname := spanned_name ho h
    obtain ⟨hm', hn', -, he', hlt'⟩ := hname.ordered.takes hc
    have hothers := ih hm'
    have hfirst := hname.lists ho
    have hnext := hname.next
    refine ⟨hothers.ordered, hothers.next, ?_, ?_⟩
    · exact Nat.le_trans hfirst.position (by have := hothers.position; omega)
    · exact hfirst.items.append (hothers.items.mono (by omega) (Nat.le_refl _))

variable (hnested : nested.Spanned limit)
include hnested

theorem functionBody_spans {start : Span} {isMethod : Bool} {v : Node} (ho : s.Ordered limit)
    (hstart : start.pos ≤ s.lastEnd) (h : FunctionBody nested start isMethod s v s') :
    s.Spans limit start.pos v s' := by
  obtain ⟨opening, m₁, hopen, listed, m₂, hlisted, closing, m₃, hclose, body, m₄, hbody, last, hlast,
    rfl⟩ := h
  obtain ⟨ho₁, hn₁, hp₁, he₁, hlt₁⟩ := ho.takes hopen
  have hlists : m₁.Lists limit listed m₂ := by
    rcases hlisted with hlisted | ⟨-, rfl, rfl⟩
    · exact parameters_lists ho₁ hlisted
    · exact .nil ho₁
  obtain ⟨ho₂, hn₂, hl₂, hitems⟩ := hlists
  obtain ⟨ho₃, hn₃, hp₃, he₃, hlt₃⟩ := ho₂.takes hclose
  obtain ⟨ho₄, hn₄, hl₄, hb⟩ := hnested.block ho₃ hbody
  obtain ⟨ho₅, hn₅, hp₅, he₅, hlt₅⟩ := ho₄.takes hlast
  have hn := ho.next
  have hle := hitems.le
  refine ⟨ho₅, hn₅, rfl, rfl, by omega, Node.spanned_of_children (by omega) ?_⟩
  have hparameters : ∀ v ∈ if isMethod then selfParameter opening :: listed else listed,
      v.Within start.pos s'.lastEnd := by
    have hitems' := fun v hm => (hitems.within v hm).mono (by omega : start.pos ≤ m₁.lastEnd + 1)
      (by omega : m₂.lastEnd ≤ s'.lastEnd)
    split
    · refine List.forall_mem_cons.mpr ⟨⟨?_, ?_, ?_⟩, hitems'⟩
      · simp only [selfParameter, Span.point]
        omega
      · simp only [selfParameter, Span.point]
        omega
      · refine Node.spanned_of_children (Nat.le_refl _) ?_
        simp [Form.children]
    · exact hitems'
  simp only [Form.children, List.forall_mem_append, List.forall_mem_singleton]
  exact ⟨hparameters, hb.mono (by omega) (by omega)⟩

theorem spanned_functionLiteral : (FunctionLiteral nested).Spanned limit := by
  rintro s v s' ho ⟨first, m, ht, hbody⟩
  obtain ⟨ho₁, hn₁, hp₁, he₁, hlt₁⟩ := ho.takes ht
  obtain ⟨ho', hn', hp', he', hlt', hv'⟩ := functionBody_spans hnested ho₁ (by omega) hbody
  exact ⟨ho', hn', by omega, he', by omega, hv'⟩

end Functions

section Operators
variable {operand left right : Phrase Node} {first : Nat} {m m' : Stream}

theorem chainStep_spans {tier : Tier} {x v : Node} (ho : operand.Spanned limit)
    (h : s.Spans limit first x m) (hs : ChainStep operand tier x m v m') :
    s.Spans limit first v m' := by
  obtain ⟨op, -, span, m₁, ht, y, hy, rfl⟩ := hs
  obtain ⟨hm, hn, hp, he, hlt, hv⟩ := h
  obtain ⟨ho₁, hn₁, hp₁, he₁, hlt₁⟩ := hm.takes ht
  exact between_spans hp hv (by omega) (by omega) (ho ho₁ hy) rfl

theorem spanned_chains (ho : operand.Spanned limit) (tiers : List Tier) :
    (Chains operand tiers).Spanned limit := by
  induction tiers with
  | nil => exact ho
  | cons tier tighter ih =>
    rintro s v s' hs ⟨first, m, hfirst, hsteps, -⟩
    exact .steps (chainStep_spans ih) (ih hs hfirst) hsteps

theorem spanned_withRight (hl : left.Spanned limit) (op : BinaryOp) (hr : right.Spanned limit) :
    (WithRight left op right).Spanned limit := by
  rintro s v s' ho ⟨first, m, hfirst, ⟨span, m₁, ht, operand, hoperand, rfl⟩ | ⟨-, rfl, rfl⟩⟩
  · obtain ⟨hm, hn, hp, he, hlt, hv⟩ := hl ho hfirst
    obtain ⟨ho₁, hn₁, hp₁, he₁, hlt₁⟩ := hm.takes ht
    exact between_spans hp hv (by omega) (by omega) (hr ho₁ hoperand) rfl
  · exact hl ho hfirst

end Operators

section Expressions
variable {nested : Phrases} {first : Nat} {m m' : Stream} (hnested : nested.Spanned limit)
include hnested

theorem expressions_lists {values : List Node} (ho : s.Ordered limit)
    (h : Expressions nested s values s') : s.Lists limit values s' := by
  obtain ⟨value, m, hvalue, others, ⟨hothers, -⟩, rfl⟩ := h
  have hfirst := hnested.expression ho hvalue
  have hlists := Sequence.lists (f := fun v => [v]) (fun hs ha => by
    obtain ⟨span, m, ht, hv⟩ := ha
    exact (hnested.expression (hs.takes ht).1 hv).lists_after hs ht) hfirst.ordered hothers
  rw [List.flatMap_singleton'] at hlists
  exact (hfirst.lists ho).append hlists

theorem spanned_parenthesized : (Parenthesized nested).Spanned limit := by
  rintro s v s' ho ⟨first, m₁, hopen, inner, m₂, hinner, close, hclose, rfl⟩
  obtain ⟨ho₁, hn₁, hp₁, he₁, hlt₁⟩ := ho.takes hopen
  obtain ⟨ho₂, hn₂, hp₂, he₂, hlt₂, hv₂⟩ := hnested.expression ho₁ hinner
  obtain ⟨ho₃, hn₃, hp₃, he₃, hlt₃⟩ := ho₂.takes hclose
  refine ⟨ho₃, hn₃, hp₁, rfl, by omega, Node.spanned_of_children (by omega) ?_⟩
  simp only [Form.children, List.forall_mem_singleton]
  exact ⟨by omega, by omega, hv₂⟩

theorem spanned_bracketField : (BracketField nested).Spanned limit := by
  rintro s v s' ho ⟨first, m₁, hopen, key, m₂, hkey, close, m₃, hclose, equals, m₄, hequals, value,
    hvalue, rfl⟩
  obtain ⟨ho₁, hn₁, hp₁, he₁, hlt₁⟩ := ho.takes hopen
  obtain ⟨ho₂, hn₂, hp₂, he₂, hlt₂, hv₂⟩ := hnested.expression ho₁ hkey
  obtain ⟨ho₃, hn₃, hp₃, he₃, hlt₃⟩ := ho₂.takes hclose
  obtain ⟨ho₄, hn₄, hp₄, he₄, hlt₄⟩ := ho₃.takes hequals
  obtain ⟨ho₅, hn₅, hp₅, he₅, hlt₅, hv₅⟩ := hnested.expression ho₄ hvalue
  exact ⟨ho₅, hn₅, hp₁, rfl, by omega, Node.spanned_of_pair rfl (by omega)
    ⟨by omega, by omega, hv₂⟩ ⟨by omega, by omega, hv₅⟩⟩

theorem spanned_namedField : (NamedField nested).Spanned limit := by
  rintro s v s' ho ⟨key, m₁, hkey, equals, m₂, hequals, value, hvalue, rfl⟩
  obtain ⟨ho₁, hn₁, hp₁, he₁, hlt₁, hv₁⟩ := spanned_key ho hkey
  obtain ⟨ho₂, hn₂, hp₂, he₂, hlt₂⟩ := ho₁.takes hequals
  obtain ⟨ho₃, hn₃, hp₃, he₃, hlt₃, hv₃⟩ := hnested.expression ho₂ hvalue
  exact ⟨ho₃, hn₃, hp₁, rfl, by omega, Node.spanned_of_pair rfl (by omega)
    ⟨by omega, by omega, hv₁⟩ ⟨by omega, by omega, hv₃⟩⟩

theorem spanned_field : (Field nested).Spanned limit := by
  rintro s v s' ho (h | h | ⟨-, h⟩)
  · exact spanned_bracketField hnested ho h
  · exact spanned_namedField hnested ho h
  · exact hnested.expression ho h

theorem fields_lists {fields : List Node} (ho : s.Ordered limit) (h : Fields nested s fields s') :
    s.Lists limit fields s' := by
  induction h with
  | none h => exact .nil ho
  | last h _ => exact (spanned_field hnested ho h).lists ho
  | @more s m m' s' v span others h hs _ ih =>
    have hfield := spanned_field hnested ho h
    have hnext := hfield.next
    have hseparator : m'.Ordered limit ∧ m.position < m'.lastEnd := by
      rcases hs with hs | hs
      · exact ⟨(hfield.ordered.takes hs).1, (hfield.ordered.takes hs).2.2.2.2⟩
      · exact ⟨(hfield.ordered.takes hs).1, (hfield.ordered.takes hs).2.2.2.2⟩
    obtain ⟨hm', hlt⟩ := hseparator
    have hothers := ih hm'
    have hfirst := hfield.lists ho
    have hposition := hfirst.position
    have hposition' := hothers.position
    have hnext' := hm'.next
    exact ⟨hothers.ordered, hothers.next, by omega,
      hfirst.items.append (hothers.items.mono (by omega) (Nat.le_refl _))⟩

theorem spanned_table : (Table nested).Spanned limit := by
  rintro s v s' ho ⟨first, m₁, hopen, fields, m₂, hfields, close, hclose, rfl⟩
  obtain ⟨ho₁, hn₁, hp₁, he₁, hlt₁⟩ := ho.takes hopen
  obtain ⟨ho₂, hn₂, hl₂, hitems⟩ := fields_lists hnested ho₁ hfields
  obtain ⟨ho₃, hn₃, hp₃, he₃, hlt₃⟩ := ho₂.takes hclose
  refine ⟨ho₃, hn₃, hp₁, rfl, by omega, Node.spanned_of_children (by omega) ?_⟩
  simp only [Form.children]
  exact fun v hm => (hitems.within v hm).mono (by omega) (by omega)

/-- Arguments lie between their first token and their last one. -/
theorem arguments_within {values : List Node} (ho : s.Ordered limit) (h : Arguments nested s values s') :
    s'.Ordered limit ∧ s'.lastEnd ≤ s'.position ∧ s.position < s'.lastEnd ∧
      ∀ v ∈ values, v.Within (s.position + 1) s'.lastEnd := by
  rcases h with ⟨first, m₁, hopen, listed, m₂, hlisted, close, hclose, rfl⟩ | ⟨v, hv, rfl⟩ | ⟨v, hv, rfl⟩
  · obtain ⟨ho₁, hn₁, hp₁, he₁, hlt₁⟩ := ho.takes hopen
    have hlists : m₁.Lists limit (listed.getD []) m₂ := by
      cases listed with
      | some listed => exact expressions_lists hnested ho₁ hlisted
      | none =>
        obtain ⟨-, rfl⟩ := hlisted
        exact .nil ho₁
    obtain ⟨ho₂, hn₂, hl₂, hitems⟩ := hlists
    obtain ⟨ho₃, hn₃, hp₃, he₃, hlt₃⟩ := ho₂.takes hclose
    exact ⟨ho₃, hn₃, by omega, fun v hm => (hitems.within v hm).mono (by omega) (by omega)⟩
  · obtain ⟨ho', hn, hp, he, hlt, hspanned⟩ := spanned_table hnested ho hv
    exact ⟨ho', hn, hlt, List.forall_mem_singleton.mpr ⟨by omega, by omega, hspanned⟩⟩
  · obtain ⟨ho', hn, hp, he, hlt, hspanned⟩ := spanned_string ho hv
    exact ⟨ho', hn, hlt, List.forall_mem_singleton.mpr ⟨by omega, by omega, hspanned⟩⟩

theorem suffix_spans {object v : Node} (h : s.Spans limit first object m)
    (hs : Suffix nested object m v m') : s.Spans limit first v m' := by
  obtain ⟨ho, hn, hp, he, hlt, hv⟩ := h
  have hle := hv.le
  rcases hs with ⟨dot, m₁, hd, key, hk, rfl⟩ | ⟨bracket, m₁, hopen, key, m₂, hkey, close, hclose, rfl⟩ |
    ⟨colon, m₁, hcolon, method, m₂, hmethod, values, hvalues, rfl⟩ | ⟨values, hvalues, rfl⟩
  · obtain ⟨ho₁, hn₁, hp₁, he₁, hlt₁⟩ := ho.takes hd
    exact between_spans hp hv (by omega) (by omega) (spanned_key ho₁ hk) rfl
  · obtain ⟨ho₁, hn₁, hp₁, he₁, hlt₁⟩ := ho.takes hopen
    obtain ⟨ho₂, hn₂, hp₂, he₂, hlt₂, hv₂⟩ := hnested.expression ho₁ hkey
    obtain ⟨ho₃, hn₃, hp₃, he₃, hlt₃⟩ := ho₂.takes hclose
    exact ⟨ho₃, hn₃, hp, rfl, by omega, Node.spanned_of_pair rfl (by omega)
      ⟨Nat.le_refl _, by omega, hv⟩ ⟨by omega, by omega, hv₂⟩⟩
  · obtain ⟨ho₁, hn₁, hp₁, he₁, hlt₁⟩ := ho.takes hcolon
    obtain ⟨ho₂, hn₂, hp₂, he₂, hlt₂, hv₂⟩ := spanned_key ho₁ hmethod
    obtain ⟨ho₃, hn₃, hlt₃, hitems⟩ := arguments_within hnested ho₂ hvalues
    refine ⟨ho₃, hn₃, hp, rfl, by omega, Node.spanned_of_children (by omega) ?_⟩
    simp only [Form.children, List.forall_mem_cons]
    exact ⟨⟨Nat.le_refl _, by omega, hv⟩, ⟨by omega, by omega, hv₂⟩,
      fun v hm => (hitems v hm).mono (by omega) (Nat.le_refl _)⟩
  · obtain ⟨ho₁, hn₁, hlt₁, hitems⟩ := arguments_within hnested ho hvalues
    refine ⟨ho₁, hn₁, hp, rfl, by omega, Node.spanned_of_children (by omega) ?_⟩
    simp only [Form.children, List.forall_mem_cons]
    exact ⟨⟨Nat.le_refl _, by omega, hv⟩, fun v hm => (hitems v hm).mono (by omega) (Nat.le_refl _)⟩

theorem spanned_suffixed : (Suffixed nested).Spanned limit := by
  rintro s v s' ho ⟨first, m, hfirst, hsteps, -⟩
  have hspans : s.Spans limit (s.position + 1) first m := by
    rcases hfirst with hfirst | hfirst
    · exact spanned_name ho hfirst
    · exact spanned_parenthesized hnested ho hfirst
  exact .steps (suffix_spans hnested) hspans hsteps

theorem spanned_simple : (Simple nested).Spanned limit := by
  rintro s v s' ho (h | h | h | h | h | h | h | h | h)
  · exact spanned_number ho h
  · exact spanned_string ho h
  · exact spanned_atom rfl ho h
  · exact spanned_atom rfl ho h
  · exact spanned_atom rfl ho h
  · exact spanned_varargs ho h
  · exact spanned_functionLiteral hnested ho h
  · exact spanned_table hnested ho h
  · exact spanned_suffixed hnested ho h

theorem spanned_unaryOperation : (UnaryOperation nested).Spanned limit := by
  rintro s v s' ho ⟨op, first, m, ht, operand, hoperand, rfl⟩
  obtain ⟨ho₁, hn₁, hp₁, he₁, hlt₁⟩ := ho.takes ht
  obtain ⟨ho₂, hn₂, hp₂, he₂, hlt₂, hv₂⟩ := hnested.unary ho₁ hoperand
  refine ⟨ho₂, hn₂, hp₁, he₂, by omega, Node.spanned_of_children (by omega) ?_⟩
  simp only [Form.children, List.forall_mem_singleton]
  exact ⟨by omega, Nat.le_refl _, hv₂⟩

theorem spanned_unary : (Unary nested).Spanned limit := by
  rintro s v s' ho (h | h)
  · exact spanned_unaryOperation hnested ho h
  · exact spanned_withRight (spanned_simple hnested) _ hnested.unary ho h

theorem spanned_concatenation : (Concatenation nested).Spanned limit :=
  spanned_withRight (spanned_chains (spanned_unary hnested) _) _ hnested.concatenation

theorem spanned_expression : (Expression nested).Spanned limit :=
  spanned_chains (spanned_concatenation hnested) _

end Expressions

end Phrase

end LuaSyntax
