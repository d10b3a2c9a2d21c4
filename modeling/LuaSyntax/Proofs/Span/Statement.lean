import LuaSyntax.Proofs.Span.Expression
import LuaSyntax.Proofs.Layout

/-! # Spans of statements and trees

Statements span their tokens, and so the spans of a parsed tree nest, in a root that spans
the whole source.
-/
namespace LuaSyntax

namespace Phrase

open Grammar (valueList)

variable {limit : Nat} {s s' m : Stream} {v : Node}

/-- An empty list node that lies on one byte. -/
theorem ofItems_nil_within {form : List Node → Form Node} {first last anchor : Nat}
    (hform : (form []).children = []) (hf : first ≤ anchor) (hl : anchor ≤ last) :
    (Node.ofItems form [] anchor).Within first last := by
  refine ⟨hf, hl, Node.spanned_of_children (Nat.le_refl _) ?_⟩
  rw [hform]
  exact List.forall_mem_nil _

/-- Values after another list, on the last byte of which they lie if there are none. -/
theorem valueList_within {before : Node} {values : List Node} {first last next : Nat}
    (hb : before.Within first last) (hv : Consecutive last values next) :
    (valueList values before).Within first next := by
  obtain ⟨hpos, hend, hspanned⟩ := hb
  have hle := hspanned.le
  have hnext := hv.le
  cases values with
  | nil => exact ofItems_nil_within rfl (by omega) (by omega)
  | cons value others => exact (hv.ofItems rfl _).mono (by omega) (Nat.le_refl _)

/-- The names of a list lie between its first name and its last one. -/
theorem nameList_within {declared names : Node} {last : Nat} (ho : m.Ordered limit)
    (hd : Consecutive last [declared] m.lastEnd) (h : NameList declared m names s') :
    s'.Ordered limit ∧ s'.lastEnd ≤ s'.position ∧ m.position ≤ s'.position ∧
      m.lastEnd ≤ s'.lastEnd ∧ names.Within (last + 1) s'.lastEnd := by
  obtain ⟨others, ⟨hothers, -⟩, rfl⟩ := h
  have hlists := Sequence.lists (f := fun v => [v])  (fun hs ha => by
    obtain ⟨span, m, ht, hv⟩ := ha
    exact (spanned_name (hs.takes ht).1 hv).lists_after hs ht) ho hothers
  rw [List.flatMap_singleton'] at hlists
  obtain ⟨ho', hn, hp, hitems⟩ := hlists
  exact ⟨ho', hn, hp, hitems.le, (hd.append hitems).ofItems rfl _⟩

theorem spanned_labelStatement : LabelStatement.Spanned limit := by
  rintro s v s' ho ⟨first, m₁, hopen, text, span, m₂, ⟨htext, -⟩, last, hlast, rfl⟩
  obtain ⟨ho₁, hn₁, hp₁, he₁, hlt₁⟩ := ho.takes hopen
  obtain ⟨ho₂, hn₂, hp₂, he₂, hlt₂⟩ := ho₁.takes htext
  obtain ⟨ho₃, hn₃, hp₃, he₃, hlt₃⟩ := ho₂.takes hlast
  refine ⟨ho₃, hn₃, hp₁, rfl, by omega, Node.spanned_of_children (by omega) ?_⟩
  exact List.forall_mem_nil _

theorem spanned_gotoStatement : GotoStatement.Spanned limit := by
  rintro s v s' ho ⟨first, m, hopen, text, span, ⟨htext, -⟩, rfl⟩
  obtain ⟨ho₁, hn₁, hp₁, he₁, hlt₁⟩ := ho.takes hopen
  obtain ⟨ho₂, hn₂, hp₂, he₂, hlt₂⟩ := ho₁.takes htext
  refine ⟨ho₂, hn₂, hp₁, rfl, by omega, Node.spanned_of_children (by omega) ?_⟩
  exact List.forall_mem_nil _

/-- The list nodes around a name and its function have their spans. -/
theorem definition_spanned {target function : Node} {first last : Nat} {list : List Node → Form Node}
    {form : Node → Node → Form Node} (ht : target.Within first last) (hf : function.Within first last)
    (hlist : (list [target]).children = [target])
    (hform : ∀ targets values, (form targets values).children = [targets, values]) :
    Node.Spanned ⟨form ⟨list [target], target.span⟩ ⟨.valueList [function], function.span⟩, first, last⟩ := by
  have hle := ht.spanned.le
  have hpos := ht.pos
  have hend := ht.endPos
  refine Node.spanned_of_pair (hform _ _) (by omega) ⟨ht.pos, ht.endPos, ?_⟩ ⟨hf.pos, hf.endPos, ?_⟩
  · refine Node.spanned_of_children ht.spanned.le ?_
    rw [hlist]
    exact List.forall_mem_singleton.mpr ⟨Nat.le_refl _, Nat.le_refl _, ht.spanned⟩
  · refine Node.spanned_of_children hf.spanned.le ?_
    exact List.forall_mem_singleton.mpr ⟨Nat.le_refl _, Nat.le_refl _, hf.spanned⟩

variable {nested : Phrases} (hnested : nested.Spanned limit)
include hnested

theorem branch_within {branch : Node × Node} (ho : s.Ordered limit) (h : Branch nested s branch s') :
    s'.Ordered limit ∧ s'.lastEnd ≤ s'.position ∧ s.position < s'.position ∧
      branch.1.Within (s.position + 1) (s'.position + 1) ∧
      branch.2.Within (s.position + 1) (s'.position + 1) := by
  obtain ⟨condition, m₁, hcondition, span, m₂, hthen, body, hbody, rfl⟩ := h
  obtain ⟨ho₁, hn₁, hp₁, he₁, hlt₁, hv₁⟩ := hnested.expression ho hcondition
  obtain ⟨ho₂, hn₂, hp₂, he₂, hlt₂⟩ := ho₁.takes hthen
  obtain ⟨ho₃, hn₃, hl₃, hb⟩ := hnested.block ho₂ hbody
  have hc : condition.Within (s.position + 1) (s'.position + 1) := ⟨by omega, by omega, hv₁⟩
  exact ⟨ho₃, hn₃, by omega, hc, hb.mono (by omega) (Nat.le_refl _)⟩

theorem branches_within {others : List (Node × Node)} (ho : s.Ordered limit)
    (h : Sequence (After "elseif" (Branch nested)) s others s') :
    s'.Ordered limit ∧ s'.lastEnd ≤ s'.position ∧ s.position ≤ s'.position ∧
      ∀ branch ∈ others, branch.1.Within (s.position + 1) (s'.position + 1) ∧
        branch.2.Within (s.position + 1) (s'.position + 1) := by
  induction h with
  | nil => exact ⟨ho, ho.next, Nat.le_refl _, List.forall_mem_nil _⟩
  | @cons s m s' branch others hbranch _ ih =>
    obtain ⟨span, m₁, ht, hbranch⟩ := hbranch
    obtain ⟨ho₁, hn₁, hp₁, he₁, hlt₁⟩ := ho.takes ht
    obtain ⟨ho₂, hn₂, hlt₂, hcondition, hbody⟩ := branch_within hnested ho₁ hbranch
    obtain ⟨ho₃, hn₃, hl₃, hothers⟩ := ih ho₂
    refine ⟨ho₃, hn₃, by omega, List.forall_mem_cons.mpr ⟨⟨?_, ?_⟩, fun other hm => ⟨?_, ?_⟩⟩⟩
    · exact hcondition.mono (by omega) (by omega)
    · exact hbody.mono (by omega) (by omega)
    · exact (hothers other hm).1.mono (by omega) (Nat.le_refl _)
    · exact (hothers other hm).2.mono (by omega) (Nat.le_refl _)

theorem spanned_ifStatement : (IfStatement nested).Spanned limit := by
  rintro s v s' ho ⟨first, m₁, hif, head, m₂, hhead, others, m₃, ⟨hothers, -⟩, otherwise, m₄,
    hotherwise, last, hlast, rfl⟩
  obtain ⟨ho₁, hn₁, hp₁, he₁, hlt₁⟩ := ho.takes hif
  obtain ⟨ho₂, hn₂, hlt₂, hcondition, hbody⟩ := branch_within hnested ho₁ hhead
  obtain ⟨ho₃, hn₃, hl₃, hbranches⟩ := branches_within hnested ho₂ hothers
  have helse : m₄.Ordered limit ∧ m₃.position ≤ m₄.position ∧
      ∀ body ∈ otherwise.toList, body.Within (m₃.position + 1) (m₄.position + 1) := by
    cases otherwise with
    | none =>
      obtain ⟨-, rfl⟩ := hotherwise
      exact ⟨ho₃, Nat.le_refl _, List.forall_mem_nil _⟩
    | some body =>
      obtain ⟨span, m, ht, hb⟩ := hotherwise
      obtain ⟨ho, hn, hp, he, hlt⟩ := ho₃.takes ht
      obtain ⟨ho', hn', hl', hb'⟩ := hnested.block ho hb
      exact ⟨ho', by omega, List.forall_mem_singleton.mpr (hb'.mono (by omega) (Nat.le_refl _))⟩
  obtain ⟨ho₄, hl₄, hotherwise'⟩ := helse
  obtain ⟨ho₅, hn₅, hp₅, he₅, hlt₅⟩ := ho₄.takes hlast
  refine ⟨ho₅, hn₅, hp₁, rfl, by omega, Node.spanned_of_children (by omega) ?_⟩
  simp only [Form.children, List.forall_mem_append, List.flatMap_cons, List.cons_append,
    List.nil_append, List.forall_mem_cons, List.mem_flatMap]
  refine ⟨hcondition.mono (by omega) (by omega), hbody.mono (by omega) (by omega), ?_,
    fun body hm => (hotherwise' body hm).mono (by omega) (by omega)⟩
  rintro child ⟨branch, hm, hchild⟩
  obtain ⟨hcondition', hbody'⟩ := hbranches branch hm
  simp only [List.mem_cons, List.not_mem_nil, or_false] at hchild
  rcases hchild with rfl | rfl
  · exact hcondition'.mono (by omega) (by omega)
  · exact hbody'.mono (by omega) (by omega)

theorem spanned_doStatement : (DoStatement nested).Spanned limit := by
  rintro s v s' ho ⟨first, m₁, hdo, body, m₂, hbody, last, hlast, rfl⟩
  obtain ⟨ho₁, hn₁, hp₁, he₁, hlt₁⟩ := ho.takes hdo
  obtain ⟨ho₂, hn₂, hl₂, hb⟩ := hnested.block ho₁ hbody
  obtain ⟨ho₃, hn₃, hp₃, he₃, hlt₃⟩ := ho₂.takes hlast
  refine ⟨ho₃, hn₃, hp₁, rfl, by omega, Node.spanned_of_children (by omega) ?_⟩
  simp only [Form.children, List.forall_mem_singleton]
  exact hb.mono (by omega) (by omega)

theorem spanned_whileStatement : (WhileStatement nested).Spanned limit := by
  rintro s v s' ho ⟨first, m₁, hwhile, condition, m₂, hcondition, span, m₃, hdo, body, m₄, hbody, last,
    hlast, rfl⟩
  obtain ⟨ho₁, hn₁, hp₁, he₁, hlt₁⟩ := ho.takes hwhile
  obtain ⟨ho₂, hn₂, hp₂, he₂, hlt₂, hv₂⟩ := hnested.expression ho₁ hcondition
  obtain ⟨ho₃, hn₃, hp₃, he₃, hlt₃⟩ := ho₂.takes hdo
  obtain ⟨ho₄, hn₄, hl₄, hb⟩ := hnested.block ho₃ hbody
  obtain ⟨ho₅, hn₅, hp₅, he₅, hlt₅⟩ := ho₄.takes hlast
  exact ⟨ho₅, hn₅, hp₁, rfl, by omega, Node.spanned_of_pair rfl (by omega)
    ⟨by omega, by omega, hv₂⟩ (hb.mono (by omega) (by omega))⟩

theorem spanned_repeatStatement : (RepeatStatement nested).Spanned limit := by
  rintro s v s' ho ⟨first, m₁, hrepeat, body, m₂, hbody, span, m₃, huntil, condition, hcondition, rfl⟩
  obtain ⟨ho₁, hn₁, hp₁, he₁, hlt₁⟩ := ho.takes hrepeat
  obtain ⟨ho₂, hn₂, hl₂, hb⟩ := hnested.block ho₁ hbody
  obtain ⟨ho₃, hn₃, hp₃, he₃, hlt₃⟩ := ho₂.takes huntil
  obtain ⟨ho₄, hn₄, hp₄, he₄, hlt₄, hv₄⟩ := hnested.expression ho₃ hcondition
  exact ⟨ho₄, hn₄, hp₁, rfl, by omega, Node.spanned_of_pair rfl (by omega)
    (hb.mono (by omega) (by omega)) ⟨by omega, by omega, hv₄⟩⟩

theorem forBody_within {body : Node} (ho : s.Ordered limit) (h : ForBody nested s body s') :
    s'.Ordered limit ∧ s'.lastEnd ≤ s'.position ∧ s.position < s'.lastEnd ∧
      body.Within (s.position + 1) s'.lastEnd := by
  obtain ⟨span, m₁, hdo, block, m₂, hblock, last, hlast, rfl⟩ := h
  obtain ⟨ho₁, hn₁, hp₁, he₁, hlt₁⟩ := ho.takes hdo
  obtain ⟨ho₂, hn₂, hl₂, hb⟩ := hnested.block ho₁ hblock
  obtain ⟨ho₃, hn₃, hp₃, he₃, hlt₃⟩ := ho₂.takes hlast
  exact ⟨ho₃, hn₃, by omega, hb.mono (by omega) (by omega)⟩

theorem numericFor_spans {first : Span} {counter : Node} (ho : s.Ordered limit)
    (hc : counter.Within first.pos s.lastEnd) (h : NumericFor nested first counter s v s') :
    s.Spans limit first.pos v s' := by
  obtain ⟨start, m₁, hstart, comma, m₂, hcomma, bound, m₃, hbound, step, m₄, hstep, body, hbody, rfl⟩ := h
  obtain ⟨ho₁, hn₁, hp₁, he₁, hlt₁, hv₁⟩ := hnested.expression ho hstart
  obtain ⟨ho₂, hn₂, hp₂, he₂, hlt₂⟩ := ho₁.takes hcomma
  obtain ⟨ho₃, hn₃, hp₃, he₃, hlt₃, hv₃⟩ := hnested.expression ho₂ hbound
  have hsteps : m₄.Ordered limit ∧ m₃.position ≤ m₄.position ∧
      ∀ v ∈ step.toList, v.Within (m₃.position + 1) m₄.lastEnd := by
    cases step with
    | none =>
      obtain ⟨-, rfl⟩ := hstep
      exact ⟨ho₃, Nat.le_refl _, List.forall_mem_nil _⟩
    | some value =>
      obtain ⟨span, m, ht, hvalue⟩ := hstep
      obtain ⟨ho, hn, hp, he, hlt⟩ := ho₃.takes ht
      obtain ⟨ho', hn', hp', he', hlt', hv'⟩ := hnested.expression ho hvalue
      exact ⟨ho', by omega, List.forall_mem_singleton.mpr ⟨by omega, by omega, hv'⟩⟩
  obtain ⟨ho₄, hl₄, hsteps⟩ := hsteps
  obtain ⟨ho₅, hn₅, hlt₅, hb⟩ := forBody_within hnested ho₄ hbody
  have hn := ho.next
  have hn₄ := ho₄.next
  have hpos := hc.pos
  have hend := hc.endPos
  have hle := hc.spanned.le
  refine ⟨ho₅, hn₅, rfl, rfl, by omega, Node.spanned_of_children (by omega) ?_⟩
  simp only [Form.children, List.forall_mem_append, List.forall_mem_cons, List.not_mem_nil,
    false_implies, implies_true, and_true]
  exact ⟨⟨⟨hc.mono (Nat.le_refl _) (by omega), ⟨by omega, by omega, hv₁⟩, by omega, by omega, hv₃⟩,
    fun v hm => (hsteps v hm).mono (by omega) (by omega)⟩, hb.mono (by omega) (Nat.le_refl _)⟩

theorem genericFor_spans {first : Span} {counter : Node} {last : Nat} (ho : s.Ordered limit)
    (hf : first.pos ≤ last) (hc : Consecutive last [counter] s.lastEnd)
    (h : GenericFor nested first counter s v s') : s.Spans limit first.pos v s' := by
  obtain ⟨names, m₁, hnames, span, m₂, hin, values, m₃, hvalues, body, hbody, rfl⟩ := h
  obtain ⟨ho₁, hn₁, hl₁, hle₁, hnames⟩ := nameList_within ho hc hnames
  obtain ⟨ho₂, hn₂, hp₂, he₂, hlt₂⟩ := ho₁.takes hin
  obtain ⟨ho₃, hn₃, hl₃, hitems⟩ := expressions_lists hnested ho₂ hvalues
  obtain ⟨ho₄, hn₄, hlt₄, hb⟩ := forBody_within hnested ho₃ hbody
  have hlist := valueList_within hnames (hitems.mono (by omega : m₁.lastEnd ≤ _) (Nat.le_refl _))
  have hn := ho.next
  have hle := hc.le
  have hle₃ := hitems.le
  refine ⟨ho₄, hn₄, rfl, rfl, by omega, Node.spanned_of_children (by omega) ?_⟩
  simp only [Form.children, List.forall_mem_cons, List.not_mem_nil, false_implies, implies_true,
    and_true]
  exact ⟨hnames.mono (by omega) (by omega), hlist.mono (by omega) (by omega),
    hb.mono (by omega) (Nat.le_refl _)⟩

theorem spanned_forStatement : (ForStatement nested).Spanned limit := by
  rintro s v s' ho ⟨first, m₁, hfor, counter, m₂, hcounter, hrest⟩
  obtain ⟨ho₁, hn₁, hp₁, he₁, hlt₁⟩ := ho.takes hfor
  obtain ⟨ho₂, hn₂, hp₂, he₂, hlt₂, hv₂⟩ := spanned_name ho₁ hcounter
  have hle := hv₂.le
  rcases hrest with ⟨equals, m₃, hequals, hrest⟩ | ⟨-, hrest⟩
  · obtain ⟨ho₃, hn₃, hp₃, he₃, hlt₃⟩ := ho₂.takes hequals
    obtain ⟨ho₄, hn₄, hp₄, he₄, hlt₄, hv₄⟩ :=
      numericFor_spans hnested ho₃ ⟨by omega, by omega, hv₂⟩ hrest
    exact ⟨ho₄, hn₄, by omega, he₄, by omega, hv₄⟩
  · have hc : Consecutive m₁.lastEnd [counter] m₂.lastEnd := .singleton (by omega) hv₂ (by omega)
    obtain ⟨ho₄, hn₄, hp₄, he₄, hlt₄, hv₄⟩ := genericFor_spans hnested ho₂ (by omega) hc hrest
    exact ⟨ho₄, hn₄, by omega, he₄, by omega, hv₄⟩

theorem localNames_spans {first : Span} (ho : s.Ordered limit) (hf : first.pos ≤ s.lastEnd)
    (h : LocalNames nested first s v s') : s.Spans limit first.pos v s' := by
  obtain ⟨declared, m₁, hdeclared, names, m₂, hnames, values, hvalues, rfl⟩ := h
  obtain ⟨ho₁, hn₁, hp₁, he₁, hlt₁, hv₁⟩ := spanned_name ho hdeclared
  have hn := ho.next
  have hc : Consecutive s.lastEnd [declared] m₁.lastEnd := .singleton (by omega) hv₁ (by omega)
  obtain ⟨ho₂, hn₂, hl₂, hle₂, hnames⟩ := nameList_within ho₁ hc hnames
  have hlists : m₂.Lists limit (values.getD []) s' := by
    cases values with
    | none =>
      obtain ⟨-, rfl⟩ := hvalues
      exact .nil ho₂
    | some values =>
      obtain ⟨span, m, ht, hvalues⟩ := hvalues
      obtain ⟨ho₃, hn₃, hp₃, he₃, hlt₃⟩ := ho₂.takes ht
      obtain ⟨ho₄, hn₄, hl₄, hitems⟩ := expressions_lists hnested ho₃ hvalues
      exact ⟨ho₄, hn₄, by omega, hitems.mono (by omega) (Nat.le_refl _)⟩
  obtain ⟨ho₃, hn₃, hl₃, hitems⟩ := hlists
  have hlist := valueList_within hnames hitems
  have hle := hc.le
  have hle₃ := hitems.le
  exact ⟨ho₃, hn₃, rfl, rfl, by omega, Node.spanned_of_pair rfl (by omega)
    (hnames.mono (by omega) (by omega)) (hlist.mono (by omega) (by omega))⟩

theorem localFunction_spans {first second : Span} (ho : s.Ordered limit)
    (hf : first.pos ≤ second.pos) (hsecond : second.pos ≤ s.lastEnd)
    (h : LocalFunction nested first second s v s') : s.Spans limit first.pos v s' := by
  obtain ⟨declared, m, hdeclared, function, hfunction, rfl⟩ := h
  obtain ⟨ho₁, hn₁, hp₁, he₁, hlt₁, hv₁⟩ := spanned_name ho hdeclared
  have hn := ho.next
  obtain ⟨ho₂, hn₂, hp₂, he₂, hlt₂, hv₂⟩ := functionBody_spans hnested ho₁ (by omega) hfunction
  exact ⟨ho₂, hn₂, rfl, rfl, by omega, definition_spanned ⟨by omega, by omega, hv₁⟩
    ⟨by omega, by omega, hv₂⟩ rfl fun _ _ => rfl⟩

theorem spanned_localStatement : (LocalStatement nested).Spanned limit := by
  rintro s v s' ho ⟨first, m₁, hlocal, ⟨second, m₂, hfunction, hrest⟩ | ⟨-, hrest⟩⟩
  · obtain ⟨ho₁, hn₁, hp₁, he₁, hlt₁⟩ := ho.takes hlocal
    obtain ⟨ho₂, hn₂, hp₂, he₂, hlt₂⟩ := ho₁.takes hfunction
    obtain ⟨ho₃, hn₃, hp₃, he₃, hlt₃, hv₃⟩ :=
      localFunction_spans hnested ho₂ (by omega) (by omega) hrest
    exact ⟨ho₃, hn₃, by omega, he₃, by omega, hv₃⟩
  · obtain ⟨ho₁, hn₁, hp₁, he₁, hlt₁⟩ := ho.takes hlocal
    obtain ⟨ho₂, hn₂, hp₂, he₂, hlt₂, hv₂⟩ := localNames_spans hnested ho₁ (by omega) hrest
    exact ⟨ho₂, hn₂, by omega, he₂, by omega, hv₂⟩

theorem spanned_functionStatement : (FunctionStatement nested).Spanned limit := by
  rintro s v s' ho ⟨first, m₁, ht, target, m₂, htarget, function, hfunction, rfl⟩
  obtain ⟨ho₁, hn₁, hp₁, he₁, hlt₁⟩ := ho.takes ht
  obtain ⟨ho₂, hn₂, hp₂, he₂, hlt₂, hv₂⟩ := functionName_spans ho₁ htarget
  obtain ⟨ho₃, hn₃, hp₃, he₃, hlt₃, hv₃⟩ := functionBody_spans hnested ho₂ (by omega) hfunction
  exact ⟨ho₃, hn₃, hp₁, rfl, by omega, definition_spanned ⟨by omega, by omega, hv₂⟩
    ⟨by omega, by omega, hv₃⟩ rfl fun _ _ => rfl⟩

theorem spanned_returnStatement : (ReturnStatement nested).Spanned limit := by
  rintro s v s' ho ⟨first, m₁, ht, values, m₂, hvalues, semicolon, hend, rfl⟩
  obtain ⟨ho₁, hn₁, hp₁, he₁, hlt₁⟩ := ho.takes ht
  have hlists : m₁.Lists limit (values.getD []) m₂ := by
    cases values with
    | some values => exact expressions_lists hnested ho₁ hvalues
    | none =>
      obtain ⟨-, rfl⟩ := hvalues
      exact .nil ho₁
  obtain ⟨ho₂, hn₂, hl₂, hitems⟩ := hlists
  have hle := hitems.le
  have hlast : s'.Ordered limit ∧ m₂.lastEnd ≤ s'.lastEnd := by
    cases semicolon with
    | some span =>
      obtain ⟨ho₃, hn₃, hp₃, he₃, hlt₃⟩ := ho₂.takes hend
      exact ⟨ho₃, by omega⟩
    | none =>
      obtain ⟨-, rfl⟩ := hend
      exact ⟨ho₂, Nat.le_refl _⟩
  obtain ⟨ho₃, hle₃⟩ := hlast
  refine ⟨ho₃, ho₃.next, hp₁, rfl, by omega, Node.spanned_of_children (by omega) ?_⟩
  simp only [Form.children]
  exact fun v hm => (hitems.within v hm).mono (by omega) hle₃

theorem assignment_spans {first : Node} (ho : s.Ordered limit) (hfirst : first.Spanned)
    (he : first.span.endPos = s.lastEnd) (hp : 0 < first.span.pos)
    (h : Assignment nested first s v s') : s.Spans limit first.span.pos v s' := by
  obtain ⟨others, m₁, ⟨hothers, -⟩, equals, m₂, hequals, values, hvalues, rfl⟩ := h
  have hlists := Sequence.lists (f := fun v => [v])  (fun hs ha => by
    obtain ⟨span, m, ht, hv, -⟩ := ha
    exact (spanned_suffixed hnested (hs.takes ht).1 hv).lists_after hs ht) ho hothers
  rw [List.flatMap_singleton'] at hlists
  obtain ⟨ho₁, hn₁, hl₁, hitems₁⟩ := hlists
  obtain ⟨ho₂, hn₂, hp₂, he₂, hlt₂⟩ := ho₁.takes hequals
  obtain ⟨ho₃, hn₃, hl₃, hitems₃⟩ := expressions_lists hnested ho₂ hvalues
  have hall : Consecutive (first.span.pos - 1) (first :: others) m₁.lastEnd :=
    .cons (by omega) hfirst (he ▸ hitems₁)
  have htargets : (Node.ofItems .targetList (first :: others) 0).Within _ _ := hall.ofItems rfl 0
  have hvalues' := valueList_within htargets
    (hitems₃.mono (by omega : m₁.lastEnd ≤ _) (Nat.le_refl _))
  have hn := ho.next
  have hle := hfirst.le
  have hle₃ := hitems₃.le
  exact ⟨ho₃, hn₃, rfl, rfl, by omega, Node.spanned_of_pair rfl (by omega)
    (htargets.mono (by omega) (by omega)) (hvalues'.mono (by omega) (Nat.le_refl _))⟩

theorem spanned_expressionStatement : (ExpressionStatement nested).Spanned limit := by
  rintro s v s' ho ⟨first, m, hfirst, ⟨-, rfl, rfl⟩ | ⟨-, -, hrest⟩⟩
  · exact spanned_suffixed hnested ho hfirst
  · obtain ⟨ho₁, hn₁, hp₁, he₁, hlt₁, hv₁⟩ := spanned_suffixed hnested ho hfirst
    obtain ⟨ho₂, hn₂, hp₂, he₂, hlt₂, hv₂⟩ := assignment_spans hnested ho₁ hv₁ he₁ (by omega) hrest
    exact ⟨ho₂, hn₂, by omega, he₂, by omega, hv₂⟩

theorem spanned_statement : (Statement nested).Spanned limit := by
  rintro s v s' ho (h | h | h | h | h | h | h | h | h | h | h)
  · exact spanned_ifStatement hnested ho h
  · exact spanned_doStatement hnested ho h
  · exact spanned_whileStatement hnested ho h
  · exact spanned_repeatStatement hnested ho h
  · exact spanned_forStatement hnested ho h
  · exact spanned_localStatement hnested ho h
  · exact spanned_functionStatement hnested ho h
  · exact spanned_atom rfl ho h
  · exact spanned_labelStatement ho h
  · exact spanned_gotoStatement ho h
  · exact spanned_expressionStatement hnested ho h

theorem statements_lists {listed : List Node} (ho : s.Ordered limit)
    (h : Statements nested s listed s') : s.Lists limit listed s' := by
  obtain ⟨found, m, ⟨hfound, -⟩, last, hlast, rfl⟩ := h
  have hlists := Sequence.lists (f := Option.toList)  (fun hs ha => by
    rcases ha with ⟨span, ht, rfl⟩ | ⟨v, hv, rfl⟩
    · obtain ⟨ho, hn, hp, he, hlt⟩ := hs.takes ht
      have hnext := hs.next
      exact ⟨ho, hn, by omega, .nil (by omega)⟩
    · exact (spanned_statement hnested hs hv).lists hs) ho hfound
  refine hlists.append ?_
  cases last with
  | some v => exact (spanned_returnStatement hnested hlists.ordered hlast).lists hlists.ordered
  | none =>
    obtain ⟨-, rfl⟩ := hlast
    exact .nil hlists.ordered

theorem block_encloses (ho : s.Ordered limit) (h : Block nested s v s') : s.Encloses limit v s' := by
  obtain ⟨listed, hlisted, rfl⟩ := h
  obtain ⟨ho', hn', hp, hitems⟩ := statements_lists hnested ho hlisted
  have hn := ho.next
  refine ⟨ho', hn', hp, ?_⟩
  cases listed with
  | nil => exact ofItems_nil_within rfl (by omega) (by omega)
  | cons v others => exact (hitems.ofItems rfl _).mono (Nat.le_refl _) (by omega)

end Phrase

theorem phrases_spanned (limit levels : Nat) : (phrases levels).Spanned limit := by
  induction levels with
  | zero => exact ⟨fun _ h => h.elim, fun _ h => h.elim, fun _ h => h.elim, fun _ h => h.elim⟩
  | succ levels ih =>
    exact ⟨Phrase.spanned_expression ih, Phrase.spanned_concatenation ih, Phrase.spanned_unary ih,
      Phrase.block_encloses ih⟩

theorem chunk_spanned {limit levels : Nat} {s : Stream} {root : Node} (ho : s.Ordered limit)
    (h : Phrase.Chunk levels s root) : root.Spanned ∧ root.span = ⟨1, max 1 limit⟩ := by
  obtain ⟨listed, s', hlisted, hnil, rfl⟩ := h
  obtain ⟨ho', hn, hp, hitems⟩ := Phrase.statements_lists (phrases_spanned limit levels) ho hlisted
  have hend := ho.sourceEnd
  have hlast := ho'.lexemes.le
  refine ⟨Node.spanned_of_children (by omega) fun v hm => ?_, by rw [hend]⟩
  exact (hitems.within v hm).mono (by omega) (by omega)

/-- A parsed tree spans the source, and has its parts in order. -/
theorem parse_spanned {source : Bytes} {limit : Nat} {filename : String} {root : Node}
    (h : parse source limit filename = .ok root) : root.Spanned ∧ root.span = ⟨1, max 1 source.length⟩ := by
  obtain ⟨m, s, hskip, hs, hchunk⟩ := parse_eq_ok.mp h
  obtain ⟨line, -, hp, hlast⟩ := skipShebang_spelling source
  obtain ⟨trivia, -, -, hp', hlast'⟩ := Parse.skipTrivia_spelling hskip
  have hend : m.toPlace.sourceEnd = source.length := by
    rw [Place.sourceEnd_eq ⟨_, hp.trans hp'⟩]
    simp [Place.sourceEnd, Cursor.start]
  have ho : s.Ordered source.length := hend ▸ hs.ordered (by omega)
  exact chunk_spanned ho hchunk

/-- The root of a parsed tree spans the source. No span of the tree is empty, all of them lie
in the source, and the span of every node contains those of its children. -/
theorem parse_spans {source : Bytes} {limit : Nat} {filename : String} {root : Node}
    (h : parse source limit filename = .ok root) :
    root.tag = .block ∧ root.span = ⟨1, max 1 source.length⟩ ∧
    ∀ node ∈ root.preorder,
      1 ≤ node.span.pos ∧ node.span.pos ≤ node.span.endPos ∧
      node.span.endPos ≤ max 1 source.length ∧
      ∀ child ∈ node.children, node.span.contains child.span := by
  obtain ⟨hspanned, hspan⟩ := parse_spanned h
  obtain ⟨m, s, -, -, listed, s', -, -, hroot⟩ := parse_eq_ok.mp h
  refine ⟨by rw [hroot]; rfl, hspan, fun node hm => ?_⟩
  obtain ⟨hle, hchildren⟩ := hspanned node hm
  obtain ⟨hpos, hlast⟩ := hspanned.contains node hm
  rw [hspan] at hpos hlast
  exact ⟨hpos, hle, hlast, hchildren⟩

theorem parse_spans_local : ∃ root, parse (.ofString "do local a end") 2 "" = .ok root ∧
    root.tag = .block ∧ root.span = ⟨1, 14⟩ ∧
    ∀ node ∈ root.preorder,
      1 ≤ node.span.pos ∧ node.span.pos ≤ node.span.endPos ∧ node.span.endPos ≤ 14 ∧
      ∀ child ∈ node.children, node.span.contains child.span :=
  ⟨_, rfl, parse_spans (rfl : parse (.ofString "do local a end") 2 "" = .ok _)⟩

end LuaSyntax
