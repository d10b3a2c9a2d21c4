import LuaSyntax.Proofs.Respan

/-! # Comparing trees

Trees are compared up to their spans, or up to their spans and the flags of methods. Either
comparison looks at one layer of a tree and at how the children compare.
-/
namespace LuaSyntax

namespace Node

/-- The row of a node without its span and without the flag of a function. -/
def Row.plain (row : Row) : Row :=
  { row with span := default, payload := if row.tag = .function then .none else row.payload }

/-- What a tree is up to its spans and the flags of methods. -/
def outline (v : Node) : List Row := v.rows.map Row.plain

/-- A comparison of trees in which spans do not matter. -/
structure Outlines {κ : Type} (key : Node → κ) : Prop where
  congr : ∀ {form form' : Form Node} {span span' : Span}, form.map key = form'.map key →
    key ⟨form, span⟩ = key ⟨form', span'⟩
  tag : ∀ {v v' : Node}, key v = key v' → v.tag = v'.tag

end Node

namespace Form
variable {α β : Type}

@[simp] theorem tag_map (f : α → β) (form : Form α) : (form.map f).tag = form.tag := by cases form <;> rfl

@[simp] theorem payload_map (f : α → β) (form : Form α) : (form.map f).payload = form.payload := by cases form <;> rfl

end Form

namespace Node

theorem outlines_bare : Outlines bare where
  congr {form form' span span'} h := by
    rw [bare, respan_mk, respan_mk]
    exact congrArg (Node.mk · default) h
  tag {v v'} h := by
    obtain ⟨form, span⟩ := v
    obtain ⟨form', span'⟩ := v'
    have h : bare ⟨form, span⟩ = bare ⟨form', span'⟩ := h
    rw [bare, respan_mk, respan_mk] at h
    have htag := congrArg (fun w : Node => w.form.tag) h
    exact (form.tag_map _).symm.trans (htag.trans (form'.tag_map _))

theorem outline_eq_map (v : Node) : v.outline = v.preorder.map fun n => n.row.plain := List.map_map

theorem outline_eq_cons (v : Node) : v.outline = v.row.plain :: v.children.flatMap outline := by
  have hchild : outline = fun child => child.preorder.map fun n => n.row.plain := funext outline_eq_map
  rw [outline_eq_map, hchild, preorder_eq_cons, List.map_cons, List.map_flatMap]

theorem outlines_outline : Outlines outline where
  congr {form form' span span'} h := by
    have htag := congrArg Form.tag h
    have hpayload := congrArg Form.payload h
    have hchildren := congrArg Form.children h
    rw [Form.tag_map, Form.tag_map] at htag
    rw [Form.payload_map, Form.payload_map] at hpayload
    rw [Form.children_map, Form.children_map] at hchildren
    have hlength := congrArg List.length hchildren
    rw [List.length_map, List.length_map] at hlength
    have hrow : (row ⟨form, span⟩).plain = (row ⟨form', span'⟩).plain := by
      simp only [row, Row.plain, tag, children, htag, hpayload, hlength]
      rfl
    rw [outline_eq_cons, outline_eq_cons, hrow]
    simp only [children, List.flatMap_def, hchildren]
  tag {v v'} h := by
    rw [outline_eq_cons, outline_eq_cons] at h
    exact congrArg Row.tag (List.cons.inj h).1

/-- Whether a function is a method does not matter to the outline. -/
theorem outline_function {parameters parameters' : List Node} {body body' : Node} (isMethod isMethod' : Bool)
    (span span' : Span) (hp : parameters'.map outline = parameters.map outline) (hb : body'.outline = body.outline) :
    (⟨.function parameters' body' isMethod', span'⟩ : Node).outline = (⟨.function parameters body isMethod, span⟩ : Node).outline := by
  have hchildren : (parameters' ++ [body']).map outline = (parameters ++ [body]).map outline := by
    rw [List.map_append, List.map_append, hp, List.map_singleton, List.map_singleton, hb]
  have hlength := congrArg List.length hchildren
  rw [List.length_map, List.length_map] at hlength
  rw [outline_eq_cons, outline_eq_cons]
  simp only [children, Form.children, List.flatMap_def, hchildren, row, Row.plain, tag, Form.tag, hlength]
  rfl

namespace Outlines
variable {κ : Type} {key : Node → κ} (h : Outlines key)
include h

theorem respan (f : Span → Span) (v : Node) : key (v.respan f) = key v := by
  induction v using children_induction with
  | h v ih =>
    obtain ⟨form, span⟩ := v
    rw [respan_mk]
    refine h.congr ?_
    rw [Form.map_map]
    exact Form.map_congr ih

theorem of_form {v v' : Node} (hf : v.form = v'.form) : key v = key v' := by
  obtain ⟨form, span⟩ := v
  obtain ⟨form', span'⟩ := v'
  exact h.congr (congrArg (Form.map key) hf)

theorem isCall {v v' : Node} (hv : key v = key v') : v.form.isCall = v'.form.isCall :=
  Form.isCall_eq_of_tag (h.tag hv)

theorem isAssignable {v v' : Node} (hv : key v = key v') : v.form.isAssignable = v'.form.isAssignable :=
  Form.isAssignable_eq_of_tag (h.tag hv)

end Outlines

/-- The children of a node, without the name that a function statement assigns to. The function of
such a statement begins where the statement does. -/
def branches : Node → List Node
  | ⟨.assignment targets values, span⟩ => if values.span.pos = span.pos then [values] else [targets, values]
  | v => v.children

/-- A node occurs in a tree, other than in the name of a function statement. -/
inductive Inside (n : Node) : Node → Prop
  | root : Inside n n
  | inner {v child : Node} (hm : child ∈ v.branches) (h : Inside n child) : Inside n v

theorem inside_iff {n v : Node} : n.Inside v ↔ v = n ∨ ∃ child ∈ v.branches, n.Inside child := by
  constructor
  · intro h
    cases h with
    | root => exact .inl rfl
    | inner hm h => exact .inr ⟨_, hm, h⟩
  · rintro (rfl | ⟨child, hm, h⟩)
    · exact .root
    · exact .inner hm h

theorem mem_children_of_branches {v child : Node} (h : child ∈ v.branches) : child ∈ v.children := by
  obtain ⟨form, span⟩ := v
  cases form with
  | assignment targets values =>
    rw [branches] at h
    split at h
    · exact List.mem_cons_of_mem targets h
    · exact h
  | _ => exact h

/-- All nodes of what occurs in a tree are nodes of the tree. -/
theorem Inside.mem_preorder {n v m : Node} (h : n.Inside v) (hm : m ∈ n.preorder) : m ∈ v.preorder := by
  induction h with
  | root => exact hm
  | inner hc _ ih => exact mem_preorder_of_child (mem_children_of_branches hc) ih

end Node

end LuaSyntax
