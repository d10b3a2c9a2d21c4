import LuaSyntax.Proofs.Walk

/-! # Trees with other spans

A tree is copied with every span replaced. Two trees are equal up to spans if they become
equal once all spans are forgotten.
-/
namespace LuaSyntax

namespace Form
variable {α β γ : Type}

/-- The form with something else in the place of each child. -/
def map (f : α → β) : Form α → Form β
  | block statements => block (statements.map f)
  | doBlock body => doBlock (f body)
  | conditional branches otherwise =>
    conditional (branches.map fun branch => (f branch.1, f branch.2)) (otherwise.map f)
  | whileLoop condition body => whileLoop (f condition) (f body)
  | repeatLoop body condition => repeatLoop (f body) (f condition)
  | numericFor counter start limit step body =>
    numericFor (f counter) (f start) (f limit) (step.map f) (f body)
  | genericFor names values body => genericFor (f names) (f values) (f body)
  | localNames names values => localNames (f names) (f values)
  | localFunction names values => localFunction (f names) (f values)
  | assignment targets values => assignment (f targets) (f values)
  | label text => label text
  | goto text => goto text
  | breakLoop => breakLoop
  | returnValues values => returnValues (values.map f)
  | nameList names => nameList (names.map f)
  | targetList targets => targetList (targets.map f)
  | valueList values => valueList (values.map f)
  | name text => name text
  | string value => string value
  | number value => number value
  | boolean value => boolean value
  | nil => nil
  | varargs => varargs
  | table fields => table (fields.map f)
  | pair key value => pair (f key) (f value)
  | function parameters body isMethod => function (parameters.map f) (f body) isMethod
  | call callee arguments => call (f callee) (arguments.map f)
  | invoke object method arguments => invoke (f object) (f method) (arguments.map f)
  | index object key => index (f object) (f key)
  | paren inner => paren (f inner)
  | binary op left right => binary op (f left) (f right)
  | unary op operand => unary op (f operand)

theorem isCall_eq_of_tag {form form' : Form α} (h : form.tag = form'.tag) : form.isCall = form'.isCall := by
  cases form <;> cases form' <;> first | rfl | cases h

theorem isAssignable_eq_of_tag {form form' : Form α} (h : form.tag = form'.tag) :
    form.isAssignable = form'.isAssignable := by
  cases form <;> cases form' <;> first | rfl | cases h

theorem map_congr {f g : α → β} {form : Form α} (h : ∀ a ∈ form.children, f a = g a) : form.map f = form.map g := by
  cases form with
  | conditional branches otherwise =>
    simp only [children, List.mem_append, List.mem_flatMap, List.mem_cons, List.not_mem_nil, or_false,
      Option.mem_toList] at h
    have hbranches : ∀ branch ∈ branches, (f branch.1, f branch.2) = (g branch.1, g branch.2) := by
      intro branch hm
      rw [h _ (.inl ⟨branch, hm, .inl rfl⟩), h _ (.inl ⟨branch, hm, .inr rfl⟩)]
    have hotherwise : otherwise.map f = otherwise.map g := Option.map_congr fun body hm => h body (.inr hm)
    rw [map, map, List.map_congr_left hbranches, hotherwise]
  | numericFor counter start limit step body =>
    simp only [children, List.cons_append, List.nil_append, List.mem_cons, List.mem_append, List.not_mem_nil,
      or_false, Option.mem_toList] at h
    have hstep : step.map f = step.map g :=
      Option.map_congr fun value hm => h value (.inr (.inr (.inr (.inl hm))))
    rw [map, map, hstep, h counter (.inl rfl), h start (.inr (.inl rfl)), h limit (.inr (.inr (.inl rfl))),
      h body (.inr (.inr (.inr (.inr rfl))))]
  | _ => simp_all [map, children]

theorem map_map (g : β → γ) (f : α → β) (form : Form α) : (form.map f).map g = form.map fun a => g (f a) := by
  cases form <;> simp [map, Function.comp_def]

theorem map_id (form : Form α) : (form.map fun a => a) = form := by
  cases form <;> simp [map]

theorem children_map (f : α → β) (form : Form α) : (form.map f).children = form.children.map f := by
  cases form with
  | conditional branches otherwise =>
    cases otherwise <;> simp [map, children, List.map_flatMap, List.flatMap_map]
  | numericFor counter start limit step body => cases step <;> simp [map, children]
  | _ => simp [map, children]

end Form

namespace Node

mutual

/-- The tree with every span replaced. -/
def respan (f : Span → Span) : Node → Node
  | ⟨.block statements, span⟩ => ⟨.block (respanEach f statements), f span⟩
  | ⟨.doBlock body, span⟩ => ⟨.doBlock (body.respan f), f span⟩
  | ⟨.conditional branches otherwise, span⟩ =>
    ⟨.conditional (respanBranches f branches) (respanOption f otherwise), f span⟩
  | ⟨.whileLoop condition body, span⟩ => ⟨.whileLoop (condition.respan f) (body.respan f), f span⟩
  | ⟨.repeatLoop body condition, span⟩ => ⟨.repeatLoop (body.respan f) (condition.respan f), f span⟩
  | ⟨.numericFor counter start limit step body, span⟩ =>
    ⟨.numericFor (counter.respan f) (start.respan f) (limit.respan f) (respanOption f step) (body.respan f), f span⟩
  | ⟨.genericFor names values body, span⟩ =>
    ⟨.genericFor (names.respan f) (values.respan f) (body.respan f), f span⟩
  | ⟨.localNames names values, span⟩ => ⟨.localNames (names.respan f) (values.respan f), f span⟩
  | ⟨.localFunction names values, span⟩ =>
    ⟨.localFunction (names.respan f) (values.respan f), f span⟩
  | ⟨.assignment targets values, span⟩ => ⟨.assignment (targets.respan f) (values.respan f), f span⟩
  | ⟨.label name, span⟩ => ⟨.label name, f span⟩
  | ⟨.goto label, span⟩ => ⟨.goto label, f span⟩
  | ⟨.breakLoop, span⟩ => ⟨.breakLoop, f span⟩
  | ⟨.returnValues values, span⟩ => ⟨.returnValues (respanEach f values), f span⟩
  | ⟨.nameList names, span⟩ => ⟨.nameList (respanEach f names), f span⟩
  | ⟨.targetList targets, span⟩ => ⟨.targetList (respanEach f targets), f span⟩
  | ⟨.valueList values, span⟩ => ⟨.valueList (respanEach f values), f span⟩
  | ⟨.name text, span⟩ => ⟨.name text, f span⟩
  | ⟨.string value, span⟩ => ⟨.string value, f span⟩
  | ⟨.number value, span⟩ => ⟨.number value, f span⟩
  | ⟨.boolean value, span⟩ => ⟨.boolean value, f span⟩
  | ⟨.nil, span⟩ => ⟨.nil, f span⟩
  | ⟨.varargs, span⟩ => ⟨.varargs, f span⟩
  | ⟨.table fields, span⟩ => ⟨.table (respanEach f fields), f span⟩
  | ⟨.pair key value, span⟩ => ⟨.pair (key.respan f) (value.respan f), f span⟩
  | ⟨.function parameters body isMethod, span⟩ =>
    ⟨.function (respanEach f parameters) (body.respan f) isMethod, f span⟩
  | ⟨.call callee arguments, span⟩ => ⟨.call (callee.respan f) (respanEach f arguments), f span⟩
  | ⟨.invoke object method arguments, span⟩ =>
    ⟨.invoke (object.respan f) (method.respan f) (respanEach f arguments), f span⟩
  | ⟨.index object key, span⟩ => ⟨.index (object.respan f) (key.respan f), f span⟩
  | ⟨.paren inner, span⟩ => ⟨.paren (inner.respan f), f span⟩
  | ⟨.binary op left right, span⟩ => ⟨.binary op (left.respan f) (right.respan f), f span⟩
  | ⟨.unary op operand, span⟩ => ⟨.unary op (operand.respan f), f span⟩

def respanEach (f : Span → Span) : List Node → List Node
  | [] => []
  | node :: others => node.respan f :: respanEach f others

def respanBranches (f : Span → Span) : List (Node × Node) → List (Node × Node)
  | [] => []
  | (condition, body) :: others => (condition.respan f, body.respan f) :: respanBranches f others

def respanOption (f : Span → Span) : Option Node → Option Node
  | none => none
  | some node => some (node.respan f)

end

variable {f : Span → Span} {nodes : List Node}

@[simp] theorem respanEach_eq_map : respanEach f nodes = nodes.map (respan f) := by
  induction nodes with
  | nil => rfl
  | cons node others ih => rw [respanEach, ih, List.map_cons]

@[simp] theorem respanBranches_eq_map {branches : List (Node × Node)} :
    respanBranches f branches =
      branches.map fun branch => (branch.1.respan f, branch.2.respan f) := by
  induction branches with
  | nil => rfl
  | cons branch others ih => rw [respanBranches, ih, List.map_cons]

@[simp] theorem respanOption_eq_map {found : Option Node} :
    respanOption f found = found.map (respan f) := by
  cases found with
  | none => rfl
  | some node => rfl

section Congruence
variable {g : Span → Span} {v : Node}

@[simp] theorem respan_span (f : Span → Span) (v : Node) : (v.respan f).span = f v.span := by
  obtain ⟨form, span⟩ := v
  cases form <;> rfl

/-- A tree is copied layer by layer. -/
theorem respan_mk (f : Span → Span) (form : Form Node) (span : Span) :
    respan f ⟨form, span⟩ = ⟨form.map (respan f), f span⟩ := by
  cases form <;> simp [respan, Form.map]

theorem respan_children (f : Span → Span) (v : Node) : (v.respan f).children = v.children.map (respan f) := by
  obtain ⟨form, span⟩ := v
  rw [respan_mk]
  exact form.children_map (respan f)

/-- What is done to the spans of a tree matters at the spans that occur in it only. -/
theorem respan_congr (h : ∀ n ∈ v.preorder, f n.span = g n.span) : v.respan f = v.respan g := by
  induction v using children_induction with
  | h v ih =>
    obtain ⟨hspan, hbelow⟩ := forall_mem_preorder.mp h
    obtain ⟨form, span⟩ := v
    have hspan : f span = g span := hspan
    have hform : form.map (respan f) = form.map (respan g) := by
      apply Form.map_congr
      intro child hm
      exact ih child hm (hbelow child hm)
    rw [respan_mk, respan_mk, hform, hspan]

theorem respan_respan (v : Node) : (v.respan f).respan g = v.respan fun span => g (f span) := by
  induction v using children_induction with
  | h v ih =>
    obtain ⟨form, span⟩ := v
    rw [respan_mk, respan_mk, respan_mk, Form.map_map, Form.map_congr ih]

theorem respan_id (v : Node) : (v.respan fun span => span) = v := by
  induction v using children_induction with
  | h v ih =>
    obtain ⟨form, span⟩ := v
    rw [respan_mk, Form.map_congr ih, Form.map_id]

end Congruence

/-- The tree with all spans forgotten. -/
def bare : Node → Node := respan fun _ => default

/-- Trees that differ at most in their spans. -/
def EqBare (node node' : Node) : Prop := node.bare = node'.bare

theorem eqBare_respan (f : Span → Span) (v : Node) : (v.respan f).EqBare v := respan_respan v

end Node

section Places
variable (place : Nat → Nat)

/-- The span with both ends put elsewhere. -/
def Span.along (span : Span) : Span := ⟨place span.pos, place span.endPos⟩

theorem Span.cover?_along (spans : List Span) : cover? (spans.map (along place)) = (cover? spans).map (along place) := by
  cases spans with
  | nil => rfl
  | cons first others =>
    have hlast : ((first :: others).map (along place)).getLast (by simp) = along place ((first :: others).getLast (by simp)) :=
      List.getLast_map _
    simp only [List.map_cons] at hlast
    simp only [List.map_cons, cover?, Option.map_some, hlast]
    rfl

namespace Node

theorem respan_binary (op : BinaryOp) (left right : Node) : respan (Span.along place) (binary op left right) =
    binary op (left.respan (Span.along place)) (right.respan (Span.along place)) := by
  rw [binary, binary, respan_mk, respan_span, respan_span]
  rfl

/-- An index that ends with its key is put elsewhere with its parts. -/
theorem respan_index (object key : Node) :
    respan (Span.along place) ⟨.index object key, .between object.span key.span⟩ =
      ⟨.index (object.respan (Span.along place)) (key.respan (Span.along place)),
        .between (object.respan (Span.along place)).span (key.respan (Span.along place)).span⟩ := by
  rw [respan_mk, respan_span, respan_span]
  rfl

/-- A list node is put elsewhere with its items, or with its anchor if it has none. -/
theorem respan_ofItems {form : List Node → Form Node} {items : List Node} {anchor anchor' : Nat}
    (hform : (form items).map (respan (Span.along place)) = form (items.map (respan (Span.along place))))
    (hanchor : items = [] → anchor' = place anchor) :
    respan (Span.along place) (ofItems form items anchor) =
      ofItems form (items.map (respan (Span.along place))) anchor' := by
  have hspans : (items.map (respan (Span.along place))).map span = (items.map span).map (Span.along place) := by
    simp only [List.map_map, Function.comp_def, respan_span]
  rw [ofItems, ofItems, respan_mk, hform, hspans, Span.cover?_along]
  cases items with
  | nil => rw [hanchor rfl]; rfl
  | cons v others => rfl

end Node

end Places

end LuaSyntax
