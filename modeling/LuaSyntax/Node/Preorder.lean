import LuaSyntax.Node.Basic

/-! # Walking a tree

The nodes of a tree in preorder, each before its descendants. A chain of operators or
suffixes is as deep as it is long, so the walk keeps a list of the subtrees still
pending. The rows of a tree list its nodes with the shape of the tree left out.
-/
namespace LuaSyntax

theorem Form.sizeOf_lt_of_mem_children {α : Type} [SizeOf α] {form : Form α} {child : α}
    (h : child ∈ form.children) : sizeOf child < sizeOf form := by
  cases form
  case conditional branches otherwise =>
    simp only [children, List.mem_append, List.mem_flatMap, List.mem_cons, List.not_mem_nil,
      or_false, Option.mem_toList] at h
    rw [conditional.sizeOf_spec]
    rcases h with ⟨⟨condition, body⟩, hb, h⟩ | rfl
    · have := List.sizeOf_lt_of_mem hb
      rw [Prod.mk.sizeOf_spec] at this
      rcases h with rfl | rfl <;> omega
    · rw [Option.some.sizeOf_spec]; omega
  case numericFor counter start limit step body =>
    simp only [children, List.cons_append, List.nil_append, List.mem_cons, List.mem_append,
      Option.mem_toList, List.not_mem_nil, or_false] at h
    rw [numericFor.sizeOf_spec]
    rcases h with rfl | rfl | rfl | rfl | rfl
    case inr.inr.inr.inl => rw [Option.some.sizeOf_spec]; omega
    all_goals omega
  case function parameters body isMethod =>
    simp only [children, List.mem_append, List.mem_cons, List.not_mem_nil, or_false] at h
    rw [function.sizeOf_spec]
    rcases h with h | rfl
    · have := List.sizeOf_lt_of_mem h; omega
    · omega
  case call callee arguments =>
    rw [call.sizeOf_spec]
    rcases List.mem_cons.mp h with rfl | h
    · omega
    · have := List.sizeOf_lt_of_mem h; omega
  case invoke object method arguments =>
    rw [invoke.sizeOf_spec]
    rcases List.mem_cons.mp h with rfl | h
    · omega
    rcases List.mem_cons.mp h with rfl | h
    · omega
    · have := List.sizeOf_lt_of_mem h; omega
  case block | returnValues | nameList | targetList | valueList | table =>
    rw [children] at h
    have := List.sizeOf_lt_of_mem h
    simp only [block.sizeOf_spec, returnValues.sizeOf_spec, nameList.sizeOf_spec,
      targetList.sizeOf_spec, valueList.sizeOf_spec, table.sizeOf_spec]
    omega
  case genericFor names values body =>
    simp only [children, List.mem_cons, List.not_mem_nil, or_false] at h
    rw [genericFor.sizeOf_spec]
    rcases h with rfl | rfl | rfl <;> omega
  case doBlock | paren | unary =>
    rw [children, List.mem_singleton] at h
    subst h
    simp only [doBlock.sizeOf_spec, paren.sizeOf_spec, unary.sizeOf_spec]; omega
  case whileLoop | repeatLoop | localNames | localFunction | assignment | pair | index | binary =>
    simp only [children, List.mem_cons, List.not_mem_nil, or_false] at h
    simp only [whileLoop.sizeOf_spec, repeatLoop.sizeOf_spec, localNames.sizeOf_spec,
      localFunction.sizeOf_spec, assignment.sizeOf_spec, pair.sizeOf_spec, index.sizeOf_spec,
      binary.sizeOf_spec]
    rcases h with rfl | rfl <;> omega
  all_goals exact absurd h List.not_mem_nil

namespace Node

theorem sizeOf_lt_of_mem_children {node child : Node} (h : child ∈ node.children) :
    sizeOf child < sizeOf node := by
  obtain ⟨form, span⟩ := node
  have : sizeOf child < sizeOf form := Form.sizeOf_lt_of_mem_children h
  simp only [mk.sizeOf_spec]; omega

/-- The number of nodes of a tree, by recursion on its children. -/
def weight (node : Node) : Nat :=
  node.children.attach.foldr (fun child total => child.1.weight + total) 1
termination_by sizeOf node
decreasing_by exact sizeOf_lt_of_mem_children child.2

/-- The number of nodes of several trees, and some more. -/
def weights (nodes : List Node) (more : Nat) : Nat :=
  nodes.foldr (fun node total => node.weight + total) more

theorem weight_eq (node : Node) : node.weight = weights node.children 1 := by
  rw [weight, weights]
  exact List.foldr_attach (f := fun (node : Node) total => node.weight + total)

theorem weights_eq_add (nodes : List Node) (more : Nat) :
    weights nodes more = weights nodes 0 + more := by
  induction nodes with
  | nil => exact (Nat.zero_add more).symm
  | cons node rest ih =>
    calc node.weight + weights rest more = node.weight + (weights rest 0 + more) := by rw [ih]
      _ = node.weight + weights rest 0 + more := (Nat.add_assoc _ _ _).symm

theorem weights_append (first second : List Node) (more : Nat) :
    weights (first ++ second) more = weights first (weights second more) :=
  List.foldr_append

/-- The nodes visited so far, latest first, and then those of the pending subtrees. -/
def preorderFrom (visited : List Node) : List Node → List Node
  | [] => visited.reverse
  | node :: pending => preorderFrom (node :: visited) (node.children ++ pending)
termination_by pending => weights pending 0
decreasing_by
  have step : weights (node :: pending) 0 = node.weight + weights pending 0 := rfl
  rw [weights_append, weights_eq_add, step, weight_eq node, weights_eq_add node.children 1]
  omega

/-- A node, then its descendants, each before its own and in the order of children. -/
def preorder (node : Node) : List Node := preorderFrom [] [node]

/-- The number of nodes of a tree. -/
def size (node : Node) : Nat := node.preorder.length

/-- The kinds of nodes that occur in a tree, and how often. -/
def tally (node : Node) : List (Tag × Nat) :=
  let tags := node.preorder.map tag
  (Tag.all.map fun tag => (tag, tags.count tag)).filter (·.2 != 0)

/-- Every node's span contains the spans of its children. -/
def spansNest (node : Node) : Bool :=
  node.preorder.all fun outer => outer.children.all fun inner => outer.span.contains inner.span

/-- What a node holds besides its children. -/
inductive Payload where
  | none
  | name (text : Bytes)
  | string (value : Bytes)
  | number (value : Number)
  | flag (value : Bool)
  | operator (text : String)
  deriving DecidableEq, Repr

/-- A node with its children reduced to their number. -/
structure Row where
  tag : Tag
  span : Span
  arity : Nat
  payload : Payload
  deriving DecidableEq, Repr

end Node

/-- Names, values, flags and operators. -/
def Form.payload {α : Type} : Form α → Node.Payload
  | label text => .name text
  | goto text => .name text
  | name text => .name text
  | string value => .string value
  | number value => .number value
  | boolean value => .flag value
  | function _ _ isMethod => .flag isMethod
  | binary op _ _ => .operator op.text
  | unary op _ => .operator op.text
  | _ => .none

namespace Node

def row (node : Node) : Row :=
  ⟨node.tag, node.span, node.children.length, node.form.payload⟩

/-- The rows of the nodes in preorder. -/
def rows (node : Node) : List Row := node.preorder.map row

end Node

end LuaSyntax
