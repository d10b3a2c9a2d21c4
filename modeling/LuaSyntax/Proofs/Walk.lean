import LuaSyntax.Node.Preorder

/-! # The nodes of a tree

The walk with pending subtrees visits a node and then, one after the other, the walks of
its children. A property of all nodes of a tree is one of its root and of all nodes of the
subtrees below it.
-/
namespace LuaSyntax.Node

theorem preorderFrom_cons (visited pending : List Node) (node : Node) :
    preorderFrom visited (node :: pending) =
      preorderFrom (node :: visited) (node.children ++ pending) := by
  rw [preorderFrom]

/-- Induction over pending subtrees, in the order in which the walk takes them up. -/
theorem pending_induction {P : List Node → Prop} (hnil : P [])
    (hcons : ∀ node pending, P (node.children ++ pending) → P (node :: pending))
    (pending : List Node) : P pending :=
  preorderFrom.induct (fun _ pending => P pending) (fun _ => hnil) (fun _ => hcons) [] pending

/-- The nodes visited so far come first and do not matter to the rest of the walk. -/
theorem preorderFrom_visited (visited pending : List Node) :
    preorderFrom visited pending = visited.reverse ++ preorderFrom [] pending := by
  induction pending using pending_induction generalizing visited with
  | hnil => simp [preorderFrom]
  | hcons node pending ih =>
    rw [preorderFrom_cons, ih, preorderFrom_cons [], ih [node]]
    simp

theorem preorderFrom_append (first second : List Node) :
    preorderFrom [] (first ++ second) = preorderFrom [] first ++ preorderFrom [] second := by
  induction first using pending_induction with
  | hnil => simp [preorderFrom]
  | hcons node pending ih =>
    rw [List.cons_append, preorderFrom_cons, preorderFrom_cons, preorderFrom_visited [node],
      preorderFrom_visited [node], ← List.append_assoc, ih, List.append_assoc]

theorem preorderFrom_eq_flatMap (pending : List Node) :
    preorderFrom [] pending = pending.flatMap preorder := by
  induction pending with
  | nil => simp [preorderFrom]
  | cons node pending ih =>
    rw [← List.singleton_append, preorderFrom_append, ih]
    rfl

theorem preorder_eq_cons (node : Node) :
    node.preorder = node :: node.children.flatMap preorder := by
  rw [preorder, preorderFrom_cons, preorderFrom_visited, List.append_nil, preorderFrom_eq_flatMap]
  rfl

theorem mem_preorder_self (v : Node) : v ∈ v.preorder := by
  rw [preorder_eq_cons]
  exact List.mem_cons_self

theorem mem_preorder_of_child {v child n : Node} (hc : child ∈ v.children) (hn : n ∈ child.preorder) : n ∈ v.preorder := by
  rw [preorder_eq_cons]
  exact List.mem_cons_of_mem _ (List.mem_flatMap.mpr ⟨child, hc, hn⟩)

variable {node : Node} {P : Node → Prop}

theorem forall_mem_preorder :
    (∀ n ∈ node.preorder, P n) ↔ P node ∧ ∀ child ∈ node.children, ∀ n ∈ child.preorder, P n := by
  rw [preorder_eq_cons, List.forall_mem_cons]
  refine and_congr_right fun _ => ⟨fun h child hc n hn => ?_, fun h n hn => ?_⟩
  · exact h n (List.mem_flatMap.mpr ⟨child, hc, hn⟩)
  · obtain ⟨child, hc, hn⟩ := List.mem_flatMap.mp hn
    exact h child hc n hn

theorem weight_le_weights {child : Node} {nodes : List Node} (h : child ∈ nodes) (more : Nat) :
    child.weight + more ≤ weights nodes more := by
  induction h with
  | head others =>
    have hle := weights_eq_add others more
    have heq : weights (child :: others) more = child.weight + weights others more := rfl
    omega
  | tail node _ ih =>
    exact Nat.le_trans ih (Nat.le_add_left _ _)

theorem weight_lt_of_mem_children {node child : Node} (h : child ∈ node.children) :
    child.weight < node.weight := by
  rw [weight_eq node]
  exact weight_le_weights h 1

theorem weight_pos (node : Node) : 0 < node.weight := by
  rw [weight_eq, weights_eq_add]
  omega

theorem weight_child {form : Form Node} {span : Span} {child : Node} {n : Nat}
    (h : weight ⟨form, span⟩ ≤ n) (hm : child ∈ form.children) : child.weight < n :=
  Nat.lt_of_lt_of_le (weight_lt_of_mem_children (show child ∈ children ⟨form, span⟩ from hm)) h

theorem children_induction (h : ∀ node : Node, (∀ child ∈ node.children, P child) → P node)
    (node : Node) : P node :=
  h node fun child hm =>
    have _ := sizeOf_lt_of_mem_children hm
    children_induction h child
termination_by sizeOf node

end LuaSyntax.Node
