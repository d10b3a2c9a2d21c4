import LuaSyntax.Proofs.View.Layout

/-! # Trees from their rows

The rows of a walk are a code of the tree in which no code begins another one: the number of children in a
row tells how many trees follow it. So trees with the same rows are the same.
-/
namespace LuaSyntax

namespace Node

variable {node node' : Node} {rest rest' : List Row}

theorem rows_eq_cons (node : Node) : node.rows = node.row :: node.children.flatMap rows := by
  rw [rows, preorder_eq_cons, List.map_cons, List.map_flatMap]
  rfl

/-- Rows of trees one after the other are those of as many trees in one way only, if this holds of the
rows of each. -/
theorem flatMap_rows_inj {nodes nodes' : List Node}
    (h : ∀ node ∈ nodes, ∀ {node' : Node} {rest rest' : List Row}, node.rows ++ rest = node'.rows ++ rest' →
      node = node' ∧ rest = rest')
    (hl : nodes.length = nodes'.length) (hr : nodes.flatMap rows ++ rest = nodes'.flatMap rows ++ rest') :
    nodes = nodes' ∧ rest = rest' := by
  induction nodes generalizing nodes' with
  | nil =>
    obtain rfl := List.length_eq_zero_iff.mp hl.symm
    exact ⟨rfl, hr⟩
  | cons node nodes ih =>
    obtain ⟨node', others, rfl⟩ := List.exists_cons_of_length_eq_add_one hl.symm
    obtain ⟨hnode, hnodes⟩ := List.forall_mem_cons.mp h
    simp only [List.flatMap_cons, List.append_assoc] at hr
    obtain ⟨rfl, hothers⟩ := hnode hr
    obtain ⟨rfl, hrest⟩ := ih hnodes (Nat.succ.inj hl) hothers
    exact ⟨rfl, hrest⟩

theorem rows_append_inj (h : node.rows ++ rest = node'.rows ++ rest') : node = node' ∧ rest = rest' := by
  induction node using children_induction generalizing node' rest rest' with
  | h node ih =>
    rw [rows_eq_cons, rows_eq_cons, List.cons_append, List.cons_append] at h
    obtain ⟨hrow, hrows⟩ := List.cons.inj h
    obtain ⟨htag, hspan, harity, hpayload⟩ := Row.mk.inj hrow
    obtain ⟨hchildren, hrest⟩ := flatMap_rows_inj ih harity hrows
    obtain ⟨form, span⟩ := node
    obtain ⟨form', span'⟩ := node'
    obtain rfl : form = form' := Form.eq_of_children htag hpayload hchildren
    obtain rfl : span = span' := hspan
    exact ⟨rfl, hrest⟩

theorem eq_of_rows (h : node.rows = node'.rows) : node = node' := by
  have hrest : node.rows ++ [] = node'.rows ++ [] := by rw [h]
  exact (rows_append_inj hrest).1

/-- Trees are compared by their rows. -/
instance : DecidableEq Node := fun node node' =>
  decidable_of_iff (node.rows = node'.rows) ⟨eq_of_rows, congrArg rows⟩

end Node

theorem ok_of_toOption {ε α : Type} {result : Except ε α} {a : α} (h : result.toOption = some a) : result = .ok a := by
  cases result with
  | ok b => exact congrArg Except.ok (Option.some.inj h)
  | error failure => cases h

end LuaSyntax
