import LuaSyntax.Proofs.Operator.Unique
import LuaSyntax.Proofs.Shape.Phrase

/-! # Operators of parsed trees

In a parsed tree the operands of every operation have ranks that its operator admits, and
no other way of grouping the same operands and operators has this property.
-/
namespace LuaSyntax

namespace Node

theorem rank_operators (node : Node) : node.operators.rank = node.rank := by
  obtain ⟨form, span⟩ := node
  cases form <;> simp only [operators, OpTree.rank, rank]

theorem ranked_operators {node : Node} (h : node.Every Ranked) : node.operators.Ranked := by
  induction node using children_induction with
  | h node ih =>
    obtain ⟨form, span⟩ := node
    obtain ⟨hranked, hchildren⟩ := every_mk.mp h
    cases form with
    | binary op left right =>
      have hleft : left ∈ (Form.binary op left right).children := List.mem_cons_self
      have hright : right ∈ (Form.binary op left right).children := List.mem_cons_of_mem _ List.mem_cons_self
      simp only [operators, OpTree.Ranked, rank_operators]
      exact ⟨hranked, ih left hleft (hchildren left hleft), ih right hright (hchildren right hright)⟩
    | unary op operand =>
      have hoperand : operand ∈ (Form.unary op operand).children := List.mem_cons_self
      simp only [operators, OpTree.Ranked, rank_operators]
      exact ⟨hranked, ih operand hoperand (hchildren operand hoperand)⟩
    | _ => simp only [operators, OpTree.Ranked]

end Node

/-- In a parsed tree the operands of every operation are as its precedence and associativity
demand, and this determines how its operands and operators are grouped. -/
theorem parse_ranked {source : Bytes} {limit : Nat} {filename : String} {root : Node}
    (h : parse source limit filename = .ok root) :
    ∀ node ∈ root.preorder, node.Ranked ∧
      ∀ tree : OpTree Node, tree.Ranked → tree.items = node.operators.items → tree = node.operators := by
  intro node hm
  have hroot := (shaped_of_parse h).every_ranked
  have hnode := hroot.of_mem hm
  refine ⟨hroot node hm, fun tree htree hitems => ?_⟩
  exact htree.eq_of_items (Node.ranked_operators hnode) hitems

theorem parse_ranked_power : ∃ root, parse (.ofString "x = -a^b..c") 3 "" = .ok root ∧
    ∀ node ∈ root.preorder, node.Ranked ∧
      ∀ tree : OpTree Node, tree.Ranked → tree.items = node.operators.items → tree = node.operators := by
  have hok : (parse (.ofString "x = -a^b..c") 3 "").toBool = true := by decide +kernel
  cases hparse : parse (.ofString "x = -a^b..c") 3 "" with
  | ok root => exact ⟨root, rfl, parse_ranked hparse⟩
  | error failure =>
    rw [hparse] at hok
    cases hok

end LuaSyntax
