import LuaSyntax.Proofs.Walk

/-! # Ranks of operators

Operators are ranked by how tightly they bind, and the ranks of its operands decide whether
an operation can stand as it is, without parentheses. An operator tree is what is left of
nodes once everything but operators is an operand.
-/
namespace LuaSyntax

theorem BinaryOp.text_injective {op op' : BinaryOp} (h : op.text = op'.text) : op = op' := by
  revert h
  cases op <;> cases op' <;> decide

theorem UnaryOp.text_injective {op op' : UnaryOp} (h : op.text = op'.text) : op = op' := by
  revert h
  cases op <;> cases op' <;> decide

/-- How tightly a binary operator binds. -/
def BinaryOp.rank : BinaryOp → Nat
  | .or => 0
  | .and => 1
  | .eq | .ne | .lt | .le | .gt | .ge => 2
  | .bitOr => 3
  | .bitXor => 4
  | .bitAnd => 5
  | .shiftLeft | .shiftRight => 6
  | .concat => 7
  | .add | .sub => 8
  | .mul | .div | .floorDiv | .mod => 9
  | .pow => 11

/-- The rank of unary operations, between multiplication and powers. -/
def unaryRank : Nat := 10

/-- Powers are the only binary operators that bind as tightly as unary ones. -/
theorem BinaryOp.pow_rank_le {op : BinaryOp} (h : unaryRank ≤ op.rank) : BinaryOp.pow.rank ≤ op.rank := by
  revert h
  cases op <;> decide

/-- The rank of expressions that are no operations. -/
def operandRank : Nat := 12

/-- The ranks that the operands of a binary operator may have. Concatenation and powers group
to the right, all other operators to the left, and a power may have a unary operation on its
right. -/
def BinaryOp.Admits (op : BinaryOp) (left right : Nat) : Prop :=
  match op with
  | .concat => op.rank < left ∧ op.rank ≤ right
  | .pow => operandRank ≤ left ∧ unaryRank ≤ right
  | _ => op.rank ≤ left ∧ op.rank < right

theorem BinaryOp.Admits.left {op : BinaryOp} {left right : Nat} (h : op.Admits left right) :
    op.rank ≤ left := by
  cases op <;> simp only [Admits, rank, operandRank] at * <;> omega

theorem BinaryOp.admits_iff_of_left {op : BinaryOp} {left right : Nat} (hc : op ≠ .concat)
    (hp : op ≠ .pow) : op.Admits left right ↔ op.rank ≤ left ∧ op.rank < right := by
  cases op <;> first | exact Iff.rfl | contradiction

/-- Below the right operand are no looser operators than above it. -/
theorem BinaryOp.Admits.right {op other : BinaryOp} {left right : Nat} (h : op.Admits left right)
    (hr : right ≤ other.rank) : op.rank ≤ other.rank := by
  have hother : other.rank ≠ unaryRank := by cases other <;> decide
  cases op <;> simp only [Admits, rank, unaryRank] at * <;> omega

/-- Of two operators neither has the other in its operands on the side where it would have
to stand. -/
theorem BinaryOp.Admits.exclusive {op op' : BinaryOp} {left right left' right' : Nat}
    (h : op.Admits left right) (h' : op'.Admits left' right') (hr : right ≤ op'.rank) :
    op.rank < left' := by
  have hle := h.right hr
  have hle' := h'.left
  by_cases heq : op.rank = op'.rank
  · cases op <;> cases op' <;> simp only [Admits, rank, operandRank] at * <;> omega
  · omega

/-- An operator tree: operations over operands of some kind. -/
inductive OpTree (α : Type) where
  | operand (a : α)
  | binary (op : BinaryOp) (left right : OpTree α)
  | unary (op : UnaryOp) (inner : OpTree α)

/-- What an operator tree is written with. -/
inductive Item (α : Type) where
  | operand (a : α)
  | operator (text : String)

namespace OpTree
variable {α : Type}

/-- Operands and operators from left to right. -/
def items : OpTree α → List (Item α)
  | operand a => [.operand a]
  | binary op left right => left.items ++ .operator op.text :: right.items
  | unary op inner => .operator op.text :: inner.items

def rank : OpTree α → Nat
  | operand _ => operandRank
  | binary op _ _ => op.rank
  | unary _ _ => unaryRank

/-- All operands have ranks that their operators admit. -/
def Ranked : OpTree α → Prop
  | operand _ => True
  | binary op left right => op.Admits left.rank right.rank ∧ left.Ranked ∧ right.Ranked
  | unary _ inner => unaryRank ≤ inner.rank ∧ inner.Ranked

end OpTree

namespace Node

def rank (node : Node) : Nat :=
  match node.form with
  | .binary op _ _ => op.rank
  | .unary _ _ => unaryRank
  | _ => operandRank

theorem rank_le (node : Node) : node.rank ≤ operandRank := by
  obtain ⟨form, span⟩ := node
  cases form with
  | binary op left right =>
    have hop : op.rank ≤ operandRank := by cases op <;> decide
    exact hop
  | unary op operand => exact (by decide : unaryRank ≤ operandRank)
  | _ => exact Nat.le_refl _

/-- If a node is an operation, its operands have ranks that its operator admits. -/
def Ranked (node : Node) : Prop :=
  match node.form with
  | .binary op left right => op.Admits left.rank right.rank
  | .unary _ operand => unaryRank ≤ operand.rank
  | _ => True

/-- The operator tree of a node. -/
def operators : Node → OpTree Node
  | ⟨.binary op left right, _⟩ => .binary op left.operators right.operators
  | ⟨.unary op operand, _⟩ => .unary op operand.operators
  | node => .operand node

end Node

end LuaSyntax
