import LuaSyntax.Proofs.Walk

/-! # The nesting levels of a tree

How many nesting levels are open at once where a tree is read. Levels are counted on the way
from a node down to its children; spans tell apart what is read differently and yields the
same form.
-/
namespace LuaSyntax.Node

/-- Operators whose right operand is read one level deeper. -/
def groupsRight : BinaryOp → Bool
  | .concat => true
  | .pow => true
  | _ => false

/-- A bracketed index and an argument in parentheses are expressions of their own; a key after
a dot, and a table or a string that is an argument alone, end the node they stand in. -/
def closed (span : Span) (child : Node) : Nat := if child.span.endPos < span.endPos then 1 else 0

/-- A field that is an expression is entered itself, of a pair the key and the value are. -/
def fieldLevels (field : Node) : Nat := if field.tag = .pair then 0 else 1

/-- The children of a node, each with the number of levels entered on the way to it: one for
an expression, for a block that is not the root, for the operand of a unary operator and for
the right operand of an operator that groups to the right. A list of values counts for the
expressions in it. The function of a function statement, which starts where the statement
does, and that of a local function are no expressions of their own. The name before the `=` of a field counts like a bracketed key, which
changes nothing as the value next to it is entered. -/
def entries : Node → List (Nat × Node)
  | ⟨.block statements, _⟩ => statements.map (0, ·)
  | ⟨.doBlock body, _⟩ => [(1, body)]
  | ⟨.conditional branches otherwise, _⟩ =>
    branches.flatMap (fun branch => [(1, branch.1), (1, branch.2)]) ++ otherwise.toList.map (1, ·)
  | ⟨.whileLoop condition body, _⟩ => [(1, condition), (1, body)]
  | ⟨.repeatLoop body condition, _⟩ => [(1, body), (1, condition)]
  | ⟨.numericFor counter start limit step body, _⟩ =>
    [(0, counter), (1, start), (1, limit)] ++ step.toList.map (1, ·) ++ [(1, body)]
  | ⟨.genericFor names values body, _⟩ => [(0, names), (1, values), (1, body)]
  | ⟨.localNames names values, _⟩ => [(0, names), (if values.children = [] then 0 else 1, values)]
  | ⟨.localFunction names values, _⟩ => [(0, names), (0, values)]
  | ⟨.assignment targets values, span⟩ =>
    [(0, targets), (if values.span.pos = span.pos then 0 else 1, values)]
  | ⟨.returnValues values, _⟩ => values.map (1, ·)
  | ⟨.nameList names, _⟩ => names.map (0, ·)
  | ⟨.targetList targets, _⟩ => targets.map (0, ·)
  | ⟨.valueList values, _⟩ => values.map (0, ·)
  | ⟨.table fields, _⟩ => fields.map fun field => (fieldLevels field, field)
  | ⟨.pair key value, _⟩ => [(1, key), (1, value)]
  | ⟨.function parameters body _, _⟩ => parameters.map (0, ·) ++ [(1, body)]
  | ⟨.call callee arguments, span⟩ =>
    (0, callee) :: arguments.map fun argument => (closed span argument, argument)
  | ⟨.invoke object method arguments, span⟩ =>
    (0, object) :: (0, method) :: arguments.map fun argument => (closed span argument, argument)
  | ⟨.index object key, span⟩ => [(0, object), (closed span key, key)]
  | ⟨.paren inner, _⟩ => [(1, inner)]
  | ⟨.binary op left right, _⟩ => [(0, left), (if groupsRight op then 1 else 0, right)]
  | ⟨.unary _ operand, _⟩ => [(1, operand)]
  | _ => []

/-- The level of an expression that is looked for and not found: in a `return` without values
and in empty parentheses or braces. -/
def attempts : Node → Nat
  | ⟨.returnValues [], _⟩ => 1
  | ⟨.table [], _⟩ => 1
  | ⟨.call _ [], _⟩ => 1
  | ⟨.invoke _ _ [], _⟩ => 1
  | _ => 0

theorem mem_children_of_mem_entries {node : Node} {entry : Nat × Node} (h : entry ∈ node.entries) :
    entry.2 ∈ node.children := by
  obtain ⟨form, span⟩ := node
  cases form with
  | conditional branches otherwise =>
    simp only [entries, List.mem_append, List.mem_flatMap, List.mem_map, List.mem_cons,
      List.not_mem_nil, or_false, Option.mem_toList] at h
    simp only [Node.children, Form.children, List.mem_append, List.mem_flatMap, List.mem_cons,
      List.not_mem_nil, or_false, Option.mem_toList]
    rcases h with ⟨branch, hm, rfl | rfl⟩ | ⟨body, hm, rfl⟩
    · exact .inl ⟨branch, hm, .inl rfl⟩
    · exact .inl ⟨branch, hm, .inr rfl⟩
    · exact .inr hm
  | label _ | goto _ | breakLoop | name _ | string _ | number _ | boolean _ | nil | varargs =>
    exact (List.not_mem_nil h).elim
  | _ =>
    simp only [entries, List.mem_append, List.mem_map, List.mem_cons, List.not_mem_nil, or_false,
      Option.mem_toList] at h
    simp only [Node.children, Form.children, List.mem_append, List.mem_cons, List.not_mem_nil,
      or_false, Option.mem_toList]
    grind

/-- The largest number of nesting levels open at once below a node. -/
def need (node : Node) : Nat :=
  (node.entries.attach.map fun ⟨entry, hm⟩ =>
    have _ := sizeOf_lt_of_mem_children (mem_children_of_mem_entries hm)
    entry.1 + entry.2.need).foldr max node.attempts
termination_by sizeOf node

theorem foldr_max_le_iff {counts : List Nat} {first levels : Nat} :
    counts.foldr max first ≤ levels ↔ first ≤ levels ∧ ∀ count ∈ counts, count ≤ levels := by
  induction counts with
  | nil => simp
  | cons count others ih =>
    rw [List.foldr_cons, Nat.max_le, ih, List.forall_mem_cons, and_left_comm]

/-- A node needs no more levels than there are if these suffice for the attempts at it and for
each of its children. -/
theorem need_le_iff {node : Node} {levels : Nat} :
    node.need ≤ levels ↔
      node.attempts ≤ levels ∧ ∀ entry ∈ node.entries, entry.1 + entry.2.need ≤ levels := by
  rw [need, foldr_max_le_iff]
  simp only [List.mem_map, List.mem_attach, true_and, Subtype.exists, forall_exists_index]
  refine and_congr_right fun _ => ⟨fun h entry hm => h _ entry hm rfl, ?_⟩
  rintro h count entry hm rfl
  exact h entry hm

/-- A tree that can be read where a number of levels is left. -/
abbrev Fits (node : Node) (levels : Nat) : Prop := node.need ≤ levels

/-- A tree that can be read one level deeper where a number of levels is left. -/
abbrev FitsBelow (node : Node) (levels : Nat) : Prop := 1 + node.need ≤ levels

end LuaSyntax.Node
