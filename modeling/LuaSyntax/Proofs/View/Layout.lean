import LuaSyntax.Proofs.Respan

/-! # Layouts

A form is put together again from its kind, its payload and the list of its children. Optional children and
pairs of children are flattened in that list, and its length tells them apart, so a row of a walk shows in
which place of the form each child stands.
-/
namespace LuaSyntax

def BinaryOp.all : List BinaryOp := [
  .or, .and, .eq, .ne, .lt, .le, .gt, .ge, .bitOr, .bitXor, .bitAnd, .shiftLeft, .shiftRight, .concat,
  .add, .sub, .mul, .div, .floorDiv, .mod, .pow]

def UnaryOp.all : List UnaryOp := [.not, .negate, .length, .bitNot]

/-- The binary operator that is written so. -/
def BinaryOp.ofText? (text : String) : Option BinaryOp := all.find? (·.text == text)

/-- The unary operator that is written so. -/
def UnaryOp.ofText? (text : String) : Option UnaryOp := all.find? (·.text == text)

theorem BinaryOp.ofText?_text (op : BinaryOp) : ofText? op.text = some op := by
  cases op <;> rfl

theorem UnaryOp.ofText?_text (op : UnaryOp) : ofText? op.text = some op := by
  cases op <;> rfl

namespace Form
variable {α β : Type}

/-- The parts of a conditional: pairs, and one more at the end where the number is odd. -/
def pairUp : List α → List (α × α) × Option α
  | [] => ([], none)
  | [otherwise] => ([], some otherwise)
  | condition :: body :: others => ((condition, body) :: (pairUp others).1, (pairUp others).2)

/-- The form of a kind with a payload and children, where there is one. -/
def assemble : Tag → Node.Payload → List α → Option (Form α)
  | .block, .none, statements => some (.block statements)
  | .doBlock, .none, [body] => some (.doBlock body)
  | .conditional, .none, parts => some (.conditional (pairUp parts).1 (pairUp parts).2)
  | .whileLoop, .none, [condition, body] => some (.whileLoop condition body)
  | .repeatLoop, .none, [body, condition] => some (.repeatLoop body condition)
  | .numericFor, .none, [counter, start, limit, body] => some (.numericFor counter start limit none body)
  | .numericFor, .none, [counter, start, limit, step, body] => some (.numericFor counter start limit (some step) body)
  | .genericFor, .none, [names, values, body] => some (.genericFor names values body)
  | .localNames, .none, [names, values] => some (.localNames names values)
  | .localFunction, .none, [names, values] => some (.localFunction names values)
  | .assignment, .none, [targets, values] => some (.assignment targets values)
  | .label, .name text, [] => some (.label text)
  | .goto, .name text, [] => some (.goto text)
  | .breakLoop, .none, [] => some .breakLoop
  | .returnValues, .none, values => some (.returnValues values)
  | .nameList, .none, names => some (.nameList names)
  | .targetList, .none, targets => some (.targetList targets)
  | .valueList, .none, values => some (.valueList values)
  | .name, .name text, [] => some (.name text)
  | .string, .string value, [] => some (.string value)
  | .number, .number value, [] => some (.number value)
  | .boolean, .flag value, [] => some (.boolean value)
  | .nil, .none, [] => some .nil
  | .varargs, .none, [] => some .varargs
  | .table, .none, fields => some (.table fields)
  | .pair, .none, [key, value] => some (.pair key value)
  | .function, .flag isMethod, parts => parts.getLast?.map fun body => .function parts.dropLast body isMethod
  | .call, .none, callee :: arguments => some (.call callee arguments)
  | .invoke, .none, object :: method :: arguments => some (.invoke object method arguments)
  | .index, .none, [object, key] => some (.index object key)
  | .paren, .none, [inner] => some (.paren inner)
  | .operation, .operator text, [left, right] => (BinaryOp.ofText? text).map fun op => .binary op left right
  | .operation, .operator text, [operand] => (UnaryOp.ofText? text).map fun op => .unary op operand
  | _, _, _ => none

theorem pairUp_flatten (branches : List (α × α)) (otherwise : Option α) :
    pairUp (branches.flatMap (fun branch => [branch.1, branch.2]) ++ otherwise.toList) = (branches, otherwise) := by
  induction branches with
  | nil => cases otherwise <;> rfl
  | cons branch branches ih =>
    rw [List.flatMap_cons, List.append_assoc]
    simp [pairUp, ih]

/-- A form is put together again from what a walk shows of it and from its children. -/
theorem assemble_eq (form : Form α) : assemble form.tag form.payload form.children = some form := by
  cases form with
  | conditional branches otherwise => simp [assemble, tag, payload, children, pairUp_flatten]
  | numericFor counter start limit step body => cases step <;> rfl
  | function parameters body isMethod => simp [assemble, tag, payload, children]
  | binary op left right => simp [assemble, tag, payload, children, BinaryOp.ofText?_text]
  | unary op operand => simp [assemble, tag, payload, children, UnaryOp.ofText?_text]
  | _ => rfl

theorem pairUp_map (f : α → β) (parts : List α) :
    pairUp (parts.map f) = ((pairUp parts).1.map fun branch => (f branch.1, f branch.2), (pairUp parts).2.map f) := by
  induction parts using pairUp.induct with
  | case1 => rfl
  | case2 => rfl
  | case3 condition body others ih => simp [pairUp, ih]

theorem assemble_map (f : α → β) (tag : Tag) (payload : Node.Payload) (parts : List α) :
    assemble tag payload (parts.map f) = (assemble tag payload parts).map (Form.map f) := by
  cases tag <;> cases payload <;> try rfl
  case conditional.none => simp [assemble, pairUp_map, map]
  case function.flag isMethod => simp [assemble, map, Function.comp_def, List.map_dropLast]
  all_goals
    rcases parts with _ | ⟨_, _ | ⟨_, _ | ⟨_, _ | ⟨_, _ | ⟨_, _ | _⟩⟩⟩⟩⟩
    all_goals simp [assemble, map, Function.comp_def]

theorem eq_of_children {form form' : Form α} (ht : form.tag = form'.tag) (hp : form.payload = form'.payload)
    (hc : form.children = form'.children) : form = form' := by
  have h := assemble_eq form
  rw [ht, hp, hc, assemble_eq] at h
  exact (Option.some.inj h).symm

end Form

namespace Node

/-- The form of a node that has a row, with the index of a child in the place of the child. -/
def Row.layout (row : Row) : Option (Form Nat) := Form.assemble row.tag row.payload (List.range row.arity)

/-- The row of a node shows which child is which. -/
theorem exists_layout (node : Node) : ∃ layout, node.row.layout = some layout ∧
    node.form = layout.map fun i => node.children.getD i node := by
  have hchildren : (List.range node.children.length).map (fun i => node.children.getD i node) = node.children := by
    refine List.ext_getElem (by simp) fun i _ hi => ?_
    simp [List.getD_eq_getElem?_getD, List.getElem?_eq_getElem hi]
  have hform : (Row.layout node.row).map (Form.map fun i => node.children.getD i node) = some node.form :=
    calc (Row.layout node.row).map (Form.map fun i => node.children.getD i node)
        = Form.assemble node.tag node.form.payload
            ((List.range node.children.length).map fun i => node.children.getD i node) :=
          (Form.assemble_map _ _ _ _).symm
      _ = Form.assemble node.tag node.form.payload node.children := by rw [hchildren]
      _ = some node.form := Form.assemble_eq node.form
  obtain ⟨layout, hlayout, heq⟩ := Option.map_eq_some_iff.mp hform
  exact ⟨layout, hlayout, heq.symm⟩

end Node

end LuaSyntax
