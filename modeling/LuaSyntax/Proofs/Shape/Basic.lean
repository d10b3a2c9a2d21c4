import LuaSyntax.Proofs.Operator.Rank
import LuaSyntax.Proofs.Lexeme.Basic
import LuaSyntax.Grammar.Function

/-! # The shape of trees

Trees that the grammar builds obey more than their type says. Every node has a role, which
is the place where it stands, and the role of a node tells which forms it can have and the
roles of its children.
-/
namespace LuaSyntax

/-- The places where nodes stand. -/
inductive Role where
  | block | statement | last
  | names | targets | values
  | expression | base | field | function | method
  | name | key | rest | path

/-- The trees that can stand in a role. -/
inductive Shaped : Role → Node → Prop
  | name {text : Bytes} {span : Span} (h : Identifier text) : Shaped .name ⟨.name text, span⟩
  | key {text : Bytes} {span : Span} (h : Identifier text) : Shaped .key ⟨.string text, span⟩
  | rest {span : Span} : Shaped .rest ⟨.varargs, span⟩
  -- dotted names
  | pathName {v : Node} (h : Shaped .name v) : Shaped .path v
  | pathIndex {object key : Node} {span : Span} (ho : Shaped .path object) (hk : Shaped .key key) :
      Shaped .path ⟨.index object key, span⟩
  -- expressions that can be called and indexed
  | baseName {v : Node} (h : Shaped .name v) : Shaped .base v
  | paren {inner : Node} {span : Span} (h : Shaped .expression inner) : Shaped .base ⟨.paren inner, span⟩
  | index {object key : Node} {span : Span} (ho : Shaped .base object) (hk : Shaped .expression key) :
      Shaped .base ⟨.index object key, span⟩
  | call {callee : Node} {arguments : List Node} {span : Span} (hc : Shaped .base callee)
      (ha : ∀ v ∈ arguments, Shaped .expression v) : Shaped .base ⟨.call callee arguments, span⟩
  | invoke {object method : Node} {arguments : List Node} {span : Span} (ho : Shaped .base object)
      (hm : Shaped .key method) (ha : ∀ v ∈ arguments, Shaped .expression v) :
      Shaped .base ⟨.invoke object method arguments, span⟩
  -- other expressions
  | string {value : Bytes} {span : Span} : Shaped .expression ⟨.string value, span⟩
  | number {value : Number} {span : Span} : Shaped .expression ⟨.number value, span⟩
  | boolean {value : Bool} {span : Span} : Shaped .expression ⟨.boolean value, span⟩
  | nil {span : Span} : Shaped .expression ⟨.nil, span⟩
  | varargs {span : Span} : Shaped .expression ⟨.varargs, span⟩
  | table {fields : List Node} {span : Span} (h : ∀ v ∈ fields, Shaped .field v) :
      Shaped .expression ⟨.table fields, span⟩
  | expressionFunction {v : Node} (h : Shaped .function v) : Shaped .expression v
  | expressionBase {v : Node} (h : Shaped .base v) : Shaped .expression v
  | binary {op : BinaryOp} {left right : Node} {span : Span} (hl : Shaped .expression left)
      (hr : Shaped .expression right) (ha : op.Admits left.rank right.rank) :
      Shaped .expression ⟨.binary op left right, span⟩
  | unary {op : UnaryOp} {operand : Node} {span : Span} (h : Shaped .expression operand)
      (ha : unaryRank ≤ operand.rank) : Shaped .expression ⟨.unary op operand, span⟩
  | fieldItem {v : Node} (h : Shaped .expression v) : Shaped .field v
  | pair {key value : Node} {span : Span} (hk : Shaped .expression key) (hv : Shaped .expression value) :
      Shaped .field ⟨.pair key value, span⟩
  -- functions
  | function {names : List Node} {rest : Option Node} {body : Node} {span : Span}
      (hn : ∀ v ∈ names, Shaped .name v) (hr : ∀ v ∈ rest, Shaped .rest v) (hb : Shaped .block body) :
      Shaped .function ⟨.function (names ++ rest.toList) body false, span⟩
  | method {names : List Node} {rest : Option Node} {body : Node} {span anchor : Span}
      (hn : ∀ v ∈ names, Shaped .name v) (hr : ∀ v ∈ rest, Shaped .rest v) (hb : Shaped .block body) :
      Shaped .method ⟨.function (⟨.name (.ofString "self"), anchor⟩ :: (names ++ rest.toList)) body true, span⟩
  -- lists
  | names {names : List Node} {span : Span} (h : ∀ v ∈ names, Shaped .name v) (hne : names ≠ []) :
      Shaped .names ⟨.nameList names, span⟩
  | targets {targets : List Node} {span : Span} (h : ∀ v ∈ targets, Shaped .base v)
      (ha : ∀ v ∈ targets, v.form.isAssignable) (hne : targets ≠ []) :
      Shaped .targets ⟨.targetList targets, span⟩
  | values {values : List Node} {span : Span} (h : ∀ v ∈ values, Shaped .expression v) :
      Shaped .values ⟨.valueList values, span⟩
  -- statements
  | doBlock {body : Node} {span : Span} (h : Shaped .block body) : Shaped .statement ⟨.doBlock body, span⟩
  | conditional {branches : List (Node × Node)} {otherwise : Option Node} {span : Span}
      (hne : branches ≠ []) (hc : ∀ b ∈ branches, Shaped .expression b.1)
      (hb : ∀ b ∈ branches, Shaped .block b.2) (ho : ∀ v ∈ otherwise, Shaped .block v) :
      Shaped .statement ⟨.conditional branches otherwise, span⟩
  | whileLoop {condition body : Node} {span : Span} (hc : Shaped .expression condition)
      (hb : Shaped .block body) : Shaped .statement ⟨.whileLoop condition body, span⟩
  | repeatLoop {body condition : Node} {span : Span} (hb : Shaped .block body)
      (hc : Shaped .expression condition) : Shaped .statement ⟨.repeatLoop body condition, span⟩
  | numericFor {counter start limit body : Node} {step : Option Node} {span : Span}
      (hn : Shaped .name counter) (hs : Shaped .expression start) (hl : Shaped .expression limit)
      (hp : ∀ v ∈ step, Shaped .expression v) (hb : Shaped .block body) :
      Shaped .statement ⟨.numericFor counter start limit step body, span⟩
  | genericFor {names values body : Node} {span : Span} (hn : Shaped .names names)
      (hv : Shaped .values values) (hne : values.children ≠ []) (hb : Shaped .block body) :
      Shaped .statement ⟨.genericFor names values body, span⟩
  | localNames {names values : Node} {span : Span} (hn : Shaped .names names)
      (hv : Shaped .values values) : Shaped .statement ⟨.localNames names values, span⟩
  | localFunction {declared function : Node} {inner inner' span : Span} (hn : Shaped .name declared)
      (hf : Shaped .function function) :
      Shaped .statement ⟨.localFunction ⟨.nameList [declared], inner⟩ ⟨.valueList [function], inner'⟩, span⟩
  | assignment {targets values : Node} {span : Span} (ht : Shaped .targets targets)
      (hv : Shaped .values values) (hne : values.children ≠ []) :
      Shaped .statement ⟨.assignment targets values, span⟩
  | methodDefinition {object key function : Node} {inner inner' inner'' span : Span}
      (ho : Shaped .path object) (hk : Shaped .key key) (hf : Shaped .method function) :
      Shaped .statement ⟨.assignment ⟨.targetList [⟨.index object key, inner⟩], inner'⟩
        ⟨.valueList [function], inner''⟩, span⟩
  | label {name : Bytes} {span : Span} (h : Identifier name) : Shaped .statement ⟨.label name, span⟩
  | goto {label : Bytes} {span : Span} (h : Identifier label) : Shaped .statement ⟨.goto label, span⟩
  | breakLoop {span : Span} : Shaped .statement ⟨.breakLoop, span⟩
  | statementCall {v : Node} (h : Shaped .base v) (hc : v.form.isCall) : Shaped .statement v
  | returnValues {values : List Node} {span : Span} (h : ∀ v ∈ values, Shaped .expression v) :
      Shaped .last ⟨.returnValues values, span⟩
  | block {statements : List Node} {last : Option Node} {span : Span}
      (hs : ∀ v ∈ statements, Shaped .statement v) (hl : ∀ v ∈ last, Shaped .last v) :
      Shaped .block ⟨.block (statements ++ last.toList), span⟩

/-- All nodes of a tree have a property. -/
def Node.Every (P : Node → Prop) (node : Node) : Prop := ∀ n ∈ node.preorder, P n

theorem Node.Every.of_mem {P : Node → Prop} {root node : Node} (h : root.Every P)
    (hm : node ∈ root.preorder) : node.Every P := by
  induction root using children_induction with
  | h root ih =>
    rw [preorder_eq_cons, List.mem_cons, List.mem_flatMap] at hm
    rcases hm with rfl | ⟨child, hc, hm⟩
    · exact h
    · exact ih child hc ((forall_mem_preorder.mp h).2 child hc) hm

theorem Node.every_mk {P : Node → Prop} {form : Form Node} {span : Span} :
    Node.Every P ⟨form, span⟩ ↔ P ⟨form, span⟩ ∧ ∀ child ∈ form.children, child.Every P :=
  forall_mem_preorder

namespace Shaped
variable {v : Node}

/-- Expressions that can be called and indexed are no operations. -/
theorem rank_base (h : Shaped .base v) : v.rank = operandRank := by
  cases h with
  | baseName h => cases h; rfl
  | _ => rfl

theorem every_ranked {role : Role} (h : Shaped role v) : v.Every Node.Ranked := by
  induction h with
  | conditional hne _ _ _ ihc ihb iho =>
    rw [Node.every_mk]
    refine ⟨trivial, fun child hm => ?_⟩
    simp only [Form.children, List.mem_append, List.mem_flatMap, List.mem_cons, List.not_mem_nil,
      or_false, Option.mem_toList] at hm
    rcases hm with ⟨branch, hb, rfl | rfl⟩ | ho
    · exact ihc branch hb
    · exact ihb branch hb
    · exact iho child ho
  | _ => simp_all [Node.every_mk, Form.children, Node.Ranked, or_imp]

end Shaped

end LuaSyntax
