import LuaSyntax.Bytes
import LuaSyntax.Span
import LuaSyntax.Number
import LuaSyntax.Operator

/-! # Syntax trees

`Form α` is one layer of a syntax tree, with an `α` in the place of each child, and a
`Node` is a form over nodes together with its span. Lists of names, of assignment
targets and of expressions are nodes of their own, so that a declaration or an
assignment has one child a side. The types do not say which forms may stand where;
the trees that the grammar builds obey more than they do.
-/
namespace LuaSyntax

/-- One layer of a syntax tree. -/
inductive Form (α : Type) where
  | block (statements : List α)
  | doBlock (body : α)
  /-- The condition and block of `if` and of each `elseif`, and the block of `else`. -/
  | conditional (branches : List (α × α)) (otherwise : Option α)
  | whileLoop (condition body : α)
  | repeatLoop (body condition : α)
  | numericFor (counter start limit : α) (step : Option α) (body : α)
  | genericFor (names values body : α)
  /-- The values are an empty list where there is no initializer. -/
  | localNames (names values : α)
  | localFunction (names values : α)
  | assignment (targets values : α)
  | label (name : Bytes)
  | goto (label : Bytes)
  | breakLoop
  | returnValues (values : List α)
  | nameList (names : List α)
  | targetList (targets : List α)
  | valueList (values : List α)
  | name (text : Bytes)
  | string (value : Bytes)
  | number (value : Number)
  | boolean (value : Bool)
  | nil
  | varargs
  | table (fields : List α)
  | pair (key value : α)
  | function (parameters : List α) (body : α) (isMethod : Bool)
  | call (callee : α) (arguments : List α)
  | invoke (object method : α) (arguments : List α)
  | index (object key : α)
  | paren (inner : α)
  | binary (op : BinaryOp) (left right : α)
  | unary (op : UnaryOp) (operand : α)
  deriving DecidableEq, Repr

/-- The kinds of nodes. All operators are of one kind. -/
inductive Tag where
  | block | doBlock | conditional | whileLoop | repeatLoop | numericFor | genericFor
  | localNames | localFunction | assignment | label | goto | breakLoop | returnValues
  | nameList | targetList | valueList
  | name | string | number | boolean | nil | varargs | table | pair
  | function | call | invoke | index | paren | operation
  deriving DecidableEq, Repr

def Tag.all : List Tag := [
  .block, .doBlock, .conditional, .whileLoop, .repeatLoop, .numericFor, .genericFor,
  .localNames, .localFunction, .assignment, .label, .goto, .breakLoop, .returnValues,
  .nameList, .targetList, .valueList,
  .name, .string, .number, .boolean, .nil, .varargs, .table, .pair,
  .function, .call, .invoke, .index, .paren, .operation]

/-- The name under which a kind of node is listed. -/
def Tag.text : Tag → String
  | .block => "Block"
  | .doBlock => "Do"
  | .conditional => "If"
  | .whileLoop => "While"
  | .repeatLoop => "Repeat"
  | .numericFor => "Fornum"
  | .genericFor => "Forin"
  | .localNames => "Local"
  | .localFunction => "Localrec"
  | .assignment => "Set"
  | .label => "Label"
  | .goto => "Goto"
  | .breakLoop => "Break"
  | .returnValues => "Return"
  | .nameList => "NameList"
  | .targetList => "VarList"
  | .valueList => "ExpList"
  | .name => "Id"
  | .string => "String"
  | .number => "Number"
  | .boolean => "Boolean"
  | .nil => "Nil"
  | .varargs => "Dots"
  | .table => "Table"
  | .pair => "Pair"
  | .function => "Function"
  | .call => "Call"
  | .invoke => "Invoke"
  | .index => "Index"
  | .paren => "Paren"
  | .operation => "Op"

namespace Form

variable {α β : Type}

def tag : Form α → Tag
  | block _ => .block
  | doBlock _ => .doBlock
  | conditional _ _ => .conditional
  | whileLoop _ _ => .whileLoop
  | repeatLoop _ _ => .repeatLoop
  | numericFor _ _ _ _ _ => .numericFor
  | genericFor _ _ _ => .genericFor
  | localNames _ _ => .localNames
  | localFunction _ _ => .localFunction
  | assignment _ _ => .assignment
  | label _ => .label
  | goto _ => .goto
  | breakLoop => .breakLoop
  | returnValues _ => .returnValues
  | nameList _ => .nameList
  | targetList _ => .targetList
  | valueList _ => .valueList
  | name _ => .name
  | string _ => .string
  | number _ => .number
  | boolean _ => .boolean
  | nil => .nil
  | varargs => .varargs
  | table _ => .table
  | pair _ _ => .pair
  | function _ _ _ => .function
  | call _ _ => .call
  | invoke _ _ _ => .invoke
  | index _ _ => .index
  | paren _ => .paren
  | binary _ _ _ => .operation
  | unary _ _ => .operation

/-- The children in source order; the parts of a conditional are flattened. -/
def children : Form α → List α
  | block statements => statements
  | doBlock body => [body]
  | conditional branches otherwise =>
    branches.flatMap (fun branch => [branch.1, branch.2]) ++ otherwise.toList
  | whileLoop condition body => [condition, body]
  | repeatLoop body condition => [body, condition]
  | numericFor counter start limit step body => [counter, start, limit] ++ step.toList ++ [body]
  | genericFor names values body => [names, values, body]
  | localNames names values => [names, values]
  | localFunction names values => [names, values]
  | assignment targets values => [targets, values]
  | label _ => []
  | goto _ => []
  | breakLoop => []
  | returnValues values => values
  | nameList names => names
  | targetList targets => targets
  | valueList values => values
  | name _ => []
  | string _ => []
  | number _ => []
  | boolean _ => []
  | nil => []
  | varargs => []
  | table fields => fields
  | pair key value => [key, value]
  | function parameters body _ => parameters ++ [body]
  | call callee arguments => callee :: arguments
  | invoke object method arguments => object :: method :: arguments
  | index object key => [object, key]
  | paren inner => [inner]
  | binary _ left right => [left, right]
  | unary _ operand => [operand]

/-- The operator of an operation, as written in source. -/
def operator? : Form α → Option String
  | binary op _ _ => some op.text
  | unary op _ => some op.text
  | _ => none

def isLabel : Form α → Bool
  | label _ => true
  | _ => false

/-- Calls and method calls are the expressions that may stand as statements. -/
def isCall : Form α → Bool
  | call _ _ => true
  | invoke _ _ _ => true
  | _ => false

/-- Names and indexed expressions may be assigned to. -/
def isAssignable : Form α → Bool
  | name _ => true
  | index _ _ => true
  | _ => false

end Form

/-- A syntax tree: a form over trees and the span of its source text. -/
structure Node where
  form : Form Node
  span : Span

namespace Node

def tag (node : Node) : Tag := node.form.tag

def children (node : Node) : List Node := node.form.children

/-- The text of a name. -/
def name? (node : Node) : Option String :=
  match node.form with
  | .name text => some text.toText
  | _ => none

def operator? (node : Node) : Option String := node.form.operator?

/-- A list form over items that follow each other, with the span from the first to the
last; an empty list is anchored on one byte. -/
def ofItems (form : List Node → Form Node) (items : List Node) (anchor : Nat) : Node :=
  ⟨form items, (Span.cover? (items.map span)).getD (.point anchor)⟩

/-- A binary operation spans its operands. -/
def binary (op : BinaryOp) (left right : Node) : Node :=
  ⟨.binary op left right, .between left.span right.span⟩

/-- The nodes met on the way down from a node, each step to the child with the given
index, ending with `none` at an index that has no child. -/
def descend (node : Node) : List Nat → List (Option Node)
  | [] => [some node]
  | i :: path =>
    some node :: match node.children[i]? with
      | some child => child.descend path
      | none => [none]

mutual

/-- Equality of trees, layer by layer and spans included. -/
def equals : Node → Node → Bool
  | ⟨form, span⟩, ⟨form', span'⟩ => equalForms form form' && span == span'
termination_by structural node => node

/-- Equality of forms: they are of one kind, with the same data and equal children. -/
def equalForms : Form Node → Form Node → Bool
  | .block statements, .block statements' => equalEach statements statements'
  | .doBlock body, .doBlock body' => equals body body'
  | .conditional branches otherwise, .conditional branches' otherwise' =>
    equalBranches branches branches' && equalOptions otherwise otherwise'
  | .whileLoop condition body, .whileLoop condition' body' => equals condition condition' && equals body body'
  | .repeatLoop body condition, .repeatLoop body' condition' => equals body body' && equals condition condition'
  | .numericFor counter start limit step body, .numericFor counter' start' limit' step' body' =>
    equals counter counter' && equals start start' && equals limit limit' && equalOptions step step' &&
      equals body body'
  | .genericFor names values body, .genericFor names' values' body' =>
    equals names names' && equals values values' && equals body body'
  | .localNames names values, .localNames names' values' => equals names names' && equals values values'
  | .localFunction names values, .localFunction names' values' => equals names names' && equals values values'
  | .assignment targets values, .assignment targets' values' => equals targets targets' && equals values values'
  | .label name, .label name' => name == name'
  | .goto label, .goto label' => label == label'
  | .breakLoop, .breakLoop => true
  | .returnValues values, .returnValues values' => equalEach values values'
  | .nameList names, .nameList names' => equalEach names names'
  | .targetList targets, .targetList targets' => equalEach targets targets'
  | .valueList values, .valueList values' => equalEach values values'
  | .name text, .name text' => text == text'
  | .string value, .string value' => value == value'
  | .number value, .number value' => value.equals value'
  | .boolean value, .boolean value' => value == value'
  | .nil, .nil => true
  | .varargs, .varargs => true
  | .table fields, .table fields' => equalEach fields fields'
  | .pair key value, .pair key' value' => equals key key' && equals value value'
  | .function parameters body isMethod, .function parameters' body' isMethod' =>
    equalEach parameters parameters' && equals body body' && isMethod == isMethod'
  | .call callee arguments, .call callee' arguments' => equals callee callee' && equalEach arguments arguments'
  | .invoke object method arguments, .invoke object' method' arguments' =>
    equals object object' && equals method method' && equalEach arguments arguments'
  | .index object key, .index object' key' => equals object object' && equals key key'
  | .paren inner, .paren inner' => equals inner inner'
  | .binary op left right, .binary op' left' right' => op == op' && equals left left' && equals right right'
  | .unary op operand, .unary op' operand' => op == op' && equals operand operand'
  | _, _ => false
termination_by structural form => form

def equalEach : List Node → List Node → Bool
  | [], [] => true
  | node :: others, node' :: others' => equals node node' && equalEach others others'
  | _, _ => false
termination_by structural nodes => nodes

def equalBranches : List (Node × Node) → List (Node × Node) → Bool
  | [], [] => true
  | (condition, body) :: others, (condition', body') :: others' =>
    equals condition condition' && equals body body' && equalBranches others others'
  | _, _ => false
termination_by structural branches => branches

def equalOptions : Option Node → Option Node → Bool
  | none, none => true
  | some node, some node' => equals node node'
  | _, _ => false
termination_by structural option => option

end

instance : BEq Node := ⟨equals⟩

end Node

end LuaSyntax
