import LuaSyntax.Proofs.Walk

/-! # What nodes stand for

Every node of a tree stands where a statement, a block, an expression or a list of
expressions is read, or where none of these is: names in the place of keys, functions that a
statement gives a name, the names of methods and their implicit parameters, and the root.
-/
namespace LuaSyntax

inductive Standing where
  | statement
  | block
  /-- An expression, or a name in the place of a variable. -/
  | expression
  /-- Names, targets or values. -/
  | list
  | other
  deriving DecidableEq, Repr

namespace Node

/-- A key in brackets is an expression, one that ends the node it stands in is a name. -/
def keyStanding (span : Span) (key : Node) : Standing :=
  if key.span.endPos < span.endPos then .expression else .other

/-- A field in brackets begins before its key, and one with a name begins with it. -/
def fieldKeyStanding (span : Span) (key : Node) : Standing :=
  if span.pos < key.span.pos then .expression else .other

/-- The values of an assignment come after its targets; the function of a function statement
begins where the statement does. -/
def valuesStanding (span : Span) (values : Node) : Standing :=
  if span.pos < values.span.pos then .list else .other

def isMethod : Node → Bool
  | ⟨.function _ _ isMethod, _⟩ => isMethod
  | _ => false

def targetsStanding (values : Node) : Standing := if values.children.any isMethod then .other else .list

def parameterStandings (isMethod : Bool) : List Node → List (Standing × Node)
  | [] => []
  | first :: others => (if isMethod then .other else .expression, first) :: others.map (.expression, ·)

/-- The children of a node with what they stand for. It depends on what the node itself
stands for only where it is a list. -/
def parts (standing : Standing) : Node → List (Standing × Node)
  | ⟨.block statements, _⟩ => statements.map (.statement, ·)
  | ⟨.doBlock body, _⟩ => [(.block, body)]
  | ⟨.conditional branches otherwise, _⟩ =>
    branches.flatMap (fun branch => [(.expression, branch.1), (.block, branch.2)]) ++
      otherwise.toList.map (.block, ·)
  | ⟨.whileLoop condition body, _⟩ => [(.expression, condition), (.block, body)]
  | ⟨.repeatLoop body condition, _⟩ => [(.block, body), (.expression, condition)]
  | ⟨.numericFor counter start limit step body, _⟩ =>
    [(.expression, counter), (.expression, start), (.expression, limit)] ++
      step.toList.map (.expression, ·) ++ [(.block, body)]
  | ⟨.genericFor names values body, _⟩ => [(.list, names), (.list, values), (.block, body)]
  | ⟨.localNames names values, _⟩ => [(.list, names), (.list, values)]
  | ⟨.localFunction names values, _⟩ => [(.list, names), (.other, values)]
  | ⟨.assignment targets values, span⟩ => [(targetsStanding values, targets), (valuesStanding span values, values)]
  | ⟨.returnValues values, _⟩ => values.map (.expression, ·)
  | ⟨.nameList names, _⟩ => names.map (if standing = .list then .expression else .other, ·)
  | ⟨.targetList targets, _⟩ => targets.map (if standing = .list then .expression else .other, ·)
  | ⟨.valueList values, _⟩ => values.map (if standing = .list then .expression else .other, ·)
  | ⟨.table fields, _⟩ => fields.map fun field => (if field.tag = .pair then .other else .expression, field)
  | ⟨.pair key value, span⟩ => [(fieldKeyStanding span key, key), (.expression, value)]
  | ⟨.function parameters body isMethod, _⟩ => parameterStandings isMethod parameters ++ [(.block, body)]
  | ⟨.call callee arguments, _⟩ => (.expression, callee) :: arguments.map (.expression, ·)
  | ⟨.invoke object method arguments, _⟩ =>
    (.expression, object) :: (.other, method) :: arguments.map (.expression, ·)
  | ⟨.index object key, span⟩ => [(.expression, object), (keyStanding span key, key)]
  | ⟨.paren inner, _⟩ => [(.expression, inner)]
  | ⟨.binary _ left right, _⟩ => [(.expression, left), (.expression, right)]
  | ⟨.unary _ operand, _⟩ => [(.expression, operand)]
  | _ => []

theorem parameterStandings_snd (isMethod : Bool) (parameters : List Node) :
    (parameterStandings isMethod parameters).map Prod.snd = parameters := by
  cases parameters with
  | nil => rfl
  | cons first others => simp [parameterStandings, Function.comp_def]

theorem parameterStandings_function (parameters : List Node) :
    parameterStandings false parameters = parameters.map (.expression, ·) := by
  cases parameters <;> rfl

theorem parts_snd (standing : Standing) (node : Node) : (node.parts standing).map Prod.snd = node.children := by
  obtain ⟨form, span⟩ := node
  cases form with
  | conditional branches otherwise =>
    simp [parts, children, Form.children, List.map_flatMap, Function.comp_def]
  | function parameters body isMethod =>
    simp [parts, children, Form.children, parameterStandings_snd]
  | _ => simp [parts, children, Form.children, Function.comp_def]

/-- A node stands for something somewhere in a tree that stands for something. -/
inductive Occurs : Standing → Node → Standing → Node → Prop
  | root {standing : Standing} {node : Node} : Occurs standing node standing node
  | inner {standing part found : Standing} {node child n : Node} (hm : (part, child) ∈ node.parts standing)
      (h : Occurs part child found n) : Occurs standing node found n

theorem exists_occurs (standing : Standing) (node : Node) : ∀ n ∈ node.preorder, ∃ found, Occurs standing node found n := by
  induction node using children_induction generalizing standing with
  | h node ih =>
    refine forall_mem_preorder.mpr ⟨⟨standing, .root⟩, fun child hc n hn => ?_⟩
    rw [← parts_snd standing node, List.mem_map] at hc
    obtain ⟨⟨part, child'⟩, hm, rfl⟩ := hc
    have hchild : child' ∈ node.children := by
      rw [← parts_snd standing node]
      exact List.mem_map_of_mem hm
    obtain ⟨found, h⟩ := ih child' hchild part n hn
    exact ⟨found, .inner hm h⟩

end Node

end LuaSyntax
