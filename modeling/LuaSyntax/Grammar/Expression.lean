import LuaSyntax.Grammar.Function

/-! # Expressions

Binary operators bind by tiers. A chain of operators of one tier groups to the left,
except that `..` and `^` group to the right, through the next nesting level. A unary
operator binds tighter than the tiers and looser than `^` on its right.
-/
namespace LuaSyntax.Grammar

open Rule Parse

/-- Operators that bind alike, and the label for a missing right operand. -/
structure Tier where
  operators : List BinaryOp
  missing : Label

/-- The tiers looser than concatenation, loosest first. Of two operators one of which
begins the other, the longer comes first. -/
def looseTiers : List Tier := [
  ⟨[.or], .orOperand⟩,
  ⟨[.and], .andOperand⟩,
  ⟨[.ne, .eq, .le, .ge, .lt, .gt], .relationalOperand⟩,
  ⟨[.bitOr], .bitOrOperand⟩,
  ⟨[.bitXor], .bitXorOperand⟩,
  ⟨[.bitAnd], .bitAndOperand⟩,
  ⟨[.shiftLeft, .shiftRight], .shiftOperand⟩]

/-- The tiers tighter than concatenation, loosest first. -/
def tightTiers : List Tier := [
  ⟨[.add, .sub], .additiveOperand⟩,
  ⟨[.mul, .floorDiv, .div, .mod], .multiplicativeOperand⟩]

/-- The bytes that do not follow an operator, which would be part of another token. -/
def barredAfterBinary : BinaryOp → UInt8 → Bool
  | .or => isNamePart
  | .and => isNamePart
  | .bitXor => isByte '='
  | .concat => isByte '.'
  | _ => never

/-- The bytes that do not follow an operator, which would be part of another token. -/
def barredAfterUnary : UnaryOp → UInt8 → Bool
  | .not => isNamePart
  | .bitNot => isByte '='
  | _ => never

def binaryOperator (op : BinaryOp) : Rule BinaryOp :=
  (symbolUnless (barredAfterBinary op) op.text).map fun _ => op

def unaryOperator (op : UnaryOp) : Rule (UnaryOp × Span) :=
  (symbolUnless (barredAfterUnary op) op.text).map fun span => (op, span)

def unaryOperators : List UnaryOp := [.not, .negate, .length, .bitNot]

/-- Operands joined by the operators of a tier, grouped to the left. -/
def chain (operand : Rule Node) (tier : Tier) : Rule Node :=
  operand.andThen fun first =>
    iterate (fun left =>
      Rule.andThen (firstOf (tier.operators.map binaryOperator)) fun op => do
        return .binary op left (← expect operand tier.missing)) first

/-- Chains of chains, the operand binding tightest. -/
def chains (operand : Rule Node) : List Tier → Rule Node
  | [] => operand
  | tier :: tighter => chain (chains operand tighter) tier

/-- A left operand, and an operator with its right operand where there is one. -/
def withRight (left : Rule Node) (op : BinaryOp) (right : Rule Node) (missing : Label) :
    Rule Node :=
  left.andThen fun first => do
    match ← binaryOperator op with
    | some op => return .binary op first (← expect right missing)
    | none => return first

variable (nested : Nested)

def parenthesized : Rule Node :=
  (symbol "(").andThen fun first => do
    let inner ← expect nested.expression .parenInner
    let _ ← expect (symbol ")") .parenClose
    nodeFrom first (.paren inner)

/-- The field `[key] = value`. -/
def bracketField : Rule Node :=
  openBracket.andThen fun first => do
    let key ← expect nested.expression .pairKey
    let _ ← expect (symbol "]") .pairKeyClose
    let _ ← expect (symbol "=") .pairAssign
    let value ← expect nested.expression .pairValue
    nodeFrom first (.pair key value)

/-- The field `name = value`. -/
def namedField : Rule Node :=
  Rule.andThen (both key (single '=')) fun (key, _) => do
    let value ← expect nested.expression .pairValue
    nodeFrom key.span (.pair key value)

def field : Rule Node := firstOf [bracketField nested, namedField nested, nested.expression]

/-- Fields, each followed by a separator, which the last may lack. -/
def fields : Parse (List Node) := do
  let (listed, _) ← iterate (fun (listed, separated) cursor =>
    if separated then
      (field nested).andThen (fun next => do
        let separator ← firstOf [symbol ",", symbol ";"]
        return (next :: listed, separator.isSome)) cursor
    else .ok none cursor) ([], true)
  return listed.reverse

def table : Rule Node :=
  (symbol "\x7b").andThen fun first => do
    let fields ← fields nested
    let _ ← expect (symbol "\x7d") .tableClose
    nodeFrom first (.table fields)

/-- Arguments in parentheses, or a table or a string alone. -/
def arguments : Rule (List Node) := firstOf [
  (symbol "(").andThen fun _ => do
    let values ← expressions nested .argument
    let _ ← expect (symbol ")") .argumentsClose
    return values.getD [],
  (table nested).map fun node => [node],
  string.map fun node => [node]]

/-- One suffix of an expression: a field, an index, a method call or a call. -/
def suffix (object : Node) : Rule Node := firstOf [
  (single '.').andThen fun _ => do
    return indexed object (← expect key .fieldName),
  openBracket.andThen fun _ => do
    let key ← expect nested.expression .indexKey
    let _ ← expect (symbol "]") .indexClose
    nodeFrom object.span (.index object key),
  (single ':').andThen fun _ => do
    let method ← expect key .methodName
    let values ← expect (arguments nested) .methodArguments
    nodeFrom object.span (.invoke object method values),
  (arguments nested).andThen fun values =>
    nodeFrom object.span (.call object values)]

def primary : Rule Node := firstOf [name, parenthesized nested]

/-- A name or a parenthesized expression, with its suffixes. -/
def suffixed : Rule Node := (primary nested).andThen (iterate (suffix nested))

/-- An operand without operators. -/
def simple : Rule Node := firstOf [
  number,
  string,
  (keyword "nil").map fun span => ⟨.nil, span⟩,
  (keyword "false").map fun span => ⟨.boolean false, span⟩,
  (keyword "true").map fun span => ⟨.boolean true, span⟩,
  varargs,
  functionLiteral nested,
  table nested,
  suffixed nested]

def power : Rule Node := withRight (simple nested) .pow nested.unary .powerOperand

/-- An operator and its operand, which ends the operation. -/
def unaryOperation : Rule Node :=
  Rule.andThen (firstOf (unaryOperators.map unaryOperator)) fun (op, span) => do
    let operand ← expect nested.unary .unaryOperand
    return ⟨.unary op operand, .between span operand.span⟩

def unary : Rule Node := firstOf [unaryOperation nested, power nested]

def concatenation : Rule Node :=
  withRight (chains (unary nested) tightTiers) .concat nested.concatenation .concatOperand

def expression : Rule Node := chains (concatenation nested) looseTiers

end LuaSyntax.Grammar
