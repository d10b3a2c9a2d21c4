import LuaSyntax.Proofs.Lexeme.Basic

/-! # Printing

The tokens of a tree in a canonical form, with semicolons between statements, brackets
around keys and parentheses around arguments, and their text. Methods and local functions
are written as function statements, all other functions as values.
-/
namespace LuaSyntax

/-- Items with a separator between them. -/
def separated {α : Type} (separator : α) : List (List α) → List α
  | [] => []
  | [item] => item
  | item :: others => item ++ separator :: separated separator others

/-- Parameters, block and end of a function. -/
def functionTokens (parameters : List (List Token)) (body : List Token) : List Token :=
  .fixed "(" :: separated (.fixed ",") parameters ++ .fixed ")" :: body ++ [.fixed "end"]

/-- Arguments in parentheses. -/
def argumentTokens (arguments : List (List Token)) : List Token :=
  .fixed "(" :: separated (.fixed ",") arguments ++ [.fixed ")"]

namespace Node

/-- The name in the place of a method. -/
def methodTokens : Node → List Token
  | ⟨.string text, _⟩ => [.name text]
  | _ => []

/-- A dotted name. -/
def pathTokens : Node → List Token
  | ⟨.name text, _⟩ => [.name text]
  | ⟨.index object key, _⟩ => object.pathTokens ++ .fixed "." :: key.methodTokens
  | _ => []

/-- A dotted name with a method name at its end. -/
def targetTokens : Node → List Token
  | ⟨.index object key, _⟩ => object.pathTokens ++ .fixed ":" :: key.methodTokens
  | _ => []

mutual

/-- The tokens of a node. The implicit parameter of a method is left out. -/
def tokens : Node → List Token
  | ⟨.block statements, _⟩ => separated (.fixed ";") (tokensEach statements)
  | ⟨.doBlock body, _⟩ => .fixed "do" :: body.tokens ++ [.fixed "end"]
  | ⟨.conditional branches otherwise, _⟩ =>
    branchTokens "if" branches ++ otherwiseTokens otherwise ++ [.fixed "end"]
  | ⟨.whileLoop condition body, _⟩ =>
    .fixed "while" :: condition.tokens ++ .fixed "do" :: body.tokens ++ [.fixed "end"]
  | ⟨.repeatLoop body condition, _⟩ =>
    .fixed "repeat" :: body.tokens ++ .fixed "until" :: condition.tokens
  | ⟨.numericFor counter start limit step body, _⟩ =>
    .fixed "for" :: counter.tokens ++ .fixed "=" :: start.tokens ++ .fixed "," :: limit.tokens ++
      stepTokens step ++ .fixed "do" :: body.tokens ++ [.fixed "end"]
  | ⟨.genericFor names values body, _⟩ =>
    .fixed "for" :: names.tokens ++ .fixed "in" :: values.tokens ++
      .fixed "do" :: body.tokens ++ [.fixed "end"]
  | ⟨.localNames names values, _⟩ =>
    .fixed "local" :: names.tokens ++
      if values.children.isEmpty then [] else .fixed "=" :: values.tokens
  | ⟨.localFunction names ⟨.valueList [⟨.function parameters body _, _⟩], _⟩, _⟩ =>
    .fixed "local" :: .fixed "function" :: names.tokens ++
      functionTokens (tokensEach parameters) body.tokens
  | ⟨.localFunction _ _, _⟩ => []
  | ⟨.assignment ⟨.targetList [target], _⟩ ⟨.valueList [⟨.function parameters body true, _⟩], _⟩, _⟩ =>
    .fixed "function" :: target.targetTokens ++
      functionTokens (tokensEach parameters).tail body.tokens
  | ⟨.assignment targets values, _⟩ => targets.tokens ++ .fixed "=" :: values.tokens
  | ⟨.label name, _⟩ => [.fixed "::", .name name, .fixed "::"]
  | ⟨.goto label, _⟩ => [.fixed "goto", .name label]
  | ⟨.breakLoop, _⟩ => [.fixed "break"]
  | ⟨.returnValues values, _⟩ => .fixed "return" :: separated (.fixed ",") (tokensEach values)
  | ⟨.nameList names, _⟩ => separated (.fixed ",") (tokensEach names)
  | ⟨.targetList targets, _⟩ => separated (.fixed ",") (tokensEach targets)
  | ⟨.valueList values, _⟩ => separated (.fixed ",") (tokensEach values)
  | ⟨.name text, _⟩ => [.name text]
  | ⟨.string value, _⟩ => [.string value]
  | ⟨.number value, _⟩ => [.number value]
  | ⟨.boolean value, _⟩ => [.fixed (if value then "true" else "false")]
  | ⟨.nil, _⟩ => [.fixed "nil"]
  | ⟨.varargs, _⟩ => [.fixed "..."]
  | ⟨.table fields, _⟩ =>
    .fixed "\x7b" :: separated (.fixed ",") (tokensEach fields) ++ [.fixed "\x7d"]
  | ⟨.pair key value, _⟩ =>
    .fixed "[" :: key.tokens ++ .fixed "]" :: .fixed "=" :: value.tokens
  | ⟨.function parameters body _, _⟩ =>
    .fixed "function" :: functionTokens (tokensEach parameters) body.tokens
  | ⟨.call callee arguments, _⟩ =>
    callee.tokens ++ argumentTokens (tokensEach arguments)
  | ⟨.invoke object method arguments, _⟩ =>
    object.tokens ++ .fixed ":" :: method.methodTokens ++ argumentTokens (tokensEach arguments)
  | ⟨.index object key, _⟩ => object.tokens ++ .fixed "[" :: key.tokens ++ [.fixed "]"]
  | ⟨.paren inner, _⟩ => .fixed "(" :: inner.tokens ++ [.fixed ")"]
  | ⟨.binary op left right, _⟩ => left.tokens ++ .fixed op.text :: right.tokens
  | ⟨.unary op operand, _⟩ => .fixed op.text :: operand.tokens

def tokensEach : List Node → List (List Token)
  | [] => []
  | node :: others => node.tokens :: tokensEach others

/-- The branches of a conditional, the first of which begins with another word. -/
def branchTokens (word : String) : List (Node × Node) → List Token
  | [] => []
  | (condition, body) :: others =>
    .fixed word :: condition.tokens ++ .fixed "then" :: body.tokens ++ branchTokens "elseif" others

def otherwiseTokens : Option Node → List Token
  | none => []
  | some body => .fixed "else" :: body.tokens

def stepTokens : Option Node → List Token
  | none => []
  | some step => .fixed "," :: step.tokens

end

attribute [simp] tokens

end Node

/-- The hexadecimal digit of a value below sixteen. -/
def hexDigit (value : Nat) : UInt8 :=
  if value < 10 then UInt8.ofNat (0x30 + value) else UInt8.ofNat (0x61 + (value - 10))

/-- A number of hexadecimal digits, the lowest of a value. -/
def hexDigits (value : Nat) : Nat → Bytes
  | 0 => []
  | count + 1 => hexDigits (value / 16) count ++ [hexDigit (value % 16)]

/-- A byte as three decimal digits after a backslash. -/
def escapeByte (b : UInt8) : Bytes :=
  ['\\'.toUInt8, UInt8.ofNat (0x30 + b.toNat / 100), UInt8.ofNat (0x30 + b.toNat / 10 % 10),
    UInt8.ofNat (0x30 + b.toNat % 10)]

/-- A token as it is written. Integers are written in two's complement; only numbers that
no integer numeral can write have no text. -/
def Token.text : Token → Bytes
  | .fixed text => .ofString text
  | .name text => text
  | .number (.integer value) => '0'.toUInt8 :: 'x'.toUInt8 :: hexDigits value.toUInt64.toNat 16
  | .number (.float _) => []
  | .string value => '"'.toUInt8 :: value.flatMap escapeByte ++ ['"'.toUInt8]

/-- The text of a tree, with a space between tokens. -/
def Node.print (node : Node) : Bytes := separated ' '.toUInt8 (node.tokens.map Token.text)

end LuaSyntax
