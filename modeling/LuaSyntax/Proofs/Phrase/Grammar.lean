import LuaSyntax.Proofs.Phrase.Follows
import LuaSyntax.Grammar.Chunk

/-! # The grammar of phrases

The grammar of the language on streams of lexemes. It says which tokens make up which
node, with its span, and which tokens may not follow where a phrase could go on. A phrase
is recursive only through expressions, concatenations, unary operations and blocks, each
of which is one nesting level deeper.
-/
namespace LuaSyntax

/-- Neither a dot comes next nor a number written with a dot first. -/
def Stream.NoDot (s : Stream) : Prop :=
  ¬ s.Next ["."] ∧
    ∀ lexeme ∈ s.lexemes.head?, ∀ value, lexeme.token = .number value →
      lexeme.spelling.head? ≠ some '.'.toUInt8

/-- The kinds of tokens at which the test for an operator succeeds. -/
def operatorKinds : BinaryOp → List Kind
  | .lt => ["<", "<=", "<<"]
  | .gt => [">", ">=", ">>"]
  | .div => ["/", "//"]
  | op => [op.text]

/-- The phrases of the next nesting level, and where no expression is found there. -/
structure Phrases where
  expression : Phrase Node
  concatenation : Phrase Node
  unary : Phrase Node
  block : Phrase Node
  noExpression : Stream → Prop

namespace Phrase

open Grammar (Tier indexed selfParameter valueList looseTiers tightTiers)

section Terminals

/-- A token that is a node of its own. -/
def Atom (token : Token) (form : Form Node) : Phrase Node := fun s v s' =>
  ∃ span, s.Takes token span s' ∧ v = ⟨form, span⟩

def Name : Phrase Node := fun s v s' => ∃ text, Identifier text ∧ Atom (.name text) (.name text) s v s'

def Key : Phrase Node := fun s v s' => ∃ text, Identifier text ∧ Atom (.name text) (.string text) s v s'

def Number : Phrase Node := fun s v s' => ∃ value, Atom (.number value) (.number value) s v s'

def String : Phrase Node := fun s v s' => ∃ value, Atom (.string value) (.string value) s v s'

def Varargs : Phrase Node := Atom "..." .varargs

end Terminals

/-- A phrase after a separator. -/
def After {α : Type} (separator : Token) (item : Phrase α) : Phrase α := fun s v s' =>
  ∃ span m, s.Takes separator span m ∧ item m v s'

variable (nested : Phrases)

/-- Expressions with commas between them. -/
def Expressions : Phrase (List Node) := fun s values s' =>
  ∃ first m, nested.expression s first m ∧
  ∃ others, (Sequence (After "," nested.expression) m others s' ∧ ¬ s'.Next [","]) ∧
    values = first :: others

section Functions

/-- Names with commas between them, the last of which may be `...` instead. -/
inductive Parameters : Phrase (List Node)
  | last {s s' : Stream} {v : Node} (h : Name s v s') (hs : ¬ s'.Next [","]) : Parameters s [v] s'
  | varargs {s s' : Stream} {v : Node} (h : Varargs s v s') : Parameters s [v] s'
  | more {s m m' s' : Stream} {v : Node} {span : Span} {others : List Node} (h : Name s v m)
      (hc : m.Takes "," span m') (ho : Parameters m' others s') : Parameters s (v :: others) s'

/-- Parameters, block and `end`, after the token `function`. -/
def FunctionBody (first : Span) (isMethod : Bool) : Phrase Node := fun s v s' =>
  ∃ opening m₁, s.Takes "(" opening m₁ ∧
  ∃ listed m₂, (Parameters m₁ listed m₂ ∨ ¬ m₁.Next ["...", .name] ∧ listed = [] ∧ m₂ = m₁) ∧
  ∃ closing m₃, m₂.Takes ")" closing m₃ ∧
  ∃ body m₄, nested.block m₃ body m₄ ∧
  ∃ last, m₄.Takes "end" last s' ∧
    v = ⟨.function (if isMethod then selfParameter opening :: listed else listed) body isMethod,
      first.pos, s'.lastEnd⟩

def FunctionLiteral : Phrase Node := fun s v s' =>
  ∃ first m, s.Takes "function" first m ∧ FunctionBody nested first false m v s'

/-- One further name of a dotted name. -/
def PathStep (object : Node) : Phrase Node := fun s v s' =>
  ∃ dot m, s.Takes "." dot m ∧ ∃ key, Key m key s' ∧ v = indexed object key

/-- A dotted name, and whether it ends with a method name. -/
def FunctionName : Phrase (Node × Bool) := fun s v s' =>
  ∃ base m₁, Name s base m₁ ∧
  ∃ path m₂, (Steps (fun x s y s' => PathStep x s y s') base m₁ path m₂ ∧ m₂.NoDot) ∧
    ((∃ colon m₃, m₂.Takes ":" colon m₃ ∧ ∃ method, Key m₃ method s' ∧
        v = (indexed path method, true)) ∨
      ¬ m₂.Next [":"] ∧ v = (path, false) ∧ s' = m₂)

/-- A function statement assigns the function to its name. -/
def FunctionStatement : Phrase Node := fun s v s' =>
  ∃ first m₁, s.Takes "function" first m₁ ∧
  ∃ target m₂, FunctionName m₁ target m₂ ∧
  ∃ function, FunctionBody nested first target.2 m₂ function s' ∧
    v = ⟨.assignment ⟨.targetList [target.1], target.1.span⟩ ⟨.valueList [function], function.span⟩,
      first.pos, s'.lastEnd⟩

/-- A local function, after the tokens `local` and `function`. -/
def LocalFunction (first second : Span) : Phrase Node := fun s v s' =>
  ∃ declared m, Name s declared m ∧
  ∃ function, FunctionBody nested second false m function s' ∧
    v = ⟨.localFunction ⟨.nameList [declared], declared.span⟩ ⟨.valueList [function], function.span⟩,
      first.pos, s'.lastEnd⟩

end Functions

section Expressions

/-- One operator of a tier and its right operand, after the left operand. -/
def ChainStep (operand : Phrase Node) (tier : Tier) (left : Node) : Phrase Node := fun s v s' =>
  ∃ op ∈ tier.operators, ∃ span m, s.Takes op.text span m ∧
  ∃ right, operand m right s' ∧ v = .binary op left right

/-- Operands joined by the operators of a tier, grouped to the left. -/
def Chain (operand : Phrase Node) (tier : Tier) : Phrase Node := fun s v s' =>
  ∃ first m, operand s first m ∧
    Steps (fun x s y s' => ChainStep operand tier x s y s') first m v s' ∧
    ¬ s'.Next (tier.operators.flatMap operatorKinds)

/-- Chains of chains, the operand binding tightest. -/
def Chains (operand : Phrase Node) : List Tier → Phrase Node
  | [] => operand
  | tier :: tighter => Chain (Chains operand tighter) tier

/-- A left operand, and an operator with its right operand where there is one. -/
def WithRight (left : Phrase Node) (op : BinaryOp) (right : Phrase Node) : Phrase Node := fun s v s' =>
  ∃ first m, left s first m ∧
    ((∃ span m', m.Takes op.text span m' ∧ ∃ operand, right m' operand s' ∧
        v = .binary op first operand) ∨
      ¬ m.Next [op.text] ∧ v = first ∧ s' = m)

def Parenthesized : Phrase Node := fun s v s' =>
  ∃ first m₁, s.Takes "(" first m₁ ∧
  ∃ inner m₂, nested.expression m₁ inner m₂ ∧
  ∃ close, m₂.Takes ")" close s' ∧ v = ⟨.paren inner, first.pos, s'.lastEnd⟩

/-- The field `[key] = value`. -/
def BracketField : Phrase Node := fun s v s' =>
  ∃ first m₁, s.Takes "[" first m₁ ∧
  ∃ key m₂, nested.expression m₁ key m₂ ∧
  ∃ close m₃, m₂.Takes "]" close m₃ ∧
  ∃ equals m₄, m₃.Takes "=" equals m₄ ∧
  ∃ value, nested.expression m₄ value s' ∧ v = ⟨.pair key value, first.pos, s'.lastEnd⟩

/-- The field `name = value`. -/
def NamedField : Phrase Node := fun s v s' =>
  ∃ key m₁, Key s key m₁ ∧
  ∃ equals m₂, m₁.Takes "=" equals m₂ ∧
  ∃ value, nested.expression m₂ value s' ∧ v = ⟨.pair key value, key.span.pos, s'.lastEnd⟩

/-- No name comes next, or one that `=` does not follow. -/
def NoNamedField (s : Stream) : Prop := ¬ s.Next [.name] ∨ ∃ key m, Key s key m ∧ ¬ m.Next ["="]

def Field : Phrase Node := fun s v s' =>
  BracketField nested s v s' ∨ NamedField nested s v s' ∨ NoNamedField s ∧ nested.expression s v s'

def NoField (s : Stream) : Prop := ¬ s.Next ["["] ∧ NoNamedField s ∧ nested.noExpression s

/-- Fields, each followed by a separator, which the last may lack. -/
inductive Fields : Phrase (List Node)
  | none {s : Stream} (h : NoField nested s) : Fields s [] s
  | last {s s' : Stream} {v : Node} (h : Field nested s v s') (hs : ¬ s'.Next [",", ";"]) :
      Fields s [v] s'
  | more {s m m' s' : Stream} {v : Node} {span : Span} {others : List Node} (h : Field nested s v m)
      (hs : m.Takes "," span m' ∨ m.Takes ";" span m') (ho : Fields m' others s') :
      Fields s (v :: others) s'

def Table : Phrase Node := fun s v s' =>
  ∃ first m₁, s.Takes "\x7b" first m₁ ∧
  ∃ fields m₂, Fields nested m₁ fields m₂ ∧
  ∃ close, m₂.Takes "\x7d" close s' ∧ v = ⟨.table fields, first.pos, s'.lastEnd⟩

/-- Arguments in parentheses, or a table or a string alone. -/
def Arguments : Phrase (List Node) := fun s values s' =>
  (∃ first m₁, s.Takes "(" first m₁ ∧
    ∃ listed m₂, Optional (Expressions nested) nested.noExpression m₁ listed m₂ ∧
    ∃ close, m₂.Takes ")" close s' ∧ values = listed.getD []) ∨
  (∃ v, Table nested s v s' ∧ values = [v]) ∨
  ∃ v, String s v s' ∧ values = [v]

/-- One suffix of an expression: a field, an index, a method call or a call. -/
def Suffix (object : Node) : Phrase Node := fun s v s' =>
  (∃ dot m, s.Takes "." dot m ∧ ∃ key, Key m key s' ∧ v = indexed object key) ∨
  (∃ first m₁, s.Takes "[" first m₁ ∧
    ∃ key m₂, nested.expression m₁ key m₂ ∧
    ∃ close, m₂.Takes "]" close s' ∧ v = ⟨.index object key, object.span.pos, s'.lastEnd⟩) ∨
  (∃ colon m₁, s.Takes ":" colon m₁ ∧
    ∃ method m₂, Key m₁ method m₂ ∧
    ∃ values, Arguments nested m₂ values s' ∧
      v = ⟨.invoke object method values, object.span.pos, s'.lastEnd⟩) ∨
  ∃ values, Arguments nested s values s' ∧ v = ⟨.call object values, object.span.pos, s'.lastEnd⟩

def NoSuffix (s : Stream) : Prop := s.NoDot ∧ ¬ s.Next ["[", ":", "(", "\x7b", .string]

/-- A name or a parenthesized expression, with its suffixes. -/
def Suffixed : Phrase Node := fun s v s' =>
  ∃ first m, (Name s first m ∨ Parenthesized nested s first m) ∧
    Steps (fun x s y s' => Suffix nested x s y s') first m v s' ∧ NoSuffix s'

/-- An operand without operators. -/
def Simple : Phrase Node := fun s v s' =>
  Number s v s' ∨ String s v s' ∨ Atom "nil" .nil s v s' ∨ Atom "false" (.boolean false) s v s' ∨
  Atom "true" (.boolean true) s v s' ∨ Varargs s v s' ∨ FunctionLiteral nested s v s' ∨
  Table nested s v s' ∨ Suffixed nested s v s'

def Power : Phrase Node := WithRight (Simple nested) .pow nested.unary

/-- An operator and its operand, which ends the operation. -/
def UnaryOperation : Phrase Node := fun s v s' =>
  ∃ (op : UnaryOp) (first : Span) (m : Stream), s.Takes op.text first m ∧
  ∃ operand, nested.unary m operand s' ∧ v = ⟨.unary op operand, .between first operand.span⟩

def Unary : Phrase Node := fun s v s' => UnaryOperation nested s v s' ∨ Power nested s v s'

def Concatenation : Phrase Node :=
  WithRight (Chains (Unary nested) tightTiers) .concat nested.concatenation

def Expression : Phrase Node := Chains (Concatenation nested) looseTiers

/-- The kinds of tokens that an expression begins with, and the dot, at which a number is
looked for. -/
def expressionKinds : List Kind := [
  "not", "-", "#", "~", .number, ".", .string, "nil", "false", "true", "...", "function", "\x7b",
  .name, "("]

end Expressions

section Statements

/-- The source ends, or a word comes next that ends a block or stands last in it. -/
def BlockEnds (s : Stream) : Prop :=
  s.lexemes = [] ∨ s.Next ["return", "end", "elseif", "else", "until"]

/-- Condition, `then` and block. -/
def Branch : Phrase (Node × Node) := fun s branch s' =>
  ∃ condition m₁, nested.expression s condition m₁ ∧
  ∃ span m₂, m₁.Takes "then" span m₂ ∧
  ∃ body, nested.block m₂ body s' ∧ branch = (condition, body)

def IfStatement : Phrase Node := fun s v s' =>
  ∃ first m₁, s.Takes "if" first m₁ ∧
  ∃ head m₂, Branch nested m₁ head m₂ ∧
  ∃ others m₃, (Sequence (After "elseif" (Branch nested)) m₂ others m₃ ∧ ¬ m₃.Next ["elseif"]) ∧
  ∃ otherwise m₄, Optional (After "else" nested.block) (¬ ·.Next ["else"]) m₃ otherwise m₄ ∧
  ∃ last, m₄.Takes "end" last s' ∧
    v = ⟨.conditional (head :: others) otherwise, first.pos, s'.lastEnd⟩

def DoStatement : Phrase Node := fun s v s' =>
  ∃ first m₁, s.Takes "do" first m₁ ∧
  ∃ body m₂, nested.block m₁ body m₂ ∧
  ∃ last, m₂.Takes "end" last s' ∧ v = ⟨.doBlock body, first.pos, s'.lastEnd⟩

def WhileStatement : Phrase Node := fun s v s' =>
  ∃ first m₁, s.Takes "while" first m₁ ∧
  ∃ condition m₂, nested.expression m₁ condition m₂ ∧
  ∃ span m₃, m₂.Takes "do" span m₃ ∧
  ∃ body m₄, nested.block m₃ body m₄ ∧
  ∃ last, m₄.Takes "end" last s' ∧ v = ⟨.whileLoop condition body, first.pos, s'.lastEnd⟩

def RepeatStatement : Phrase Node := fun s v s' =>
  ∃ first m₁, s.Takes "repeat" first m₁ ∧
  ∃ body m₂, nested.block m₁ body m₂ ∧
  ∃ span m₃, m₂.Takes "until" span m₃ ∧
  ∃ condition, nested.expression m₃ condition s' ∧
    v = ⟨.repeatLoop body condition, first.pos, s'.lastEnd⟩

/-- No comma comes next, or one that no name follows. -/
def NoNextName (s : Stream) : Prop :=
  ¬ s.Next [","] ∨ ∃ comma m, s.Takes "," comma m ∧ ¬ m.Next [.name]

/-- The names after a first one, as a list node. -/
def NameList (first : Node) : Phrase Node := fun s v s' =>
  ∃ others, (Sequence (After "," Name) s others s' ∧ NoNextName s') ∧
    v = .ofItems .nameList (first :: others) 0

def ForBody : Phrase Node := fun s body s' =>
  ∃ span m₁, s.Takes "do" span m₁ ∧
  ∃ block m₂, nested.block m₁ block m₂ ∧
  ∃ last, m₂.Takes "end" last s' ∧ body = block

/-- The rest of a numeric loop, after `for`, its counter and `=`. -/
def NumericFor (first : Span) (counter : Node) : Phrase Node := fun s v s' =>
  ∃ start m₁, nested.expression s start m₁ ∧
  ∃ comma m₂, m₁.Takes "," comma m₂ ∧
  ∃ limit m₃, nested.expression m₂ limit m₃ ∧
  ∃ step m₄, Optional (After "," nested.expression) (¬ ·.Next [","]) m₃ step m₄ ∧
  ∃ body, ForBody nested m₄ body s' ∧
    v = ⟨.numericFor counter start limit step body, first.pos, s'.lastEnd⟩

/-- The rest of a generic loop, after `for` and its first name. -/
def GenericFor (first : Span) (counter : Node) : Phrase Node := fun s v s' =>
  ∃ names m₁, NameList counter s names m₁ ∧
  ∃ span m₂, m₁.Takes "in" span m₂ ∧
  ∃ values m₃, Expressions nested m₂ values m₃ ∧
  ∃ body, ForBody nested m₃ body s' ∧
    v = ⟨.genericFor names (valueList values names) body, first.pos, s'.lastEnd⟩

def ForStatement : Phrase Node := fun s v s' =>
  ∃ first m₁, s.Takes "for" first m₁ ∧
  ∃ counter m₂, Name m₁ counter m₂ ∧
    ((∃ equals m₃, m₂.Takes "=" equals m₃ ∧ NumericFor nested first counter m₃ v s') ∨
      ¬ m₂.Next ["="] ∧ GenericFor nested first counter m₂ v s')

/-- Names and optional initial values, after `local`. -/
def LocalNames (first : Span) : Phrase Node := fun s v s' =>
  ∃ declared m₁, Name s declared m₁ ∧
  ∃ names m₂, NameList declared m₁ names m₂ ∧
  ∃ values, Optional (After "=" (Expressions nested)) (¬ ·.Next ["="]) m₂ values s' ∧
    v = ⟨.localNames names (valueList (values.getD []) names), first.pos, s'.lastEnd⟩

def LocalStatement : Phrase Node := fun s v s' =>
  ∃ first m₁, s.Takes "local" first m₁ ∧
    ((∃ second m₂, m₁.Takes "function" second m₂ ∧ LocalFunction nested first second m₂ v s') ∨
      ¬ m₁.Next ["function"] ∧ LocalNames nested first m₁ v s')

def LabelStatement : Phrase Node := fun s v s' =>
  ∃ first m₁, s.Takes "::" first m₁ ∧
  ∃ text span m₂, (m₁.Takes (.name text) span m₂ ∧ Identifier text) ∧
  ∃ last, m₂.Takes "::" last s' ∧ v = ⟨.label text, first.pos, s'.lastEnd⟩

def GotoStatement : Phrase Node := fun s v s' =>
  ∃ first m, s.Takes "goto" first m ∧
  ∃ text span, (m.Takes (.name text) span s' ∧ Identifier text) ∧ v = ⟨.goto text, first.pos, s'.lastEnd⟩

def ReturnStatement : Phrase Node := fun s v s' =>
  ∃ first m₁, s.Takes "return" first m₁ ∧
  ∃ values m₂, Optional (Expressions nested) nested.noExpression m₁ values m₂ ∧
  ∃ semicolon, Optional (fun s span s' => s.Takes ";" span s') (¬ ·.Next [";"]) m₂ semicolon s' ∧
    v = ⟨.returnValues (values.getD []), first.pos, s'.lastEnd⟩

/-- An expression that may be assigned to. -/
def Target : Phrase Node := fun s v s' => Suffixed nested s v s' ∧ v.form.isAssignable

/-- The rest of an assignment, after its first target. -/
def Assignment (first : Node) : Phrase Node := fun s v s' =>
  ∃ others m₁, (Sequence (After "," (Target nested)) s others m₁ ∧ ¬ m₁.Next [","]) ∧
  ∃ equals m₂, m₁.Takes "=" equals m₂ ∧
  ∃ values, Expressions nested m₂ values s' ∧
    v = ⟨.assignment (.ofItems .targetList (first :: others) 0)
      (valueList values (.ofItems .targetList (first :: others) 0)), first.span.pos, s'.lastEnd⟩

/-- A call or an assignment. -/
def ExpressionStatement : Phrase Node := fun s v s' =>
  ∃ first m, Suffixed nested s first m ∧
    (first.form.isCall ∧ v = first ∧ s' = m ∨
      ¬ first.form.isCall ∧ first.form.isAssignable ∧ Assignment nested first m v s')

def Statement : Phrase Node := fun s v s' =>
  IfStatement nested s v s' ∨ DoStatement nested s v s' ∨ WhileStatement nested s v s' ∨
  RepeatStatement nested s v s' ∨ ForStatement nested s v s' ∨ LocalStatement nested s v s' ∨
  FunctionStatement nested s v s' ∨ Atom "break" .breakLoop s v s' ∨ LabelStatement s v s' ∨
  GotoStatement s v s' ∨ ExpressionStatement nested s v s'

/-- A statement, or an empty one, which leaves no node. -/
def StatementOrEmpty : Phrase (Option Node) := fun s found s' =>
  (∃ span, s.Takes ";" span s' ∧ found = none) ∨ ∃ v, Statement nested s v s' ∧ found = some v

/-- The statements up to the end of their block. -/
def Statements : Phrase (List Node) := fun s listed s' =>
  ∃ found m, (Sequence (StatementOrEmpty nested) s found m ∧ BlockEnds m) ∧
  ∃ last, Optional (ReturnStatement nested) (¬ ·.Next ["return"]) m last s' ∧
    listed = found.flatMap Option.toList ++ last.toList

/-- A block; an empty one is anchored on the first byte of the token after it. -/
def Block : Phrase Node := fun s v s' =>
  ∃ listed, Statements nested s listed s' ∧ v = .ofItems .block listed (s.position + 1)

end Statements

end Phrase

open Phrase

/-- The phrases where a number of nesting levels is left. -/
def phrases : Nat → Phrases
  | 0 => {
      expression := fun _ _ _ => False
      concatenation := fun _ _ _ => False
      unary := fun _ _ _ => False
      block := fun _ _ _ => False
      noExpression := fun _ => False }
  | levels + 1 => {
      expression := Expression (phrases levels)
      concatenation := Concatenation (phrases levels)
      unary := Unary (phrases levels)
      block := Block (phrases levels)
      noExpression := fun s => ¬ s.Next expressionKinds }

/-- A whole source, under a nesting limit. The root spans all of it, trivia included. -/
def Phrase.Chunk (limit : Nat) (s : Stream) (root : Node) : Prop :=
  ∃ listed s', Statements (phrases limit) s listed s' ∧ s'.lexemes = [] ∧
    root = ⟨.block listed, 1, max 1 s.sourceEnd⟩

end LuaSyntax
