import LuaSyntax.Grammar.Expression

/-! # Statements and blocks

A block is a run of statements and at most one `return` after them. Empty statements
leave no trace in the tree.
-/
namespace LuaSyntax.Grammar

open Rule Parse

variable (nested : Nested)

/-- The words that end a block, or stand last in it. -/
def blockEnds : List String := ["return", "end", "elseif", "else", "until"]

/-- The source has no further statement for its block, `return` aside. -/
def endsBlock (source : Bytes) : Bool :=
  source.isEmpty || blockEnds.any (startsWithKeyword · source)

/-- Values as a list node, anchored on the last byte of what they follow if empty. -/
def valueList (values : List Node) (before : Node) : Node :=
  .ofItems .valueList values before.span.endPos

/-- Condition, `then` and block. -/
def branch (condition closing : Label) : Parse (Node × Node) := do
  let test ← expect nested.expression condition
  let _ ← expect (keyword "then") closing
  return (test, ← nested.block)

def ifStatement : Rule Node :=
  (keyword "if").andThen fun first => do
    let head ← branch nested .ifCondition .ifThen
    let branches ← iterate (fun branches =>
      (keyword "elseif").andThen fun _ => do
        return (← branch nested .elseifCondition .elseifThen) :: branches) [head]
    let otherwise ← (keyword "else").andThen fun _ => nested.block
    let _ ← expect (keyword "end") .ifEnd
    nodeFrom first (.conditional branches.reverse otherwise)

def doStatement : Rule Node :=
  (keyword "do").andThen fun first => do
    let body ← nested.block
    let _ ← expect (keyword "end") .doEnd
    nodeFrom first (.doBlock body)

def whileStatement : Rule Node :=
  (keyword "while").andThen fun first => do
    let condition ← expect nested.expression .whileCondition
    let _ ← expect (keyword "do") .whileDo
    let body ← nested.block
    let _ ← expect (keyword "end") .whileEnd
    nodeFrom first (.whileLoop condition body)

def repeatStatement : Rule Node :=
  (keyword "repeat").andThen fun first => do
    let body ← nested.block
    let _ ← expect (keyword "until") .repeatUntil
    let condition ← expect nested.expression .repeatCondition
    nodeFrom first (.repeatLoop body condition)

/-- The names after a first one. A comma with no name after it is left alone. -/
def nameList (first : Node) : Parse Node := do
  let names ← iterate (fun names =>
    Rule.map (both (symbol ",") name) fun (_, next) => next :: names) [first]
  return .ofItems .nameList names.reverse 0

def forBody : Parse Node := do
  let _ ← expect (keyword "do") .forDo
  let body ← nested.block
  let _ ← expect (keyword "end") .forEnd
  return body

/-- The rest of a numeric loop, after `for`, its counter and `=`. -/
def numericFor (first : Span) (counter : Node) : Parse Node := do
  let start ← expect nested.expression .forStart
  let _ ← expect (symbol ",") .forComma
  let limit ← expect nested.expression .forLimit
  let step ← (symbol ",").andThen fun _ => expect nested.expression .forStep
  let body ← forBody nested
  nodeFrom first (.numericFor counter start limit step body)

/-- The rest of a generic loop, after `for` and its first name. -/
def genericFor (first : Span) (counter : Node) : Parse Node := do
  let names ← nameList counter
  let _ ← expect (keyword "in") .forIn
  let values ← expect (expressions nested .listValue) .forValues
  let body ← forBody nested
  nodeFrom first (.genericFor names (valueList values names) body)

def forStatement : Rule Node :=
  (keyword "for").andThen fun first => do
    let counter ← expect name .forName
    match ← single '=' with
    | some _ => numericFor nested first counter
    | none => genericFor nested first counter

/-- Names and optional initial values, after `local`. -/
def localNames (first : Span) : Parse Node := do
  let names ← nameList (← expect name .localName)
  let values ← (single '=').andThen fun _ => expect (expressions nested .listValue) .localValues
  nodeFrom first (.localNames names (valueList (values.getD []) names))

def localStatement : Rule Node :=
  (keyword "local").andThen fun first => do
    match ← keyword "function" with
    | some second => localFunction nested first second
    | none => localNames nested first

def breakStatement : Rule Node := (keyword "break").map fun span => ⟨.breakLoop, span⟩

def labelStatement : Rule Node :=
  (symbol "::").andThen fun first => do
    let (text, _) ← expect (token Scan.name) .labelName
    let _ ← expect (symbol "::") .labelClose
    nodeFrom first (.label text)

def gotoStatement : Rule Node :=
  (keyword "goto").andThen fun first => do
    let (text, _) ← expect (token Scan.name) .gotoLabel
    nodeFrom first (.goto text)

def returnStatement : Rule Node :=
  (keyword "return").andThen fun first => do
    let values ← expressions nested .returnValue
    let _ ← symbol ";"
    nodeFrom first (.returnValues (values.getD []))

/-- A further assignment target, after a comma. -/
def target : Parse Node := do
  let start := (← get).offset
  let node ← expect (suffixed nested) .target
  if node.form.isAssignable then return node else failAt .target start

/-- The rest of an assignment, after its first target. -/
def assignment (first : Node) : Parse Node := do
  let targets ← iterate (fun targets =>
    (symbol ",").andThen fun _ => do return (← target nested) :: targets) [first]
  match ← single '=' with
  | none => failAt .statement (first.span.pos - 1)
  | some _ =>
    let values ← expect (expressions nested .listValue) .assignmentValues
    let targets : Node := .ofItems .targetList targets.reverse 0
    nodeFrom first.span (.assignment targets (valueList values targets))

/-- A call or an assignment. Any other expression is a failure where it starts. -/
def expressionStatement : Rule Node :=
  (suffixed nested).andThen fun first =>
    if first.form.isCall then pure first
    else if first.form.isAssignable then assignment nested first
    else failAt .statement (first.span.pos - 1)

/-- The alternatives of a statement; an empty one stands for no node. -/
def statementForms : List (Rule (Option Node)) :=
  (symbol ";").map (fun _ => none) ::
    [ifStatement nested, doStatement nested, whileStatement nested, repeatStatement nested,
      forStatement nested, localStatement nested, functionStatement nested, breakStatement,
      labelStatement, gotoStatement, expressionStatement nested].map fun form => form.map some

def statement : Parse (Option Node) := expect (firstOf (statementForms nested)) .statement

/-- The statements up to the end of their block. -/
def statements : Parse (List Node) := do
  let listed ← iterate (fun listed cursor =>
    if endsBlock cursor.rest then .ok none cursor
    else (some <$> (· ++ listed) <$> Option.toList <$> statement nested) cursor) []
  let last ← returnStatement nested
  return (last.toList ++ listed).reverse

/-- A block; an empty one is anchored on the byte where it was looked for. -/
def block : Parse Node := do
  let start := (← get).offset
  return .ofItems .block (← statements nested) (start + 1)

end LuaSyntax.Grammar
