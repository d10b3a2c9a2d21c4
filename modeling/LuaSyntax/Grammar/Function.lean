import LuaSyntax.Grammar.Nested

/-! # Functions

Function bodies, and the names that function statements assign to. A method gets a
first parameter `self`, anchored on the opening parenthesis.
-/
namespace LuaSyntax.Grammar

open Rule Parse

variable (nested : Nested)

def indexed (object key : Node) : Node :=
  ⟨.index object key, .between object.span key.span⟩

/-- Names, the last of which may be `...` instead. -/
def parameters : Parse (List Node) := do
  match ← firstOf [varargs, name] with
  | none => return []
  | some first =>
    let listed ← iterate (fun listed cursor =>
      if listed.head?.any (·.tag == .varargs) then .ok none cursor
      else (symbol ",").andThen (fun _ => do
        return (← expect (firstOf [name, varargs]) .parameter) :: listed) cursor) [first]
    return listed.reverse

/-- The implicit parameter of a method whose list opens at a span. -/
def selfParameter (opening : Span) : Node :=
  ⟨.name (.ofString "self"), .point opening.pos⟩

/-- Parameters, block and `end`, after the token `function`. -/
def functionBody (first : Span) (isMethod : Bool) : Parse Node := do
  let opening ← expect (symbol "(") .parametersOpen
  let listed ← parameters
  let _ ← expect (symbol ")") .parametersClose
  let body ← nested.block
  let _ ← expect (keyword "end") .functionEnd
  let all := if isMethod then selfParameter opening :: listed else listed
  nodeFrom first (.function all body isMethod)

def functionLiteral : Rule Node :=
  (keyword "function").andThen fun first => functionBody nested first false

def functionName : Parse (Node × Bool) := do
  let base ← expect name .functionName
  let path ← iterate (fun object =>
    (single '.').andThen fun _ => do
      return indexed object (← expect key .functionField)) base
  match ← single ':' with
  | some _ => return (indexed path (← expect key .functionMethod), true)
  | none => return (path, false)

/-- A function statement assigns the function to its name. -/
def functionStatement : Rule Node :=
  (keyword "function").andThen fun first => do
    let (target, isMethod) ← functionName
    let function ← functionBody nested first isMethod
    nodeFrom first (.assignment ⟨.targetList [target], target.span⟩
      ⟨.valueList [function], function.span⟩)

/-- A local function, after the tokens `local` and `function`. -/
def localFunction (first second : Span) : Parse Node := do
  let declared ← expect name .localFunctionName
  let function ← functionBody nested second false
  nodeFrom first (.localFunction ⟨.nameList [declared], declared.span⟩
    ⟨.valueList [function], function.span⟩)

end LuaSyntax.Grammar
