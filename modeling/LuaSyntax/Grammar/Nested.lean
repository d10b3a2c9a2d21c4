import LuaSyntax.Rule
import LuaSyntax.Token.Quoted

/-! # Nested rules and terminals

The grammar is recursive only through expressions, concatenations, unary operations and
blocks, and each of these recursions goes one nesting level deeper. The rules below
take the four rules of the next level as an argument.
-/
namespace LuaSyntax.Grammar

/-- The rules of the next nesting level. -/
structure Nested where
  expression : Rule Node
  concatenation : Rule Node
  unary : Rule Node
  block : Parse Node

open Rule

/-- A name in the place of a variable. -/
def name : Rule Node := Rule.map (token Scan.name) fun (text, span) => ⟨.name text, span⟩

/-- A name in the place of a key or a method. -/
def key : Rule Node := Rule.map (token Scan.name) fun (text, span) => ⟨.string text, span⟩

def number : Rule Node :=
  Rule.map (token Scan.numeral) fun (value, span) => ⟨.number value, span⟩

def string : Rule Node :=
  Rule.map (token Scan.string) fun (value, span) => ⟨.string value, span⟩

def varargs : Rule Node := (symbol "...").map fun span => ⟨.varargs, span⟩

/-- A comma-separated list of expressions; the label covers one missing after a comma. -/
def expressions (nested : Nested) (missing : Label) : Rule (List Node) :=
  separated (symbol ",") nested.expression missing

end LuaSyntax.Grammar
