import LuaSyntax.Grammar.Statement

/-! # Chunks

The nesting levels tied together, from a limit downwards, and the rule for a whole
source. Going below the last level fails where the nested rule was to start.
-/
namespace LuaSyntax.Grammar

def tooDeep {α : Type} : Parse α := fun cursor => .error (.tooDeep cursor.offset) cursor

/-- The nested rules where a number of further levels is left. -/
def nesting : Nat → Nested
  | 0 => ⟨tooDeep, tooDeep, tooDeep, tooDeep⟩
  | levels + 1 => {
      expression := fun cursor => expression (nesting levels) cursor
      concatenation := fun cursor => concatenation (nesting levels) cursor
      unary := fun cursor => unary (nesting levels) cursor
      block := fun cursor => block (nesting levels) cursor }

/-- A line that starts with `#` at the very start of a source is skipped. -/
def skipShebang (cursor : Cursor) : Cursor :=
  if cursor.offset == 0 && cursor.rest.head? == some '#'.toUInt8 then
    { cursor with
      toPlace := cursor.advance (cursor.rest.takeWhile (· != lineFeed)).length }
  else cursor

/-- A whole source, under a nesting limit. The root spans all of it, trivia included. -/
def chunk (limit : Nat) : Parse Node := do
  modify skipShebang
  Parse.skipTrivia
  let body ← statements (nesting limit)
  let cursor ← get
  if cursor.rest.isEmpty then
    return ⟨.block body, 1, max 1 cursor.offset⟩
  else
    Parse.fail .trailingInput

end LuaSyntax.Grammar
