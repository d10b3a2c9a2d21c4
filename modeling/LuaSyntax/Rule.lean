import LuaSyntax.Node.Basic
import LuaSyntax.Token.Word
import LuaSyntax.Token.Trivia

/-! # Grammar rules

A rule reads tokens at a cursor. It matches, or declines and leaves the cursor alone,
or fails; a failure keeps the cursor where reading stopped. The cursor rests on the
first byte of the next token: every token takes the trivia after it along.
-/
namespace LuaSyntax

/-- A place between tokens, and the offset of the end of the last token before it. -/
structure Cursor extends Place where
  lastEnd : Nat
  deriving DecidableEq, Repr

def Cursor.start (source : Bytes) : Cursor := ⟨⟨source, 0⟩, 0⟩

abbrev Parse := EStateM Failure Cursor

abbrev Rule (α : Type) := Parse (Option α)

variable {α β : Type}

namespace Parse

def rest : Parse Bytes := do return (← get).rest

def failAt (label : Label) (offset : Nat) : Parse α := throw (.expected label offset)

def fail (label : Label) : Parse α := do
  failAt label (← get).offset

def expect (rule : Rule α) (label : Label) : Parse α := do
  match ← rule with
  | some value => return value
  | none => fail label

@[specialize]
def iterate (rule : α → Rule α) (value : α) : Parse α := do
  iterateWithin rule (← rest) value

/-- A node that began with a token and ends with the last token read. -/
def nodeFrom (first : Span) (form : Form Node) : Parse Node := do
  return ⟨form, first.pos, (← get).lastEnd⟩

/-- Skip white space and comments. A comment that fails leaves the cursor in front. -/
def skipTrivia : Parse Unit :=
  iterate (fun _ cursor =>
    match Scan.trivium cursor.toPlace with
    | .ok (matched, place) => .ok matched { cursor with toPlace := place }
    | .error failure => .error failure cursor) ()

end Parse

namespace Rule

/-- A token with its span, and the trivia after it. A scan that fails leaves the cursor
in front of the token. -/
def token (scan : Scan (Option α)) : Parse (Option (α × Span)) := do
  let cursor ← get
  match scan cursor.toPlace with
  | .ok (some value, place) =>
    set (Cursor.mk place place.offset)
    Parse.skipTrivia
    return some (value, ⟨cursor.offset + 1, place.offset⟩)
  | .ok (none, _) => return none
  | .error failure => throw failure

def andThen (rule : Rule α) (build : α → Parse β) : Parse (Option β) := do
  match ← rule with
  | some value => return some (← build value)
  | none => return none

def map (rule : Rule α) (f : α → β) : Rule β := rule.andThen fun value => pure (f value)

def firstOf : List (Rule α) → Parse (Option α)
  | [] => return none
  | rule :: others => do
    match ← rule with
    | some value => return some value
    | none => firstOf others

/-- Two rules in a row, or neither. -/
def both (first : Rule α) (second : Rule β) : Parse (Option (α × β)) := do
  let cursor ← get
  match ← first with
  | none => return none
  | some a =>
    match ← second with
    | some b => return some (a, b)
    | none =>
      set cursor
      return none

/-- The match of a rule with those that follow it after separators. -/
def separated (separator : Rule Span) (item : Rule α) (missing : Label) : Rule (List α) :=
  item.andThen fun first => do
    let items ← Parse.iterate (fun items =>
      separator.andThen fun _ => do
        return (← Parse.expect item missing) :: items) [first]
    return items.reverse

/-- A symbol that no barred byte follows. -/
def symbolUnless (barred : UInt8 → Bool) (text : String) : Rule Span :=
  Rule.map (token (Scan.text (.ofString text) barred)) Prod.snd

def symbol (text : String) : Rule Span := symbolUnless never text

def keyword (word : String) : Rule Span := symbolUnless isNamePart word

/-- A symbol of one character that is not half of a double one. -/
def single (c : Char) : Rule Span := symbolUnless (isByte c) c.toString

/-- An opening bracket that does not open a long bracket. -/
def openBracket : Rule Span := fun cursor =>
  if (LongBracket.level? cursor.rest).isSome then .ok none cursor else symbol "[" cursor

end Rule

end LuaSyntax
