import LuaSyntax.Bytes
import LuaSyntax.Label

/-! # Parse errors

The grammar reports a failure as a cause and a byte offset. A parse error is a failure
placed in its source: named after a file, with the line and the column of the offset.
Lines end at line feeds, and columns count bytes.
-/
namespace LuaSyntax

/-- A failure of the grammar, at a zero-based byte offset. -/
inductive Failure where
  | expected (label : Label) (offset : Nat)
  | tooDeep (offset : Nat)
  deriving DecidableEq, Repr

def Failure.offset : Failure → Nat
  | .expected _ offset => offset
  | .tooDeep offset => offset

/-- A one-based line and column. -/
structure Location where
  line : Nat
  column : Nat
  deriving DecidableEq, Repr

/-- The location of a byte offset; offsets past the end count as the end. -/
def Location.ofOffset (source : Bytes) (offset : Nat) : Location :=
  let before := source.take offset
  ⟨before.count lineFeed + 1, (before.reverse.takeWhile (· != lineFeed)).length + 1⟩

/-- Why a source failed to parse. The limit is the deepest nesting allowed. -/
inductive Cause where
  | expected (label : Label)
  | tooDeep (limit : Nat)
  deriving DecidableEq, Repr

def Cause.message : Cause → String
  | .expected label => s!"syntax error, {label.message}"
  | .tooDeep limit => s!"stack overflow, nesting exceeds {limit} levels"

structure ParseError where
  filename : String
  location : Location
  offset : Nat
  cause : Cause
  deriving DecidableEq, Repr

namespace ParseError

/-- Place a failure in its source, parsed under a nesting limit. -/
def ofFailure (source : Bytes) (limit : Nat) (filename : String) (failure : Failure) :
    ParseError where
  filename := filename
  location := .ofOffset source failure.offset
  offset := failure.offset
  cause := match failure with
    | .expected label _ => .expected label
    | .tooDeep _ => .tooDeep limit

/-- The label of the error, unless the source was nested too deeply. -/
def label? (error : ParseError) : Option Label :=
  match error.cause with
  | .expected label => some label
  | .tooDeep _ => none

/-- The limit that was exceeded, if the source was nested too deeply. -/
def limit? (error : ParseError) : Option Nat :=
  match error.cause with
  | .expected _ => none
  | .tooDeep limit => some limit

def message (error : ParseError) : String :=
  s!"{error.filename}:{error.location.line}:{error.location.column}: {error.cause.message}"

end ParseError

end LuaSyntax
