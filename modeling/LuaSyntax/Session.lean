import LuaSyntax.Grammar.Chunk

/-! # Parsing

`parse` reads a source into its syntax tree or an error. A session is a parse that can
be taken up again: it keeps its cursor, and a further call starts where the last one
stopped.
-/
namespace LuaSyntax

/-- The nesting allowed where no limit is given. -/
def defaultLimit : Nat := 200

def defaultFilename : String := "input"

/-- A source, the limit under which it is parsed, and how far it has been read. -/
structure Session where
  source : Bytes
  limit : Nat
  cursor : Cursor

namespace Session

def start (source : Bytes) (limit : Nat) : Session := ⟨source, limit, .start source⟩

/-- Parse from the cursor to the end of the source. -/
def parse (session : Session) (filename : String) : Except ParseError Node × Session :=
  match Grammar.chunk session.limit session.cursor with
  | .ok root cursor => (.ok root, { session with cursor })
  | .error failure cursor =>
    (.error (.ofFailure session.source session.limit filename failure), { session with cursor })

/-- Parse once for each name, each time from where the last parse stopped. -/
def parseEach (session : Session) : List String → List (Except ParseError Node)
  | [] => []
  | filename :: others =>
    let (result, next) := session.parse filename
    result :: next.parseEach others

end Session

def parse (source : Bytes) (limit : Nat) (filename : String) : Except ParseError Node :=
  ((Session.start source limit).parse filename).1

end LuaSyntax
