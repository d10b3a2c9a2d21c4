import LuaSyntax.CommandLine.Run

/-! # The executable

Reads the source named on the command line and prints the outcome of the command.
-/
namespace LuaSyntax.CommandLine

/-- The reason for a failed read. -/
def readErrorOf : IO.Error → ReadError
  | .noFileOrDirectory .. => .notFound
  | .inappropriateType _ 21 _ => .isDirectory
  | .inappropriateType .. => .notDirectory
  | .permissionDenied .. => .other "Permission denied (os error 13)"
  | error => .other (toString error)

def readSource (path : String) : IO (Except ReadError Bytes) := do
  try
    let content ←
      if path = "-" then IO.FS.Stream.readBinToEnd (← IO.getStdin) else IO.FS.readBinFile path
    return .ok content.data.toList
  catch error => return .error (readErrorOf error)

end LuaSyntax.CommandLine

open LuaSyntax.CommandLine in
def main (arguments : List String) : IO UInt32 := do
  let outcome ← match Options.ofArguments arguments with
    | .error error => pure (Outcome.usage error)
    | .ok options => pure (options.check (← readSource options.path))
  IO.print outcome.stdout
  IO.eprint outcome.stderr
  return outcome.code
