import LuaSyntax.Bytes

/-! # A directory of files

What reading a path gives in a directory that holds files and no directories. Nothing
is known of what lies outside it.
-/
namespace LuaSyntax.CommandLine

/-- Why a source could not be read. -/
inductive ReadError where
  | notFound
  | notDirectory
  | isDirectory
  | invalidText
  | other (reason : String)
  deriving DecidableEq, Repr

def ReadError.reason : ReadError → String
  | .notFound => "No such file or directory (os error 2)"
  | .notDirectory => "Not a directory (os error 20)"
  | .isDirectory => "Is a directory (os error 21)"
  | .invalidText => "stream did not contain valid UTF-8"
  | .other reason => reason

/-- Files with their names. -/
abbrev Directory := List (String × Bytes)

namespace Directory

/-- Follow the components of a path. -/
def follow (directory : Directory) : List String → Except ReadError Bytes
  | [] => .error .isDirectory
  | component :: rest =>
    if component = "" || component = "." then directory.follow rest
    else if component = ".." then follow [] rest
    else match directory.lookup component with
      | none => .error .notFound
      | some content => if rest.isEmpty then .ok content else .error .notDirectory

def read (directory : Directory) (path : String) : Except ReadError Bytes :=
  if path = "" then .error .notFound
  else if path.toList.head? == some '/' then follow [] (path.splitOn "/")
  else directory.follow (path.splitOn "/")

end Directory

end LuaSyntax.CommandLine
