import LuaSyntax.CommandLine.Options
import LuaSyntax.CommandLine.Directory
import LuaSyntax.Lines

/-! # The command

Check a source for syntax errors: report the number of its statements or list its
executable lines, or tell on standard error why there is nothing to report.
-/
namespace LuaSyntax.CommandLine

/-- What the command prints, and its exit code. -/
structure Outcome where
  code : UInt32
  stdout : String
  stderr : String
  deriving DecidableEq, Repr

/-- Texts as lines of their own. -/
def unlines (texts : List String) : String := String.join (texts.map (· ++ "\n"))

namespace Outcome

def success (texts : List String) : Outcome := ⟨0, unlines texts, ""⟩

def failure (text : String) : Outcome := ⟨1, "", unlines [text]⟩

def usage (error : UsageError) : Outcome := ⟨2, "", unlines [
  s!"Error: {error.message}",
  "",
  "Usage: luaparse <file.lua | -> [--max-depth N] [--lines]",
  "",
  "Options:",
  s!"  --max-depth N   Deepest allowed nesting (default {defaultLimit})",
  "  --lines         Print the executable lines instead of a summary"]⟩

end Outcome

/-- Report on a tree that was parsed from a source. -/
def report (lines : Bool) (root : Node) (source : Bytes) : Outcome :=
  if lines then .success ((executableLines root source).sorted.map toString)
  else .success [s!"ok: {root.children.length} statements"]

namespace Options

/-- The name of the source in parse errors. -/
def filename (options : Options) : String :=
  if options.path = "-" then "stdin" else options.path

/-- Check a source, given what reading it gave. -/
def check (options : Options) (content : Except ReadError Bytes) : Outcome :=
  let unreadable (error : ReadError) := Outcome.failure s!"{options.path}: {error.reason}"
  match content with
  | .error error => unreadable error
  | .ok source =>
    if source.decode?.isNone then unreadable .invalidText
    else match parse source options.limit options.filename with
      | .ok root => report options.lines root source
      | .error error => .failure error.message

end Options

/-- Run the command in a directory, with bytes on standard input. -/
def run (directory : Directory) (stdin : Bytes) (arguments : List String) : Outcome :=
  match Options.ofArguments arguments with
  | .error error => .usage error
  | .ok options =>
    options.check (if options.path = "-" then .ok stdin else directory.read options.path)

end LuaSyntax.CommandLine
