import LuaSyntax.Session

/-! # Command-line options

Arguments are read from left to right: two options and exactly one path. A path is any
argument that does not start with a dash, or a dash alone for standard input. The last
of several nesting limits counts.
-/
namespace LuaSyntax.CommandLine

structure Options where
  path : String
  limit : Nat
  lines : Bool
  deriving DecidableEq, Repr

/-- Why arguments are no options. -/
inductive UsageError where
  | missingDepth
  | invalidDepth (value : String)
  | unknownOption (argument : String)
  | unexpectedArgument (argument : String)
  | missingPath
  deriving DecidableEq, Repr

def UsageError.message : UsageError → String
  | .missingDepth => "--max-depth needs a value"
  | .invalidDepth value => s!"invalid nesting depth '{value}'"
  | .unknownOption argument => s!"unknown option '{argument}'"
  | .unexpectedArgument argument => s!"unexpected argument '{argument}'"
  | .missingPath => "no input file provided"

/-- A positive decimal number of 64 bits, with at most one plus sign before it. -/
def depth? (value : String) : Option Nat :=
  let digits := match value.toList with
    | '+' :: digits => digits
    | digits => digits
  let depth := digits.foldl (fun depth c => depth * 10 + (c.toNat - '0'.toNat)) 0
  if !digits.isEmpty && digits.all Char.isDigit && 0 < depth && depth < UInt64.size then some depth
  else none

/-- Arguments that start with a dash are options, except a dash alone. -/
def isOption (argument : String) : Bool :=
  argument.toList.head? == some '-' && argument != "-"

/-- Read arguments after those already read. -/
def readFrom (path : Option String) (limit : Nat) (lines : Bool) :
    List String → Except UsageError Options
  | [] =>
    match path with
    | some path => .ok ⟨path, limit, lines⟩
    | none => .error .missingPath
  | argument :: rest =>
    if argument = "--lines" then readFrom path limit true rest
    else if argument = "--max-depth" then
      match rest with
      | [] => .error .missingDepth
      | value :: rest =>
        match depth? value with
        | some limit => readFrom path limit lines rest
        | none => .error (.invalidDepth value)
    else if isOption argument then .error (.unknownOption argument)
    else if path.isSome then .error (.unexpectedArgument argument)
    else readFrom (some argument) limit lines rest

def Options.ofArguments (arguments : List String) : Except UsageError Options :=
  readFrom none defaultLimit false arguments

end LuaSyntax.CommandLine
