import LuaSyntax.ParseError
import LuaSyntax.Iterate

/-! # Scanning

A place is what is left of the source and how many bytes came before it. A scan reads
on from a place, or fails; the scans of tokens and comments are built from the few
below.
-/
namespace LuaSyntax

structure Place where
  rest : Bytes
  offset : Nat
  deriving DecidableEq, Repr

namespace Place

def advance (place : Place) (count : Nat) : Place :=
  ⟨place.rest.drop count, place.offset + count⟩

def sourceEnd (place : Place) : Nat := place.offset + place.rest.length

end Place

/-- A computation that reads bytes from a place. -/
abbrev Scan := StateT Place (Except Failure)

namespace Scan

def failAt {α : Type} (label : Label) (offset : Nat) : Scan α :=
  throw (.expected label offset)

def fail {α : Type} (label : Label) : Scan α := do
  failAt label (← get).offset

def rest : Scan Bytes := do return (← get).rest

def advance (count : Nat) : Scan Unit := modify (·.advance count)

/-- The longest run of bytes of a class. -/
def takeWhile (p : UInt8 → Bool) : Scan Bytes := do
  let place ← get
  let run := place.rest.takeWhile p
  set (place.advance run.length)
  return run

/-- Take steps until one declines. -/
@[specialize]
def iterate {α : Type} (step : α → Scan (Option α)) (value : α) : Scan α := do
  iterateWithin step (← rest) value

end Scan

end LuaSyntax
