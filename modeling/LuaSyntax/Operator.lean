/-! # Operators

Binary and unary operators with their spellings.
-/
namespace LuaSyntax

inductive BinaryOp where
  | or | and
  | eq | ne | lt | le | gt | ge
  | bitOr | bitXor | bitAnd | shiftLeft | shiftRight
  | concat
  | add | sub | mul | div | floorDiv | mod | pow
  deriving DecidableEq, Repr

inductive UnaryOp where
  | not | negate | length | bitNot
  deriving DecidableEq, Repr

/-- The operator as written in source. -/
def BinaryOp.text : BinaryOp → String
  | .or => "or"
  | .and => "and"
  | .eq => "=="
  | .ne => "~="
  | .lt => "<"
  | .le => "<="
  | .gt => ">"
  | .ge => ">="
  | .bitOr => "|"
  | .bitXor => "~"
  | .bitAnd => "&"
  | .shiftLeft => "<<"
  | .shiftRight => ">>"
  | .concat => ".."
  | .add => "+"
  | .sub => "-"
  | .mul => "*"
  | .div => "/"
  | .floorDiv => "//"
  | .mod => "%"
  | .pow => "^"

/-- The operator as written in source. -/
def UnaryOp.text : UnaryOp → String
  | .not => "not"
  | .negate => "-"
  | .length => "#"
  | .bitNot => "~"

end LuaSyntax
