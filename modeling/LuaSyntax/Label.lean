/-! # Failure labels

One label for each place where the grammar finds that something is missing or
malformed. A label has a symbolic name and a message; the table of labels has a fixed
order.
-/
namespace LuaSyntax

/-- What the source lacks where it fails to parse. -/
inductive Label where
  | trailingInput | statement
  | ifEnd | ifCondition | ifThen | elseifCondition | elseifThen
  | doEnd | whileCondition | whileDo | whileEnd | repeatUntil | repeatCondition
  | forName | forEnd | forStart | forComma | forLimit | forStep | forIn | forValues | forDo
  | localName | localFunctionName | localValues | assignmentValues
  | functionName | functionField | functionMethod | parametersOpen | parametersClose
  | functionEnd | parameter
  | labelName | labelClose | gotoLabel | returnValue
  | target | listValue
  | orOperand | andOperand | relationalOperand | bitOrOperand | bitXorOperand | bitAndOperand
  | shiftOperand | concatOperand | additiveOperand | multiplicativeOperand | unaryOperand
  | powerOperand
  | parenInner | parenClose | fieldName | indexKey | indexClose | methodName | methodArguments
  | argument | argumentsClose
  | tableClose | pairAssign | pairValue | pairKey | pairKeyClose
  | hexDigit | fractionDigit | exponentDigit
  | stringClose | hexEscape | codePointOpen | codePointDigit | codePointClose
  | codePointTooLarge | decimalEscape | escape | longBracketClose
  deriving DecidableEq, Repr, Inhabited

namespace Label

/-- Every label, in the order of the table. -/
def all : List Label := [
  .trailingInput, .statement, .ifEnd, .ifCondition, .ifThen, .elseifCondition, .elseifThen,
  .doEnd, .whileCondition, .whileDo, .whileEnd, .repeatUntil, .repeatCondition, .forName,
  .forEnd, .forStart, .forComma, .forLimit, .forStep, .forIn, .forValues, .forDo, .localName,
  .localFunctionName, .localValues, .assignmentValues, .functionName, .functionField,
  .functionMethod, .parametersOpen, .parametersClose, .functionEnd, .parameter, .labelName,
  .labelClose, .gotoLabel, .returnValue, .target, .listValue, .orOperand, .andOperand,
  .relationalOperand, .bitOrOperand, .bitXorOperand, .bitAndOperand, .shiftOperand,
  .concatOperand, .additiveOperand, .multiplicativeOperand, .unaryOperand, .powerOperand,
  .parenInner, .parenClose, .fieldName, .indexKey, .indexClose, .methodName, .methodArguments,
  .argument, .argumentsClose, .tableClose, .pairAssign, .pairValue, .pairKey, .pairKeyClose,
  .hexDigit, .fractionDigit, .exponentDigit, .stringClose, .hexEscape, .codePointOpen,
  .codePointDigit, .codePointClose, .codePointTooLarge, .decimalEscape, .escape,
  .longBracketClose]

def index (label : Label) : Nat := all.idxOf label

def name : Label → String
  | .trailingInput => "Extra"
  | .statement => "ExpStat"
  | .ifEnd => "EndIf"
  | .ifCondition => "ExprIf"
  | .ifThen => "ThenIf"
  | .elseifCondition => "ExprEIf"
  | .elseifThen => "ThenEIf"
  | .doEnd => "EndDo"
  | .whileCondition => "ExprWhile"
  | .whileDo => "DoWhile"
  | .whileEnd => "EndWhile"
  | .repeatUntil => "UntilRep"
  | .repeatCondition => "ExprRep"
  | .forName => "ForRange"
  | .forEnd => "EndFor"
  | .forStart => "ExprFor1"
  | .forComma => "CommaFor"
  | .forLimit => "ExprFor2"
  | .forStep => "ExprFor3"
  | .forIn => "InFor"
  | .forValues => "EListFor"
  | .forDo => "DoFor"
  | .localName => "DefLocal"
  | .localFunctionName => "NameLFunc"
  | .localValues => "EListLAssign"
  | .assignmentValues => "EListAssign"
  | .functionName => "FuncName"
  | .functionField => "NameFunc1"
  | .functionMethod => "NameFunc2"
  | .parametersOpen => "OParenPList"
  | .parametersClose => "CParenPList"
  | .functionEnd => "EndFunc"
  | .parameter => "ParList"
  | .labelName => "LabelName"
  | .labelClose => "CloseLabel"
  | .gotoLabel => "Goto"
  | .returnValue => "RetList"
  | .target => "VarList"
  | .listValue => "ExprList"
  | .orOperand => "OrExpr"
  | .andOperand => "AndExpr"
  | .relationalOperand => "RelExpr"
  | .bitOrOperand => "BOrExpr"
  | .bitXorOperand => "BXorExpr"
  | .bitAndOperand => "BAndExpr"
  | .shiftOperand => "ShiftExpr"
  | .concatOperand => "ConcatExpr"
  | .additiveOperand => "AddExpr"
  | .multiplicativeOperand => "MulExpr"
  | .unaryOperand => "UnaryExpr"
  | .powerOperand => "PowExpr"
  | .parenInner => "ExprParen"
  | .parenClose => "CParenExpr"
  | .fieldName => "NameIndex"
  | .indexKey => "ExprIndex"
  | .indexClose => "CBracketIndex"
  | .methodName => "NameMeth"
  | .methodArguments => "MethArgs"
  | .argument => "ArgList"
  | .argumentsClose => "CParenArgs"
  | .tableClose => "CBraceTable"
  | .pairAssign => "EqField"
  | .pairValue => "ExprField"
  | .pairKey => "ExprFKey"
  | .pairKeyClose => "CBracketFKey"
  | .hexDigit => "DigitHex"
  | .fractionDigit => "DigitDeci"
  | .exponentDigit => "DigitExpo"
  | .stringClose => "Quote"
  | .hexEscape => "HexEsc"
  | .codePointOpen => "OBraceUEsc"
  | .codePointDigit => "DigitUEsc"
  | .codePointClose => "CBraceUEsc"
  | .codePointTooLarge => "UEscTooLarge"
  | .decimalEscape => "DecEsc"
  | .escape => "EscSeq"
  | .longBracketClose => "CloseLStr"

def message : Label → String
  | .trailingInput => "unexpected character(s), expected EOF"
  | .statement => "unexpected token, invalid start of statement"
  | .ifEnd => "expected 'end' to close the if statement"
  | .ifCondition => "expected a condition after 'if'"
  | .ifThen => "expected 'then' after the condition"
  | .elseifCondition => "expected a condition after 'elseif'"
  | .elseifThen => "expected 'then' after the condition"
  | .doEnd => "expected 'end' to close the do block"
  | .whileCondition => "expected a condition after 'while'"
  | .whileDo => "expected 'do' after the condition"
  | .whileEnd => "expected 'end' to close the while loop"
  | .repeatUntil => "expected 'until' at the end of the repeat loop"
  | .repeatCondition => "expected a condition after 'until'"
  | .forName => "expected a numeric or generic range after 'for'"
  | .forEnd => "expected 'end' to close the for loop"
  | .forStart => "expected a starting expression for the numeric range"
  | .forComma => "expected ',' to split the start and end of the range"
  | .forLimit => "expected an ending expression for the numeric range"
  | .forStep => "expected a step expression for the numeric range after ','"
  | .forIn => "expected '=' or 'in' after the variable(s)"
  | .forValues => "expected one or more expressions after 'in'"
  | .forDo => "expected 'do' after the range of the for loop"
  | .localName => "expected a function definition or assignment after local"
  | .localFunctionName => "expected a function name after 'function'"
  | .localValues => "expected one or more expressions after '='"
  | .assignmentValues => "expected one or more expressions after '='"
  | .functionName => "expected a function name after 'function'"
  | .functionField => "expected a function name after '.'"
  | .functionMethod => "expected a method name after ':'"
  | .parametersOpen => "expected '(' for the parameter list"
  | .parametersClose => "expected ')' to close the parameter list"
  | .functionEnd => "expected 'end' to close the function body"
  | .parameter => "expected a variable name or '...' after ','"
  | .labelName => "expected a label name after '::'"
  | .labelClose => "expected '::' after the label"
  | .gotoLabel => "expected a label after 'goto'"
  | .returnValue => "expected an expression after ',' in the return statement"
  | .target => "expected a variable name after ','"
  | .listValue => "expected an expression after ','"
  | .orOperand => "expected an expression after 'or'"
  | .andOperand => "expected an expression after 'and'"
  | .relationalOperand => "expected an expression after the relational operator"
  | .bitOrOperand => "expected an expression after '|'"
  | .bitXorOperand => "expected an expression after '~'"
  | .bitAndOperand => "expected an expression after '&'"
  | .shiftOperand => "expected an expression after the bit shift"
  | .concatOperand => "expected an expression after '..'"
  | .additiveOperand => "expected an expression after the additive operator"
  | .multiplicativeOperand => "expected an expression after the multiplicative operator"
  | .unaryOperand => "expected an expression after the unary operator"
  | .powerOperand => "expected an expression after '^'"
  | .parenInner => "expected an expression after '('"
  | .parenClose => "expected ')' to close the expression"
  | .fieldName => "expected a field name after '.'"
  | .indexKey => "expected an expression after '['"
  | .indexClose => "expected ']' to close the indexing expression"
  | .methodName => "expected a method name after ':'"
  | .methodArguments => "expected some arguments for the method call (or '()')"
  | .argument => "expected an expression after ',' in the argument list"
  | .argumentsClose => "expected ')' to close the argument list"
  | .tableClose => "expected '\x7d' to close the table constructor"
  | .pairAssign => "expected '=' after the table key"
  | .pairValue => "expected an expression after '='"
  | .pairKey => "expected an expression after '[' for the table key"
  | .pairKeyClose => "expected ']' to close the table key"
  | .hexDigit => "expected one or more hexadecimal digits after '0x'"
  | .fractionDigit => "expected one or more digits after the decimal point"
  | .exponentDigit => "expected one or more digits for the exponent"
  | .stringClose => "unclosed string"
  | .hexEscape => "expected exactly two hexadecimal digits after '\\x'"
  | .codePointOpen => "expected '\x7b' after '\\u'"
  | .codePointDigit => "expected one or more hexadecimal digits for the UTF-8 code point"
  | .codePointClose => "expected '\x7d' after the code point"
  | .codePointTooLarge => "UTF-8 value too large"
  | .decimalEscape => "decimal escape too large"
  | .escape => "invalid escape sequence"
  | .longBracketClose => "unclosed long string"

def ofName? (text : String) : Option Label := all.find? (·.name == text)

end Label

end LuaSyntax
