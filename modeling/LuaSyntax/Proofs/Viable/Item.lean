import LuaSyntax.Proofs.Keep.Seam
import LuaSyntax.Session

/-! # What a failure asks for

A failure names what the source lacks at its offset. A text is viable if a source that parses begins with
it.
-/
namespace LuaSyntax

/-- Some source that begins with the text, and goes on in ASCII, parses under a limit that is high enough. -/
def Viable (text : Bytes) : Prop :=
  ∃ rest, (∀ b ∈ rest, isAscii b) ∧ ∃ limit filename root, parse (text ++ rest) limit filename = .ok root

/-- What may be put where a label names an item that is missing: a reserved word, a symbol, the expression
`nil` or a name on a new line; digits, a brace, a quote or a long bracket on a new line within a token.
Where no item is missing, that is the empty text. Nothing can be put where the source goes on too long. -/
def Label.Asks (label : Label) (item : Bytes) : Prop :=
  match label with
  | .ifEnd | .doEnd | .whileEnd | .forEnd | .functionEnd => item = lineFeed :: Bytes.ofString "end"
  | .ifThen | .elseifThen => item = lineFeed :: Bytes.ofString "then"
  | .whileDo | .forDo => item = lineFeed :: Bytes.ofString "do"
  | .repeatUntil => item = lineFeed :: Bytes.ofString "until"
  | .forIn => item = lineFeed :: Bytes.ofString "in"
  | .forComma => item = lineFeed :: Bytes.ofString ","
  | .parametersOpen => item = lineFeed :: Bytes.ofString "("
  | .parametersClose | .parenClose | .argumentsClose => item = lineFeed :: Bytes.ofString ")"
  | .indexClose | .pairKeyClose => item = lineFeed :: Bytes.ofString "]"
  | .tableClose => item = lineFeed :: Bytes.ofString "\x7d"
  | .pairAssign => item = lineFeed :: Bytes.ofString "="
  | .labelClose => item = lineFeed :: Bytes.ofString "::"
  | .methodArguments => item = lineFeed :: Bytes.ofString "()"
  | .ifCondition | .elseifCondition | .whileCondition | .repeatCondition | .forStart | .forLimit | .forStep
  | .forValues | .localValues | .assignmentValues | .returnValue | .listValue | .orOperand | .andOperand
  | .relationalOperand | .bitOrOperand | .bitXorOperand | .bitAndOperand | .shiftOperand | .concatOperand
  | .additiveOperand | .multiplicativeOperand | .unaryOperand | .powerOperand | .parenInner | .indexKey
  | .argument | .pairValue | .pairKey => item = lineFeed :: Bytes.ofString "nil"
  | .forName | .localName | .localFunctionName | .functionName | .functionField | .functionMethod | .parameter
  | .labelName | .gotoLabel | .target | .fieldName | .methodName =>
    ∃ text, Identifier text ∧ item = lineFeed :: text
  | .hexDigit | .codePointDigit => ∃ b, isHexDigit b ∧ item = [b]
  | .fractionDigit | .exponentDigit => ∃ b, isDigit b ∧ item = [b]
  | .hexEscape => ∃ high low, isHexDigit high ∧ isHexDigit low ∧ item = [high, low]
  | .codePointOpen => item = [openBrace]
  | .codePointClose => item = [closeBrace]
  | .stringClose => ∃ quote, (quote = '"'.toUInt8 ∨ quote = '\''.toUInt8) ∧ item = [quote]
  | .longBracketClose => ∃ level, item = lineFeed :: LongBracket.closing level
  | .statement | .codePointTooLarge | .decimalEscape | .escape => item = []
  | .trailingInput => False

/-- A closing bracket is ASCII. -/
theorem LongBracket.isAscii_closing (level : Nat) : ∀ b ∈ closing level, isAscii b := by
  have hequals : ∀ b ∈ List.replicate level '='.toUInt8, isAscii b := by
    intro b hb
    obtain rfl := List.eq_of_mem_replicate hb
    rfl
  exact List.forall_mem_cons.mpr ⟨rfl, List.forall_mem_append.mpr ⟨hequals, List.forall_mem_singleton.mpr rfl⟩⟩

/-- A label asks for something, and whatever it asks for is of some kind. -/
structure Label.Served (label : Label) (P : Bytes → Prop) : Prop where
  asks : ∃ item, label.Asks item
  all : ∀ item, label.Asks item → P item

theorem Label.Served.mono {label : Label} {P P' : Bytes → Prop} (h : label.Served P) (hP : ∀ item, P item → P' item) :
    label.Served P' :=
  ⟨h.asks, fun item hitem => hP item (h.all item hitem)⟩

/-- Whatever a label asks for is ASCII. -/
theorem Label.Asks.isAscii {label : Label} {item : Bytes} (h : label.Asks item) : ∀ b ∈ item, isAscii b := by
  have hname (text : Bytes) (htext : Identifier text) : ∀ b ∈ lineFeed :: text, LuaSyntax.isAscii b :=
    List.forall_mem_cons.mpr ⟨rfl, fun b hb => isAscii_of_isNamePart (htext.parts b hb)⟩
  cases label
  case hexDigit | codePointDigit =>
    obtain ⟨b, hb, rfl⟩ := h
    exact List.forall_mem_singleton.mpr (isAscii_of_isHexDigit hb)
  case fractionDigit | exponentDigit =>
    obtain ⟨b, hb, rfl⟩ := h
    exact List.forall_mem_singleton.mpr (isAscii_of_isDigit hb)
  case hexEscape =>
    obtain ⟨high, low, hhigh, hlow, rfl⟩ := h
    exact List.forall_mem_cons.mpr ⟨isAscii_of_isHexDigit hhigh, List.forall_mem_singleton.mpr (isAscii_of_isHexDigit hlow)⟩
  case stringClose =>
    obtain ⟨quote, hq, rfl⟩ := h
    exact List.forall_mem_singleton.mpr (isAscii_quote hq)
  case longBracketClose =>
    obtain ⟨level, rfl⟩ := h
    exact List.forall_mem_cons.mpr ⟨rfl, LongBracket.isAscii_closing level⟩
  case trailingInput => exact h.elim
  case forName | localName | localFunctionName | functionName | functionField | functionMethod | parameter | labelName
    | gotoLabel | target | fieldName | methodName =>
    obtain ⟨text, htext, rfl⟩ := h
    exact hname text htext
  all_goals
    obtain rfl := h
    exact List.all_eq_true.mp rfl

theorem Viable.of_append {text item : Bytes} (h : Viable (text ++ item)) (hitem : ∀ b ∈ item, isAscii b) :
    Viable text := by
  obtain ⟨rest, hrest, limit, filename, root, h⟩ := h
  rw [List.append_assoc] at h
  exact ⟨item ++ rest, List.forall_mem_append.mpr ⟨hitem, hrest⟩, limit, filename, root, h⟩

end LuaSyntax
