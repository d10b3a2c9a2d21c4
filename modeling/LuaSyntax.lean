import LuaSyntax.Node.Preorder
import LuaSyntax.Main
import LuaSyntax.Proofs.Outcome.Rule
import LuaSyntax.Proofs.Outcome.Scan
import LuaSyntax.Proofs.Repetition
import LuaSyntax.Proofs.Literal.LongBracket
import LuaSyntax.Proofs.Literal.Numeral
import LuaSyntax.Proofs.Literal.Quoted
import LuaSyntax.Proofs.Trivia
import LuaSyntax.Proofs.Progress.Grammar
import LuaSyntax.Proofs.Lexeme.Basic
import LuaSyntax.Proofs.Lexeme.Front
import LuaSyntax.Proofs.Phrase.Follows
import LuaSyntax.Proofs.Phrase.Terminal
import LuaSyntax.Proofs.Phrase.Operator
import LuaSyntax.Proofs.Phrase.Nested
import LuaSyntax.Proofs.Phrase.Function
import LuaSyntax.Proofs.Phrase.Expression
import LuaSyntax.Proofs.Phrase.Statement
import LuaSyntax.Proofs.Phrase.Chunk
import LuaSyntax.Proofs.Layout
import LuaSyntax.Proofs.Span.Order
import LuaSyntax.Proofs.Span.Expression
import LuaSyntax.Proofs.Span.Statement
import LuaSyntax.Proofs.Operator.Rank
import LuaSyntax.Proofs.Operator.Unique
import LuaSyntax.Proofs.Shape.Basic
import LuaSyntax.Proofs.Shape.Phrase
import LuaSyntax.Proofs.Shape.WellFormed
import LuaSyntax.Proofs.Operator.Parsed
import LuaSyntax.Proofs.Print.Tokens
import LuaSyntax.Proofs.Respan
import LuaSyntax.Proofs.Print.Spells
import LuaSyntax.Proofs.Print.Expression
import LuaSyntax.Proofs.Limit.Chunk
import LuaSyntax.Proofs.Need.Chunk
import LuaSyntax.Proofs.Excerpt.Chunk
import LuaSyntax.Proofs.Print.Chunk
import LuaSyntax.Proofs.Span.Sibling
import LuaSyntax.Proofs.Span.Gap
import LuaSyntax.Proofs.Excerpt.Relaid
import LuaSyntax.Proofs.Shift.Joined
import LuaSyntax.Proofs.Limit.Depth
import LuaSyntax.Proofs.Session.Blank
import LuaSyntax.Proofs.Session.Settle
import LuaSyntax.Proofs.DoubleEquals
import LuaSyntax.Proofs.Outcome.Failure
import LuaSyntax.Proofs.Rescan.Numeral
import LuaSyntax.Proofs.Rescan.Quoted
import LuaSyntax.Proofs.Span.EmptyBlock
import LuaSyntax.Proofs.Sugar.Exact
import LuaSyntax.Proofs.Rescan.CodePoint
import LuaSyntax.Proofs.Rescan.Skip
import LuaSyntax.Proofs.Rescan.Number
import LuaSyntax.Proofs.Boundary
import LuaSyntax.Proofs.Viable.Chunk
import LuaSyntax.Proofs.Preorder
import LuaSyntax.Proofs.Executable
import LuaSyntax.Proofs.CommandLine.Arguments
import LuaSyntax.Proofs.View.Equality
import LuaSyntax.Proofs.Progress.Depth
import LuaSyntax.Proofs.Lexeme.Word
import LuaSyntax.Proofs.Alternative
import LuaSyntax.Proofs.Keep.Rest
