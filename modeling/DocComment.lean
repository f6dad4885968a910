import DocComment.Encoding.Comment
import DocComment.Proofs.Grammar
import DocComment.Proofs.Token.Sequence
import DocComment.Proofs.Token.Place
import DocComment.Proofs.Token.Locality
import DocComment.Proofs.Parser.Reading
import DocComment.Proofs.Parser.Rules
import DocComment.Proofs.Grammar.Simulation
import DocComment.Proofs.Parser.Acceptance
import DocComment.Proofs.Parser.Following
import DocComment.Proofs.Parser.Nesting
import DocComment.Proofs.Parser.TokenReader
import DocComment.Proofs.Parser.Parallel
import DocComment.Proofs.Parser.Commitment
import DocComment.Proofs.Parser.Part
import DocComment.Proofs.Parser.Midstream
import DocComment.Proofs.Number.ReadBack
import DocComment.Proofs.Token.Spelling
import DocComment.Proofs.Token.Braces
import DocComment.Proofs.Grammar.Nodes
import DocComment.Proofs.Grammar.Braces
import DocComment.Proofs.Printer.Lexemes
import DocComment.Proofs.Printer.Reread
import DocComment.Proofs.Printer.ReadBack
import DocComment.Proofs.Printer.Brackets
import DocComment.Proofs.Printer.RoundTrip
import DocComment.Proofs.Printer.Formatting
import DocComment.Proofs.Excerpt.Place
import DocComment.Proofs.TypeExpr.Spans
import DocComment.Proofs.TypeExpr.Shape
import DocComment.Proofs.TypeExpr.Order
import DocComment.Proofs.TypeExpr.Ranges
import DocComment.Proofs.TypeExpr.Alone
import DocComment.Proofs.Wrapping
import DocComment.Proofs.Block
import DocComment.Proofs.Tag.Reading
import DocComment.Proofs.Tag.Relocation
import DocComment.Proofs.Tag.Shift
import DocComment.Proofs.Tag.Braces
import DocComment.Proofs.Comment.Blocks
import DocComment.Proofs.Comment.Policies
import DocComment.Proofs.Comment.Starts
import DocComment.Proofs.Comment.Independence
import DocComment.Proofs.Comment.Presentation
import DocComment.Proofs.Comment.Ranges
import DocComment.Proofs.Comment.Collecting
import DocComment.Proofs.Comment.Lines
import DocComment.Proofs.Comment.Names
import DocComment.Proofs.Encoding
import DocComment.Proofs.Parser.Outcome
import DocComment.Proofs.TypeExpr.Unclosed
import DocComment.Proofs.Offset.Blocks
import DocComment.Proofs.Offset.Body
import DocComment.Proofs.Offset.Comment
import DocComment.Proofs.Offset.Nesting
import DocComment.Proofs.Offset
import DocComment.Proofs.TypeExpr.Height
import DocComment.Proofs.Wrapping.Wrap
import DocComment.Proofs.TypeExpr.Spacing
import DocComment.Proofs.Excerpt.Bytes
import DocComment.Proofs.Wrapping.Table
import DocComment.Proofs.Comment.LineNumbers
import DocComment.Proofs.Comment.Validity
import DocComment.Proofs.Comment.Sloppy
import DocComment.Proofs.Comment.Defaults
import DocComment.Proofs.Token.Partition
import DocComment.Proofs.Token.Literals
import DocComment.Proofs.Printer.Quoting
import DocComment.Proofs.Token.Session
import DocComment.Proofs.Parser.Fuel
import DocComment.Proofs.Offset.Confined
import DocComment.Proofs.Offset.Rounds
