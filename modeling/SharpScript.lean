import SharpScript.Command.Arguments
import SharpScript.Command.Folder
import SharpScript.Command.Run
import SharpScript.Json.Value
import SharpScript.Json.Write
import SharpScript.Main
import SharpScript.Parser.Attribute
import SharpScript.Parser.Basic
import SharpScript.Parser.Bracket
import SharpScript.Parser.Declaration
import SharpScript.Parser.Failure
import SharpScript.Parser.Member
import SharpScript.Parser.Session
import SharpScript.Parser.Skip
import SharpScript.Parser.Source
import SharpScript.Parser.Statement
import SharpScript.Script.Declaration
import SharpScript.Script.Equality
import SharpScript.Script.Fragment
import SharpScript.Script.Marker
import SharpScript.Script.Member
import SharpScript.Script.Program
import SharpScript.Script.Replacement
import SharpScript.Text.CharSet
import SharpScript.Text.Identifier
import SharpScript.Text.Letter
import SharpScript.Text.Printable
import SharpScript.Text.Quoted
import SharpScript.Text.Trim
import SharpScript.Text.Word
import SharpScript.Token.Basic
import SharpScript.Token.Display
import SharpScript.Token.Fault
import SharpScript.Token.Lexer
import SharpScript.Token.Literal
import SharpScript.Token.Number
import SharpScript.Token.Place
import SharpScript.Token.Trivia
import SharpScript.Token.Vocabulary
import SharpScript.Tree.Basic
import SharpScript.Tree.Declares
import SharpScript.Tree.Dump
import SharpScript.Proofs.Lexer.Boundary
import SharpScript.Proofs.Lexer.Cut
import SharpScript.Proofs.Lexer.Lexeme
import SharpScript.Proofs.Lexer.Slice
import SharpScript.Proofs.Lexer.Spans
import SharpScript.Proofs.Lexer.LineBreaks
import SharpScript.Proofs.Parser.Lookahead
import SharpScript.Proofs.Parser.Nesting
import SharpScript.Proofs.Parser.Comparison
import SharpScript.Proofs.Parser.Skip
import SharpScript.Proofs.Tree.Agreement
import SharpScript.Proofs.Parser.Member
import SharpScript.Proofs.Parser.Declaration
import SharpScript.Proofs.Lexer.Join
import SharpScript.Proofs.Layout
import SharpScript.Proofs.Parser.Runs
import SharpScript.Proofs.Parser.Entry
import SharpScript.Proofs.Script.Writing
import SharpScript.Proofs.Concatenation
import SharpScript.Proofs.Lexer.Lines
import SharpScript.Proofs.Printing.Printer
import SharpScript.Proofs.Parser.Yields
import SharpScript.Proofs.Printing.Locality
import SharpScript.Proofs.Printing.Texts
import SharpScript.Proofs.Printing.Members
import SharpScript.Proofs.Printing.Declarations
import SharpScript.Proofs.Printing.RoundTrip
import SharpScript.Proofs.Tree.Quotes
import SharpScript.Proofs.Parser.Passage
import SharpScript.Proofs.Parser.Reading
import SharpScript.Proofs.Parser.ReadingDeclarations
import SharpScript.Proofs.WellNested
import SharpScript.Proofs.Citation
import SharpScript.Proofs.Lexer.Padding
import SharpScript.Proofs.Lexer.PaddedCut
import SharpScript.Proofs.Lexer.Clean
import SharpScript.Proofs.CleanScript
import SharpScript.Proofs.Script.Exclusion
import SharpScript.Proofs.Compilation
import SharpScript.Proofs.Parser.Progress
import SharpScript.Proofs.Parser.Termination
import SharpScript.Proofs.Pipeline
import SharpScript.Proofs.AllOrNothing
import SharpScript.Proofs.Json.Grammar
import SharpScript.Proofs.Json.Decoder
import SharpScript.Proofs.Json.Writing
import SharpScript.Proofs.Tree.Lossless
import SharpScript.Proofs.Parser.Outlook
import SharpScript.Proofs.Splitting
import SharpScript.Proofs.Lexer.Respacing
import SharpScript.Proofs.Lexer.ByteOrderMark
import SharpScript.Proofs.Script.EntryPoints
import SharpScript.Proofs.Parser.Renaming
import SharpScript.Proofs.Tree.Renaming
import SharpScript.Proofs.Parser.RenamedRules
import SharpScript.Proofs.EscapedWords
import SharpScript.Proofs.Script.WholeWords
import SharpScript.Proofs.Parser.Groups
import SharpScript.Proofs.Parser.SimpleStatement
import SharpScript.Proofs.StatementGrammar
import SharpScript.Proofs.Blocks
import SharpScript.Proofs.Script.StrictComparisons
import SharpScript.Proofs.Script.PassOrder
import SharpScript.Proofs.Parser.PrimitiveGroups
import SharpScript.Proofs.Parser.ExpressionEnds
import SharpScript.Proofs.Lexer.Spells
import SharpScript.Proofs.Types.Syntax
import SharpScript.Proofs.Types.Opening
import SharpScript.Proofs.Types.Reading
import SharpScript.Proofs.Types.Text
import SharpScript.Proofs.Fields.Variables
import SharpScript.Proofs.Fields.Members
import SharpScript.Proofs.Parser.Occurrences
import SharpScript.Proofs.Fields.Tiling
import SharpScript.Proofs.Fields.TypeArguments
import SharpScript.Proofs.LocalFunctions
import SharpScript.Proofs.Lexer.VerbatimStrings
import SharpScript.Proofs.Lexer.InterpolatedStrings
import SharpScript.Proofs.Parser.BareItems
import SharpScript.Proofs.GlobalAttributes
import SharpScript.Proofs.ExplicitInterfaces
import SharpScript.Proofs.Lexer.Positions
import SharpScript.Proofs.Script.InlineOverrides
