import FrontEnd.OrderedMap.Printer
import FrontEnd.Source.Reader
import FrontEnd.Main
import FrontEnd.Proofs.Except
import FrontEnd.Proofs.OrderedMap.Slots
import FrontEnd.Proofs.OrderedMap.WellFormed
import FrontEnd.Proofs.OrderedMap.Insertion
import FrontEnd.Proofs.OrderedMap.Refinement
import FrontEnd.Proofs.Interner
import FrontEnd.Proofs.Lexical.Grammar
import FrontEnd.Proofs.Lexical.Literal
import FrontEnd.Proofs.Text.Utf8
import FrontEnd.Proofs.Lexical.Comment
import FrontEnd.Proofs.Lexical.Lexeme
import FrontEnd.Proofs.Lexical.Piece
import FrontEnd.Proofs.Lexical.Text
import FrontEnd.Proofs.Lexical.LineFeed
import FrontEnd.Proofs.Lexical.Layout
import FrontEnd.Proofs.Lexical.Tokens
import FrontEnd.Proofs.Lexical.Counts
import FrontEnd.Proofs.Lexical.Lines
import FrontEnd.Proofs.Lexical.Moves
import FrontEnd.Proofs.Lexical.Readings
import FrontEnd.Proofs.Lexical.Positions
import FrontEnd.Proofs.Lexical.Faults
import FrontEnd.Proofs.Lexical.Limits
import FrontEnd.Proofs.Lexical.DigitWords
import FrontEnd.Proofs.Lexical.Rendering
import FrontEnd.Proofs.CompilationUnit.Growth
import FrontEnd.Proofs.CompilationUnit.Sizes
import FrontEnd.Proofs.CompilationUnit.Operations
import FrontEnd.Proofs.Scopes
import FrontEnd.Proofs.CompilationUnit.Trails
import FrontEnd.Proofs.CompilationUnit.Types
import FrontEnd.Proofs.Typing.Findings
import FrontEnd.Proofs.Typing.Sound
import FrontEnd.Proofs.Typing.ConstantForms
import FrontEnd.Proofs.Typing.DenotedTypes
import FrontEnd.Proofs.Typing.Questions
import FrontEnd.Proofs.Typing.ExpressionTypes
import FrontEnd.Proofs.Typing.Frames
import FrontEnd.Proofs.Typing.Items
import FrontEnd.Proofs.Typing.Preludes
import FrontEnd.Proofs.Typing.Resumption
import FrontEnd.Proofs.Session
import FrontEnd.Proofs.Typing.SharedReturns
import FrontEnd.Proofs.Grammar.Item
import FrontEnd.Proofs.Grammar.Sentences
import FrontEnd.Proofs.Grammar.Parsing
import FrontEnd.Proofs.Binding
import FrontEnd.Proofs.ConstantReferents
import FrontEnd.Proofs.Typing.SpelledTypes
import FrontEnd.Proofs.Typing.ParsedItems
import FrontEnd.Proofs.CompilationUnit.Listing
import FrontEnd.Proofs.Grammar.SourceTokens
import FrontEnd.Proofs.Grammar.Sizes
import FrontEnd.Proofs.Typing.Answers
import FrontEnd.Proofs.UnboundItems
import FrontEnd.Proofs.Phases
import FrontEnd.Proofs.CommandLine.Run
import FrontEnd.Proofs.Typing.Stripped
import FrontEnd.Proofs.BindingFrame
import FrontEnd.Proofs.Typing.Repetition
import FrontEnd.Proofs.SessionItems
import FrontEnd.Proofs.RepeatedChecks
import FrontEnd.Proofs.Typing.Mismatches
import FrontEnd.Proofs.Commuting
import FrontEnd.Proofs.Rejections
import FrontEnd.Proofs.CommandLine.Failures
import FrontEnd.Proofs.CommandLine.Flags
import FrontEnd.Proofs.Grammar.Names
import FrontEnd.Proofs.Coherence.Units
import FrontEnd.Proofs.Coherence.Questions
import FrontEnd.Proofs.Coherence.Items
import FrontEnd.Proofs.Coherence.Runs
import FrontEnd.Proofs.Typing.Reports
import FrontEnd.Proofs.Typing.ItemReports
import FrontEnd.Proofs.IndependentChecks
import FrontEnd.Proofs.Grammar.Prefixes
import FrontEnd.Proofs.Grammar.SourceErrors
import FrontEnd.Proofs.CompilationUnit.Naming
import FrontEnd.Proofs.CommandLine.Streams
import FrontEnd.Proofs.Scopes.Refinement
import FrontEnd.Proofs.Resolution
import FrontEnd.Proofs.Typing.Substitution
import FrontEnd.Proofs.Evaluations
import FrontEnd.Proofs.TypeNames
import FrontEnd.Proofs.Denotations
import FrontEnd.Proofs.Dialogues
import FrontEnd.Proofs.Text.Utf8Forms
import FrontEnd.Proofs.Text.Utf8Words
import FrontEnd.Proofs.Lexical.Nesting
import FrontEnd.Proofs.Lexical.CommentMarks
import FrontEnd.Proofs.Lexical.Onward
import FrontEnd.Proofs.Scanner.Basic
import FrontEnd.Proofs.Scanner.Padding
import FrontEnd.Proofs.Scanner.Placed
import FrontEnd.Proofs.Scanner.Comments
import FrontEnd.Proofs.Scanner.Words
import FrontEnd.Proofs.Scanner.Symbols
import FrontEnd.Proofs.Scanner.Pieces
import FrontEnd.Proofs.Scanner.Tokens
import FrontEnd.Proofs.Lexical.BlockComments
import FrontEnd.Proofs.InternedTexts
import FrontEnd.Proofs.Grammar.StreamMoves
import FrontEnd.Proofs.Text.SelfDelimiting
import FrontEnd.Proofs.Token.Listing
import FrontEnd.Proofs.CompilationUnit.Shown
import FrontEnd.Proofs.SessionListings
import FrontEnd.Proofs.CompilationUnit.ShownTexts
import FrontEnd.Proofs.FaithfulListings
import FrontEnd.Proofs.CommandLine.Arguments
import FrontEnd.Proofs.Diagnostic.Log
import FrontEnd.Proofs.OrderedMap.Table
