import Census.Assoc
import Census.Cache.Basic
import Census.Cache.Directory
import Census.Cache.Document
import Census.Cache.Interference
import Census.Cache.Key
import Census.Cache.Memory
import Census.Files.Filter
import Census.Files.Path
import Census.Files.Tree
import Census.Grammar.Declaration
import Census.Grammar.Draft
import Census.Grammar.Expression
import Census.Grammar.File
import Census.Grammar.Function
import Census.Grammar.Goal
import Census.Grammar.Parser
import Census.Grammar.Statement
import Census.Json.Text
import Census.Json.Value
import Census.Json.Word
import Census.Number.Binary32
import Census.Project.Analysis
import Census.Project.Basic
import Census.Project.Discovery
import Census.Project.Error
import Census.Project.Session
import Census.Registry.Basic
import Census.Registry.Codec
import Census.Registry.DocComment
import Census.Registry.Survey
import Census.Script
import Census.Settings.Basic
import Census.Settings.Document
import Census.Text.Blank
import Census.Text.Cursor
import Census.Text.Position
import Census.Text.Quoted
import Census.Text.Search
import Census.Text.Unprinted
import Census.Text.Utf8
import Census.Token.Basic
import Census.Token.Kind
import Census.Token.Lexeme
import Census.Token.Lexer
import Census.Token.Scan
import Census.Token.Stream
import Census.Token.Tokenizer
import Census.Tree.Basic
import Census.Tree.Node
import Census.Tree.ParentIndex
import Census.Tree.Views
import Census.Xml.Event
import Census.Xml.Markup
import Census.Xml.Reference
import Census.Proofs.Token.Boundary
import Census.Proofs.Token.Reading
import Census.Proofs.Token.Place
import Census.Proofs.Token.Tiling
import Census.Proofs.Token.Stream
import Census.Proofs.Grammar.Parallel
import Census.Proofs.Grammar.Production
import Census.Proofs.Grammar.Limit
import Census.Proofs.Grammar.Row
import Census.Proofs.Grammar.Run
import Census.Proofs.Grammar.Placed
import Census.Proofs.Grammar.Placement
import Census.Proofs.Grammar.StatementPlacement
import Census.Proofs.Grammar.Failure
import Census.Proofs.Grammar.Values
import Census.Proofs.Grammar.ValueProductions
import Census.Proofs.Grammar.ValueStatements
import Census.Proofs.Script.Nesting
import Census.Proofs.Tree.Subtrees
import Census.Proofs.Tree.Spots
import Census.Proofs.Script.Span
import Census.Proofs.Script.Values
import Census.Proofs.Script.Refusal
import Census.Proofs.Script.Requests
import Census.Proofs.Registry.Unplaced
import Census.Proofs.Script.Layout
import Census.Proofs.Operators.Term
import Census.Proofs.Operators.Yield
import Census.Proofs.Operators.Reach
import Census.Proofs.Operators.Reading
import Census.Proofs.Operators.Sentence
import Census.Proofs.Operators.Lexing
import Census.Proofs.Operators.Precedence
import Census.Proofs.Json.Word
import Census.Proofs.Json.Text
import Census.Proofs.Assoc
import Census.Proofs.Registry.Codec
import Census.Proofs.Cache.Genuine
import Census.Proofs.Files.Names
import Census.Proofs.Project.Method
import Census.Proofs.Project.Reachable
import Census.Proofs.Project.Serial
import Census.Proofs.Project.Limit
import Census.Proofs.Grammar.Passage
import Census.Proofs.Script.Namespace
import Census.Proofs.Skeleton.Pipeline
import Census.Proofs.Grammar.Builds
import Census.Proofs.Grammar.Formed
import Census.Proofs.Grammar.Forming
import Census.Proofs.Grammar.FormingExpressions
import Census.Proofs.Grammar.FormingStatements
import Census.Proofs.Script.Schema
import Census.Proofs.Registry.Tidy
import Census.Proofs.Script.Image
import Census.Proofs.Registry.LineEnd
import Census.Proofs.Script.Extent
import Census.Proofs.Script.Height
import Census.Proofs.Script.LineEnd
import Census.Proofs.Registry.Merge
import Census.Proofs.Registry.RoundTrip
import Census.Proofs.Cache.Document
import Census.Proofs.Cache.History
import Census.Proofs.Grammar.Documentation
import Census.Proofs.Token.Documentation
import Census.Proofs.Script.Documentation
import Census.Proofs.Project.Lifecycle
import Census.Proofs.Token.Pattern
import Census.Proofs.Token.Longest
import Census.Proofs.Token.Heredoc
import Census.Proofs.Token.Resumption
import Census.Proofs.Token.LongestMatch
import Census.Proofs.Token.Separation
import Census.Proofs.Token.Reformatting
import Census.Proofs.Token.CloseTag
import Census.Proofs.Token.Alternation
import Census.Proofs.Registry.Reached
import Census.Proofs.Registry.Annotations
import Census.Proofs.Script.Registered
import Census.Proofs.Script.Tidy
import Census.Proofs.Grammar.Sighted
import Census.Proofs.Grammar.Severed
import Census.Proofs.Grammar.Truncation
import Census.Proofs.Token.Truncation
import Census.Proofs.Script.Truncation
import Census.Proofs.Files.Walk
import Census.Proofs.Project.Discovery
import Census.Proofs.Settings.Sequence
import Census.Proofs.Xml.Written
import Census.Proofs.Settings.Written
import Census.Proofs.Token.HeredocEnd
import Census.Proofs.Token.Quoted
import Census.Proofs.Token.QuotedEnd
import Census.Proofs.Tree.Numbering
import Census.Proofs.Tree.ParentIndex
import Census.Proofs.Script.Index
import Census.Proofs.Grammar.Parentheses
import Census.Proofs.Script.Parentheses
import Census.Proofs.Grammar.Naming
import Census.Proofs.Script.Verbatim
import Census.Proofs.Script.Lookahead
import Census.Proofs.Grammar.Taking
import Census.Proofs.Grammar.Proceeding
import Census.Proofs.Grammar.Recursion
import Census.Proofs.Grammar.Progress
