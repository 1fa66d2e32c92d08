import CaretContext.Span
import CaretContext.Source
import CaretContext.Source.Offset
import CaretContext.Source.Blank
import CaretContext.Source.Symbol
import CaretContext.Node
import CaretContext.Node.Walk
import CaretContext.ScopeChain
import CaretContext.Call.MemberScan
import CaretContext.Call.Invocation
import CaretContext.Php.Token
import CaretContext.Php.Lexeme.Extent
import CaretContext.Php.Lexeme
import CaretContext.Php.TokenParser
import CaretContext.Php.Level
import CaretContext.Php.Grammar
import CaretContext.Php.FunctionLike
import CaretContext.Php.Expression
import CaretContext.Php.Statement
import CaretContext.Php.Program
import CaretContext.Toml.Value
import CaretContext.Toml.Lexical
import CaretContext.Toml.Scalar
import CaretContext.Toml.Document
import CaretContext.Settings
import CaretContext.FileTree
import CaretContext.LogFilter
import CaretContext.Query
import CaretContext.Response
import CaretContext.CommandLine
import CaretContext.Main
import CaretContext.Proofs.Nesting
import CaretContext.Proofs.InnermostCall
import CaretContext.Proofs.ScopeLevels
import CaretContext.Proofs.Boundary
import CaretContext.Proofs.Php.Tokens
import CaretContext.Proofs.Php.Stream
import CaretContext.Proofs.Php.Gives
import CaretContext.Proofs.Php.MissingEnd
import CaretContext.Proofs.Php.Endings
import CaretContext.Proofs.Php.Layout
import CaretContext.Proofs.Php.Phrase
import CaretContext.Proofs.Php.Grammar
import CaretContext.Proofs.Php.FunctionLike
import CaretContext.Proofs.Php.Operand
import CaretContext.Proofs.Php.Expression
import CaretContext.Proofs.Php.Statement
import CaretContext.Proofs.Php.Fuel
import CaretContext.Proofs.Php.Program
import CaretContext.Proofs.SpanLayout
import CaretContext.Proofs.MemberText
import CaretContext.Proofs.Php.Pieces
import CaretContext.Proofs.Php.GapText
import CaretContext.Proofs.Php.Neighbours
import CaretContext.Proofs.DynamicMember
import CaretContext.Proofs.PreOrder
import CaretContext.Proofs.TrailingStatements
import CaretContext.Proofs.CallLabels
import CaretContext.Proofs.Edges
import CaretContext.Proofs.Shift
import CaretContext.Proofs.Translation
import CaretContext.Proofs.ResponseLine
import CaretContext.Proofs.TreeShape
import CaretContext.Proofs.Php.Makes
import CaretContext.Proofs.Php.Growth
import CaretContext.Proofs.Php.FunctionNodes
import CaretContext.Proofs.Php.OperandNodes
import CaretContext.Proofs.Php.ExpressionNodes
import CaretContext.Proofs.Php.StatementNodes
import CaretContext.Proofs.ParsedTree
import CaretContext.Proofs.Php.PieceOrder
import CaretContext.Proofs.Php.ScanText
import CaretContext.Proofs.ArgumentAnchor
import CaretContext.Proofs.ScanAnswer
import CaretContext.Proofs.CommentSkipping
import CaretContext.Proofs.JsonText
import CaretContext.Proofs.ReportLine
import CaretContext.Proofs.TwoPasses
import CaretContext.Proofs.OffsetConversion
import CaretContext.Proofs.ArgumentSlot
import CaretContext.Proofs.ReceiverChain
import CaretContext.Proofs.VisitedNodes
import CaretContext.Proofs.LineNumbers
import CaretContext.Proofs.SettingsLayers
import CaretContext.Proofs.Selector
import CaretContext.Proofs.ChosenFilter
import CaretContext.Proofs.FilePaths
