import SetQL.Base.Outcome
import SetQL.Base.SingleFloat
import SetQL.Base.Bytes
import SetQL.Base.Decimal
import SetQL.DataStructures.SymbolTable
import SetQL.DataStructures.Bitset
import SetQL.DataStructures.Database
import SetQL.Spec.Store
import SetQL.Spec.Cells
import SetQL.DataStructures.Invariant
import SetQL.DataStructures.Columns
import SetQL.DataStructures.Representation
import SetQL.DataStructures.Frame
import SetQL.Query.SetOperation
import SetQL.Query.RunQuery
import SetQL.Query.Evaluation
import SetQL.Query.Materialisation
import SetQL.Query.Layout
import SetQL.Base.Regex
import SetQL.Base.Posix
import SetQL.Parser.Query
import SetQL.Parser.Grammar
import SetQL.Parser.Shapes
import SetQL.Parser.Accepts
import SetQL.Parser.Language
import SetQL.Parser.Universe
import SetQL.Translation.Load
import SetQL.Translation.Operations
import SetQL.Translation.Exits
import SetQL.Translation.Totality
import SetQL.Translation.Faithful
import SetQL.Server.Queries
import SetQL.Base.DoubleFloat
import SetQL.Translation.Erasure
import SetQL.Translation.Behind
import SetQL.Translation.KeyOrder
import SetQL.Translation.Types
import SetQL.Server.Message
import SetQL.Server.Client
import SetQL.Server.Wire
import SetQL.Server.Noninterference
import SetQL.Parser.Statements
import SetQL.Parser.Initialization
import SetQL.Parser.Readings
import SetQL.Parser.Insertions
import SetQL.Parser.StatementShapes
import SetQL.Parser.Passes
import SetQL.Parser.Accepted
import SetQL.Parser.WellFormed
import SetQL.Parser.SinglePass
import SetQL.Parser.Assertions
import SetQL.Base.Search
import SetQL.Base.Scanner
import SetQL.Parser.WhiteSpace
import SetQL.Parser.Tokens
import SetQL.Parser.TokenReadings
import SetQL.Parser.Counting
import SetQL.Parser.ValueReadings
import SetQL.Parser.Items
import SetQL.Parser.RoundTrip
import SetQL.Parser.Parentheses
import SetQL.Parser.SetRoundTrip
import SetQL.Parser.Failures
import SetQL.Parser.Escapes
import SetQL.Base.Runs
import SetQL.Base.Terminated
import SetQL.Server.ClientTable
import SetQL.Server.EventLoop
import SetQL.Server.Delivery
import SetQL.Server.Dialogue
import SetQL.Server.Terminal
import SetQL.Parser.Calls
import SetQL.Parser.Messages
import SetQL.Translation.TextBuffers
import SetQL.Parser.WholeStatements
import SetQL.Spec.BoundedMap
import SetQL.DataStructures.SymbolMap
import SetQL.DataStructures.BitsetSets
import SetQL.DataStructures.BitsetSizes
import SetQL.DataStructures.TableSizes
import SetQL.DataStructures.PrintedValues
import SetQL.Server.ColumnLists
import SetQL.Base.Heap
import SetQL.Query.Ownership
import SetQL.Parser.MissingValues
import SetQL.Parser.IntegerLiterals
import SetQL.Parser.Declarations
import SetQL.Server.QueryTexts
import SetQL.Base.Distinct
import SetQL.Spec.Equivalence
import SetQL.Parser.Meaning
import SetQL.Parser.Lines
import SetQL.Server.EndToEnd
import SetQL.Server.Service
import SetQL.Server.SameAnswers
import SetQL.Server.Fairness
