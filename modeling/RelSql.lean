import RelSql.Block.Assembly
import RelSql.Block.Fusion
import RelSql.Definition.Function
import RelSql.Graph.Build
import RelSql.Graph.Display
import RelSql.Graph.Equality
import RelSql.Json.Parser
import RelSql.Json.Printer
import RelSql.Json.Result
import RelSql.Proofs.Block.Range
import RelSql.Proofs.Join.Blocks
import RelSql.Proofs.Meaning.Rows
import RelSql.Proofs.Meaning.Operators
import RelSql.Proofs.Statement.References
import RelSql.Render.Query
import RelSql.Statement.Analysis
import RelSql.Proofs.Block.Valid
import RelSql.Proofs.Statement.Selects
import RelSql.Proofs.Qualification.Declaration
import RelSql.Proofs.Output.FieldNames
import RelSql.Proofs.Output.Folding
import RelSql.Proofs.Output.SelectList
import RelSql.Proofs.Output.Schema
import RelSql.Proofs.Meaning.Pipelines
import RelSql.Proofs.Meaning.Columns
import RelSql.Proofs.Meaning.Folded
import RelSql.Proofs.Meaning.Fused
import RelSql.Proofs.Meaning.Tops
import RelSql.Proofs.Meaning.Cores
import RelSql.Proofs.Meaning.Groups
import RelSql.Proofs.Meaning.Projections
import RelSql.Proofs.Meaning.Statements
import RelSql.Proofs.Meaning.Towers
import RelSql.Proofs.Statement.Search
import RelSql.Proofs.Statement.Definitions
import RelSql.Proofs.Statement.Names
import RelSql.Proofs.Qualification.Resolution
import RelSql.Proofs.Renaming.Similar
import RelSql.Proofs.Renaming.Typing
import RelSql.Proofs.Renaming.Reading
import RelSql.Proofs.Renaming.Lifting
import RelSql.Proofs.Renaming.Values
import RelSql.Proofs.Renaming.Queries
import RelSql.Proofs.Renaming.Blocks
import RelSql.Proofs.Renaming.Sources
import RelSql.Proofs.Renaming.Subqueries
import RelSql.Proofs.Renaming.Assembly
import RelSql.Proofs.Renaming.Statements
import RelSql.Proofs.Renaming.Rendering
import RelSql.Proofs.Lexical.Token
import RelSql.Proofs.Lexical.Indentation
import RelSql.Proofs.Lexical.Words
import RelSql.Proofs.Lexical.Phrase
import RelSql.Proofs.Lexical.Values
import RelSql.Proofs.Lexical.Legible
import RelSql.Proofs.Lexical.Layout
import RelSql.Proofs.Syntax.Conjunctions
import RelSql.Proofs.Lexical.Blocks
import RelSql.Proofs.Graph.Comparison
import RelSql.Proofs.Lexical.Literals
import RelSql.Proofs.Lexical.Queries
import RelSql.Proofs.Syntax.Unions
import RelSql.Proofs.Syntax.Predicates
import RelSql.Proofs.Lexical.Rendered
import RelSql.Proofs.Lexical.Trees
import RelSql.Proofs.Syntax.Operands
import RelSql.Proofs.Syntax.Reader
import RelSql.Proofs.Syntax.Values
import RelSql.Proofs.Statement.Handles
import RelSql.Proofs.Nesting.Termination
import RelSql.Proofs.Statement.Aggregation
import RelSql.Proofs.Statement.Existence
import RelSql.Proofs.Statement.Tables
import RelSql.Proofs.Statement.Runs
import RelSql.Proofs.Traversal.Enumeration
import RelSql.Proofs.Lexical.WhiteSpace
import RelSql.Proofs.Lift.Substitution
import RelSql.Proofs.Lift.Terms
import RelSql.Proofs.Block.Addition
import RelSql.Proofs.Block.SemiJoins
import RelSql.Proofs.Block.Descent
import RelSql.Proofs.Block.Boundaries
import RelSql.Proofs.Block.Predicates
import RelSql.Proofs.Block.Filters
import RelSql.Proofs.Lift.Types
import RelSql.Proofs.Lift.Pushable
import RelSql.Proofs.Block.FusedSchema
import RelSql.Proofs.Relational.Rendering
import RelSql.Proofs.Join.Foreign
import RelSql.Proofs.Statement.Reductions
import RelSql.Proofs.Statement.Rankings
import RelSql.Proofs.Graph.Ambiguity
import RelSql.Proofs.Statement.Answers
import RelSql.Proofs.Meaning.Shapes
import RelSql.Proofs.Output.Ordering
import RelSql.Proofs.Graph.Schemas
import RelSql.Proofs.Number.Digits
import RelSql.Proofs.Text.Spelling
import RelSql.Proofs.Number.Shortest
import RelSql.Proofs.Lexical.Constants
import RelSql.Proofs.Json.Reading
import RelSql.Proofs.Json.Embedding
import RelSql.Proofs.Lift.Handles
import RelSql.Proofs.Join.Unfolding
import RelSql.Proofs.Graph.Expansion
import RelSql.Proofs.Text.Wrapping
