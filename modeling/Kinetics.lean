import Kinetics.Code.Grouping
import Kinetics.Code.Lexer
import Kinetics.Code.Normal
import Kinetics.Code.Printer
import Kinetics.Code.Token
import Kinetics.CommandLine.Arguments
import Kinetics.CommandLine.Command
import Kinetics.CommandLine.FileTree
import Kinetics.CommandLine.Outcome
import Kinetics.CommandLine.Path
import Kinetics.CommandLine.Session
import Kinetics.Context.Basic
import Kinetics.Context.Document
import Kinetics.Decimal.Numeral
import Kinetics.Decimal.Shortest
import Kinetics.Decimal.Style
import Kinetics.Dict
import Kinetics.Fault
import Kinetics.Formula.Expression
import Kinetics.Formula.Fragment
import Kinetics.Formula.Juxtaposition
import Kinetics.Formula.Node
import Kinetics.Formula.Optional
import Kinetics.Formula.Reader
import Kinetics.Json.Lexeme
import Kinetics.Json.Literal
import Kinetics.Json.Printer
import Kinetics.Json.Reader
import Kinetics.Json.Record
import Kinetics.Json.Value
import Kinetics.Main
import Kinetics.Markup.Attribute
import Kinetics.Markup.Event
import Kinetics.Markup.Reference
import Kinetics.Model.Activation
import Kinetics.Model.Closure
import Kinetics.Model.Definition
import Kinetics.Model.Order
import Kinetics.Model.Resolve
import Kinetics.Ontology.Basic
import Kinetics.Ontology.Document
import Kinetics.Parameter.Document
import Kinetics.Parameter.Index
import Kinetics.Parameter.Table
import Kinetics.Parameter.Value
import Kinetics.Program.Binding
import Kinetics.Program.Derivative
import Kinetics.Program.Formulas
import Kinetics.Program.Inputs
import Kinetics.Program.Layout
import Kinetics.Program.Literal
import Kinetics.Program.Options
import Kinetics.Program.Plan
import Kinetics.Program.Result
import Kinetics.Program.Solver
import Kinetics.Program.Statement
import Kinetics.Proofs.Arithmetic.Grammar
import Kinetics.Proofs.Arithmetic.Reader
import Kinetics.Proofs.Arithmetic.Regrouping
import Kinetics.Proofs.Arithmetic.Spelling
import Kinetics.Proofs.Code.Bracket
import Kinetics.Proofs.Code.Lexeme
import Kinetics.Proofs.Dict
import Kinetics.Proofs.Formula.Notation
import Kinetics.Proofs.Model.Order
import Kinetics.Proofs.Model.Resolve
import Kinetics.Proofs.Precedence
import Kinetics.Proofs.Code.Normal
import Kinetics.Proofs.Python.Reader
import Kinetics.Proofs.Python.Omission
import Kinetics.Proofs.Program.Derivative
import Kinetics.Proofs.Program.Formulas
import Kinetics.Proofs.Program.Plan
import Kinetics.Proofs.Simulation
import Kinetics.Reaction.Basic
import Kinetics.Reaction.Coefficient
import Kinetics.Remark
import Kinetics.Simulation
import Kinetics.Space.Access
import Kinetics.Space.Dimension
import Kinetics.Space.Point
import Kinetics.Space.Shape
import Kinetics.Space.Topology
import Kinetics.Text.Blank
import Kinetics.Text.Class
import Kinetics.Text.Digit
import Kinetics.Text.Identifier
import Kinetics.Text.IdentifierTable
import Kinetics.Text.Lines
import Kinetics.Proofs.Fallible
import Kinetics.Proofs.Formula.Compilation
import Kinetics.Proofs.Grid.Basic
import Kinetics.Proofs.Grid.Code
import Kinetics.Proofs.Keys
import Kinetics.Proofs.Program.Layout
import Kinetics.Proofs.Program.Vector
import Kinetics.Proofs.Model.Switching
import Kinetics.Proofs.Model.Worklist
import Kinetics.Proofs.Model.Extent
import Kinetics.Proofs.Model.States
import Kinetics.Proofs.Model.Claimants
import Kinetics.Proofs.Growth.Basic
import Kinetics.Proofs.Growth.Model
import Kinetics.Proofs.Growth.Program
import Kinetics.Proofs.Growth.Simulation
import Kinetics.Proofs.Companion.Model
import Kinetics.Proofs.Companion.Simulation
import Kinetics.Proofs.Genuine.Formula
import Kinetics.Proofs.Genuine.Model
import Kinetics.Proofs.Genuine.Program
import Kinetics.Proofs.Genuine.Simulation
import Kinetics.Proofs.Space.Naming
import Kinetics.Proofs.Distinct
import Kinetics.Proofs.Hygiene.Name
import Kinetics.Proofs.Hygiene.Binding
import Kinetics.Proofs.Hygiene.Program
import Kinetics.Proofs.Hygiene.Simulation
import Kinetics.Proofs.Tables.Names
import Kinetics.Proofs.Tables.Formulas
import Kinetics.Proofs.Tables.Simulation
import Kinetics.Proofs.Decimal.Numeral
import Kinetics.Proofs.Usage.Words
import Kinetics.Proofs.Usage.Solver
import Kinetics.Proofs.Usage.Inputs
import Kinetics.Proofs.Usage.Simulation
import Kinetics.Proofs.Formula.Writing
import Kinetics.Proofs.Formula.Reading
import Kinetics.Proofs.Json.Lexeme
import Kinetics.Proofs.Json.Text
import Kinetics.Proofs.Json.Record
import Kinetics.Proofs.Document
import Kinetics.Proofs.Parameter.Values
import Kinetics.Proofs.Model.Choice
import Kinetics.Proofs.Formula.Siblings
import Kinetics.Proofs.Formula.Zeroing
import Kinetics.Proofs.Grid.Select
import Kinetics.Proofs.Space.Membership
import Kinetics.Proofs.Python.Subscript
import Kinetics.Proofs.Space.Indexing
import Kinetics.Proofs.Python.Derivation
import Kinetics.Proofs.Python.Spelling
import Kinetics.Proofs.Python.Line
import Kinetics.Proofs.Code.Substitution
import Kinetics.Proofs.Formula.Rewriting
import Kinetics.Proofs.Code.Idempotence
import Kinetics.Proofs.Reaction.Writing
import Kinetics.Proofs.Reaction.Netting
import Kinetics.Proofs.Formula.Place
import Kinetics.Proofs.Python.Operand
import Kinetics.Proofs.Python.Parentheses
import Kinetics.Proofs.Python.Power
import Kinetics.Proofs.Formula.Quotient
import Kinetics.Proofs.Formula.Root
import Kinetics.Proofs.Formula.Joined
import Kinetics.Proofs.Formula.Pieces
import Kinetics.Proofs.Formula.Pruning
import Kinetics.Proofs.Code.Count
import Kinetics.Proofs.Formula.Variant
import Kinetics.Proofs.Formula.Star
import Kinetics.Proofs.Formula.Seams
import Kinetics.Proofs.Formula.Transparency
import Kinetics.Proofs.Formula.Bare
import Kinetics.Proofs.Code.TopLevel
import Kinetics.Proofs.Formula.Written
import Kinetics.Proofs.Equation.Formula
import Kinetics.Proofs.Equation.Simulation
import Kinetics.Proofs.Python.Literal
import Kinetics.Proofs.Lookup.Line
import Kinetics.Proofs.Lookup.Program
import Kinetics.Proofs.Lookup.Simulation
import Kinetics.Proofs.Model.Override
import Kinetics.Proofs.Formula.Skipping
import Kinetics.Proofs.Code.Finished
import Kinetics.Proofs.Formula.Symbols
import Kinetics.Proofs.Formula.Occurrence
import Kinetics.Proofs.Code.Ungrouping
import Kinetics.Proofs.Code.Retention
import Kinetics.Proofs.Decimal.Binary
import Kinetics.Proofs.Parameter.Conversion
