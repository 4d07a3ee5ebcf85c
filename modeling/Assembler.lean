import Assembler.Text
import Assembler.Numeral
import Assembler.Name
import Assembler.Ebcdic
import Assembler.Terms
import Assembler.Diagnostic
import Assembler.Attribute
import Assembler.Prerequisite
import Assembler.Evaluation
import Assembler.Layout.Ids
import Assembler.Layout.Alignment
import Assembler.Layout.Extent
import Assembler.Layout.Space
import Assembler.Layout.Address
import Assembler.Layout.Basic
import Assembler.Symbol
import Assembler.Expr.Basic
import Assembler.Expr.Evaluation
import Assembler.Source.Quote
import Assembler.Token.Basic
import Assembler.Token.Scan
import Assembler.Reading
import Assembler.Expr.Reading
import Assembler.Instruction
import Assembler.Directive
import Assembler.Data.Operand
import Assembler.Data.Reading
import Assembler.Data.Type
import Assembler.Source.Line
import Assembler.Statement
import Assembler.Pending.Table
import Assembler.Pending.Search
import Assembler.Settings
import Assembler.Task
import Assembler.Assembly.Basic
import Assembler.Assembly.Attempt
import Assembler.Assembly.Cascade
import Assembler.Assembly.Equate
import Assembler.Assembly.Storage
import Assembler.Assembly.Sections
import Assembler.Assembly.Origin
import Assembler.Assembly.Finish
import Assembler.Assembly.Process
import Assembler.Program
import Assembler.Settings.Document
import Assembler.Proofs.Substitution
import Assembler.Proofs.NormalForm
import Assembler.Proofs.Evaluation
import Assembler.Proofs.Stability
import Assembler.Proofs.Constancy
import Assembler.Proofs.Scope
import Assembler.Proofs.Attempt
import Assembler.Proofs.Fault
import Assembler.Proofs.Index
import Assembler.Proofs.Reachability
import Assembler.Proofs.Arrangement
import Assembler.Proofs.Definition
import Assembler.Proofs.Step
import Assembler.Proofs.Moment
import Assembler.Proofs.Growth
import Assembler.Proofs.Act
import Assembler.Proofs.Process
import Assembler.Proofs.Wake
import Assembler.Proofs.Idle
import Assembler.Proofs.Session
import Assembler.Proofs.Termination
import Assembler.Proofs.Limit
import Assembler.Proofs.Undefined
import Assembler.Proofs.Inventory
import Assembler.Proofs.Highest
import Assembler.Proofs.Operation
import Assembler.Proofs.LaterValue
import Assembler.Proofs.Expansion
import Assembler.Proofs.Composition
import Assembler.Proofs.Denotation
import Assembler.Proofs.TakenName
import Assembler.Proofs.Cycle
import Assembler.Proofs.Explanation
import Assembler.Proofs.Acyclicity
import Assembler.Proofs.Outcome
import Assembler.Proofs.Completion
import Assembler.Proofs.Equation.Arithmetic
import Assembler.Proofs.Equation.Balance
import Assembler.Proofs.Equation.Closing
import Assembler.Proofs.Equation.Solution
import Assembler.Proofs.FinalValue
import Assembler.Proofs.Check
import Assembler.Proofs.Result
import Assembler.Proofs.Producer
import Assembler.Proofs.Measure
import Assembler.Proofs.Padding
import Assembler.Proofs.Boundary
import Assembler.Proofs.Climb
import Assembler.Proofs.Stage
import Assembler.Proofs.Separation
import Assembler.Proofs.Deferral
import Assembler.Proofs.Reservation
import Assembler.Proofs.Advance
import Assembler.Proofs.Agreement
import Assembler.Proofs.Unmoved
import Assembler.Proofs.Rejection
import Assembler.Proofs.Underflow
import Assembler.Proofs.Outside
import Assembler.Proofs.Search
import Assembler.Proofs.Grammar
import Assembler.Proofs.SelfDefining
import Assembler.Proofs.Folding
import Assembler.Proofs.Quotation
import Assembler.Proofs.Lexeme
import Assembler.Proofs.Delimiter
import Assembler.Proofs.Display
import Assembler.Proofs.Rendering
import Assembler.Proofs.DataStatement
import Assembler.Proofs.Avoidance
import Assembler.Proofs.Relocation
import Assembler.Proofs.MacroBlock
import Assembler.Proofs.Unreadable
import Assembler.Proofs.Casing
import Assembler.Proofs.Insensitivity
import Assembler.Proofs.Range
import Assembler.Proofs.Registration
import Assembler.Proofs.Course
import Assembler.Proofs.Ownership
import Assembler.Proofs.Shape
