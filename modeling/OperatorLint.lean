import OperatorLint.Analysis
import OperatorLint.Certainty
import OperatorLint.Decimal.Binary
import OperatorLint.Text.Numeral
import OperatorLint.Decimal.Shortest
import OperatorLint.Decimal.Written
import OperatorLint.Diagnostic
import OperatorLint.Expr.Basic
import OperatorLint.Expr.Notation
import OperatorLint.Expr.Placement
import OperatorLint.Inquiry
import OperatorLint.Integer
import OperatorLint.Names
import OperatorLint.Narrowing
import OperatorLint.Operation.Arithmetic
import OperatorLint.Operation.Integral
import OperatorLint.Operation.Result
import OperatorLint.Operator
import OperatorLint.Proofs.Constants
import OperatorLint.Proofs.Conversion
import OperatorLint.Proofs.Failure
import OperatorLint.Proofs.Join
import OperatorLint.Proofs.Narrowing
import OperatorLint.Proofs.NormalForm
import OperatorLint.Proofs.Preservation
import OperatorLint.Rule.Trace
import OperatorLint.Rule.Operands
import OperatorLint.Scope
import OperatorLint.Settings.Basic
import OperatorLint.Settings.Document
import OperatorLint.Settings.Reader
import OperatorLint.Text.Digits
import OperatorLint.Ty.Description
import OperatorLint.Text.Span
import OperatorLint.Text.Template
import OperatorLint.Ty.Basic
import OperatorLint.Ty.Coercion
import OperatorLint.Ty.Covering
import OperatorLint.Ty.Union
import OperatorLint.Typing
import OperatorLint.Proofs.Decision
import OperatorLint.Proofs.Combination
import OperatorLint.Proofs.Findings
import OperatorLint.Proofs.Readings
import OperatorLint.Proofs.Ambiguity
import OperatorLint.Proofs.Widening
import OperatorLint.Proofs.Levels
import OperatorLint.Proofs.Wording
import OperatorLint.Proofs.Order
import OperatorLint.Proofs.Values
import OperatorLint.Proofs.Supremum
import OperatorLint.Proofs.Addresses
import OperatorLint.Proofs.Visits
import OperatorLint.Proofs.Account
import OperatorLint.Proofs.Siblings
import OperatorLint.Proofs.Retagging
import OperatorLint.Proofs.Compound
import OperatorLint.Proofs.Closure
import OperatorLint.Proofs.Propagation
import OperatorLint.Proofs.Substitution
import OperatorLint.Proofs.Sorting
import OperatorLint.Proofs.Units
import OperatorLint.Proofs.Placement
import OperatorLint.Proofs.Reports
import OperatorLint.Proofs.Protocol
import OperatorLint.Proofs.Selection
import OperatorLint.Proofs.Footprint
import OperatorLint.Proofs.Numerals
import OperatorLint.Proofs.Retraction
import OperatorLint.Proofs.Folding
import OperatorLint.Proofs.Powers
import OperatorLint.Proofs.Fallback
import OperatorLint.Proofs.Refinement
import OperatorLint.Proofs.Symmetry
import OperatorLint.Proofs.Concatenation
import OperatorLint.Proofs.Grammar
import OperatorLint.Proofs.Quotation
import OperatorLint.Proofs.Rejoining
import OperatorLint.Proofs.Nesting
import OperatorLint.Proofs.Legibility
