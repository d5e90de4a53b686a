import Univariate.Double.Text
import Univariate.Token
import Univariate.Text.Blank
import Univariate.Poly.Arithmetic
import Univariate.Poly.Display
import Univariate.Expr.Walk
import Univariate.Expr.Latex
import Univariate.Diagnostic
import Univariate.Expr.Parser
import Univariate.Diagnostic.Reading
import Univariate.Sample
import Univariate.Derivative
import Univariate.Normalize
import Univariate.Main
import Univariate.Proofs.Expansion
import Univariate.Proofs.Stuck
import Univariate.Proofs.Reading
import Univariate.Proofs.ViablePrefix
import Univariate.Proofs.Lexing
import Univariate.Proofs.Writable
import Univariate.Proofs.Spelling
import Univariate.Proofs.ReadBack
import Univariate.Proofs.Grouping
import Univariate.Proofs.ErrorReports
import Univariate.Proofs.Canonical
import Univariate.Proofs.Dual
import Univariate.Proofs.Differentiation
import Univariate.Proofs.Typesetting
import Univariate.Proofs.Transcription
import Univariate.Proofs.Pinpointing
import Univariate.Proofs.SuccessiveReadings
import Univariate.Proofs.VariableNames
import Univariate.Proofs.SessionRuns
import Univariate.Proofs.Assembling
import Univariate.Proofs.Reciprocals
import Univariate.Proofs.LongestMatch
import Univariate.Proofs.LoneVariable
import Univariate.Proofs.Renaming
import Univariate.Proofs.RenamedTexts
import Univariate.Proofs.Degree
import Univariate.Proofs.Constancy
import Univariate.Proofs.DoubledSigns
import Univariate.Proofs.Expandable
import Univariate.Proofs.ExpandedNames
import Univariate.Proofs.RefusedCommands
import Univariate.Proofs.PolyDisplay
import Univariate.Proofs.Slopes
import Univariate.Proofs.FunctionRules
import Univariate.Proofs.Traversal
import Univariate.Proofs.Provenance
import Univariate.Proofs.Squaring
import Univariate.Proofs.ConstantScan
import Univariate.Proofs.Indexing
import Univariate.Proofs.Representation
