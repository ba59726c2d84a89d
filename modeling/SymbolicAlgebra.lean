import SymbolicAlgebra.Arithmetic.Chain
import SymbolicAlgebra.Arithmetic.Collection
import SymbolicAlgebra.Arithmetic.Engine
import SymbolicAlgebra.Arithmetic.Identities
import SymbolicAlgebra.Arithmetic.Kernel
import SymbolicAlgebra.Arithmetic.Logic
import SymbolicAlgebra.Arithmetic.Terms
import SymbolicAlgebra.Configuration
import SymbolicAlgebra.Controller
import SymbolicAlgebra.Decimal.Layout
import SymbolicAlgebra.Decimal.Reader
import SymbolicAlgebra.Decimal.Shortest
import SymbolicAlgebra.Derivative
import SymbolicAlgebra.Document.Dictionary
import SymbolicAlgebra.Document.Parser
import SymbolicAlgebra.Document.Value
import SymbolicAlgebra.Double
import SymbolicAlgebra.Evaluate
import SymbolicAlgebra.Expr.Basic
import SymbolicAlgebra.Expr.Build
import SymbolicAlgebra.Expr.Make
import SymbolicAlgebra.Expr.Mark
import SymbolicAlgebra.Expr.Rendering
import SymbolicAlgebra.Expr.Structure
import SymbolicAlgebra.Expr.Symbol
import SymbolicAlgebra.Expr.Variables
import SymbolicAlgebra.Function.Catalogue
import SymbolicAlgebra.Function.Factorial
import SymbolicAlgebra.Function.Permutation
import SymbolicAlgebra.NameTable
import SymbolicAlgebra.Number.Arithmetic
import SymbolicAlgebra.Number.Basic
import SymbolicAlgebra.Number.Cartesian
import SymbolicAlgebra.Number.Order
import SymbolicAlgebra.Number.Power
import SymbolicAlgebra.Number.Range
import SymbolicAlgebra.Number.Ratio
import SymbolicAlgebra.Number.Rendering
import SymbolicAlgebra.Number.Tier
import SymbolicAlgebra.Pause
import SymbolicAlgebra.Proofs.ArrayDerivatives
import SymbolicAlgebra.Proofs.AuxiliaryNames
import SymbolicAlgebra.Proofs.BindingPositions
import SymbolicAlgebra.Proofs.Concatenation
import SymbolicAlgebra.Proofs.ConstantSubstitution
import SymbolicAlgebra.Proofs.ControllerIndependence
import SymbolicAlgebra.Proofs.Denotation
import SymbolicAlgebra.Proofs.Determinant
import SymbolicAlgebra.Proofs.Differentiation
import SymbolicAlgebra.Proofs.Documents.Merging
import SymbolicAlgebra.Proofs.Documents.RoundTrip
import SymbolicAlgebra.Proofs.DoubleSign
import SymbolicAlgebra.Proofs.ErrorOperands
import SymbolicAlgebra.Proofs.Errors
import SymbolicAlgebra.Proofs.ExactRoots
import SymbolicAlgebra.Proofs.FilledTerms
import SymbolicAlgebra.Proofs.Flattening
import SymbolicAlgebra.Proofs.FormulaText
import SymbolicAlgebra.Proofs.FrameEffects
import SymbolicAlgebra.Proofs.Inlining
import SymbolicAlgebra.Proofs.IntegerArithmetic
import SymbolicAlgebra.Proofs.MovedOperands
import SymbolicAlgebra.Proofs.NameInterning
import SymbolicAlgebra.Proofs.Nesting
import SymbolicAlgebra.Proofs.NumberText
import SymbolicAlgebra.Proofs.NumericLeaves
import SymbolicAlgebra.Proofs.NumericTower
import SymbolicAlgebra.Proofs.OperandOrder
import SymbolicAlgebra.Proofs.PermutationTable
import SymbolicAlgebra.Proofs.Positions
import SymbolicAlgebra.Proofs.PowerTowers
import SymbolicAlgebra.Proofs.Presence
import SymbolicAlgebra.Proofs.RadicalEquations
import SymbolicAlgebra.Proofs.ScopeStack
import SymbolicAlgebra.Proofs.ScratchPool
import SymbolicAlgebra.Proofs.SettledTrees
import SymbolicAlgebra.Proofs.ShadowedBindings
import SymbolicAlgebra.Proofs.SignedMonomials
import SymbolicAlgebra.Proofs.Solving
import SymbolicAlgebra.Proofs.TermOrder
import SymbolicAlgebra.Proofs.Termination.Alike
import SymbolicAlgebra.Proofs.Termination.Collection
import SymbolicAlgebra.Proofs.Termination.Differentiation
import SymbolicAlgebra.Proofs.Termination.Engine
import SymbolicAlgebra.Proofs.Termination.Evaluation
import SymbolicAlgebra.Random
import SymbolicAlgebra.Scope
import SymbolicAlgebra.Sharing.Arena
import SymbolicAlgebra.Sharing.Hoisting
import SymbolicAlgebra.Solve
import SymbolicAlgebra.Text.Blank
import SymbolicAlgebra.Text.Quoted
import SymbolicAlgebra.Text.Visible
import SymbolicAlgebra.Trace
