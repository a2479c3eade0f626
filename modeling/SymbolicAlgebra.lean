import SymbolicAlgebra.Literal
import SymbolicAlgebra.Main
import SymbolicAlgebra.Proofs.Grammar
import SymbolicAlgebra.Proofs.Shunting
import SymbolicAlgebra.Proofs.Meaning
import SymbolicAlgebra.Proofs.Outcome
import SymbolicAlgebra.Proofs.Degree
import SymbolicAlgebra.Proofs.Predicate
import SymbolicAlgebra.Proofs.PlainValue
import SymbolicAlgebra.Proofs.Likeness
import SymbolicAlgebra.Proofs.Normal
import SymbolicAlgebra.Proofs.Gathering
import SymbolicAlgebra.Proofs.Product
import SymbolicAlgebra.Proofs.Tally
import SymbolicAlgebra.Proofs.Queue
import SymbolicAlgebra.Proofs.Run
import SymbolicAlgebra.Proofs.Ratio
import SymbolicAlgebra.Proofs.DecimalPlaces
import SymbolicAlgebra.Proofs.TermForm
import SymbolicAlgebra.Proofs.TermSimplification
import SymbolicAlgebra.Proofs.LikeTerms
import SymbolicAlgebra.Proofs.SumSimplification
import SymbolicAlgebra.Proofs.Canonical
import SymbolicAlgebra.Proofs.MoreSteps
import SymbolicAlgebra.Proofs.Simplification
import SymbolicAlgebra.Proofs.Numeral
import SymbolicAlgebra.Proofs.Evaluation
import SymbolicAlgebra.Proofs.Building
import SymbolicAlgebra.Proofs.Overflow
import SymbolicAlgebra.Proofs.Growth
import SymbolicAlgebra.Proofs.Distribution
import SymbolicAlgebra.Proofs.Pieces
import SymbolicAlgebra.Proofs.PhraseMeaning
import SymbolicAlgebra.Proofs.Rendering
import SymbolicAlgebra.Proofs.Rounding
import SymbolicAlgebra.Proofs.Decimals
import SymbolicAlgebra.Proofs.Precision
import SymbolicAlgebra.Proofs.Sign
import SymbolicAlgebra.Proofs.Legibility
import SymbolicAlgebra.Proofs.Spelling
import SymbolicAlgebra.Proofs.Juxtaposition
import SymbolicAlgebra.Proofs.TermText
import SymbolicAlgebra.Proofs.Printing
import SymbolicAlgebra.Proofs.Rereading
import SymbolicAlgebra.Proofs.Exactness
import SymbolicAlgebra.Proofs.Composition
import SymbolicAlgebra.Proofs.WellFormed
import SymbolicAlgebra.Proofs.ReadingFaults
import SymbolicAlgebra.Proofs.Expansion
import SymbolicAlgebra.Proofs.Polynomial
import SymbolicAlgebra.Proofs.PolynomialBuilding
import SymbolicAlgebra.Proofs.Monomial
import SymbolicAlgebra.Proofs.MonomialSimplification
import SymbolicAlgebra.Proofs.ReducedPolynomial
import SymbolicAlgebra.Proofs.PolynomialDistribution
import SymbolicAlgebra.Proofs.PolynomialExpansion
import SymbolicAlgebra.Proofs.Negation
import SymbolicAlgebra.Proofs.PostfixOrder
import SymbolicAlgebra.Proofs.Classification
import SymbolicAlgebra.Proofs.Bracketing
import SymbolicAlgebra.Proofs.FactorialOperands
import SymbolicAlgebra.Proofs.Double
import SymbolicAlgebra.Proofs.Resemblance
import SymbolicAlgebra.Proofs.Nesting
import SymbolicAlgebra.Proofs.Settled
import SymbolicAlgebra.Proofs.Settling
import SymbolicAlgebra.Proofs.Finishing
import SymbolicAlgebra.Proofs.Termination
import SymbolicAlgebra.Proofs.RewritingFaults
import SymbolicAlgebra.Proofs.Homomorphism
import SymbolicAlgebra.Proofs.Inheritance
import SymbolicAlgebra.Proofs.Symbols
import SymbolicAlgebra.Proofs.Staging
import SymbolicAlgebra.Proofs.Undefined
import SymbolicAlgebra.Proofs.DivisionByZero
import SymbolicAlgebra.Proofs.Bindings
import SymbolicAlgebra.Proofs.Filling
import SymbolicAlgebra.Proofs.Turns
import SymbolicAlgebra.Proofs.Refutation
import SymbolicAlgebra.Proofs.Folding
import SymbolicAlgebra.Proofs.Lossless
import SymbolicAlgebra.Proofs.Balance
import SymbolicAlgebra.Proofs.BracketNesting
import SymbolicAlgebra.Proofs.Rebracketing
import SymbolicAlgebra.Proofs.Ordering
import SymbolicAlgebra.Proofs.Idempotence
import SymbolicAlgebra.Proofs.Placement
