import AbstractDomains.Expr.TypeSet
import AbstractDomains.Expr.Operator
import AbstractDomains.Satisfiability
import AbstractDomains.Expr.Basic
import AbstractDomains.Expr.Order
import AbstractDomains.Json.Basic
import AbstractDomains.Json.Printer
import AbstractDomains.Json.Reader
import AbstractDomains.Expr.Encoding
import AbstractDomains.Error
import AbstractDomains.Lattice
import AbstractDomains.ValueDomain
import AbstractDomains.Evaluation
import AbstractDomains.Numeric.Parity
import AbstractDomains.Numeric.Sign
import AbstractDomains.Numeric.SignParity
import AbstractDomains.Environment
import AbstractDomains.Heap.Memory
import AbstractDomains.Trace.Environment
import AbstractDomains.Trace.Heap
import AbstractDomains.CommandLine.Options
import AbstractDomains.CommandLine.Report
import AbstractDomains.Main
import AbstractDomains.Proofs.Pointwise
import AbstractDomains.Proofs.Concretization
import AbstractDomains.Proofs.LatticeLaws
import AbstractDomains.Proofs.Semantics
import AbstractDomains.Proofs.Environment
import AbstractDomains.Proofs.Numeric.Values
import AbstractDomains.Proofs.Numeric.Parities
import AbstractDomains.Proofs.Run
import AbstractDomains.Proofs.Totality
import AbstractDomains.Proofs.Numeric.Words
import AbstractDomains.Proofs.Numeric.Rationals
import AbstractDomains.Proofs.Heap.PointsTo
import AbstractDomains.Proofs.Heap.Memory
import AbstractDomains.Proofs.Heap.Run
import AbstractDomains.Proofs.ReducedProduct
import AbstractDomains.Proofs.Numeric.Integers
import AbstractDomains.Proofs.NestedProducts
import AbstractDomains.Proofs.ProductEquality
import AbstractDomains.Proofs.Numeric.Lattices
import AbstractDomains.Proofs.ProductLattice
import AbstractDomains.Proofs.PointwiseLattice
import AbstractDomains.Proofs.PointwiseSet
import AbstractDomains.Proofs.Reached
import AbstractDomains.Proofs.Numeric.ConclusiveOrder
import AbstractDomains.Proofs.UndefinedConditions
import AbstractDomains.Proofs.Monotonicity
import AbstractDomains.Proofs.Numeric.Monotonicity
import AbstractDomains.Proofs.TypeRefinement
import AbstractDomains.Proofs.ProductPrecision
import AbstractDomains.Proofs.Numeric.Precision
import AbstractDomains.Proofs.Heap.Reached
import AbstractDomains.Proofs.Widening
import AbstractDomains.Proofs.Numeric.Widening
import AbstractDomains.Proofs.NoFailure
import AbstractDomains.Proofs.CanonicalForm
import AbstractDomains.Proofs.Heap.Strengths
import AbstractDomains.Proofs.Heap.Aliasing
import AbstractDomains.Proofs.Heap.PointsToLattice
import AbstractDomains.Proofs.AssumedEqualities
import AbstractDomains.Proofs.Assumptions
import AbstractDomains.Proofs.Narrowing
import AbstractDomains.Proofs.Json.RoundTrip
import AbstractDomains.Proofs.Encoding
import AbstractDomains.Proofs.Heap.Writes
import AbstractDomains.Proofs.JoinLaws
import AbstractDomains.Proofs.Heap.JoinOfWrites
import AbstractDomains.Proofs.Heap.CommutingUpdates
import AbstractDomains.Proofs.Heap.Reads
import AbstractDomains.Proofs.Heap.Refresh
import AbstractDomains.Proofs.Heap.ListedSites
import AbstractDomains.Proofs.Text.ByteOrder
import AbstractDomains.Proofs.SearchTree
import AbstractDomains.Proofs.KeyOrder
import AbstractDomains.Proofs.Spellings
import AbstractDomains.Proofs.ArbitraryReductions
import AbstractDomains.Proofs.UndefinedParts
import AbstractDomains.Proofs.Substitution
import AbstractDomains.Proofs.IndependentAssignments
