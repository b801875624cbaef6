import PathQuery.CommandLine
import PathQuery.Flat
import PathQuery.Main
import PathQuery.Proofs.ErrorPosition
import PathQuery.Proofs.Flat
import PathQuery.Proofs.Function.NullArguments
import PathQuery.Proofs.Location.Frame
import PathQuery.Proofs.Location.LinearOrder
import PathQuery.Proofs.Location.Pointer
import PathQuery.Proofs.Location.Recognized
import PathQuery.Proofs.Query.Arithmetic
import PathQuery.Proofs.Query.BracketLists
import PathQuery.Proofs.Query.CallsAsWritten
import PathQuery.Proofs.Query.Comparison
import PathQuery.Proofs.Query.Descent
import PathQuery.Proofs.Query.Expressions
import PathQuery.Proofs.Query.FilterAlgebra
import PathQuery.Proofs.Query.Halting
import PathQuery.Proofs.Query.InStep
import PathQuery.Proofs.Query.JsonExtent
import PathQuery.Proofs.Query.Kinds
import PathQuery.Proofs.Query.Leaves
import PathQuery.Proofs.Query.Normalized
import PathQuery.Proofs.Query.QuotedNames
import PathQuery.Proofs.Query.Removal
import PathQuery.Proofs.Query.Slicing
import PathQuery.Proofs.Query.Spacing
import PathQuery.Proofs.Query.Suffixes
import PathQuery.Proofs.Query.Update
import PathQuery.Proofs.Written
