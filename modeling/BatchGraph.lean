import BatchGraph.Signal.Declare
import BatchGraph.Trace
import BatchGraph.Proofs.Compile
import BatchGraph.Proofs.Hazard
import BatchGraph.Proofs.Refinement
import BatchGraph.Proofs.Number.Product
import BatchGraph.Proofs.Layout.Packed
import BatchGraph.Proofs.Layout.Inversion
import BatchGraph.Proofs.Layout.Entries
import BatchGraph.Proofs.Arrays
import BatchGraph.Proofs.Number.Signed
import BatchGraph.Proofs.Number.Monotone
import BatchGraph.Proofs.Number.Integer
import BatchGraph.Proofs.Region
import BatchGraph.Proofs.Layout.Geometry
import BatchGraph.Proofs.Layout.Stored
import BatchGraph.Proofs.Layout.Failure
import BatchGraph.Proofs.Readback
import BatchGraph.Proofs.Order.Hamming
import BatchGraph.Proofs.Order.Membership
import BatchGraph.Proofs.HeaviestBlock
import BatchGraph.Proofs.Failure
import BatchGraph.Proofs.Dependency.Implied
import BatchGraph.Proofs.Plan.Equivalent
import BatchGraph.Proofs.Redundant
import BatchGraph.Proofs.Disguise.Basic
import BatchGraph.Proofs.Disguise.Plan
import BatchGraph.Proofs.RunSort
import BatchGraph.Proofs.Disguise.Order
import BatchGraph.Proofs.Disguise.Layout
import BatchGraph.Proofs.Disguise.Match
import BatchGraph.Proofs.Independence
import BatchGraph.Proofs.Dependency.Stuck
import BatchGraph.Proofs.Plan.Stuck
import BatchGraph.Proofs.Cyclic
import BatchGraph.Proofs.Mergeable
import BatchGraph.Proofs.Conflicts
import BatchGraph.Proofs.Layout.Breaks
import BatchGraph.Proofs.Addressing
import BatchGraph.Proofs.RowSlices
import BatchGraph.Proofs.Spans
import BatchGraph.Proofs.Selection
import BatchGraph.Proofs.Containment
import BatchGraph.Proofs.Overlap
import BatchGraph.Proofs.LargestBatch
import BatchGraph.Proofs.Maximal
import BatchGraph.Proofs.OrderFree
import BatchGraph.Proofs.Stretches
import BatchGraph.Proofs.RunSort.Ascending
import BatchGraph.Proofs.SingleSlot
import BatchGraph.Proofs.Converged
import BatchGraph.Proofs.FirstFit
import BatchGraph.Proofs.Plan.Quotient
import BatchGraph.Proofs.ExactWindows
import BatchGraph.Proofs.RowCounts
import BatchGraph.Proofs.RowMajor
import BatchGraph.Proofs.DensePlaces
import BatchGraph.Proofs.KeyText
import BatchGraph.Proofs.SearchMemory
import BatchGraph.Proofs.ComposedRows
import BatchGraph.Proofs.Classes
