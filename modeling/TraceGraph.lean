import TraceGraph.Graph.Separate
import TraceGraph.History
import TraceGraph.Word
import TraceGraph.Proofs.Store.InEdges
import TraceGraph.Proofs.Store.Settled
import TraceGraph.Proofs.Filing
import TraceGraph.Proofs.Canon.Refiling
import TraceGraph.Proofs.Pool.Interning
import TraceGraph.Proofs.Residual
import TraceGraph.Proofs.Course
import TraceGraph.Proofs.Relaid
import TraceGraph.Proofs.Pool.Copying
import TraceGraph.Proofs.Pool.Releasing
import TraceGraph.Proofs.Pool.Leading
import TraceGraph.Proofs.Pool.Amending
import TraceGraph.Proofs.Pool.Merging
import TraceGraph.Proofs.Pool.Folding
import TraceGraph.Proofs.Pool.Parting
import TraceGraph.Proofs.Pool.Revising
import TraceGraph.Proofs.Graph.Extending
import TraceGraph.Proofs.Pool.Widening
import TraceGraph.Proofs.Graph.Replaying
import TraceGraph.Proofs.Graph.Sound
import TraceGraph.Proofs.Graph.Recording
import TraceGraph.Proofs.Store.Size
import TraceGraph.Proofs.Store.Account
import TraceGraph.Proofs.Graph.Sharing
import TraceGraph.Proofs.Graph.Canonicity
import TraceGraph.Proofs.Graph.Faultless
import TraceGraph.Proofs.Graph.Edges
import TraceGraph.Proofs.Graph.Outcomes
import TraceGraph.Proofs.Graph.Accessing
import TraceGraph.Proofs.Graph.Answering
import TraceGraph.Proofs.Separation.Shortlex
import TraceGraph.Proofs.Separation.Meeting
import TraceGraph.Proofs.Separation.Sweeping
import TraceGraph.Proofs.Separation.Passing
import TraceGraph.Proofs.Separation.Exactness
import TraceGraph.Proofs.Separation.Agreement
import TraceGraph.Proofs.Separation.Exchanging
import TraceGraph.Proofs.Separation.Climbing
import TraceGraph.Proofs.Graph.Comparing
import TraceGraph.Proofs.Graph.Ending
import TraceGraph.Proofs.Graph.Histories
import TraceGraph.Proofs.Graph.Conflicting
import TraceGraph.Proofs.Graph.Consistency
import TraceGraph.Proofs.Canon.Keeping
import TraceGraph.Proofs.Pool.Padding
import TraceGraph.Proofs.Graph.Growing
import TraceGraph.Proofs.Graph.Mirroring
import TraceGraph.Proofs.Graph.Inseparable
import TraceGraph.Proofs.Graph.Framing
import TraceGraph.Proofs.Graph.Reporting
import TraceGraph.Proofs.Graph.Turnover
import TraceGraph.Proofs.Graph.Building
import TraceGraph.Proofs.Graph.Trails
import TraceGraph.Proofs.Graph.Confluence
import TraceGraph.Proofs.Graph.Folding
