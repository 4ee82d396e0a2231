import Bayes.Graph
import Bayes.Network
/-!
The moral graph of a network: every variable is joined to its parents, and the parents to each other.
-/
namespace Bayes.Network

variable {α : Type} (n : Network α)

def marriages (child : Nat) : List (Nat × Nat) :=
  (n.parents child).map (fun p => (p, child)) ++ Scope.pairs (n.parents child)

def moralize : Graph := (Graph.edgeless n.size).addEdges (n.ids.flatMap n.marriages)

end Bayes.Network
