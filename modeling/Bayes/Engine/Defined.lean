import Bayes.Capacity
import Bayes.Engine.Session
/-!
Requests that are defined. An engine is compiled before any table is made, so that a clique may turn
out to be too large for its table to be held. Then nothing can be propagated, and what needs a
propagation has no answer.
-/
namespace Bayes.Engine

variable {α : Type} [Scalar α] (e : Engine α)

def holdsTables : Bool :=
  e.compiled.tree.cliques.toList.all fun clique =>
    Capacity.ofTable (clique.map e.network.cardinality)

/-- A request that names what is unknown is refused before a table is made. -/
def makesTables : Request α → Bool
  | .propagate | .marginals | .probability | .logProbability | .sensitivity .. => true
  | .marginal v => (e.network.lookup v).isOk
  | .marginalNamed name => (e.network.lookupName name).isOk
  | .mostProbable subset => (subset.getD []).all fun v => (e.network.lookup v).isOk
  | .update _ | .setValues .. | .freeze _ | .cancel | .snapshot | .marginalIfReady _ => false

def serves (r : Request α) : Bool := e.holdsTables || !e.makesTables r

def serve? (r : Request α) : Option (Outcome α (Answer α)) :=
  if e.serves r then some (e.serve r) else none

end Bayes.Engine
