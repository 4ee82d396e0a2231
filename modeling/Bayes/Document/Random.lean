import Bayes.Document
import Bayes.Random.Network
/-!
The shape of a random network as a document: a record with all its fields.
-/
namespace Bayes

def Random.Shape.ofDocument? (d : Document) : Option (Random.Shape Float) := do
  match ← d.fields? ["variables_number", "edge_probability", "max_parents", "min_cardinality",
      "max_cardinality"] with
  | [count, edge, parents, lo, hi] =>
    some {
      count := ← (← count).nat?
      edgeProbability := ← (← edge).float?
      maxParents := ← (← parents).nat?
      minCardinality := ← (← lo).nat?
      maxCardinality := ← (← hi).nat? }
  | _ => none

end Bayes
