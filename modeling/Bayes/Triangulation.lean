import Bayes.Elimination
import Bayes.TableSize
/-!
A triangulation of a graph: an elimination order, the edges added on the way, and the maximal
cliques of the graph filled with them.
-/
namespace Bayes

structure Triangulation where
  graph : Graph
  cardinalities : List Nat
  steps : List Elimination.Step

namespace Triangulation
open Elimination (Step)

/-- The clique of a vertex lies inside an earlier one just when it is the first later neighbour of an
earlier vertex that has exactly one later neighbour more. -/
def absorbed : List Step → List Nat
  | [] => []
  | s :: rest =>
    match rest.find? fun t => s.later.contains t.vertex with
    | none => absorbed rest
    | some t =>
      if s.later.length = t.later.length + 1 then t.vertex :: absorbed rest else absorbed rest

def maximalCliques (steps : List Step) : List (List Nat) :=
  let inner := absorbed steps
  (steps.filter fun s => !inner.contains s.vertex).map fun s => Scope.insert s.vertex s.later

variable (t : Triangulation)

def order : List Nat := t.steps.map (·.vertex)

def fillIn : List (Nat × Nat) := t.steps.flatMap (·.added)

def filled : Graph := t.graph.addEdges t.fillIn

def cliques : List (List Nat) := maximalCliques t.steps

def tableSize (clique : List Nat) : Nat := TableSize.ofClique t.cardinalities clique

def tableEntries : Nat := TableSize.total t.cardinalities t.cliques

def treewidth : Nat := (t.cliques.map List.length).max?.getD 1 - 1

end Triangulation

def Graph.triangulate (g : Graph) (cardinalities : List Nat) : Triangulation :=
  ⟨g, cardinalities, Elimination.steps g⟩

end Bayes
