import Bayes.Graph
/-!
Recognising chordal graphs. A maximum cardinality search numbers the vertices; in a chordal graph the
neighbours of a vertex that were numbered before it are pairwise adjacent, and it is enough to compare
all of them with the one numbered last.
-/
namespace Bayes.Graph

variable (g : Graph)

/-- Orders are written with the vertex numbered last in front. -/
def weight (numbered : List Nat) (v : Nat) : Nat := (g.neighbors v).countP numbered.contains

def heaviest? (numbered : List Nat) : Option Nat :=
  g.vertices.foldl (fun best v =>
    if numbered.contains v then best
    else match best with
      | none => some v
      | some b => if g.weight numbered b < g.weight numbered v then some v else some b) none

def search : Nat → List Nat → List Nat
  | 0, numbered => numbered
  | steps + 1, numbered =>
    match g.heaviest? numbered with
    | none => numbered
    | some v => search steps (v :: numbered)

def cardinalitySearch : List Nat := g.search g.size []

/-- For every vertex of the list, its neighbours further on are adjacent to the first of them. -/
def eliminates : List Nat → Bool
  | [] => true
  | v :: rest =>
    (match rest.filter (g.hasEdge v) with
      | [] => true
      | u :: others => others.all (g.hasEdge u)) && eliminates rest

def isChordal : Bool := g.eliminates g.cardinalitySearch

end Bayes.Graph
