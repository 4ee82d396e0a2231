import Bayes.Network
/-!
Following the edges of a network: which variables a variable leads to, and the order in which every
variable comes after its parents.
-/
namespace Bayes.Network

variable {α : Type} (n : Network α)

def reachesFrom (goal : Nat) : Nat → List Nat → List Nat → Bool
  | 0, _, _ => false
  | _ + 1, [], _ => false
  | steps + 1, v :: waiting, visited =>
    if v = goal then true
    else if visited.contains v then reachesFrom goal steps waiting visited
    else reachesFrom goal steps (n.children v ++ waiting) (v :: visited)

/-- Every edge puts a variable on the list of waiting ones at most once. -/
def reaches (start goal : Nat) : Bool :=
  n.reachesFrom goal (n.ids.foldl (fun edges v => edges + (n.children v).length) 2) [start] []

/-- The lowest variable that is not placed yet and has all its parents placed. -/
def nextPlaced? (placed : List Nat) : Option Nat :=
  n.ids.find? fun v => !placed.contains v && (n.parents v).all placed.contains

def place : Nat → List Nat → List Nat
  | 0, _ => []
  | steps + 1, placed =>
    match n.nextPlaced? placed with
    | none => []
    | some v => v :: place steps (v :: placed)

def topologicalOrder : List Nat := n.place n.size []

end Bayes.Network
