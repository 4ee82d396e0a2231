/-!
Sizes of tables, counted up to the largest machine word. A count that would exceed it stays there,
and a later factor zero brings it back to zero.
-/
namespace Bayes.TableSize

def limit : Nat := 18446744073709551615

def mul (a b : Nat) : Nat := min (a * b) limit

def add (a b : Nat) : Nat := min (a + b) limit

variable (cardinalities : List Nat)

def cardinality (v : Nat) : Nat := cardinalities[v]?.getD 0

def covers (clique : List Nat) : Bool := clique.all (· < cardinalities.length)

def ofClique (clique : List Nat) : Nat :=
  clique.foldl (fun size v => mul size (cardinality cardinalities v)) 1

def total (cliques : List (List Nat)) : Nat :=
  cliques.foldl (fun size clique => add size (ofClique cardinalities clique)) 0

end Bayes.TableSize
