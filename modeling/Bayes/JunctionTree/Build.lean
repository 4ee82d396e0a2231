import Bayes.Capacity
import Bayes.DisjointSets
import Bayes.JunctionTree
/-!
Building a tree of cliques. Pairs of cliques that share a variable are taken in the order of the
number of shared variables, the largest first, and join two parts of the tree or are skipped; parts
that share nothing are chained through their lowest cliques. If any tree of these cliques has the
running intersection property, the one built here has it.
-/
namespace Bayes.JunctionTree

def separatorOf (cliques : Array (List Nat)) (i j : Nat) : Separator :=
  ⟨i, j, Scope.inter (cliques[i]?.getD []) (cliques[j]?.getD [])⟩

/-- Pairs of equal weight keep the order of their indices. -/
def candidates (cliques : Array (List Nat)) : List Separator :=
  (((Scope.pairs (List.range cliques.size)).map fun e => separatorOf cliques e.1 e.2).filter
    fun s => !s.shared.isEmpty).mergeSort
    fun s t => t.shared.length ≤ s.shared.length

/-- The candidates that join two parts, and the parts that are left. -/
def span (sets : DisjointSets) : List Separator → List Separator × DisjointSets
  | [] => ([], sets)
  | s :: rest =>
    let (apart, sets) := sets.union s.lower s.upper
    let (taken, sets) := span sets rest
    (if apart then s :: taken else taken, sets)

def lowest (sets : DisjointSets) (roots : List Nat) : List Nat → List Nat
  | [] => []
  | c :: rest =>
    let (root, sets) := sets.find c
    if roots.contains root then lowest sets roots rest
    else c :: lowest sets (root :: roots) rest

def chain : List Nat → List Separator
  | i :: j :: rest => ⟨i, j, []⟩ :: chain (j :: rest)
  | _ => []

def spanning (cliques : Array (List Nat)) : List Separator :=
  let (taken, sets) := span (.discrete cliques.size) (candidates cliques)
  taken ++ chain (lowest sets [] (List.range cliques.size))

def links (separators : List Separator) (c : Nat) : List (Nat × List Nat) :=
  (separators.filterMap fun s =>
    if s.lower = c then some (s.upper, s.shared)
    else if s.upper = c then some (s.lower, s.shared)
    else none).mergeSort fun a b => a.1 ≤ b.1

def walk (separators : List Separator) : Nat → List Visit → List Visit → List Visit
  | 0, _, done => done.reverse
  | _ + 1, [], done => done.reverse
  | steps + 1, visit :: waiting, done =>
    let seen := (done ++ visit :: waiting).map (·.clique)
    let next := (links separators visit.clique).filter fun l => !seen.contains l.1
    walk separators steps
      (waiting ++ next.map fun l => ⟨l.1, some visit.clique, l.2, visit.depth + 1⟩)
      (visit :: done)

def rooted (cliques : Array (List Nat)) (separators : List Separator) : JunctionTree where
  cliques
  separators
  visits := walk separators cliques.size [⟨0, none, [], 0⟩] []

/-- Repetitions inside a clique are dropped, and no cliques at all count as one empty clique. -/
def arranged (cliques : List (List Nat)) : Array (List Nat) :=
  match cliques with
  | [] => #[[]]
  | cliques => (cliques.map Scope.ofList).toArray

def areHeld (cliques : List (List Nat)) : Bool :=
  cliques.all fun clique => clique.all fun v => Capacity.ofCollections (v + 1)

def build {α : Type} (cliques : List (List Nat)) : Except (Error α) JunctionTree :=
  let cliques := arranged cliques
  let tree := rooted cliques (spanning cliques)
  match tree.violation? with
  | none => .ok tree
  | some v =>
    .error (.notChordal ("running intersection fails for variable " ++ idText v))

end Bayes.JunctionTree
