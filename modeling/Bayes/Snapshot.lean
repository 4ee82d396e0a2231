import Bayes.Evidence
import Bayes.Graph.Chordal
import Bayes.JunctionTree.Build
import Bayes.JunctionTree.Families
import Bayes.Marginal
import Bayes.Network.Moral
import Bayes.Propagation
import Bayes.Triangulation
/-!
A compiled network, and the outcome of one propagation over it. The factor of a clique holds the
conditional tables of the variables assigned to it and what is known about them.
-/
namespace Bayes

structure Compiled where
  vars : List Variable
  triangulation : Triangulation
  tree : JunctionTree

section Compilation

variable {α : Type} [Scalar α]

/-- The limit is compared before any table is made. -/
def Network.compile (n : Network α) (limit : Option Nat) : Except (Error α) Compiled :=
  let triangulation := n.moralize.triangulate n.cardinalities
  match limit.filter (· < triangulation.tableEntries) with
  | some limit => .error (.tooComplex triangulation.tableEntries limit)
  | none => do
    let tree ← JunctionTree.build triangulation.cliques
    return ⟨n.vars, triangulation, ← tree.settleFamilies n⟩

/-- Evidence on a variable stays in the factor also when its conditional table is left out; an
intervention takes the place of the table. -/
def Network.absorbFinding (n : Network α) (findings : Findings) (leftOut : Option Nat)
    (factor : Potential α) (v : Nat) : Potential α :=
  if leftOut = some v then
    match findings.get? v with
    | some ⟨.observed, state⟩ => factor.condition v state
    | _ => factor
  else
    match findings.get? v with
    | some ⟨.intervened, state⟩ => factor.multiply (.indicator v (n.cardinality v) state)
    | some ⟨.observed, state⟩ => (factor.multiply (n.factor v)).condition v state
    | none => factor.multiply (n.factor v)

def Network.cliqueFactor (n : Network α) (tree : JunctionTree) (findings : Findings)
    (leftOut : Option Nat) (c : Nat) : Potential α :=
  (tree.assigned c).foldl (n.absorbFinding findings leftOut)
    (.constant ((tree.clique c).map fun v => (v, n.cardinality v)) 1)

def Network.propagator (n : Network α) (tree : JunctionTree) (findings : Findings)
    (cancelled : Bool) : Propagator α where
  tree
  factors := ((List.range tree.size).map (n.cliqueFactor tree findings none)).toArray
  cancelled

end Compilation

structure Snapshot (α : Type) where
  epoch : Nat
  findings : Findings
  compiled : Compiled
  calibrated : Calibrated α

namespace Snapshot

variable {α : Type} [Scalar α] (s : Snapshot α)

def logProbability : Option α := s.calibrated.logPartition

def probability : α := s.logProbability.elim 0 Scalar.exp

def isContradictory : Bool := s.logProbability.isNone

def belief? (c : Nat) : Option (Message α) := s.calibrated.beliefs.at? c

/-- Read off the smallest clique that contains the variable. -/
def marginal (v : Nat) : Except (Error α) (Marginal α) :=
  match s.compiled.vars[v]? with
  | none => .error (.unknownId v)
  | some x =>
    if s.isContradictory then .error .contradictoryEvidence
    else match s.compiled.tree.home? v with
      | none => .error (.unknownId v)
      | some c => do
        let (_, p) ←
          ((s.calibrated.beliefs.got c).potential.onto [v] .sum).normalize
        return ⟨x.name, x.states, p.table.toList⟩

def marginals : Except (Error α) (List (Marginal α)) :=
  (List.range s.compiled.vars.length).mapM s.marginal

end Snapshot
end Bayes
