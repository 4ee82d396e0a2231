import Bayes.Propagation
/-!
A best assignment: after collecting maxima, every clique from the root on chooses the best states for
its variables, given those already chosen for the variables shared with its parent.
-/
namespace Bayes.Propagator

variable {α : Type} [Scalar α] (p : Propagator α)

def decide (collected : Collected α) (chosen : VarMap Nat) (c : Nat) : VarMap Nat :=
  let table := (p.tree.separatorAbove c).foldl (fun q v =>
      match chosen.get? v with
      | none => q
      | some s => q.slice v s)
    (collected.gathered.got c).potential
  (table.scope.zip table.argmax.1).foldl (fun chosen e => chosen.insertIfNew e.1 e.2) chosen

/-- The best assignment and the logarithm of its value, unless every value is zero. -/
def maxProduct : Except (Error α) (Option (VarMap Nat × α)) := do
  let collected ← p.collect .max
  return (collected.logTotal p.tree.root).map fun log =>
    (p.tree.preorder.foldl (p.decide collected) .empty, log)

end Bayes.Propagator
