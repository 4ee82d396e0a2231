import Bayes.JunctionTree
import Bayes.Network
/-!
Assigning every variable to the smallest clique that holds it together with its parents.
-/
namespace Bayes.JunctionTree

variable {α : Type} (t : JunctionTree)

def covering (family : List Nat) (v : Nat) : List Nat :=
  (t.containing v).filter fun c => family.all (t.clique c).contains

def familyOf (n : Network α) (v : Nat) : Except (Error α) Nat :=
  match t.smallest? (t.covering (n.family v) v) with
  | some c => .ok c
  | none =>
    .error (.notChordal ("no clique covers the family of "
      ++ quoted (((n.node? v).map (·.name)).getD "")))

def settleFamilies (n : Network α) : Except (Error α) JunctionTree := do
  return { t with families := ← n.ids.mapM (t.familyOf n) }

end Bayes.JunctionTree
