import Bayes.Network.Edit
/-!
Networks from declarations. The declarations are worked off in three rounds, all variables first, then
all edges, then all tables, so one may name a variable before it is declared.
-/
namespace Bayes

structure Declaration (α : Type) where
  name : String
  states : List String
  parents : List String := []
  /-- Without values the table is uniform. -/
  values : Option (List α) := none

namespace Network

variable {α : Type} [Scalar α]

def declareVariable (n : Network α) (d : Declaration α) : Except (Error α) (Network α) :=
  n.addVariable d.name d.states

def addParent (child : Nat) (n : Network α) (name : String) : Except (Error α) (Network α) := do
  n.addEdge (← n.lookupName name) child

def declareParents (n : Network α) (d : Declaration α) : Except (Error α) (Network α) := do
  d.parents.foldlM (addParent (← n.lookupName d.name)) n

def declareValues (n : Network α) (d : Declaration α) : Except (Error α) (Network α) :=
  match d.values with
  | none => .ok n
  | some values => do n.setValues (← n.lookupName d.name) values

def ofDeclarations (ds : List (Declaration α)) : Except (Error α) (Network α) := do
  let n ← ds.foldlM declareVariable empty
  let n ← ds.foldlM declareParents n
  ds.foldlM declareValues n

end Network
end Bayes
