import Bayes.Potential
/-!
Bayesian networks: variables with named states, an acyclic parent relation, and for every variable a
conditional table whose axes are the parents, in the order in which they became parents, and last the
variable itself.
-/
namespace Bayes

structure Variable where
  name : String
  states : List String
deriving DecidableEq

namespace Variable

def cardinality (v : Variable) : Nat := v.states.length

def stateIndex? (v : Variable) (state : String) : Option Nat := v.states.findIdx? (· == state)

end Variable

structure Node (α : Type) extends Variable where
  parents : List Nat
  children : List Nat
  table : Table α

structure Network (α : Type) where
  nodes : Array (Node α)

namespace Network

variable {α : Type} (n : Network α)

def empty : Network α := ⟨#[]⟩

def size : Nat := n.nodes.size

def ids : List Nat := List.range n.size

def vars : List Variable := n.nodes.toList.map (·.toVariable)

def node? (v : Nat) : Option (Node α) := n.nodes[v]?

def idOf? (name : String) : Option Nat := n.nodes.toList.findIdx? (·.name == name)

def parents (v : Nat) : List Nat := ((n.node? v).map (·.parents)).getD []

def children (v : Nat) : List Nat := ((n.node? v).map (·.children)).getD []

def cardinality (v : Nat) : Nat := ((n.node? v).map (·.cardinality)).getD 0

def cardinalities : List Nat := n.vars.map (·.cardinality)

def family (v : Nat) : List Nat := Scope.ofList (v :: n.parents v)

/-- Parents first, the variable last. -/
def tableShape (v : Nat) : List Nat :=
  match n.node? v with
  | none => []
  | some node => node.parents.map n.cardinality ++ [node.cardinality]

def lookup (v : Nat) : Except (Error α) (Node α) :=
  match n.node? v with
  | some node => .ok node
  | none => .error (.unknownId v)

def lookupName (name : String) : Except (Error α) Nat :=
  match n.idOf? name with
  | some v => .ok v
  | none => .error (.unknownName name)

def lookupState (v state : Nat) : Except (Error α) (Node α) :=
  match n.lookup v with
  | .error e => .error e
  | .ok node =>
    if state < node.cardinality then .ok node
    else .error (.unknownState node.name (toString state))

def factor [Scalar α] (v : Nat) : Potential α :=
  match n.node? v with
  | none => .unit
  | some node => .ofTable (node.parents ++ [v]) node.table

def factorOf [Scalar α] (v : Nat) : Except (Error α) (Potential α) :=
  (n.lookup v).map fun _ => n.factor v

end Network
end Bayes
