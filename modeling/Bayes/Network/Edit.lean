import Bayes.Capacity
import Bayes.Network.Order
/-!
Changing a network. An edit that fails leaves no new network, so the old one stands.
-/
namespace Bayes

inductive Edit (α : Type) where
  /-- The new variable has the number of variables before it for its own. -/
  | addVariable (name : String) (states : List String)
  /-- With states `s0`, `s1` and so on. -/
  | addVariableOfSize (name : String) (cardinality : Nat)
  | addEdge (parent child : Nat)
  | setTable (v : Nat) (table : Table α)
  /-- The values in the order of the entries of the table. -/
  | setValues (v : Nat) (values : List α)

def Edit.isHeld {α : Type} : Edit α → Bool
  | .addVariableOfSize _ cardinality => Capacity.ofCollections cardinality
  | .setTable _ table => Capacity.ofTable table.shape
  | .addVariable .. | .addEdge .. | .setValues .. => true

namespace Network

variable {α : Type} [Scalar α]

def uniform (shape : List Nat) : Table α :=
  Table.ofFn shape fun _ => 1 / Scalar.ofNat (shape.getLast?.getD 1)

def addVariable (n : Network α) (name : String) (states : List String) :
    Except (Error α) (Network α) :=
  let distinct := states.eraseDups.length
  if (n.idOf? name).isSome then .error (.duplicateVariable name)
  else if states.length < 2 || distinct ≠ states.length then
    .error (.invalidCardinality name distinct)
  else .ok ⟨n.nodes.push ⟨⟨name, states⟩, [], [], uniform [states.length]⟩⟩

def addVariableOfSize (n : Network α) (name : String) (cardinality : Nat) :
    Except (Error α) (Network α) :=
  n.addVariable name ((List.range cardinality).map fun i => "s" ++ toString i)

def withTable (n : Network α) (v : Nat) (table : Table α) : Network α :=
  ⟨n.nodes.modify v fun node => { node with table }⟩

/-- The child's table becomes uniform over its larger scope. -/
def attach (n : Network α) (parent child : Nat) : Network α :=
  let nodes := n.nodes.modify child fun node => { node with parents := node.parents ++ [parent] }
  let nodes := nodes.modify parent fun node => { node with children := node.children ++ [child] }
  let n : Network α := ⟨nodes⟩
  n.withTable child (uniform (n.tableShape child))

/-- An edge that is there already stays, with the table of the child. -/
def addEdge (n : Network α) (parent child : Nat) : Except (Error α) (Network α) :=
  match n.lookup parent, n.lookup child with
  | .error e, _ => .error e
  | .ok _, .error e => .error e
  | .ok above, .ok below =>
    if below.parents.contains parent then .ok n
    else if parent = child || n.reaches child parent then
      .error (.cyclicNetwork above.name below.name)
    else .ok (n.attach parent child)

def isProbability (x : α) : Bool := Scalar.isFinite x && !Scalar.lt x 0

def isNormalized (sum : α) : Bool :=
  !Scalar.lt Scalar.rowTolerance (sum - 1) && !Scalar.lt Scalar.rowTolerance (1 - sum)

/-- What is wrong with a table: first its shape, then the first bad entry, then the first row with a
bad sum. -/
def fault? (owner : String) (shape : List Nat) (table : Table α) : Option (Error α) :=
  if table.shape ≠ shape then some (.tableShapeMismatch owner shape table.shape)
  else match table.toList.find? fun x => !isProbability x with
    | some x => some (.invalidProbability owner x)
    | none =>
      ((table.rows.map List.sum).zipIdx.find? fun e => !isNormalized e.1).map fun e =>
        .rowNotNormalized owner e.2 e.1

def checkTable (n : Network α) (v : Nat) (table : Table α) : Except (Error α) Unit :=
  match n.lookup v with
  | .error e => .error e
  | .ok node =>
    match fault? node.name (n.tableShape v) table with
    | some e => .error e
    | none => .ok ()

def setTable (n : Network α) (v : Nat) (table : Table α) : Except (Error α) (Network α) :=
  (n.checkTable v table).map fun _ => n.withTable v table

def setValues (n : Network α) (v : Nat) (values : List α) : Except (Error α) (Network α) :=
  match n.lookup v with
  | .error e => .error e
  | .ok node =>
    match Table.ofList? (n.tableShape v) values with
    | none => .error (.tableShapeMismatch node.name (n.tableShape v) [values.length])
    | some table => n.setTable v table

def edit (n : Network α) : Edit α → Except (Error α) (Network α)
  | .addVariable name states => n.addVariable name states
  | .addVariableOfSize name cardinality => n.addVariableOfSize name cardinality
  | .addEdge parent child => n.addEdge parent child
  | .setTable v table => n.setTable v table
  | .setValues v values => n.setValues v values

end Network
end Bayes
