/-!
What can be wrong with a network, a table, a piece of evidence or a run, and how it is told.
-/
namespace Bayes

/-- Variables are known by their numbers, in the order in which they were added. An owner is the name
of the variable whose conditional table is meant. -/
inductive Error (α : Type) where
  | duplicateVariable (name : String)
  | invalidCardinality (name : String) (distinctStates : Nat)
  | cyclicNetwork (parent child : String)
  | unknownVariable (text : String)
  | unknownState (name state : String)
  | tableShapeMismatch (owner : String) (expected found : List Nat)
  | invalidProbability (owner : String) (value : α)
  | rowNotNormalized (owner : String) (configuration : Nat) (sum : α)
  | scopeMismatch (scope : List Nat) (shape : List Nat)
  | notChordal (reason : String)
  | tooComplex (estimated limit : Nat)
  | contradictoryEvidence
  | notPropagated (epoch : Nat)
  | conflictingFindings (name : String)
  | frozenEvidence
  | cancelled
  | noWorkers (reason : String)

def quoted (name : String) : String := "`" ++ name ++ "`"

def idText (v : Nat) : String := "#" ++ toString v

namespace Error

variable {α : Type}

def unknownId (v : Nat) : Error α := .unknownVariable (idText v)

def unknownName (name : String) : Error α := .unknownVariable (quoted name)

def listed (items : List String) : String := "[" ++ String.intercalate ", " items ++ "]"

def shapeText (shape : List Nat) : String := listed (shape.map toString)

def scopeText (scope : List Nat) : String :=
  listed (scope.map fun v => "VarId(" ++ toString v ++ ")")

def message (number : α → String) : Error α → String
  | duplicateVariable name => "Variable " ++ quoted name ++ " is already defined in the network"
  | invalidCardinality name states =>
    "Variable " ++ quoted name ++ " must have at least 2 distinct states, got " ++ toString states
  | cyclicNetwork parent child =>
    "Edge " ++ quoted parent ++ " -> " ++ quoted child ++ " would close a directed cycle"
  | unknownVariable text => "Unknown variable " ++ text
  | unknownState name state => "Variable " ++ quoted name ++ " has no state " ++ state
  | tableShapeMismatch owner expected found =>
    "CPT of " ++ quoted owner ++ " must have shape " ++ shapeText expected ++ ", got "
      ++ shapeText found
  | invalidProbability owner value =>
    "CPT of " ++ quoted owner ++ " contains an invalid probability " ++ number value
  | rowNotNormalized owner configuration sum =>
    "CPT of " ++ quoted owner ++ " is not normalized: parent configuration "
      ++ toString configuration ++ " sums to " ++ number sum
  | scopeMismatch scope shape =>
    "Table of shape " ++ shapeText shape ++ " does not fit scope " ++ scopeText scope
  | notChordal reason =>
    "Cliques are not derived from a triangulated moral graph: " ++ reason
  | tooComplex estimated limit =>
    "Inference is too complex: estimated table size " ++ toString estimated
      ++ " exceeds the limit " ++ toString limit
  | contradictoryEvidence => "Evidence is contradictory: its probability is zero"
  | notPropagated epoch => "No completed propagation for epoch " ++ toString epoch
  | conflictingFindings name =>
    "Variable " ++ quoted name ++ " can not be observed and intervened at the same time"
  | frozenEvidence => "Cannot change evidence because it is frozen"
  | cancelled => "Propagation was cancelled"
  | noWorkers reason => "Failed to build a worker pool: " ++ reason

end Error
end Bayes
