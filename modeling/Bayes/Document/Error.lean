import Bayes.Document
import Bayes.Error
/-!
Errors as documents: the name of the cause alone, or a record with the name as its only field.
-/
namespace Bayes.Error

variable (d : Document)

private def textAt? (name : String) : Option String := (d.field? name).bind Document.text?
private def natAt? (name : String) : Option Nat := (d.field? name).bind Document.nat?
private def floatAt? (name : String) : Option Float := (d.field? name).bind Document.float?
private def natsAt? (name : String) : Option (List Nat) :=
  (d.field? name).bind (Document.listOf? Document.nat?)

def bare? : String → Option (Error Float)
  | "ContradictoryEvidence" => some contradictoryEvidence
  | "EvidenceFrozen" => some frozenEvidence
  | "Cancelled" => some cancelled
  | _ => none

def ofFields? (cause : String) (d : Document) : Option (Error Float) :=
  match cause, d with
  | cause, .null => bare? cause
  | "DuplicateVariable", d => d.text?.map duplicateVariable
  | "InvalidCardinality", .record _ => do
    some (invalidCardinality (← textAt? d "variable") (← natAt? d "cardinality"))
  | "CyclicNetwork", .record _ => do
    some (cyclicNetwork (← textAt? d "parent") (← textAt? d "child"))
  | "UnknownVariable", d => d.text?.map unknownVariable
  | "UnknownState", .record _ => do
    some (unknownState (← textAt? d "variable") (← textAt? d "state"))
  | "CptShapeMismatch", .record _ => do
    some (tableShapeMismatch (← textAt? d "variable") (← natsAt? d "expected") (← natsAt? d "found"))
  | "InvalidProbability", .record _ => do
    some (invalidProbability (← textAt? d "variable") (← floatAt? d "value"))
  | "CptNotNormalized", .record _ => do
    some (rowNotNormalized (← textAt? d "variable") (← natAt? d "configuration")
      (← floatAt? d "sum"))
  | "ScopeMismatch", .record _ => do
    some (scopeMismatch (← natsAt? d "scope") (← natsAt? d "shape"))
  | "NonChordalInput", d => d.text?.map notChordal
  | "InferenceTooComplex", .record _ => do
    some (tooComplex (← natAt? d "estimated") (← natAt? d "limit"))
  | "UnpropagatedQuery", .record _ => (natAt? d "epoch").map notPropagated
  | "ConflictingFindings", d => d.text?.map conflictingFindings
  | "ThreadPool", d => d.text?.map noWorkers
  | _, _ => none

def ofDocument? : Document → Option (Error Float)
  | .text cause => bare? cause
  | .record [(cause, d)] => ofFields? cause d
  | _ => none

end Bayes.Error
