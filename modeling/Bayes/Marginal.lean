import Bayes.Decimal.Rounded
import Bayes.Scalar
/-!
The distribution of one variable.
-/
namespace Bayes

structure Marginal (α : Type) where
  name : String
  states : List String
  probabilities : List α

namespace Marginal

variable {α : Type} (m : Marginal α)

def pairs : List (String × α) := m.states.zip m.probabilities

def probability? (state : String) : Option α :=
  (m.states.findIdx? (· == state)).bind fun i => m.probabilities[i]?

/-- The state has a probability, if it is one of the variable's at all. -/
def covers (state : String) : Bool :=
  (m.states.findIdx? (· == state)).all (· < m.probabilities.length)

def mode [Scalar α] : Nat :=
  (m.probabilities.zipIdx.foldl (fun best e =>
    match best with
    | none => some e
    | some b => if Scalar.lt b.1 e.1 then some e else best) none).elim 0 (·.2)

def text (m : Marginal Float) : String :=
  m.name ++ ":" ++ String.join (m.pairs.map fun e => " " ++ e.1 ++ "=" ++ Decimal.fixed 6 e.2)

end Marginal
end Bayes
