import Bayes.Potential
/-!
Messages: a potential kept with unit mass, and the logarithm of the mass that it stands for. A message
without mass has zeros for entries and no logarithm.
-/
namespace Bayes

structure Message (α : Type) where
  potential : Potential α
  logScale : Option α

namespace Message

variable {α : Type} [Scalar α]

/-- The mass of the potential goes into the scale. -/
def scaled (p : Potential α) (logScale : Option α) : Message α :=
  match p.normalize, logScale with
  | .ok (total, q), some l => ⟨q, some (l + Scalar.log total)⟩
  | _, _ => ⟨p.zeroed, none⟩

def ofPotential (p : Potential α) : Message α := scaled p (some 0)

def unit : Message α := ofPotential .unit

variable (m : Message α)

def isZero : Bool := m.logScale.isNone

def value (x : Nat → Nat) : α :=
  match m.logScale with
  | none => 0
  | some l => m.potential.value x * Scalar.exp l

def value? (assignment : VarMap Nat) : Option α :=
  (m.potential.value? assignment).map fun entry =>
    match m.logScale with
    | none => 0
    | some l => entry * Scalar.exp l

def addScales : Option α → Option α → Option α
  | some l, some k => some (l + k)
  | _, _ => none

def multiply (n : Message α) : Message α :=
  scaled (m.potential.multiply n.potential) (addScales m.logScale n.logScale)

def onto (keep : List Nat) (how : Reduction) : Message α :=
  scaled (m.potential.onto keep how) m.logScale

def absorb (m : Message α) : Option (Message α) → Message α
  | none => m
  | some n => m.multiply n

end Message
end Bayes
