import Bayes.Capacity
import Bayes.Potential
/-!
Operations on potentials that are defined. Two potentials have a product when they agree about the
cardinalities of the variables that they share; a variable can be set to one of its states only; and
no table may be too large to be held. A table without entries has room for long axes, and becomes too
large when it loses the axis of length zero. All of this is decided by the axes, before any table is
made.
-/
namespace Bayes

variable {α : Type} [Scalar α]

namespace Potential

def areHeld (axes : List (Nat × Nat)) : Bool := Capacity.ofTable (axes.map (·.2))

def constant? (axes : List (Nat × Nat)) (value : α) : Option (Potential α) :=
  if areHeld (firstAxes axes) then some (constant axes value) else none

def indicator? (v cardinality state : Nat) : Option (Potential α) :=
  if areHeld [(v, cardinality)] then some (indicator v cardinality state) else none

variable (p : Potential α)

/-- A variable of both operands has as many states in the second as in the first, or only one. -/
def spreads (q : Potential α) : Bool :=
  q.axes.all fun a =>
    match p.cardinality? a.1 with
    | none => true
    | some k => a.2 = k || a.2 = 1

def multiplies (q : Potential α) : Bool := p.spreads q && areHeld (p.jointAxes q)

def multiply? (q : Potential α) : Option (Potential α) :=
  if p.multiplies q then some (p.multiply q) else none

def divide? (q : Potential α) : Option (Potential α) :=
  if q.scope.all p.contains && p.spreads q then some (p.divide q) else none

def eliminate? (v : Nat) (how : Reduction) : Option (Potential α) :=
  if areHeld (p.without v) then some (p.eliminate v how) else none

/-- The tables on the way to the variables that are kept can all be held: those before some place are
still there, and of the others those that are kept. -/
def narrows (keep : List Nat) : Bool :=
  (List.range p.axes.length).all fun i =>
    areHeld (p.axes.take i ++ (p.axes.drop i).filter fun a => keep.contains a.1)

def onto? (keep : List Nat) (how : Reduction) : Option (Potential α) :=
  if p.narrows keep then some (p.onto keep how) else none

/-- The state is one of the variable's, if the variable is in the scope at all. -/
def hasState (v state : Nat) : Bool := (p.cardinality? v).all (state < ·)

def slice? (v state : Nat) : Option (Potential α) :=
  if p.hasState v state then some (p.slice v state) else none

end Potential
end Bayes
