import Bayes.Error
import Bayes.Scope
import Bayes.Table
import Bayes.VarMap
/-!
Potentials: tables of numbers over a set of variables. A potential is read at an assignment of states
to all variables, of which it only looks at those in its scope; every operation makes a new table by
saying what its value is at each assignment.
-/
namespace Bayes

inductive Reduction where
  | sum
  | max
deriving DecidableEq

structure Potential (α : Type) where
  scope : List Nat
  table : Table α

def assign (scope index : List Nat) (v : Nat) : Nat := ((scope.zip index).lookup v).getD 0

def override (x : Nat → Nat) (v s w : Nat) : Nat := if w = v then s else x w

variable {α : Type} [Scalar α]

def Reduction.apply : Reduction → List α → α
  | sum, xs => xs.sum
  | max, xs => Scalar.maximum xs

namespace Potential

def ofFn (axes : List (Nat × Nat)) (f : (Nat → Nat) → α) : Potential α where
  scope := axes.map (·.1)
  table := Table.ofFn (axes.map (·.2)) fun index => f (assign (axes.map (·.1)) index)

variable (p : Potential α)

def cardinalities : List Nat := p.table.shape

def axes : List (Nat × Nat) := p.scope.zip p.cardinalities

def contains (v : Nat) : Bool := p.scope.contains v

def cardinality? (v : Nat) : Option Nat := p.axes.lookup v

/-- A variable with a single state is in that state, whatever the assignment says. -/
def value (x : Nat → Nat) : α :=
  p.table.entry (p.axes.map fun a => if a.2 = 1 then 0 else x a.1)

def valueAt? (states : List Nat) : Option α := p.table.get? states

def value? (assignment : VarMap Nat) : Option α :=
  (p.scope.mapM assignment.get?).bind p.table.get?

def total : α := p.table.toList.sum

/-- The i-th axis of the table belongs to the i-th variable; axes are permuted so that the variables
increase. -/
def ofTable (scope : List Nat) (table : Table α) : Potential α :=
  ofFn ((Scope.ofList scope).map fun v => (v, ((scope.zip table.shape).lookup v).getD 1))
    fun x => table.entry (scope.map x)

def ofTable? (scope : List Nat) (table : Table α) : Except (Error α) (Potential α) :=
  if table.shape.length ≠ scope.length || (Scope.ofList scope).length ≠ scope.length then
    .error (.scopeMismatch scope table.shape)
  else .ok (ofTable scope table)

def unit : Potential α := ofFn [] fun _ => 1

/-- Of several cardinalities for one variable the first one counts. -/
def firstAxes (axes : List (Nat × Nat)) : List (Nat × Nat) :=
  (Scope.ofList (axes.map (·.1))).map fun v => (v, (axes.lookup v).getD 0)

def constant (axes : List (Nat × Nat)) (value : α) : Potential α :=
  ofFn (firstAxes axes) fun _ => value

def indicator (v cardinality state : Nat) : Potential α :=
  ofFn [(v, cardinality)] fun x => if x v = state then 1 else 0

def zeroed : Potential α := { p with table := p.table.map fun _ => 0 }

/-- The axes of a product. The first operand decides the cardinality of a variable that both have. -/
def jointAxes (p q : Potential α) : List (Nat × Nat) :=
  (Scope.union p.scope q.scope).map fun v =>
    (v, ((p.cardinality? v).or (q.cardinality? v)).getD 1)

def multiply (p q : Potential α) : Potential α :=
  ofFn (p.jointAxes q) fun x => p.value x * q.value x

/-- Zero wherever the divisor is zero. -/
def divide (p q : Potential α) : Potential α :=
  ofFn p.axes fun x => if q.value x == 0 then 0 else p.value x / q.value x

def without (v : Nat) : List (Nat × Nat) := p.axes.filter fun a => a.1 != v

/-- A variable outside the scope leaves the potential as it is. -/
def eliminate (v : Nat) (how : Reduction) : Potential α :=
  match p.cardinality? v with
  | none => p
  | some k =>
    ofFn (p.without v) fun x => how.apply ((List.range k).map fun s => p.value (override x v s))

def sumOut (v : Nat) : Potential α := p.eliminate v .sum

def maxOut (v : Nat) : Potential α := p.eliminate v .max

def onto (keep : List Nat) (how : Reduction) : Potential α :=
  p.scope.reverse.foldl (fun q v => if keep.contains v then q else q.eliminate v how) p

def condition (v state : Nat) : Potential α :=
  if p.contains v then ofFn p.axes fun x => if x v = state then p.value x else 0 else p

def slice (v state : Nat) : Potential α :=
  if p.contains v then ofFn (p.without v) fun x => p.value (override x v state) else p

/-- The total, and the potential divided by it. There is none without a positive finite total. -/
def normalize : Except (Error α) (α × Potential α) :=
  let total := p.total
  if Scalar.lt 0 total && Scalar.isFinite total then
    .ok (total, { p with table := p.table.map (· / total) })
  else .error .contradictoryEvidence

def better : Option (List Nat × α) → List Nat × α → Option (List Nat × α)
  | best, e =>
    if Scalar.aboveBottom e.2 then
      match best with
      | none => some e
      | some b => if Scalar.lt b.2 e.2 then some e else best
    else best

def argmax : List Nat × α :=
  (((Table.indices p.cardinalities).zip p.table.toList).foldl better none).getD
    (p.scope.map fun _ => 0, Scalar.bottom)

def same (p q : Potential α) : Bool :=
  p.scope == q.scope && p.table.shape == q.table.shape && p.table.entries == q.table.entries

end Potential
end Bayes
