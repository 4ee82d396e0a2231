/-!
The numbers that tables hold. A running program uses `Float`; every definition of the library takes
its numbers from the class below, so the same definition can also be read over an exact field.
-/
namespace Bayes

/-- Comparison is Boolean because a number may be incomparable with everything, itself included. -/
class Scalar (α : Type) extends Zero α, One α, Add α, Sub α, Mul α, Div α, BEq α where
  ofNat : Nat → α
  lt : α → α → Bool
  isFinite : α → Bool
  /-- The maximum of no numbers. -/
  bottom : α
  /-- The numbers that can be a maximum; one that compares with nothing never is. -/
  aboveBottom : α → Bool
  exp : α → α
  log : α → α

-- A type with operations of its own is read with those first.
attribute [instance (100)] Scalar.toZero Scalar.toOne Scalar.toAdd Scalar.toSub Scalar.toMul
  Scalar.toDiv Scalar.toBEq

namespace Scalar

variable {α : Type} [Scalar α]

/-- How far the sum of a row of a conditional table may be from one: a millionth. -/
def rowTolerance : α := 1 / ofNat 1000000

/-- The distance from one to the next binary64 number. -/
def epsilon : α := 1 / ofNat 4503599627370496

def larger (x y : α) : α := if lt x y then y else x

def maximum (xs : List α) : α :=
  match xs.filter aboveBottom with
  | [] => bottom
  | x :: rest => rest.foldl larger x

end Scalar

instance : Scalar Float where
  zero := 0
  one := 1
  ofNat := Float.ofNat
  lt x y := x < y
  isFinite := Float.isFinite
  bottom := -1 / 0
  aboveBottom x := -1 / 0 < x
  exp := Float.exp
  log := Float.log

end Bayes
