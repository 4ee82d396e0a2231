import Bayes.Decimal.Binary
/-!
Decimal text with a given number of digits. The digits are those of the exact value, rounded to the
nearest, and of two equally near ones to the even one.
-/
namespace Bayes.Decimal

def roundHalfEven (num den : Nat) : Nat :=
  let q := num / den
  let r := num % den
  if 2 * r < den then q else if den < 2 * r then q + 1 else q + q % 2

def tenTo (k : Nat) : Nat := Nat.pow 10 k

def digitCount (n : Nat) : Nat := (Nat.toDigits 10 n).length

def leadingExponent (num den : Nat) : Int :=
  if den ≤ num then (digitCount (num / den) : Int) - 1
  else -(digitCount ((den + num - 1) / num - 1) : Int)

def inUnits (num den : Nat) (power : Int) : Nat × Nat :=
  (num * tenTo (-power).toNat, den * tenTo power.toNat)

def padded (width n : Nat) : String :=
  let digits := Nat.toDigits 10 n
  String.ofList (List.replicate (width - digits.length) '0' ++ digits)

def pointed (places units : Nat) : String :=
  if places = 0 then toString units
  else toString (units / tenTo places) ++ "." ++ padded places (units % tenTo places)

def signed (negative : Bool) (text : String) : String := if negative then "-" ++ text else text

def spelled (x : Float) (finite : Bool → Binary → String) : String :=
  match decode x with
  | (_, .nan) => "NaN"
  | (negative, .infinite) => signed negative "inf"
  | (negative, .finite b) => finite negative b

/-- The sign of a number that rounds to zero is kept. -/
def fixed (places : Nat) (x : Float) : String :=
  spelled x fun negative b =>
    signed negative (pointed places (roundHalfEven (b.numerator * tenTo places) b.denominator))

def scientific (places : Nat) (x : Float) : String :=
  spelled x fun negative b =>
    if b.mantissa = 0 then "0" else
    let power := leadingExponent b.numerator b.denominator
    let (num, den) := inUnits b.numerator b.denominator (power - places)
    let units := roundHalfEven num den
    let (units, power) :=
      if units = tenTo (places + 1) then (tenTo places, power + 1) else (units, power)
    signed negative (pointed places units ++ "e" ++ toString power)

end Bayes.Decimal
