import Bayes.Decimal.Rounded
/-!
The decimal with the fewest digits that reads back as the given number, and of those the nearest.
If a grid of decimals has a point that reads back, one of the two neighbours of the exact value on
that grid does, so only these are tried, on finer and finer grids.
-/
namespace Bayes.Decimal

/-- The decimals that read back lie between two bounds, given in quarters of the denominator; the
bounds themselves read back when the mantissa is even. -/
def Binary.ReadsBack (b : Binary) (coefficient : Nat) (power : Int) : Prop :=
  let point := 4 * b.denominator * (coefficient * tenTo power.toNat)
  let scale := tenTo (-power).toNat
  let low := (4 * b.numerator - (if b.IsBinade then b.unit else 2 * b.unit)) * scale
  let high := (4 * b.numerator + 2 * b.unit) * scale
  if b.mantissa % 2 = 0 then low ≤ point ∧ point ≤ high else low < point ∧ point < high

instance (b : Binary) (coefficient : Nat) (power : Int) :
    Decidable (b.ReadsBack coefficient power) := by
  unfold Binary.ReadsBack; infer_instance

/-- Of two neighbours that both read back the nearer is taken, and the upper one of equals. -/
def Binary.onGrid? (b : Binary) (power : Int) : Option Nat :=
  let (num, den) := inUnits b.numerator b.denominator power
  let below := num / den
  let above := below + 1
  if num % den = 0 then some below
  else if b.ReadsBack below power then
    if b.ReadsBack above power ∧ den ≤ 2 * (num % den) then some above else some below
  else if b.ReadsBack above power then some above
  else none

def Binary.shortest (b : Binary) : Nat × Int :=
  let leading := leadingExponent b.numerator b.denominator
  ((List.range 17).findSome? fun k : Nat =>
    (b.onGrid? (leading - k)).map fun coefficient => (coefficient, leading - k)).getD (0, 0)

def positional (coefficient : Nat) (power : Int) : String :=
  if 0 ≤ power then toString (coefficient * tenTo power.toNat)
  else if coefficient % 10 = 0 then pointed ((-power).toNat - 1) (coefficient / 10)
  else pointed (-power).toNat coefficient

def shortest (x : Float) : String :=
  spelled x fun negative b =>
    signed negative (if b.mantissa = 0 then "0" else
      positional b.shortest.1 b.shortest.2)

end Bayes.Decimal
