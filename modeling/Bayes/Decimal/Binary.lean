/-!
The exact value of a binary64 word: a mantissa times a power of two, or a quotient of two naturals.
-/
namespace Bayes.Decimal

structure Binary where
  mantissa : Nat
  exponent : Int

namespace Binary

variable (b : Binary)

def unit : Nat := Nat.pow 2 b.exponent.toNat

def numerator : Nat := b.mantissa * b.unit

def denominator : Nat := Nat.pow 2 (-b.exponent).toNat

/-- The number below is only half a unit away from a normal power of two. -/
def IsBinade : Prop := b.mantissa = Nat.pow 2 52 ∧ -1074 < b.exponent

instance : Decidable b.IsBinade := inferInstanceAs (Decidable (_ ∧ _))

end Binary

inductive Word where
  | nan
  | infinite
  | finite (magnitude : Binary)

def Word.ofBits (bits : Nat) : Bool × Word :=
  let fraction : Nat := bits % Nat.pow 2 52
  let field : Nat := bits / Nat.pow 2 52 % 2048
  (bits / Nat.pow 2 63 % 2 == 1,
    if field = 2047 then if fraction = 0 then .infinite else .nan
    else if field = 0 then .finite ⟨fraction, -1074⟩
    else .finite ⟨Nat.pow 2 52 + fraction, (field : Int) - 1075⟩)

def decode (x : Float) : Bool × Word := Word.ofBits x.toBits.toNat

end Bayes.Decimal
