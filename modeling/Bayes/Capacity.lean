/-!
The largest collections. What would take 2 to the power of 63 bytes or more cannot be held at all.
-/
namespace Bayes.Capacity

def bytes : Nat := 9223372036854775808

def holds (count size : Nat) : Bool := count * size < bytes

def ofNumbers (count : Nat) : Bool := holds count 8

def ofCollections (count : Nat) : Bool := holds count 24

/-- An axis of length zero leaves no entries, but does not make the other axes any shorter. -/
def ofTable (shape : List Nat) : Bool :=
  (shape.filter (· != 0)).foldl (· * ·) 1 < bytes && ofNumbers (shape.foldl (· * ·) 1)

end Bayes.Capacity
