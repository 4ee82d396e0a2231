import Bayes.Random.Network
/-!
Draws from a stream of 64-bit words: a counter that grows by a fixed odd step, mixed by shifts and
multiplications. The low eight bits of every word are cleared.
-/
namespace Bayes.Random

def nextWord (counter : UInt64) : UInt64 × UInt64 :=
  let counter := counter + 0x9E3779B97F4A7C15
  let z := (counter ^^^ (counter >>> 30)) * 0xBF58476D1CE4E5B9
  let z := (z ^^^ (z >>> 27)) * 0x94D049BB133111EB
  ((z ^^^ (z >>> 31)) &&& 0xFFFFFFFFFFFFFF00, counter)

def wordCount : Nat := 18446744073709551616

/-- The high half of a word times the number of values, unless the low half is in the last, incomplete
part of the range. Then another word is drawn, which happens less than every other time. -/
def draw (lo range zone : Nat) : Nat → UInt64 → Nat × UInt64
  | 0, counter => (lo, counter)
  | tries + 1, counter =>
    let (word, counter) := nextWord counter
    let product := word.toNat * range
    if product % wordCount ≤ zone then (lo + product / wordCount, counter)
    else draw lo range zone tries counter

def wordBetween (lo hi : Nat) (counter : UInt64) : Nat × UInt64 :=
  let range := hi - lo + 1
  draw lo range (wordCount - 1 - (wordCount - range) % range) 1000 counter

/-- A certain event needs no word. -/
def wordEvent (p : Float) (counter : UInt64) : Bool × UInt64 :=
  if p == 1 then (true, counter)
  else
    let (word, counter) := nextWord counter
    (word < (p * 18446744073709551616).toUInt64, counter)

/-- The number of doubles from zero to one on the finest even grid. -/
def grid : Float := 9007199254740992

/-- Where the outermost of 256 layers of equal area begins, and its width at the bottom. -/
def tailStart : Float := 7.697117470131050077
def baseWidth : Float := 8.697117470131052741

/-- The cleared bits of a word always select the bottom layer, whose end stands for the tail. -/
def wordExponential (counter : UInt64) : Float × UInt64 :=
  let (word, counter) := nextWord counter
  let u := Float.ofBits ((0x3FF0000000000000 : UInt64) ||| (word >>> 12)) - (1 - 1 / grid)
  let x := u * baseWidth
  if x < tailStart then (x, counter)
  else
    let (word, counter) := nextWord counter
    (tailStart - Float.log ((word >>> 11).toFloat / grid), counter)

def words : Draws UInt64 Float where
  between := wordBetween
  event := wordEvent
  exponential := wordExponential

end Bayes.Random
