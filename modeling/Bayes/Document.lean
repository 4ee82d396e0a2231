/-!
Descriptions of networks and settings come as documents: nested lists and records of text, numbers
and truth values. A number keeps its decimal digits, so that nothing is rounded before it is used.
-/
namespace Bayes

structure Numeral where
  negative : Bool
  digits : Nat
  power : Int
  /-- Written as an integer, without a fraction or an exponent. -/
  whole : Bool

namespace Numeral

/-- Only numbers of a machine word count; a negative zero is not an integer. -/
def toNat? (n : Numeral) : Option Nat :=
  if n.whole && !n.negative && n.digits < 18446744073709551616 then some n.digits else none

def magnitude (n : Numeral) : Int := (Nat.toDigits 10 n.digits).length + n.power

/-- What is smaller than every binary64 number but zero is zero, and what is larger than all of them
is infinite, however long its exponent. -/
def toFloat (n : Numeral) : Float :=
  let x :=
    if n.digits = 0 || n.magnitude < -400 then 0
    else if 400 < n.magnitude then 1 / 0
    else Float.ofScientific n.digits (n.power < 0) n.power.natAbs
  if n.negative then -x else x

end Numeral

inductive Document where
  | null
  | truth (value : Bool)
  | number (value : Numeral)
  | text (value : String)
  | list (items : List Document)
  /-- The last field stands first, so that of two fields of one name the later one is found. -/
  | record (fields : List (String × Document))

namespace Document

def truth? : Document → Option Bool
  | truth b => some b
  | _ => none

def nat? : Document → Option Nat
  | number n => n.toNat?
  | _ => none

def float? : Document → Option Float
  | number n => some n.toFloat
  | _ => none

def text? : Document → Option String
  | text s => some s
  | _ => none

def list? : Document → Option (List Document)
  | list items => some items
  | _ => none

def listOf? {β : Type} (item? : Document → Option β) (d : Document) : Option (List β) :=
  d.list?.bind (·.mapM item?)

def optional? {β : Type} (item? : Document → Option β) : Document → Option (Option β)
  | null => some none
  | d => (item? d).map some

def field? (name : String) : Document → Option Document
  | record fields => fields.lookup name
  | _ => none

/-- The values of the named fields. A record may also be written as the list of its first fields,
and may name fields that are not asked for. -/
def fields? (names : List String) : Document → Option (List (Option Document))
  | record fields => some (names.map fun name => fields.lookup name)
  | list items =>
    if items.length ≤ names.length then
      some (items.map some ++ List.replicate (names.length - items.length) none)
    else none
  | _ => none

/-- Where a field is missing the default stands; where it is present it must fit. -/
def fieldOr? {β : Type} (default : β) (item? : Document → Option β) : Option Document → Option β
  | none => some default
  | some d => item? d

end Document
end Bayes
