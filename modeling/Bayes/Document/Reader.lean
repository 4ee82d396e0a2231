import Bayes.Document
/-!
Reading a document from its written form: records in braces, lists in brackets, quoted text with
escapes. Every step either shortens the rest of the text or ends, so the length of the text bounds
the depth of the recursion.
-/
namespace Bayes.Document.Reader

def isBlank (c : Char) : Bool := c == ' ' || c == '\n' || c == '\t' || c == '\r'

def skipBlank (cs : List Char) : List Char := cs.dropWhile isBlank

def hexDigit? (c : Char) : Option Nat :=
  if c.isDigit then some (c.toNat - '0'.toNat)
  else if 'a' ≤ c && c ≤ 'f' then some (c.toNat - 'a'.toNat + 10)
  else if 'A' ≤ c && c ≤ 'F' then some (c.toNat - 'A'.toNat + 10)
  else none

def unit? : List Char → Option (Nat × List Char)
  | a :: b :: c :: d :: rest => do
    let a ← hexDigit? a
    let b ← hexDigit? b
    let c ← hexDigit? c
    let d ← hexDigit? d
    some (((a * 16 + b) * 16 + c) * 16 + d, rest)
  | _ => none

def isHigh (u : Nat) : Bool := 0xD800 ≤ u && u < 0xDC00
def isLow (u : Nat) : Bool := 0xDC00 ≤ u && u < 0xE000

def escapedUnit? (cs : List Char) : Option (Char × List Char) := do
  let (high, rest) ← unit? cs
  if isLow high then none
  else if isHigh high then
    match rest with
    | '\\' :: 'u' :: more => do
      let (low, rest) ← unit? more
      if isLow low then
        some (Char.ofNat (0x10000 + (high - 0xD800) * 0x400 + (low - 0xDC00)), rest)
      else none
    | _ => none
  else some (Char.ofNat high, rest)

def escaped? : List Char → Option (Char × List Char)
  | '"' :: rest => some ('"', rest)
  | '\\' :: rest => some ('\\', rest)
  | '/' :: rest => some ('/', rest)
  | 'b' :: rest => some (Char.ofNat 8, rest)
  | 'f' :: rest => some (Char.ofNat 12, rest)
  | 'n' :: rest => some ('\n', rest)
  | 'r' :: rest => some ('\r', rest)
  | 't' :: rest => some ('\t', rest)
  | 'u' :: rest => escapedUnit? rest
  | _ => none

def text : Nat → List Char → List Char → Option (String × List Char)
  | 0, _, _ => none
  | _ + 1, _, [] => none
  | _ + 1, out, '"' :: rest => some (String.ofList out.reverse, rest)
  | fuel + 1, out, '\\' :: rest => do
    let (c, rest) ← escaped? rest
    text fuel (c :: out) rest
  | fuel + 1, out, c :: rest => if c.toNat < 32 then none else text fuel (c :: out) rest

def natural (digits : List Char) : Nat :=
  digits.foldl (fun n c => 10 * n + (c.toNat - '0'.toNat)) 0

def fraction? : List Char → Option (List Char × List Char)
  | '.' :: rest =>
    let digits := rest.takeWhile Char.isDigit
    if digits.isEmpty then none else some (digits, rest.dropWhile Char.isDigit)
  | rest => some ([], rest)

def exponentDigits? (negative : Bool) (cs : List Char) : Option (Int × List Char) :=
  let digits := cs.takeWhile Char.isDigit
  if digits.isEmpty then none
  else
    let e : Int := natural digits
    some (if negative then -e else e, cs.dropWhile Char.isDigit)

def exponent? : List Char → Option (Option Int × List Char)
  | c :: rest =>
    if c == 'e' || c == 'E' then
      (match rest with
        | '-' :: rest => exponentDigits? true rest
        | '+' :: rest => exponentDigits? false rest
        | rest => exponentDigits? false rest).map fun (e, rest) => (some e, rest)
    else some (none, c :: rest)
  | [] => some (none, [])

/-- A leading zero stands alone. -/
def numeral? (negative : Bool) (cs : List Char) : Option (Numeral × List Char) := do
  let digits := cs.takeWhile Char.isDigit
  if digits.isEmpty || (digits.head? == some '0' && 1 < digits.length) then none
  else
    let (decimals, rest) ← fraction? (cs.dropWhile Char.isDigit)
    let (exponent, rest) ← exponent? rest
    let whole := decimals.isEmpty && exponent.isNone
    some (⟨negative, natural (digits ++ decimals), exponent.getD 0 - decimals.length, whole⟩, rest)

def word? (name : List Char) (d : Document) (cs : List Char) : Option (Document × List Char) :=
  if name.isPrefixOf cs then some (d, cs.drop name.length) else none

mutual

def value : Nat → List Char → Option (Document × List Char)
  | 0, _ => none
  | fuel + 1, cs =>
    match skipBlank cs with
    | '"' :: rest => (text fuel [] rest).map fun (s, rest) => (.text s, rest)
    | '[' :: rest =>
      match skipBlank rest with
      | ']' :: rest => some (.list [], rest)
      | rest => items fuel [] rest
    | '\x7b' :: rest =>
      match skipBlank rest with
      | '\x7d' :: rest => some (.record [], rest)
      | rest => fields fuel [] rest
    | '-' :: rest => (numeral? true rest).map fun (n, rest) => (.number n, rest)
    | 't' :: rest => word? ['r', 'u', 'e'] (.truth true) rest
    | 'f' :: rest => word? ['a', 'l', 's', 'e'] (.truth false) rest
    | 'n' :: rest => word? ['u', 'l', 'l'] .null rest
    | rest => (numeral? false rest).map fun (n, rest) => (.number n, rest)

def items : Nat → List Document → List Char → Option (Document × List Char)
  | 0, _, _ => none
  | fuel + 1, out, cs => do
    let (d, rest) ← value fuel cs
    match skipBlank rest with
    | ',' :: rest => items fuel (d :: out) rest
    | ']' :: rest => some (.list (d :: out).reverse, rest)
    | _ => none

def fields : Nat → List (String × Document) → List Char → Option (Document × List Char)
  | 0, _, _ => none
  | fuel + 1, out, cs =>
    match skipBlank cs with
    | '"' :: rest => do
      let (name, rest) ← text fuel [] rest
      match skipBlank rest with
      | ':' :: rest => do
        let (d, rest) ← value fuel rest
        match skipBlank rest with
        | ',' :: rest => fields fuel ((name, d) :: out) rest
        | '\x7d' :: rest => some (.record ((name, d) :: out), rest)
        | _ => none
      | _ => none
    | _ => none

end

end Reader

def parse? (s : String) : Option Document :=
  let cs := s.toList
  match Reader.value (cs.length + 1) cs with
  | some (d, rest) => if (Reader.skipBlank rest).isEmpty then some d else none
  | none => none

end Bayes.Document
