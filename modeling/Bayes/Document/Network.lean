import Bayes.Document
import Bayes.Network.Declaration
/-!
Declarations of variables as documents. The parents and the values of a variable may be missing, and
the values may also be said to be none.
-/
namespace Bayes.Declaration

def ofDocument? (d : Document) : Option (Declaration Float) := do
  match ← d.fields? ["name", "states", "parents", "cpt"] with
  | [name, states, parents, values] =>
    some {
      name := ← (← name).text?
      states := ← (← states).listOf? Document.text?
      parents := ← Document.fieldOr? [] (Document.listOf? Document.text?) parents
      values := ← Document.fieldOr? none
        (Document.optional? (Document.listOf? Document.float?)) values }
  | _ => none

def listOfDocument? (d : Document) : Option (List (Declaration Float)) := do
  match ← d.fields? ["variables"] with
  | [declarations] => (← declarations).listOf? ofDocument?
  | _ => none

end Bayes.Declaration
