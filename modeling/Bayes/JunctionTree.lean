import Bayes.Error
import Bayes.Scope
import Bayes.TableSize
/-!
Rooted trees of cliques. A tree is recorded as the visits of a walk from the root that reaches every
clique after its parent; what is asked about parents, children and depths is read off the walk.
-/
namespace Bayes

structure Separator where
  lower : Nat
  upper : Nat
  shared : List Nat

structure Visit where
  clique : Nat
  parent : Option Nat
  /-- The variables shared with the parent. -/
  separator : List Nat
  depth : Nat

structure JunctionTree where
  cliques : Array (List Nat)
  separators : List Separator
  visits : List Visit
  /-- The clique that holds the conditional table of each variable, once this has been settled. -/
  families : List Nat := []

namespace JunctionTree

variable (t : JunctionTree)

def size : Nat := t.cliques.size

def clique (c : Nat) : List Nat := t.cliques[c]?.getD []

def preorder : List Nat := t.visits.map (·.clique)

def root : Nat := t.preorder.head?.getD 0

def postorder : List Nat := t.preorder.reverse

def visit? (c : Nat) : Option Visit := t.visits.find? (·.clique == c)

def parent? (c : Nat) : Option Nat := (t.visit? c).bind (·.parent)

def separatorAbove (c : Nat) : List Nat := ((t.visit? c).map (·.separator)).getD []

def depth (c : Nat) : Nat := ((t.visit? c).map (·.depth)).getD 0

def children (c : Nat) : List Nat :=
  (t.visits.filter (·.parent == some c)).map (·.clique)

def leaves : List Nat := (List.range t.size).filter fun c => (t.children c).isEmpty

def containing (v : Nat) : List Nat :=
  (List.range t.size).filter fun c => (t.clique c).contains v

def smallest? (cs : List Nat) : Option Nat :=
  cs.foldl (fun best c =>
    match best with
    | none => some c
    | some b => if (t.clique c).length < (t.clique b).length then some c else some b) none

def home? (v : Nat) : Option Nat := t.smallest? (t.containing v)

def family? (v : Nat) : Option Nat := t.families[v]?

def assigned (c : Nat) : List Nat :=
  (List.range t.families.length).filter fun v => t.families[v]? == some c

def tableEntries (cardinalities : List Nat) : Nat :=
  TableSize.total cardinalities t.cliques.toList

/-- In a tree, some cliques are connected just when one separator fewer joins them. A separator joins
two cliques that contain a variable just when it contains the variable. -/
def joins (v : Nat) : Bool :=
  let containing := (t.cliques.toList.filter (·.contains v)).length
  let joining := (t.separators.filter (·.shared.contains v)).length
  containing == 0 || joining + 1 == containing

def violation? : Option Nat :=
  (Scope.ofList t.cliques.toList.flatten).find? fun v => !t.joins v

def hasRunningIntersection : Bool := t.violation?.isNone

end JunctionTree
end Bayes
