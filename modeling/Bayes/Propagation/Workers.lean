import Bayes.Propagation
/-!
Passes shared by several workers. A clique is ready to be visited once everything it waits for has
been sent: when collecting, the messages of all its children, which a counter keeps track of; when
distributing, the message of its parent. Workers take ready cliques in any order, so distributing is
described by the list of its turns, and collecting by that of its steps, as turns of workers overlap.
-/
namespace Bayes

structure Collecting (α : Type) where
  /-- For every clique the number of children that have not sent. -/
  pending : Array Nat
  ready : List Nat
  collected : Collected α

/-- What a worker does about a clique when collecting. In between other workers may do anything. -/
inductive Collecting.Step where
  | visit (c : Nat)
  | notify (c : Nat)
deriving DecidableEq

/-- A collecting pass in which workers visit several cliques at a time. -/
structure Overlapping (α : Type) extends Collecting α where
  /-- The cliques that were visited and have not told their parents. -/
  silent : List Nat := []

structure Distributing (α : Type) where
  ready : List Nat
  spread : Propagator.Spread α

namespace Propagator

variable {α : Type} [Scalar α] (p : Propagator α)

def startCollecting (how : Reduction) : Collecting α where
  pending := ((List.range p.tree.size).map fun c => (p.tree.children c).length).toArray
  ready := p.tree.leaves
  collected := ⟨how, p.noMail, p.noMail⟩

def notify (w : Collecting α) (c : Nat) : Collecting α :=
  match p.tree.parent? c with
  | none => w
  | some parent =>
    { w with
      pending := w.pending.modify parent (· - 1)
      ready := if w.pending[parent]? = some 1 then parent :: w.ready else w.ready }

/-- Nothing but a ready clique can be visited, and it tells its parent once, at any time afterwards. -/
def collectStep? (w : Overlapping α) : Collecting.Step → Option (Overlapping α)
  | .visit c =>
    if w.ready.contains c then
      some { w with
        ready := w.ready.erase c
        collected := p.gather w.collected c
        silent := c :: w.silent }
    else none
  | .notify c =>
    if w.silent.contains c then some ⟨p.notify w.toCollecting c, w.silent.erase c⟩ else none

def collectSteps? (how : Reduction) (steps : List Collecting.Step) : Option (Overlapping α) :=
  steps.foldlM p.collectStep? ⟨p.startCollecting how, []⟩

def startDistributing : Distributing α where
  ready := [p.tree.root]
  spread := ⟨p.noMail, p.noMail⟩

def distributeTurn? (collected : Collected α) (w : Distributing α) (c : Nat) :
    Option (Distributing α) :=
  if w.ready.contains c then
    some ⟨p.tree.children c ++ w.ready.erase c, p.spread collected w.spread c⟩
  else none

def distributeTurns? (collected : Collected α) (turns : List Nat) : Option (Distributing α) :=
  turns.foldlM (p.distributeTurn? collected) p.startDistributing

end Propagator
end Bayes
