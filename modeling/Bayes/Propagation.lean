import Bayes.JunctionTree
import Bayes.Message
/-!
Message passing over a tree of cliques with one factor for each. Collecting visits the cliques from
the leaves to the root: a clique multiplies its factor with what its children sent, and sends the
result on to its parent. Distributing visits them from the root to the leaves: a clique sends to each
child what it knows apart from what that child sent.
-/
namespace Bayes

abbrev Mail (α : Type) := Array (Option (Message α))

structure Propagator (α : Type) where
  tree : JunctionTree
  factors : Array (Potential α)
  cancelled : Bool := false

structure Collected (α : Type) where
  how : Reduction
  /-- From every clique to its parent. -/
  upward : Mail α
  /-- The factor of every clique times the messages of its children. -/
  gathered : Mail α

structure Calibrated (α : Type) where
  upward : Mail α
  /-- From the parent of every clique. -/
  downward : Mail α
  beliefs : Mail α
  /-- There is no logarithm when the factors carry no mass. -/
  logPartition : Option α

variable {α : Type} [Scalar α]

def Mail.at? (mail : Mail α) (c : Nat) : Option (Message α) := mail.getD c none

def Mail.got (mail : Mail α) (c : Nat) : Message α := (mail.at? c).getD .unit

def Mail.put (mail : Mail α) (c : Nat) (m : Message α) : Mail α := mail.setIfInBounds c (some m)

/-- The logarithm of the sum, or of the maximum, of the product of all factors. -/
def Collected.logTotal (s : Collected α) (root : Nat) : Option α :=
  let m := s.gathered.got root
  match s.how with
  | .sum => m.logScale
  | .max => m.logScale.map fun l => l + Scalar.log m.potential.argmax.2

namespace Propagator

variable (p : Propagator α)

def factor (c : Nat) : Potential α := p.factors[c]?.getD .unit

def noMail : Mail α := Array.replicate p.tree.size none

def own (c : Nat) : Message α := .ofPotential (p.factor c)

def product (s : Collected α) (c : Nat) : Message α :=
  (p.tree.children c).foldl (fun m child => m.absorb (s.upward.at? child)) (p.own c)

def gather (s : Collected α) (c : Nat) : Collected α :=
  let product := p.product s c
  { s with
    upward :=
      match p.tree.parent? c with
      | none => s.upward
      | some _ => s.upward.put c (product.onto (p.tree.separatorAbove c) s.how)
    gathered := s.gathered.put c product }

def collectAll (how : Reduction) : Collected α :=
  p.tree.postorder.foldl p.gather ⟨how, p.noMail, p.noMail⟩

def suffixes : List (Option (Message α)) → List (Message α)
  | [] => [.unit]
  | m :: rest =>
    match suffixes rest with
    | [] => []
    | s :: later => (match m with | none => s | some m => m.multiply s) :: s :: later

/-- For every child the product of what comes from elsewhere: `before` what comes from above and from
earlier children, and a suffix from later ones. -/
def leaveOneOut (before : Message α) :
    List (Option (Message α)) → List (Message α) → List (Message α)
  | m :: rest, s :: later => before.multiply s :: leaveOneOut (before.absorb m) rest later
  | _, _ => []

structure Spread (α : Type) where
  downward : Mail α
  beliefs : Mail α

def spread (collected : Collected α) (s : Spread α) (c : Nat) : Spread α :=
  let above := s.downward.at? c
  let children := p.tree.children c
  let upward := children.map collected.upward.at?
  let base := (p.own c).absorb above
  let rests := leaveOneOut base upward (suffixes upward).tail
  { downward := (children.zip rests).foldl (fun mail e =>
      mail.put e.1 (e.2.onto (p.tree.separatorAbove e.1) .sum)) s.downward
    beliefs := s.beliefs.put c ((collected.gathered.got c).absorb above) }

def distributeAll (collected : Collected α) : Calibrated α :=
  let s := p.tree.preorder.foldl (p.spread collected) ⟨p.noMail, p.noMail⟩
  ⟨collected.upward, s.downward, s.beliefs, collected.logTotal p.tree.root⟩

def collect (how : Reduction) : Except (Error α) (Collected α) :=
  if p.cancelled then .error .cancelled else .ok (p.collectAll how)

def distribute (collected : Collected α) : Except (Error α) (Calibrated α) :=
  if p.cancelled then .error .cancelled else .ok (p.distributeAll collected)

def calibrate : Except (Error α) (Calibrated α) := do
  p.distribute (← p.collect .sum)

end Propagator
end Bayes
