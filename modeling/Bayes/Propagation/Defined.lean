import Bayes.Potential.Defined
import Bayes.Propagation.MaxProduct
/-!
Passes that are defined: those in which every product, every elimination and every slice is. Factors
that disagree about a cardinality may lead a pass to one that is not, and then the pass has no result.
A visit is looked at before it is made, and only when all visits before it are defined.
-/
namespace Bayes

variable {α : Type} [Scalar α]

namespace Message

def agrees (m n : Message α) : Bool := m.potential.multiplies n.potential

def agreesWithAll (m : Message α) : List (Option (Message α)) → Bool
  | [] => true
  | none :: rest => m.agreesWithAll rest
  | some n :: rest => m.agrees n && (m.multiply n).agreesWithAll rest

def agreesInFront (m : Message α) : List (Option (Message α)) → Bool
  | [] => true
  | none :: rest => m.agreesInFront rest
  | some n :: rest => n.agrees m && (n.multiply m).agreesInFront rest

def narrows (m : Message α) (keep : List Nat) : Bool := m.potential.narrows keep

end Message

namespace Propagator

def areDefined {σ : Type} (defined : σ → Nat → Bool) (step : σ → Nat → σ) : σ → List Nat → Bool
  | _, [] => true
  | s, c :: rest => defined s c && areDefined defined step (step s c) rest

variable (p : Propagator α)

def gathers (s : Collected α) (c : Nat) : Bool :=
  (p.own c).agreesWithAll ((p.tree.children c).map s.upward.at?) &&
    ((p.tree.parent? c).isNone || (p.product s c).narrows (p.tree.separatorAbove c))

def collects (how : Reduction) : Bool :=
  p.tree.size ≤ p.factors.size &&
    areDefined p.gathers p.gather ⟨how, p.noMail, p.noMail⟩ p.tree.postorder

/-- What a clique sends to each of its children, where `before` and `later` come from elsewhere. -/
def leavesOut (before : Message α) :
    List (Nat × Option (Message α)) → List (Message α) → Bool
  | (child, m) :: rest, s :: later =>
    before.agrees s && (before.multiply s).narrows (p.tree.separatorAbove child) &&
      before.agreesWithAll [m] && leavesOut (before.absorb m) rest later
  | _, _ => true

def spreadsOut (collected : Collected α) (s : Spread α) (c : Nat) : Bool :=
  let above := s.downward.at? c
  let children := p.tree.children c
  let upward := children.map collected.upward.at?
  (collected.gathered.got c).agreesWithAll [above] &&
    (children.isEmpty ||
      ((p.own c).agreesWithAll [above] && Message.unit.agreesInFront upward.reverse &&
        p.leavesOut ((p.own c).absorb above) (children.zip upward) (suffixes upward).tail))

def distributes (collected : Collected α) : Bool :=
  areDefined (p.spreadsOut collected) (p.spread collected) ⟨p.noMail, p.noMail⟩ p.tree.preorder

/-- The states chosen for the variables shared with the parent are states of theirs in the clique. -/
def decides (collected : Collected α) (chosen : VarMap Nat) (c : Nat) : Bool :=
  (p.tree.separatorAbove c).all fun v =>
    (chosen.get? v).all ((collected.gathered.got c).potential.hasState v)

def traces (collected : Collected α) : Bool :=
  (collected.logTotal p.tree.root).isNone ||
    areDefined (p.decides collected) (p.decide collected) .empty p.tree.preorder

def collect? (how : Reduction) : Option (Except (Error α) (Collected α)) :=
  if p.cancelled || p.collects how then some (p.collect how) else none

def calibrate? (how : Reduction) : Option (Except (Error α) (Calibrated α)) :=
  if p.cancelled || (p.collects how && p.distributes (p.collectAll how)) then
    some (do p.distribute (← p.collect how))
  else none

def maxProduct? : Option (Except (Error α) (Option (VarMap Nat × α))) :=
  if p.cancelled || (p.collects .max && p.traces (p.collectAll .max)) then some p.maxProduct
  else none

end Propagator
end Bayes
