import Bayes.Snapshot
/-!
How a probability depends on one entry of a conditional table. The probability of the evidence is
linear in every entry; the coefficient is all that stands beside the entry in the clique of the
family, summed over what agrees with the row. Nothing is divided by the entry, so zeros are exact.
-/
namespace Bayes

/-- An entry of the conditional table of a variable, with the parents' states in their order. -/
structure TableEntry where
  owner : Nat
  parents : List Nat
  state : Nat

structure Slope (α : Type) where
  probability : α
  /-- When only the entry moves. -/
  derivative : α
  /-- When the other entries of the row make up for it. -/
  covaried : α

structure Sensitivity (α : Type) where
  entry : TableEntry
  /-- A variable and its state, or else the probability of the evidence itself is meant. -/
  query : Option (Nat × Nat)
  value : α
  slope : Slope α

namespace Slope

variable {α : Type} [Scalar α]

def zero : Slope α := ⟨0, 0, 0⟩

def quotientRule (p dp q dq : α) : α := (dp * q - p * dq) / (q * q)

def given (joint evidence : Slope α) : Slope α where
  probability := joint.probability / evidence.probability
  derivative := quotientRule joint.probability joint.derivative evidence.probability
    evidence.derivative
  covaried := quotientRule joint.probability joint.covaried evidence.probability evidence.covaried

end Slope

namespace Sensitivity

variable {α : Type} [Scalar α]

/-- The messages that reach a clique from all sides, times its factor without one table. -/
def surroundings (n : Network α) (s : Snapshot α) (c v : Nat) : Message α :=
  let tree := s.compiled.tree
  let own := Message.ofPotential (n.cliqueFactor tree s.findings (some v) c)
  let below := (tree.children c).foldl (fun m child => m.absorb (s.calibrated.upward.at? child)) own
  below.absorb (s.calibrated.downward.at? c)

/-- The derivatives of the probability of the evidence by all entries of the row of an entry. The
table of an intervened variable plays no part. -/
def coefficients (n : Network α) (s : Snapshot α) (entry : TableEntry) : List α :=
  let v := entry.owner
  let states := List.range (n.cardinality v)
  match s.findings.get? v with
  | some ⟨.intervened, _⟩ => states.map fun _ => 0
  | _ =>
    let c := (s.compiled.tree.family? v).getD s.compiled.tree.root
    let reduced := (surroundings n s c v).onto (n.family v) .sum
    let given := VarMap.ofList ((n.parents v).zip entry.parents)
    states.map fun state => (reduced.value? (given.insert v state)).getD 0

def nth (xs : List α) (i : Nat) : α := xs[i]?.getD 0

/-- The part that another entry of a row takes in the change of one entry: in proportion to its value,
or an equal part where the one entry is the whole row. -/
def share (row : List α) (state other : Nat) : α :=
  let rest := 1 - nth row state
  if Scalar.lt Scalar.epsilon rest then nth row other / rest
  else 1 / Scalar.ofNat (row.length - 1)

def covary (derivatives row : List α) (state : Nat) : α :=
  nth derivatives state -
    (((List.range row.length).filter (· != state)).map fun other =>
      share row state other * nth derivatives other).sum

def evidenceSlope (n : Network α) (s : Snapshot α) (entry : TableEntry) (row : List α) : Slope α :=
  let derivatives := coefficients n s entry
  ⟨s.probability, nth derivatives entry.state, covary derivatives row entry.state⟩

def row (n : Network α) (entry : TableEntry) : Except (Error α) (List α) :=
  match n.lookupState entry.owner entry.state with
  | .error e => .error e
  | .ok node =>
    if node.parents.length ≠ entry.parents.length then
      .error (.tableShapeMismatch node.name (n.tableShape entry.owner)
        (entry.parents.map (fun _ => 0) ++ [node.cardinality]))
    else
      ((node.parents.zip entry.parents).forM fun p => discard (n.lookupState p.1 p.2)).map fun _ =>
        (List.range node.cardinality).map fun state => node.table.entry (entry.parents ++ [state])

/-- For a query there is a second propagation with the queried state added to the evidence, unless
that state contradicts what is known about the variable. -/
def ofEntry (n : Network α) (base : Snapshot α)
    (query : Option ((Nat × Nat) × Option (Snapshot α))) (entry : TableEntry) :
    Except (Error α) (Sensitivity α) :=
  match row n entry with
  | .error e => .error e
  | .ok row =>
    if base.isContradictory then .error .contradictoryEvidence
    else
      let evidence := evidenceSlope n base entry row
      .ok ⟨entry, query.map (·.1), nth row entry.state,
        match query with
        | none => evidence
        | some (_, none) => Slope.zero.given evidence
        | some (_, some joint) => (evidenceSlope n joint entry row).given evidence⟩

end Sensitivity
end Bayes
