import Bayes.Network
/-!
What is known about the variables of a network. A change is checked as a whole before anything is
written, and answers with the number of variables whose finding it has changed.
-/
namespace Bayes

inductive Kind where
  | observed
  | intervened
deriving DecidableEq

structure Finding where
  kind : Kind
  state : Nat
deriving DecidableEq

abbrev Findings := VarMap Finding

structure Evidence where
  vars : List Variable
  findings : Findings := .empty
  frozen : Bool := false

namespace Evidence

inductive Update where
  | record (kind : Kind) (v state : Nat)
  | recordNamed (kind : Kind) (name state : String)
  | forget (v : Nat)
  /-- Adds to the findings there are. -/
  | addAll (kind : Kind) (states : VarMap Nat)
  /-- Findings of the other kind stay on the variables that are not given. -/
  | replaceAll (kind : Kind) (states : VarMap Nat)
  | replaceEverything (observations interventions : VarMap Nat)
  | reset

section Queries

variable (e : Evidence)

def finding? (v : Nat) : Option Finding := e.findings.get? v

def value? (v : Nat) : Option Nat := (e.finding? v).map (·.state)

def has (kind : Kind) (v : Nat) : Bool := (e.finding? v).any (·.kind = kind)

def ofKind (kind : Kind) : VarMap Nat :=
  e.findings.filterMap fun f => if f.kind = kind then some f.state else none

def observations : VarMap Nat := e.ofKind .observed

def interventions : VarMap Nat := e.ofKind .intervened

end Queries

def put (findings : Findings) (v : Nat) (f : Finding) : Nat × Findings :=
  (if findings.get? v = some f then 0 else 1, findings.insert v f)

def putAll (kind : Kind) (states : VarMap Nat) (findings : Findings) : Nat × Findings :=
  states.entries.foldl (fun (changes, findings) e =>
    let (change, findings) := put findings e.1 ⟨kind, e.2⟩
    (changes + change, findings)) (0, findings)

def keeping (kind : Kind) (states : VarMap Nat) (findings : Findings) : Findings :=
  findings.filter fun v f => f.kind ≠ kind || states.contains v

def both (observations interventions : VarMap Nat) : Findings :=
  (putAll .intervened interventions (putAll .observed observations .empty).2).2

/-- Findings that are dropped and findings that are new or different, each counted once. -/
def replaced (old new : Findings) : Nat :=
  (old.filter fun v _ => !new.contains v).size
    + (new.filter fun v f => old.get? v ≠ some f).size

variable {α : Type} (e : Evidence)

def checkMutable : Except (Error α) Unit :=
  if e.frozen then .error .frozenEvidence else .ok ()

def checkVariable (v : Nat) : Except (Error α) Variable :=
  match e.vars[v]? with
  | some x => .ok x
  | none => .error (.unknownId v)

def checkState (v state : Nat) : Except (Error α) Unit := do
  let x ← e.checkVariable v
  if state < x.cardinality then return ()
  else throw (.unknownState x.name (toString state))

def checkAll (states : VarMap Nat) : Except (Error α) Unit :=
  states.entries.forM fun s => e.checkState s.1 s.2

def resolve (name state : String) : Except (Error α) (Nat × Nat) :=
  match e.vars.findIdx? (·.name == name) with
  | none => .error (.unknownName name)
  | some v =>
    match (e.vars[v]?).bind (·.stateIndex? state) with
    | none => .error (.unknownState name state)
    | some s => .ok (v, s)

def withFindings (change : Nat × Findings) : Nat × Evidence :=
  (change.1, { e with findings := change.2 })

def record (kind : Kind) (v state : Nat) : Except (Error α) (Nat × Evidence) := do
  e.checkMutable
  e.checkState v state
  return e.withFindings (put e.findings v ⟨kind, state⟩)

/-- Names are looked up first, even when nothing may be changed. -/
def recordNamed (kind : Kind) (name state : String) : Except (Error α) (Nat × Evidence) := do
  let (v, state) ← e.resolve name state
  e.record kind v state

def forget (v : Nat) : Except (Error α) (Nat × Evidence) := do
  e.checkMutable
  let _ ← e.checkVariable v
  return e.withFindings (if e.findings.contains v then 1 else 0, e.findings.erase v)

def addAll (kind : Kind) (states : VarMap Nat) : Except (Error α) (Nat × Evidence) := do
  e.checkMutable
  e.checkAll states
  return e.withFindings (putAll kind states e.findings)

def replaceAll (kind : Kind) (states : VarMap Nat) : Except (Error α) (Nat × Evidence) := do
  e.checkMutable
  e.checkAll states
  let kept := keeping kind states e.findings
  let (changes, findings) := putAll kind states kept
  return e.withFindings (e.findings.size - kept.size + changes, findings)

/-- A variable can not be both observed and intervened; the lowest such variable is named. -/
def replaceEverything (observations interventions : VarMap Nat) :
    Except (Error α) (Nat × Evidence) := do
  e.checkMutable
  e.checkAll observations
  e.checkAll interventions
  match observations.keys.find? interventions.contains with
  | some v => throw (.conflictingFindings (((e.vars[v]?).map (·.name)).getD ""))
  | none =>
    let findings := both observations interventions
    return e.withFindings (replaced e.findings findings, findings)

def reset : Except (Error α) (Nat × Evidence) := do
  e.checkMutable
  return e.withFindings (e.findings.size, .empty)

def freeze (frozen : Bool) : Evidence := { e with frozen }

def update : Update → Except (Error α) (Nat × Evidence)
  | .record kind v state => e.record kind v state
  | .recordNamed kind name state => e.recordNamed kind name state
  | .forget v => e.forget v
  | .addAll kind states => e.addAll kind states
  | .replaceAll kind states => e.replaceAll kind states
  | .replaceEverything observations interventions => e.replaceEverything observations interventions
  | .reset => e.reset

end Evidence

def Network.evidence {α : Type} (n : Network α) : Evidence := { vars := n.vars }

end Bayes
