import Bayes.Config
import Bayes.Network.Edit
import Bayes.Propagation.MaxProduct
import Bayes.Sensitivity
/-!
Engines that answer queries about a network under changing evidence. Every change of evidence or of a
conditional table begins a new epoch. A query propagates when there is no snapshot of the epoch yet;
auxiliary snapshots, with one state added to the evidence, are kept until the epoch ends. A request to
cancel stops the next propagation and is forgotten when a propagation ends.
-/
namespace Bayes

structure Engine (α : Type) where
  network : Network α
  compiled : Compiled
  config : Config
  evidence : Evidence
  cancelled : Bool := false
  epoch : Nat := 0
  current : Option (Snapshot α) := none
  auxiliary : List ((Nat × Nat) × Snapshot α) := []

structure Explanation (α : Type) where
  assignment : VarMap Nat
  /-- The same by names, in the order of the names of the variables. -/
  states : List (String × String)
  /-- Of the whole assignment together with the evidence. -/
  probability : α
  logProbability : α

abbrev Outcome (α β : Type) := Except (Error α) β × Engine α

namespace Engine

variable {α : Type} [Scalar α]

def ofNetwork (n : Network α) (config : Config) : Except (Error α) (Engine α) := do
  let compiled ← n.compile config.entryLimit
  return { network := n, compiled, config, evidence := n.evidence }

variable (e : Engine α)

def advance (changes : Nat) : Engine α :=
  if changes = 0 then e else { e with epoch := e.epoch + 1, auxiliary := [] }

def update (u : Evidence.Update) : Outcome α Unit :=
  match e.evidence.update u with
  | .error err => (.error err, e)
  | .ok (changes, evidence) => (.ok (), { e with evidence }.advance changes)

def setValues (v : Nat) (values : List α) : Outcome α Unit :=
  match e.network.setValues v values with
  | .error err => (.error err, e)
  | .ok network => (.ok (), { e with network }.advance 1)

def freeze (frozen : Bool) : Engine α := { e with evidence := e.evidence.freeze frozen }

def cancel : Engine α := { e with cancelled := true }

def settled : Engine α := { e with cancelled := false }

def propagator (findings : Findings) : Propagator α :=
  e.network.propagator e.compiled.tree findings e.cancelled

def run (findings : Findings) : Except (Error α) (Snapshot α) := do
  return ⟨e.epoch, findings, e.compiled, ← (e.propagator findings).calibrate⟩

def snapshot? : Option (Snapshot α) := e.current.filter (·.epoch = e.epoch)

def snapshot : Except (Error α) (Snapshot α) :=
  match e.snapshot? with
  | some s => .ok s
  | none => .error (.notPropagated e.epoch)

def propagate : Outcome α (Snapshot α) :=
  match e.snapshot? with
  | some s => (.ok s, e)
  | none =>
    match e.run e.evidence.findings with
    | .error err => (.error err, e.settled)
    | .ok s => (.ok s, { e.settled with current := some s })

def asking {β : Type} (f : Snapshot α → Except (Error α) β) : Outcome α β :=
  let (s, e) := e.propagate
  (s.bind f, e)

def marginal (v : Nat) : Outcome α (Marginal α) :=
  match e.network.lookup v with
  | .error err => (.error err, e)
  | .ok _ => e.asking (·.marginal v)

def marginalNamed (name : String) : Outcome α (Marginal α) :=
  match e.network.lookupName name with
  | .error err => (.error err, e)
  | .ok v => e.marginal v

def marginalIfReady (v : Nat) : Except (Error α) (Marginal α) := do
  let _ ← e.network.lookup v
  (← e.snapshot).marginal v

def marginals : Outcome α (List (Marginal α)) := e.asking (·.marginals)

def evidenceProbability : Outcome α α := e.asking fun s => .ok s.probability

def logEvidenceProbability : Outcome α (Option α) := e.asking fun s => .ok s.logProbability

def namedStates (assignment : VarMap Nat) : List (String × String) :=
  (assignment.entries.filterMap fun a =>
    (e.compiled.vars[a.1]?).bind fun x =>
      (x.states[a.2]?).map fun state => (x.name, state)).mergeSort fun a b => !(b.1 < a.1)

def explanation (subset : Option (List Nat)) (best : VarMap Nat × α) : Explanation α :=
  let assignment := match subset with
    | none => best.1
    | some vs => best.1.filter fun v _ => vs.contains v
  ⟨assignment, e.namedStates assignment, Scalar.exp best.2, best.2⟩

/-- The maximum is taken over all variables, also when only some are asked for. -/
def mostProbable (subset : Option (List Nat)) : Outcome α (Explanation α) :=
  match (subset.getD []).forM fun v => discard (e.network.lookup v) with
  | .error err => (.error err, e)
  | .ok _ =>
    (do
      match ← (e.propagator e.evidence.findings).maxProduct with
      | none => throw .contradictoryEvidence
      | some best => return e.explanation subset best,
    e.settled)

/-- There is no auxiliary snapshot when the state contradicts what is known about the variable. -/
def auxiliarySnapshot (v state : Nat) : Outcome α (Option (Snapshot α)) :=
  match e.evidence.finding? v with
  | some f =>
    if f.state = state then
      let (s, e) := e.propagate
      (s.map some, e)
    else (.ok none, e)
  | none =>
    match e.auxiliary.lookup (v, state) with
    | some s => (.ok (some s), e)
    | none =>
      match e.run (e.evidence.findings.insert v ⟨.observed, state⟩) with
      | .error err => (.error err, e.settled)
      | .ok s =>
        (.ok (some s),
          if e.config.keepAuxiliary then
            { e.settled with auxiliary := ((v, state), s) :: e.auxiliary }
          else e.settled)

def sensitivity (query : Option (Nat × Nat)) (entry : TableEntry) :
    Outcome α (Sensitivity α) :=
  let (base, e) := e.propagate
  match base, query with
  | .error err, _ => (.error err, e)
  | .ok base, none => (Sensitivity.ofEntry e.network base none entry, e)
  | .ok base, some (v, state) =>
    match e.network.lookupState v state with
    | .error err => (.error err, e)
    | .ok _ =>
      let (joint, e) := e.auxiliarySnapshot v state
      (do Sensitivity.ofEntry e.network base (some ((v, state), ← joint)) entry, e)

end Engine
end Bayes
