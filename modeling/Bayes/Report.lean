import Bayes.Engine
import Bayes.Decimal.Shortest
import Bayes.Network.Declaration
import Bayes.Text.Blank
/-!
A report on a network: the distributions of all variables given some observations, a most probable
explanation, and how the probability of the observations depends on the first root. Lines that are
written before something fails stay written.
-/
namespace Bayes

structure Report where
  lines : List String
  failure : Option String

namespace Report

/-- Either a result or a reason to stop, and the lines so far, the last one in front. -/
abbrev Telling := ExceptT String (StateM (List String))

def say (line : String) : Telling Unit := modify (line :: ·)

def attempt {β : Type} (r : Except (Error Float) β) : Telling β :=
  match r with
  | .ok x => return x
  | .error err => throw (err.message Decimal.shortest)

def observation? (text : String) : Option (String × String) :=
  match text.toList.span (· != '=') with
  | (name, _ :: state) =>
    some (String.ofList (Text.trimmed name), String.ofList (Text.trimmed state))
  | (_, []) => none

def observe (e : Engine Float) (text : String) : Telling (Engine Float) := do
  match observation? text with
  | none => throw ("evidence " ++ quoted text ++ " is not of the form VAR=STATE")
  | some (name, state) =>
    let (r, e) := e.update (.recordNamed .observed name state)
    attempt r
    return e

def amount (x : Float) : String := Decimal.fixed 6 x

def tell (declarations : List (Declaration Float)) (config : Config) (evidence : List String) :
    Telling Unit := do
  let network ← attempt (Network.ofDeclarations declarations)
  let e ← attempt (Engine.ofNetwork network config)
  let tree := e.compiled.tree
  say (toString tree.size ++ " cliques, total table size "
    ++ toString (tree.tableEntries e.network.cardinalities))
  let e ← evidence.foldlM observe e
  let (p, e) := e.evidenceProbability
  say ("P(e) = " ++ amount (← attempt p))
  let (ms, e) := e.marginals
  (← attempt ms).forM fun m => say m.text
  let (x, e) := e.mostProbable none
  let x ← attempt x
  say ("MPE (p = " ++ amount x.probability ++ "):")
  x.states.forM fun s => say ("  " ++ s.1 ++ " = " ++ s.2)
  match e.network.ids.find? fun v => (e.network.parents v).isEmpty with
  | none => return ()
  | some root =>
    let s ← attempt (e.sensitivity none ⟨root, [], 0⟩).1
    say ("dP(e)/dθ = " ++ amount s.slope.derivative ++ ", co-varied " ++ amount s.slope.covaried)

def make (declarations : List (Declaration Float)) (config : Config) (evidence : List String) :
    Report :=
  match (tell declarations config evidence).run.run [] with
  | (.ok _, lines) => ⟨lines.reverse, none⟩
  | (.error reason, lines) => ⟨lines.reverse, some reason⟩

def sprinkler : List (Declaration Float) :=
  [{ name := "cloudy", states := ["yes", "no"], values := some [0.5, 0.5] },
   { name := "sprinkler", states := ["on", "off"], parents := ["cloudy"],
     values := some [0.1, 0.9, 0.5, 0.5] },
   { name := "rain", states := ["yes", "no"], parents := ["cloudy"],
     values := some [0.8, 0.2, 0.2, 0.8] },
   { name := "wet_grass", states := ["yes", "no"], parents := ["sprinkler", "rain"],
     values := some [0.99, 0.01, 0.9, 0.1, 0.9, 0.1, 0.0, 1.0] }]

end Report
end Bayes
