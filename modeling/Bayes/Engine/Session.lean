import Bayes.Engine
/-!
Sessions: an engine serves one request after another, and each answer comes with the engine that
serves the next one.
-/
namespace Bayes

inductive Request (α : Type) where
  | update (u : Evidence.Update)
  | setValues (v : Nat) (values : List α)
  | freeze (frozen : Bool)
  | cancel
  | propagate
  | snapshot
  | marginal (v : Nat)
  | marginalNamed (name : String)
  | marginalIfReady (v : Nat)
  | marginals
  | probability
  | logProbability
  | mostProbable (subset : Option (List Nat))
  | sensitivity (query : Option (Nat × Nat)) (entry : TableEntry)

inductive Answer (α : Type) where
  | done
  | snapshot (s : Snapshot α)
  | marginal (m : Marginal α)
  | marginals (ms : List (Marginal α))
  | probability (p : α)
  | logProbability (l : Option α)
  | explanation (x : Explanation α)
  | sensitivity (s : Sensitivity α)

namespace Engine

variable {α : Type} [Scalar α]

def answering {β : Type} (f : β → Answer α) (o : Outcome α β) : Outcome α (Answer α) :=
  (o.1.map f, o.2)

def serve (e : Engine α) : Request α → Outcome α (Answer α)
  | .update u => answering (fun _ => .done) (e.update u)
  | .setValues v values => answering (fun _ => .done) (e.setValues v values)
  | .freeze frozen => (.ok .done, e.freeze frozen)
  | .cancel => (.ok .done, e.cancel)
  | .propagate => answering .snapshot e.propagate
  | .snapshot => (e.snapshot.map .snapshot, e)
  | .marginal v => answering .marginal (e.marginal v)
  | .marginalNamed name => answering .marginal (e.marginalNamed name)
  | .marginalIfReady v => (e.marginalIfReady v |>.map .marginal, e)
  | .marginals => answering .marginals e.marginals
  | .probability => answering .probability e.evidenceProbability
  | .logProbability => answering .logProbability e.logEvidenceProbability
  | .mostProbable subset => answering .explanation (e.mostProbable subset)
  | .sensitivity query entry => answering .sensitivity (e.sensitivity query entry)

def session (e : Engine α) : List (Request α) → List (Except (Error α) (Answer α)) × Engine α
  | [] => ([], e)
  | r :: rest =>
    let (answer, e) := e.serve r
    let (answers, e) := e.session rest
    (answer :: answers, e)

end Engine
end Bayes
