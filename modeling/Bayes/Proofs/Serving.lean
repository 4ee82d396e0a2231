import Bayes.Engine.Session
import Bayes.Proofs.Compilation
import Bayes.Proofs.Evidence.Changes
import Bayes.Proofs.Inference
/-!
What an engine answers, whatever it keeps. A snapshot that is kept for the present epoch is the one that
propagating again would give, for the findings there are or for those with one state added. So every
answer is a function of the network, of what was compiled from it, and of the findings.
-/
namespace Bayes.Engine

variable {α : Type} {e e' : Engine α}

structure Alike (e e' : Engine α) : Prop where
  network : e'.network = e.network
  compiled : e'.compiled = e.compiled
  config : e'.config = e.config
  evidence : e'.evidence = e.evidence
  epoch : e'.epoch = e.epoch

theorem Alike.refl (e : Engine α) : e.Alike e := ⟨rfl, rfl, rfl, rfl, rfl⟩

theorem Alike.trans {e'' : Engine α} (h : e.Alike e') (h' : e'.Alike e'') : e.Alike e'' :=
  ⟨h'.network.trans h.network, h'.compiled.trans h.compiled, h'.config.trans h.config,
    h'.evidence.trans h.evidence, h'.epoch.trans h.epoch⟩

theorem settled_eq (h : e.cancelled = false) : e.settled = e := by
  obtain ⟨network, compiled, config, evidence, cancelled, epoch, current, auxiliary⟩ := e
  cases h
  rfl

theorem advance_of_eq {changes : Nat} (h : changes = 0) : e.advance changes = e := if_pos h

theorem advance_of_ne {changes : Nat} (h : changes ≠ 0) :
    e.advance changes = { e with epoch := e.epoch + 1, auxiliary := [] } := if_neg h

theorem frozen_ofNetwork {n : Network α} {config : Config} (he : ofNetwork n config = .ok e) :
    e.evidence.frozen = false := by
  obtain ⟨compiled, -, he⟩ := bind_eq_ok.1 he
  cases he
  rfl

variable [Scalar α]

def taken (e : Engine α) (found : Findings) : Snapshot α :=
  let p := e.network.propagator e.compiled.tree found false
  ⟨e.epoch, found, e.compiled, p.distributeAll (p.collectAll .sum)⟩

def present (e : Engine α) : Snapshot α := e.taken e.evidence.findings

/-- What an engine is made of fits together, and what it keeps for its epoch is up to date. -/
structure Sound (e : Engine α) : Prop where
  cancelled : e.cancelled = false
  compiled : e.network.compile e.config.entryLimit = .ok e.compiled
  vars : e.evidence.vars = e.network.vars
  knows : e.evidence.Knows e.evidence.findings
  current_le : ∀ s, e.current = some s → s.epoch ≤ e.epoch
  current : ∀ s, e.current = some s → s.epoch = e.epoch → s = e.present
  auxiliary : ∀ v state s, ((v, state), s) ∈ e.auxiliary →
    s = e.taken (e.evidence.findings.insert v ⟨.observed, state⟩)

theorem sound_ofNetwork {n : Network α} {config : Config} (he : ofNetwork n config = .ok e) :
    e.Sound ∧ e.network = n ∧ e.config = config ∧ e.epoch = 0 := by
  obtain ⟨compiled, hcompiled, he⟩ := bind_eq_ok.1 he
  cases he
  exact ⟨⟨rfl, hcompiled, rfl, Evidence.knows_empty, by simp, by simp, by simp⟩, rfl, rfl, rfl⟩

/-! Propagating -/

theorem run_eq (h : e.cancelled = false) (found : Findings) : e.run found = .ok (e.taken found) := by
  have hcalibrate := Propagator.calibrate_eq (p := e.network.propagator e.compiled.tree found false) rfl
  rw [run, propagator, h, hcalibrate]
  rfl

def refreshed (e : Engine α) : Engine α := { e with current := some e.present }

theorem Sound.propagate_eq (h : e.Sound) : e.propagate = (.ok e.present, e.refreshed) := by
  rw [propagate]
  cases hs : e.snapshot? with
  | some s =>
    obtain ⟨hcurrent, hepoch⟩ := Option.filter_eq_some_iff.1 hs
    obtain rfl := h.current s hcurrent (of_decide_eq_true hepoch)
    have hsame : e.refreshed = e := by rw [refreshed, ← hcurrent]
    rw [hsame]
  | none =>
    rw [run_eq h.cancelled]
    simp only [settled_eq h.cancelled]
    rfl

theorem Sound.refreshed (h : e.Sound) : e.refreshed.Sound where
  cancelled := h.cancelled
  compiled := h.compiled
  vars := h.vars
  knows := h.knows
  current_le s hs := by
    obtain rfl := Option.some.inj hs
    exact le_rfl
  current s hs _ := (Option.some.inj hs).symm
  auxiliary := h.auxiliary

theorem alike_refreshed (e : Engine α) : e.Alike e.refreshed := ⟨rfl, rfl, rfl, rfl, rfl⟩

theorem Sound.asking_eq {β : Type} (h : e.Sound) (f : Snapshot α → Except (Error α) β) :
    e.asking f = (f e.present, e.refreshed) := by
  rw [asking, h.propagate_eq]
  rfl

/-- What propagating with one state added gives, where that state does not contradict a finding. -/
def joined (e : Engine α) (v state : Nat) : Option (Snapshot α) :=
  match e.evidence.finding? v with
  | some f => if f.state = state then some e.present else none
  | none => some (e.taken (e.evidence.findings.insert v ⟨.observed, state⟩))

theorem Sound.auxiliarySnapshot (h : e.Sound) (v state : Nat) : ∃ e',
    e.auxiliarySnapshot v state = (.ok (e.joined v state), e') ∧ e'.Sound ∧ e.Alike e' := by
  rw [Engine.auxiliarySnapshot, joined]
  cases hfinding : e.evidence.finding? v with
  | some f =>
    simp only [h.propagate_eq]
    split
    · exact ⟨_, rfl, h.refreshed, alike_refreshed e⟩
    · exact ⟨_, rfl, h, .refl e⟩
  | none =>
    simp only [run_eq h.cancelled, settled_eq h.cancelled]
    -- the findings of the epoch are no part of the key, so it takes soundness to reuse a snapshot
    cases hkept : e.auxiliary.lookup (v, state) with
    | some s =>
      obtain ⟨l, r, hlr, -⟩ := List.lookup_eq_some_iff.1 hkept
      have hs := h.auxiliary v state s (by simp [hlr])
      exact ⟨e, by simp only [hs], h, .refl e⟩
    | none =>
      simp only
      split
      · refine ⟨_, rfl, ⟨h.cancelled, h.compiled, h.vars, h.knows, h.current_le, h.current, ?_⟩,
          ⟨rfl, rfl, rfl, rfl, rfl⟩⟩
        intro v' state' s hs
        obtain heq | hs := List.mem_cons.1 hs
        · cases heq
          rfl
        · exact h.auxiliary v' state' s hs
      · exact ⟨_, rfl, h, .refl e⟩

/-! Answers -/

def sensitivityOf (e : Engine α) (query : Option (Nat × Nat)) (entry : TableEntry) :
    Except (Error α) (Sensitivity α) :=
  match query with
  | none => Sensitivity.ofEntry e.network e.present none entry
  | some (v, state) =>
    match e.network.lookupState v state with
    | .error err => .error err
    | .ok _ => Sensitivity.ofEntry e.network e.present (some ((v, state), e.joined v state)) entry

theorem Sound.sensitivity (h : e.Sound) (query : Option (Nat × Nat)) (entry : TableEntry) : ∃ e',
    e.sensitivity query entry = (e.sensitivityOf query entry, e') ∧ e'.Sound ∧ e.Alike e' := by
  rw [Engine.sensitivity, h.propagate_eq]
  have hrefreshed := h.refreshed
  have halike := alike_refreshed e
  cases query with
  | none => exact ⟨_, rfl, hrefreshed, halike⟩
  | some q =>
    obtain ⟨v, state⟩ := q
    have hnetwork : e.refreshed.network = e.network := rfl
    simp only [sensitivityOf, hnetwork]
    cases e.network.lookupState v state with
    | error err => exact ⟨_, rfl, hrefreshed, halike⟩
    | ok node =>
      obtain ⟨e', hjoined, hsound, halike'⟩ := hrefreshed.auxiliarySnapshot v state
      simp only [hjoined]
      refine ⟨e', ?_, hsound, halike.trans halike'⟩
      rw [halike'.network]
      rfl

def bestOf (e : Engine α) (subset : Option (List Nat)) : Except (Error α) (Explanation α) := do
  (subset.getD []).forM fun v => discard (e.network.lookup v)
  match ← (e.network.propagator e.compiled.tree e.evidence.findings false).maxProduct with
  | none => throw .contradictoryEvidence
  | some best => return e.explanation subset best

theorem Sound.mostProbable (h : e.Sound) (subset : Option (List Nat)) :
    e.mostProbable subset = (e.bestOf subset, e) := by
  rw [Engine.mostProbable, bestOf, settled_eq h.cancelled, propagator, h.cancelled]
  cases (subset.getD []).forM fun v => discard (e.network.lookup v) <;> rfl

theorem Sound.marginal_eq (h : e.Sound) (v : Nat) :
    (e.marginal v).1 = (e.network.lookup v).bind (fun _ => e.present.marginal v) ∧
      (e.marginal v).2.Sound ∧ e.Alike (e.marginal v).2 := by
  rw [Engine.marginal]
  cases e.network.lookup v with
  | error err => exact ⟨rfl, h, .refl e⟩
  | ok node =>
    simp only [h.asking_eq]
    exact ⟨rfl, h.refreshed, alike_refreshed e⟩

end Bayes.Engine

namespace Bayes

/-- A request that is answered from a propagation of the present findings. -/
def Request.asks {α : Type} : Request α → Bool
  | .propagate | .marginal _ | .marginalNamed _ | .marginals | .probability | .logProbability
  | .mostProbable _ | .sensitivity .. => true
  | .update _ | .setValues .. | .freeze _ | .cancel | .snapshot | .marginalIfReady _ => false

namespace Engine

variable {α : Type} [Scalar α] {e e' : Engine α} {r : Request α}

def answered (e : Engine α) : Request α → Except (Error α) (Answer α)
  | .propagate => .ok (.snapshot e.present)
  | .marginal v => ((e.network.lookup v).bind fun _ => e.present.marginal v).map .marginal
  | .marginalNamed name => ((e.network.lookupName name).bind fun v =>
      (e.network.lookup v).bind fun _ => e.present.marginal v).map .marginal
  | .marginals => e.present.marginals.map .marginals
  | .probability => .ok (.probability e.present.probability)
  | .logProbability => .ok (.logProbability e.present.logProbability)
  | .mostProbable subset => (e.bestOf subset).map .explanation
  | .sensitivity query entry => (e.sensitivityOf query entry).map .sensitivity
  | _ => .ok .done

/-- A query is answered as if nothing had been kept, and changes only what is kept. -/
theorem Sound.serve_asks (h : e.Sound) (hr : r.asks = true) :
    (e.serve r).1 = e.answered r ∧ (e.serve r).2.Sound ∧ e.Alike (e.serve r).2 := by
  cases r with
  | propagate =>
    rw [serve, h.propagate_eq]
    exact ⟨rfl, h.refreshed, alike_refreshed e⟩
  | marginal v =>
    obtain ⟨hanswer, hsound, halike⟩ := h.marginal_eq v
    exact ⟨congrArg (Except.map Answer.marginal) hanswer, hsound, halike⟩
  | marginalNamed name =>
    rw [serve, marginalNamed, answered]
    cases e.network.lookupName name with
    | error err => exact ⟨rfl, h, .refl e⟩
    | ok v =>
      obtain ⟨hanswer, hsound, halike⟩ := h.marginal_eq v
      exact ⟨congrArg (Except.map Answer.marginal) hanswer, hsound, halike⟩
  | marginals =>
    rw [serve, marginals, h.asking_eq]
    exact ⟨rfl, h.refreshed, alike_refreshed e⟩
  | probability =>
    rw [serve, evidenceProbability, h.asking_eq]
    exact ⟨rfl, h.refreshed, alike_refreshed e⟩
  | logProbability =>
    rw [serve, logEvidenceProbability, h.asking_eq]
    exact ⟨rfl, h.refreshed, alike_refreshed e⟩
  | mostProbable subset =>
    rw [serve, h.mostProbable]
    exact ⟨rfl, h, .refl e⟩
  | sensitivity query entry =>
    obtain ⟨e', hanswer, hsound, halike⟩ := h.sensitivity query entry
    rw [serve, hanswer]
    exact ⟨rfl, hsound, halike⟩
  | update | setValues | freeze | cancel | snapshot | marginalIfReady => cases hr

/-! Changes -/

theorem Sound.advance (hcancelled : e.cancelled = false)
    (hcompiled : e.network.compile e.config.entryLimit = .ok e.compiled)
    (hvars : e.evidence.vars = e.network.vars) (hknows : e.evidence.Knows e.evidence.findings)
    (hle : ∀ s, e.current = some s → s.epoch ≤ e.epoch) {changes : Nat} (hchanges : changes ≠ 0) :
    (e.advance changes).Sound := by
  rw [advance_of_ne hchanges]
  refine ⟨hcancelled, hcompiled, hvars, hknows, fun s hs => (hle s hs).trans (Nat.le_succ _),
    fun s hs hepoch => ?_, by simp⟩
  have hlt : s.epoch < e.epoch + 1 := Nat.lt_succ_of_le (hle s hs)
  exact absurd hepoch hlt.ne

theorem Sound.withEvidence (h : e.Sound) {evidence : Evidence} (hvars : evidence.vars = e.evidence.vars)
    (hfindings : evidence.findings = e.evidence.findings) : ({ e with evidence } : Engine α).Sound := by
  obtain ⟨vars, findings, frozen⟩ := evidence
  obtain rfl : vars = e.evidence.vars := hvars
  obtain rfl : findings = e.evidence.findings := hfindings
  exact ⟨h.cancelled, h.compiled, h.vars, h.knows, h.current_le, h.current, h.auxiliary⟩

def renews (e : Engine α) : Request α → Bool
  | .setValues v values => (e.setValues v values).1.isOk
  | r => (e.serve r).2.evidence.findings.entries != e.evidence.findings.entries

structure Step (e : Engine α) (r : Request α) (e' : Engine α) : Prop where
  sound : e'.Sound
  config : e'.config = e.config
  epoch : e'.epoch = e.epoch + if e.renews r then 1 else 0

theorem Sound.update (h : e.Sound) (u : Evidence.Update) :
    e.Step (.update u) (e.update u).2 ∧ (e.update u).2.network = e.network ∧
      (e.update u).2.compiled = e.compiled := by
  have hrenews : e.renews (.update u) =
      ((e.update u).2.evidence.findings.entries != e.evidence.findings.entries) := rfl
  cases hupdate : e.evidence.update (α := α) u with
  | error err =>
    have heq : e.update u = (.error err, e) := by rw [Engine.update, hupdate]
    rw [heq] at hrenews ⊢
    exact ⟨⟨h, rfl, by simp [hrenews]⟩, rfl, rfl⟩
  | ok changed =>
    obtain ⟨changes, evidence⟩ := changed
    have heq : e.update u = (.ok (), ({ e with evidence } : Engine α).advance changes) := by
      rw [Engine.update, hupdate]
    have hchanged := Evidence.update_changed hupdate
    have hvars : evidence.vars = e.evidence.vars := hchanged.vars
    -- without a change the epoch goes on, so what is kept must still be right
    by_cases hzero : changes = 0
    · have hsame : evidence.findings = e.evidence.findings := hchanged.zero_iff.1 hzero
      rw [advance_of_eq hzero] at heq
      rw [heq] at hrenews ⊢
      exact ⟨⟨h.withEvidence hvars hsame, rfl, by simp [hrenews, hsame]⟩, rfl, rfl⟩
    · have hother : evidence.findings.entries ≠ e.evidence.findings.entries := fun heq =>
        hzero (hchanged.zero_iff.2 (VarMap.entries_inj.1 heq))
      have hknows : evidence.Knows evidence.findings := by
        intro v f hf
        exact hvars ▸ hchanged.knows h.knows v f hf
      have hsound := Sound.advance (e := { e with evidence }) h.cancelled h.compiled
        (hvars.trans h.vars) hknows h.current_le hzero
      rw [advance_of_ne hzero] at heq hsound
      rw [heq] at hrenews ⊢
      exact ⟨⟨hsound, rfl, by simp [hrenews, hother]⟩, rfl, rfl⟩

theorem Sound.admits (h : e.Sound) : e.network.Admits e.evidence.findings := h.knows.admits h.vars

theorem Sound.tell {found : Findings} (h : e.Sound) (hfrozen : e.evidence.frozen = false)
    (hfound : e.network.Admits found) : ∃ told, e.tell found = (.ok (), told) ∧ told.Sound ∧
      told.network = e.network ∧ told.compiled = e.compiled ∧ told.evidence.findings = found := by
  have hreplaced : e.evidence.replaceEverything (α := α) (Findings.ofKind found .observed)
      (Findings.ofKind found .intervened) = .ok _ :=
    Evidence.replaceEverything_ok h.vars hfrozen hfound
  obtain ⟨hstep, hnetwork, hcompiled⟩ := h.update
    (.replaceEverything (Findings.ofKind found .observed) (Findings.ofKind found .intervened))
  have htell : e.tell found = (.ok (), ({ e with evidence := { e.evidence with findings := found } } :
      Engine α).advance (Evidence.replaced e.evidence.findings found)) := by
    rw [Engine.tell, Engine.update]
    simp only [Evidence.update, hreplaced]
  have htold := congrArg Prod.snd htell
  rw [Engine.tell] at htold
  rw [htold] at hstep hnetwork hcompiled
  refine ⟨_, htell, hstep.sound, hnetwork, hcompiled, ?_⟩
  rw [Engine.advance]
  split <;> rfl

theorem Sound.setValues (h : e.Sound) (v : Nat) (values : List α) :
    e.Step (.setValues v values) (e.setValues v values).2 := by
  have hrenews : e.renews (.setValues v values) = (e.setValues v values).1.isOk := rfl
  cases hset : e.network.setValues v values with
  | error err =>
    have heq : e.setValues v values = (.error err, e) := by rw [Engine.setValues, hset]
    rw [heq] at hrenews ⊢
    exact ⟨h, rfl, by simp [hrenews, Except.isOk, Except.toBool]⟩
  | ok network =>
    have heq : e.setValues v values = (.ok (), ({ e with network } : Engine α).advance 1) := by
      rw [Engine.setValues, hset]
    obtain ⟨t, -, -, rfl⟩ := Network.setValues_eq hset
    have hcompiled := (Network.compile_withTable e.network v t _).trans h.compiled
    have hvars := h.vars.trans (Network.vars_withTable e.network v t).symm
    have hsound := Sound.advance (e := { e with network := e.network.withTable v t }) h.cancelled
      hcompiled hvars h.knows h.current_le one_ne_zero
    rw [advance_of_ne one_ne_zero] at heq hsound
    rw [heq] at hrenews ⊢
    exact ⟨hsound, rfl, by simp [hrenews, Except.isOk, Except.toBool]⟩

theorem Alike.renews (h : e.Alike (e.serve r).2) (hr : r.asks = true) : e.renews r = false := by
  have hsame : ((e.serve r).2.evidence.findings.entries != e.evidence.findings.entries) = false := by
    simp [h.evidence]
  cases r with
  | setValues v values => cases hr
  | _ => exact hsame

theorem Sound.serve (h : e.Sound) (hr : r ≠ .cancel) : e.Step r (e.serve r).2 := by
  by_cases hasks : r.asks = true
  · obtain ⟨-, hsound, halike⟩ := h.serve_asks hasks
    exact ⟨hsound, halike.config, by rw [halike.epoch, halike.renews hasks]; rfl⟩
  · cases r with
    | update u => exact (h.update u).1
    | setValues v values => exact h.setValues v values
    | freeze frozen =>
      exact ⟨h.withEvidence rfl rfl, rfl, by simp [renews, Engine.serve, freeze, Evidence.freeze]⟩
    | cancel => exact absurd rfl hr
    | snapshot => exact ⟨h, rfl, by simp [renews, Engine.serve]⟩
    | marginalIfReady v => exact ⟨h, rfl, by simp [renews, Engine.serve]⟩
    | propagate | marginal | marginalNamed | marginals | probability | logProbability
    | mostProbable | sensitivity => exact absurd rfl hasks

end Engine
end Bayes
