import Bayes.Proofs.Serving
/-!
No answer in a session is stale. After any requests, an engine answers like one that is built anew from
the tables there are now and told the findings there are now; and its epoch counts the requests that
changed the findings or set a table.
-/
namespace Bayes

namespace Engine

variable {α : Type} [Scalar α] {e a b : Engine α} {rs : List (Request α)}

def renewals (e : Engine α) : List (Request α) → Nat
  | [] => 0
  | r :: rest => (if e.renews r then 1 else 0) + renewals (e.serve r).2 rest

theorem Sound.session (hrs : .cancel ∉ rs) : ∀ {e : Engine α}, e.Sound → (e.session rs).2.Sound ∧
    (e.session rs).2.config = e.config ∧ (e.session rs).2.epoch = e.epoch + e.renewals rs := by
  -- on the requests, for every engine: soundness is what one step hands to the next
  induction rs with
  | nil => exact fun h => ⟨h, rfl, rfl⟩
  | cons r rest ih =>
    intro e h
    obtain ⟨hr, hrest⟩ := not_or.1 (List.mem_cons.not.1 hrs)
    have hstep := h.serve (Ne.symm hr)
    obtain ⟨hsound, hconfig, hepoch⟩ := ih hrest hstep.sound
    refine ⟨hsound, hconfig.trans hstep.config, hepoch.trans ?_⟩
    rw [hstep.epoch, renewals, Nat.add_assoc]

/-- An engine for the tables there are now can be built, and told the findings there are now. -/
theorem Sound.fresh (h : e.Sound) {config : Config} (hlimit : config.entryLimit = e.config.entryLimit) :
    ∃ fresh told, ofNetwork e.network config = .ok fresh ∧
      fresh.tell e.evidence.findings = (.ok (), told) ∧ told.Sound ∧ told.network = e.network ∧
      told.compiled = e.compiled ∧ told.evidence.findings = e.evidence.findings := by
  have hfresh : ofNetwork e.network config = .ok
      { network := e.network, compiled := e.compiled, config, evidence := e.network.evidence } := by
    simp only [ofNetwork, hlimit, h.compiled, bind, Except.bind, pure, Except.pure]
  obtain ⟨told, htold⟩ := (sound_ofNetwork hfresh).1.tell rfl h.admits
  exact ⟨_, told, hfresh, htold⟩

end Engine
end Bayes
