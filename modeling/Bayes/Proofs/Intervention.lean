import Bayes.Proofs.Explanation
import Bayes.Proofs.Network.Surgery
/-!
An intervention is surgery. An engine that is told observations and interventions answers like an engine
for the network after surgery, in which the intervened variables have lost their parents and are certain
of their states, that is told the observations only. The two engines share no tree; but every assignment
is as likely here as there.
-/
namespace Bayes

namespace Findings

def forced? (found : Findings) (v : Nat) : Option Nat :=
  match found.get? v with
  | some ⟨.intervened, state⟩ => some state
  | _ => none

def observed (found : Findings) : Findings := found.filter fun _ f => f.kind = .observed

end Findings

namespace Network

variable {n : Network ℝ} {found : Findings} {x : Nat → Nat} {v : Nat}

theorem Admits.forces (h : n.Admits found) : Forces (Findings.forced? found) n := by
  intro v _ state hstate
  rw [Findings.forced?] at hstate
  split at hstate
  · next hf =>
    cases hstate
    exact (h v _ hf).2
  · cases hstate

theorem Admits.surgery (h : n.Admits found) :
    (n.surgery (Findings.forced? found)).Admits (Findings.observed found) := by
  intro v f hf
  rw [Findings.observed, VarMap.get?_filter, Option.filter_eq_some_iff] at hf
  simpa using h v f hf.1

theorem part_surgery (hv : v < n.size) (hx : x v < n.cardinality v) :
    (n.surgery (Findings.forced? found)).part (Findings.observed found) none x v =
      n.part found none x v := by
  have hentry : (n.surgery (Findings.forced? found)).entryAt x v =
      (Findings.forced? found v).elim (n.entryAt x v) fun state => if x v = state then 1 else 0 := by
    rw [entryAt, table_surgery hv, parents_surgery]
    cases Findings.forced? found v with
    | none => rfl
    | some state =>
      have hfits : Table.fits [n.cardinality v] [x v] = true := by simpa [Table.fits] using hx
      exact (Table.entry_ofFn _ hfits).trans (by simp)
  simp only [part, reduceCtorEq, if_false, hentry, Findings.observed, VarMap.get?_filter,
    Findings.forced?]
  cases found.get? v with
  | none => rfl
  | some f =>
    obtain ⟨kind, state⟩ := f
    cases kind <;> rfl

theorem likelihood_surgery (hfound : n.Admits found) (hx : Within n.cardinality n.ids x) :
    (n.surgery (Findings.forced? found)).likelihood (Findings.observed found) x =
      n.likelihood found x := by
  rw [likelihood, likelihood, ← prod_part hfound, ← prod_part hfound.surgery, size_surgery]
  exact Finset.prod_congr rfl fun v hv =>
    part_surgery (Finset.mem_range.1 hv) (hx v (mem_ids.2 (Finset.mem_range.1 hv)))

theorem mass_surgery (hfound : n.Admits found) (event : (Nat → Nat) → Bool) :
    (n.surgery (Findings.forced? found)).mass (Findings.observed found) event =
      n.mass found event := by
  rw [mass_eq, mass_eq, cardinality_surgery, ids_surgery]
  refine Reduction.over_congr fun x hx => ?_
  have hlikelihood := likelihood_surgery hfound (mem_assignments.1 hx).1
  rw [likelihood, likelihood] at hlikelihood
  rw [hlikelihood]

end Network

/-- Two answers agree in some respect, or both are a contradiction. -/
def Matching {α β γ : Type} (f : β → γ) (a b : Except (Error α) β) : Prop :=
  (∃ x y, a = .ok x ∧ b = .ok y ∧ f x = f y) ∨
    (a = .error .contradictoryEvidence ∧ b = .error .contradictoryEvidence)

namespace Engine

variable {e e' : Engine ℝ} {n : Network ℝ} {found : Findings} {config config' : Config} {v : Nat}
  {subset : Option (List Nat)}

theorem Ready.matching_marginal (h : e.Ready n found)
    (h' : e'.Ready (n.surgery (Findings.forced? found)) (Findings.observed found))
    (hn : n.WellFormed) (hn' : (n.surgery (Findings.forced? found)).WellFormed) (hv : v < n.size) :
    Matching id (e.marginal v).1 (e'.marginal v).1 := by
  have hmass (event : (Nat → Nat) → Bool) := Network.mass_surgery h.admits event
  obtain ⟨x, hx, -⟩ := Network.vars_of_lt hv
  have hx' : (n.surgery (Findings.forced? found)).vars[v]? = some x := by simpa using hx
  by_cases hzero : n.mass found (fun _ => true) = 0
  · exact Or.inr ⟨h.marginal_error hn hv hzero,
      h'.marginal_error hn' (by simpa using hv) ((hmass _).trans hzero)⟩
  · have hmarginal := h.marginal_eq hn hx hzero
    have hmarginal' := h'.marginal_eq hn' hx' ((hmass _).trans_ne hzero)
    simp only [hmass, Network.cardinality_surgery] at hmarginal'
    exact Or.inl ⟨_, _, hmarginal, hmarginal', rfl⟩

theorem Ready.matching_mostProbable (h : e.Ready n found)
    (h' : e'.Ready (n.surgery (Findings.forced? found)) (Findings.observed found))
    (hn : n.Reachable) (hn' : (n.surgery (Findings.forced? found)).Reachable)
    (hknows : n.Knows subset) :
    Matching (·.probability) (e.mostProbable subset).1 (e'.mostProbable subset).1 := by
  obtain ⟨best, hin, hmax, hanswer⟩ := h.exists_best hn
  obtain ⟨best', hin', hmax', hanswer'⟩ := h'.exists_best hn'
  have hknows' : (n.surgery (Findings.forced? found)).Knows subset := by
    simpa [Network.Knows] using hknows
  rw [Network.cardinality_surgery, Network.ids_surgery] at hin' hmax'
  have hsame : n.likelihood found best =
      (n.surgery (Findings.forced? found)).likelihood (Findings.observed found) best' := by
    refine le_antisymm ?_ ?_
    · rw [← Network.likelihood_surgery h.admits hin]
      exact hmax' best hin
    · rw [Network.likelihood_surgery h.admits hin']
      exact hmax best' hin'
  obtain hzero | hpos := (Network.likelihood_nonneg hn.wellFormed h.compiles h.admits hin).eq_or_lt
  · exact Or.inr ⟨(hanswer subset hknows).1 hzero.symm,
      (hanswer' subset hknows').1 (hsame ▸ hzero.symm)⟩
  · obtain ⟨expl, hexpl, hreports⟩ := (hanswer subset hknows).2 hpos
    obtain ⟨expl', hexpl', hreports'⟩ := (hanswer' subset hknows').2 (hsame ▸ hpos)
    exact Or.inl ⟨expl, expl', hexpl, hexpl',
      hreports.probability.trans (hsame.trans hreports'.probability.symm)⟩

/-- An engine that is told observations and interventions answers like one for the network after surgery
that is told the observations only. -/
theorem intervention_eq_surgery (hn : n.Reachable) (hfound : n.Admits found)
    (he : ofNetwork n config = .ok e)
    (he' : ofNetwork (n.surgery (Findings.forced? found)) config' = .ok e') :
    (n.surgery (Findings.forced? found)).Reachable ∧
    ∃ told told', e.tell found = (.ok (), told) ∧
      e'.tell (Findings.observed found) = (.ok (), told') ∧
      told.evidence.findings = found ∧ told'.evidence.findings = Findings.observed found ∧
      (∃ p, told.evidenceProbability.1 = .ok p ∧ told'.evidenceProbability.1 = .ok p) ∧
      (∀ v < n.size, Matching id (told.marginal v).1 (told'.marginal v).1) ∧
      ∀ subset, n.Knows subset →
        Matching (·.probability) (told.mostProbable subset).1 (told'.mostProbable subset).1 := by
  have hn' := hn.surgery hfound.forces
  obtain ⟨told, htell, hready⟩ := ready_tell he hfound
  obtain ⟨told', htell', hready'⟩ := ready_tell he' hfound.surgery
  have hprobability := hready.evidenceProbability_eq hn.wellFormed
  have hprobability' := hready'.evidenceProbability_eq hn'.wellFormed
  rw [Network.mass_surgery hfound] at hprobability'
  exact ⟨hn', told, told', htell, htell', hready.findings, hready'.findings,
    ⟨_, hprobability, hprobability'⟩,
    fun v hv => hready.matching_marginal hready' hn.wellFormed hn'.wellFormed hv,
    fun subset hknows => hready.matching_mostProbable hready' hn hn' hknows⟩

def sheltered : Findings := (VarMap.empty.insert 0 ⟨.observed, 1⟩).insert 1 ⟨.intervened, 0⟩

theorem admits_sheltered : garden.Admits sheltered :=
  Network.admits_insert (Network.admits_insert Network.admits_empty (by decide) (by decide))
    (by decide) (by decide)

/-- The grass that is kept dry, and a garden in which it is dry without regard to the rain. -/
theorem intervention_eq_surgery_of_garden : garden.Reachable ∧ garden.Admits sheltered ∧
    ∃ e e', ofNetwork garden {} = .ok e ∧
      ofNetwork (garden.surgery (Findings.forced? sheltered)) {} = .ok e' ∧
      ∃ told told', e.tell sheltered = (.ok (), told) ∧
        e'.tell (Findings.observed sheltered) = (.ok (), told') ∧
        Matching id (told.marginal 0).1 (told'.marginal 0).1 := by
  obtain ⟨e, he⟩ := exists_ofNetwork reachable_garden
  obtain ⟨e', he'⟩ := exists_ofNetwork (reachable_garden.surgery admits_sheltered.forces)
  obtain ⟨_, told, told', htell, htell', _, _, _, hmarginal, _⟩ :=
    intervention_eq_surgery reachable_garden admits_sheltered he he'
  exact ⟨reachable_garden, admits_sheltered, e, e', he, he', told, told', htell, htell',
    hmarginal 0 (by decide)⟩

end Engine
end Bayes
