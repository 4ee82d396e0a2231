import Mathlib.Data.String.Basic
import Bayes.Proofs.Inference
import Bayes.Proofs.Propagation.MaxProduct
/-!
Explanations are genuine. Of all assignments of the variables, one that is most likely together with the
findings is chosen, the same whatever is asked for; what is reported are its states of the variables that
were asked for, by numbers and by names, and the likelihood of the whole assignment. Nothing is reported
just when no assignment is possible.
-/
namespace Bayes

namespace Network

/-- The joint of an assignment that agrees with the findings. -/
noncomputable def likelihood (n : Network ℝ) (found : Findings) (x : Nat → Nat) : ℝ :=
  if Findings.agrees found x = true then n.joint found x else 0

def Knows {α : Type} (n : Network α) (subset : Option (List Nat)) : Prop :=
  ∀ vs ∈ subset, ∀ v ∈ vs, v < n.size

variable {n : Network ℝ} {found : Findings} {t : JunctionTree} {x : Nat → Nat}

theorem product_leaving (h : n.WellFormed) (ht : t.Compiles n) (hfound : n.Admits found)
    (hx : Within n.cardinality n.ids x) :
    Potential.product (n.leaving none t found).factors x = n.likelihood found x := by
  rw [← Propagator.joint_range size_leaving]
  exact (joint_leaving h ht hx).trans (prod_part hfound x)

theorem likelihood_nonneg (h : n.WellFormed) (ht : t.Compiles n) (hfound : n.Admits found)
    (hx : Within n.cardinality n.ids x) : 0 ≤ n.likelihood found x := by
  rw [← product_leaving h ht hfound hx, ← Propagator.joint_range size_leaving]
  exact (fits_leaving h ht).joint_nonneg (Finset.Subset.refl _) x

theorem eq_of_likelihood_ne_zero (hx : n.likelihood found x ≠ 0) {v : Nat} {f : Finding}
    (hf : found.get? v = some f) : x v = f.state := by
  rw [likelihood] at hx
  exact agrees_iff.1 (not_not.1 fun hnot => hx (if_neg hnot)) v f hf

theorem exists_heaviest (h : n.WellFormed) (ht : t.Compiles n) (hfound : n.Admits found) :
    ∃ chosen : VarMap Nat, chosen.keys = n.ids ∧ Within n.cardinality n.ids chosen.states ∧
      (∀ x, Within n.cardinality n.ids x → n.likelihood found x ≤ n.likelihood found chosen.states) ∧
      (n.propagator t found false).maxProduct = .ok (if n.likelihood found chosen.states = 0 then none
        else some (chosen, Real.log (n.likelihood found chosen.states))) := by
  have hids : (n.leaving none t found).tree.allVars = n.ids := allVars_eq ht
  obtain ⟨chosen, hkeys, hin, hmax, hresult⟩ := Propagator.exists_best (fits_leaving h ht)
    size_leaving rfl fun v hv => h.card_pos v (mem_ids.1 (hids ▸ hv))
  rw [hids] at hkeys hin hmax
  have hproduct (x : Nat → Nat) (hx : Within n.cardinality n.ids x) :=
    product_leaving (t := t) h ht hfound hx
  rw [hproduct _ hin] at hresult
  refine ⟨chosen, hkeys, hin, fun x hx => ?_, hresult⟩
  rw [← hproduct x hx, ← hproduct _ hin]
  exact hmax x hx

end Network

/-- What is reported about an assignment: its states of the variables that are asked for, each also by
the names of the variable and of the state, and the likelihood of the whole assignment. -/
structure Explanation.Reports (expl : Explanation ℝ) (n : Network ℝ) (found : Findings)
    (subset : Option (List Nat)) (best : Nat → Nat) : Prop where
  probability : expl.probability = n.likelihood found best
  logProbability : expl.logProbability = Real.log (n.likelihood found best)
  assignment : ∀ v i, expl.assignment.get? v = some i ↔
    v < n.size ∧ (∀ vs ∈ subset, v ∈ vs) ∧ i = best v
  states : ∀ name state, (name, state) ∈ expl.states ↔ ∃ v x, v ∈ expl.assignment.keys ∧
    n.vars[v]? = some x ∧ x.name = name ∧ x.states[best v]? = some state
  length : expl.states.length = expl.assignment.size
  names : expl.states.Pairwise fun a b => a.1 < b.1

namespace Engine

variable {e : Engine ℝ} {n : Network ℝ} {found : Findings} {config : Config} {m : VarMap Nat}
  {subset : Option (List Nat)}

theorem mem_namedStates (hvars : e.compiled.vars = n.vars) {name state : String} :
    (name, state) ∈ e.namedStates m ↔ ∃ v i x, m.get? v = some i ∧ n.vars[v]? = some x ∧
      x.name = name ∧ x.states[i]? = some state := by
  simp only [namedStates, hvars, List.mem_mergeSort, List.mem_filterMap, Prod.exists,
    VarMap.mem_entries, Option.bind_eq_some_iff, Option.map_eq_some_iff, Prod.mk.injEq]
  constructor
  · rintro ⟨v, i, hi, x, hx, s, hs, rfl, rfl⟩
    exact ⟨v, i, x, hi, hx, rfl, hs⟩
  · rintro ⟨v, i, x, hi, hx, rfl, hs⟩
    exact ⟨v, i, hi, x, hx, state, hs, rfl, rfl⟩

theorem length_namedStates (hvars : e.compiled.vars = n.vars)
    (hm : ∀ v i, m.get? v = some i → v < n.size ∧ i < n.cardinality v) :
    (e.namedStates m).length = m.size := by
  rw [namedStates, List.length_mergeSort, VarMap.size, List.filterMap_length_eq_length]
  rintro ⟨v, i⟩ hmem
  obtain ⟨hv, hi⟩ := hm v i (VarMap.mem_entries.1 hmem)
  obtain ⟨x, hx, hcard⟩ := Network.vars_of_lt hv
  have hstate : i < x.states.length := by rwa [← hcard] at hi
  simp [hvars, hx, hstate]

theorem pairwise_namedStates (hvars : e.compiled.vars = n.vars) (hnames : n.Named) :
    (e.namedStates m).Pairwise fun a b => a.1 < b.1 := by
  have hsorted : (e.namedStates m).Pairwise fun a b => (!decide (b.1 < a.1)) = true := by
    refine List.pairwise_mergeSort (fun a b c hab hbc => ?_) (fun a b => ?_) _
    · simp only [Bool.not_eq_true', decide_eq_false_iff_not, not_lt] at hab hbc ⊢
      exact hab.trans hbc
    · simp only [Bool.or_eq_true, Bool.not_eq_true', decide_eq_false_iff_not, not_lt]
      exact le_total a.1 b.1
  have hdifferent : (e.namedStates m).Pairwise fun a b => a.1 ≠ b.1 := by
    rw [namedStates, (List.mergeSort_perm _ _).pairwise_iff fun hab => Ne.symm hab]
    refine List.Pairwise.filterMap _ (fun a b hab c hc d hd hcd => ?_) m.increasing
    obtain ⟨x, hx, hc⟩ := Option.bind_eq_some_iff.1 hc
    obtain ⟨y, hy, hd⟩ := Option.bind_eq_some_iff.1 hd
    obtain ⟨_, _, rfl⟩ := Option.map_eq_some_iff.1 hc
    obtain ⟨_, _, rfl⟩ := Option.map_eq_some_iff.1 hd
    rw [hvars] at hx hy
    exact hab.ne (hnames.eq_of_name hx hy hcd)
  refine hsorted.imp₂ (fun a b hle hne => ?_) hdifferent
  simp only [Bool.not_eq_true', decide_eq_false_iff_not, not_lt] at hle
  exact lt_of_le_of_ne hle hne

theorem reports_explanation {chosen : VarMap Nat} (hvars : e.compiled.vars = n.vars)
    (hnames : n.Named) (hkeys : chosen.keys = n.ids)
    (hin : Within n.cardinality n.ids chosen.states) (hpos : 0 < n.likelihood found chosen.states) :
    (e.explanation subset (chosen, Real.log (n.likelihood found chosen.states))).Reports n found subset
      chosen.states := by
  have hchosen (v i : Nat) : chosen.get? v = some i ↔ v < n.size ∧ i = chosen.states v := by
    rw [← Network.mem_ids, ← hkeys, VarMap.mem_keys, VarMap.states]
    cases chosen.get? v <;> simp [eq_comm]
  have hassignment (v i : Nat) : (e.explanation subset
      (chosen, Real.log (n.likelihood found chosen.states))).assignment.get? v = some i ↔
        v < n.size ∧ (∀ vs ∈ subset, v ∈ vs) ∧ i = chosen.states v := by
    cases subset with
    | none => simpa [explanation] using hchosen v i
    | some vs =>
      simp only [explanation, VarMap.get?_filter, Option.filter_eq_some_iff, hchosen, Option.mem_def,
        Option.some.injEq, forall_eq', List.contains_iff_mem]
      exact and_right_comm.trans and_assoc
  refine ⟨Real.exp_log hpos, rfl, hassignment, fun name state => ?_, ?_, ?_⟩
  · refine (mem_namedStates hvars).trans ?_
    simp only [VarMap.mem_keys]
    constructor
    · rintro ⟨v, i, x, hi, hx, hname, hstate⟩
      obtain ⟨-, -, rfl⟩ := (hassignment v i).1 hi
      exact ⟨v, x, ⟨_, hi⟩, hx, hname, hstate⟩
    · rintro ⟨v, x, ⟨i, hi⟩, hx, hname, hstate⟩
      obtain ⟨-, -, rfl⟩ := (hassignment v i).1 hi
      exact ⟨v, _, x, hi, hx, hname, hstate⟩
  · refine length_namedStates hvars fun v i hi => ?_
    obtain ⟨hv, -, rfl⟩ := (hassignment v i).1 hi
    exact ⟨hv, hin v (Network.mem_ids.2 hv)⟩
  · exact pairwise_namedStates hvars hnames

/-- One best assignment answers for everything that can be asked for. -/
theorem Ready.exists_best (h : e.Ready n found) (hn : n.Reachable) :
    ∃ best, Within n.cardinality n.ids best ∧
      (∀ x, Within n.cardinality n.ids x → n.likelihood found x ≤ n.likelihood found best) ∧
      ∀ subset, n.Knows subset →
        (n.likelihood found best = 0 → (e.mostProbable subset).1 = .error .contradictoryEvidence) ∧
        (0 < n.likelihood found best → ∃ expl, (e.mostProbable subset).1 = .ok expl ∧
          expl.Reports n found subset best) := by
  obtain ⟨chosen, hkeys, hin, hmax, hresult⟩ :=
    Network.exists_heaviest hn.wellFormed h.compiles h.admits
  refine ⟨chosen.states, hin, hmax, fun subset hknows => ?_⟩
  have hcheck : ((subset.getD []).forM fun v => discard (e.network.lookup v)) = .ok () := by
    refine forM_eq_ok fun v hv => ?_
    have hlt : v < n.size := by
      cases subset with
      | none => simp at hv
      | some vs => exact hknows vs rfl v hv
    obtain ⟨node, hnode⟩ := Option.isSome_iff_exists.1 (Network.node?_isSome.2 hlt)
    simp only [h.network, Network.lookup, hnode]
    rfl
  have hpropagator : e.propagator e.evidence.findings = n.propagator e.compiled.tree found false := by
    rw [propagator, h.network, h.findings, h.cancelled]
  rw [mostProbable, hcheck]
  simp only [hpropagator, hresult]
  refine ⟨fun hzero => ?_, fun hpos => ?_⟩
  · rw [if_pos hzero]
    rfl
  · rw [if_neg hpos.ne']
    exact ⟨_, rfl, reports_explanation h.vars hn.named hkeys hin hpos⟩

/-- Told some findings, an engine reports a contradiction just when every assignment has likelihood zero,
and otherwise one most likely assignment, which has the state of every finding. -/
theorem explanation_exact (hn : n.Reachable) (he : ofNetwork n config = .ok e)
    (hfound : n.Admits found) :
    ∃ e', e.tell found = (.ok (), e') ∧ e'.evidence.findings = found ∧
      (∀ subset, n.Knows subset → ((e'.mostProbable subset).1 = .error .contradictoryEvidence ↔
        ∀ x, Within n.cardinality n.ids x → n.likelihood found x = 0)) ∧
      ((∃ x, Within n.cardinality n.ids x ∧ n.likelihood found x ≠ 0) →
        ∃ best, Within n.cardinality n.ids best ∧
          (∀ x, Within n.cardinality n.ids x → n.likelihood found x ≤ n.likelihood found best) ∧
          (∀ v f, found.get? v = some f → best v = f.state) ∧
          ∀ subset, n.Knows subset → ∃ expl, (e'.mostProbable subset).1 = .ok expl ∧
            expl.Reports n found subset best) := by
  obtain ⟨e', htell, hready⟩ := ready_tell he hfound
  obtain ⟨best, hin, hmax, hanswer⟩ := hready.exists_best hn
  have hnonneg (x : Nat → Nat) (hx : Within n.cardinality n.ids x) : 0 ≤ n.likelihood found x :=
    Network.likelihood_nonneg hn.wellFormed hready.compiles hfound hx
  refine ⟨e', htell, hready.findings, fun subset hknows => ⟨fun herror => ?_, fun hzero => ?_⟩, ?_⟩
  · have hzero : n.likelihood found best = 0 := by
      by_contra hne
      have hpos := lt_of_le_of_ne (hnonneg best hin) (Ne.symm hne)
      obtain ⟨expl, hexpl, -⟩ := (hanswer subset hknows).2 hpos
      rw [hexpl] at herror
      cases herror
    exact fun x hx => le_antisymm (hzero ▸ hmax x hx) (hnonneg x hx)
  · exact (hanswer subset hknows).1 (hzero best hin)
  · rintro ⟨x, hx, hne⟩
    have hpos : 0 < n.likelihood found best :=
      (lt_of_le_of_ne (hnonneg x hx) (Ne.symm hne)).trans_le (hmax x hx)
    exact ⟨best, hin, hmax, fun v f => Network.eq_of_likelihood_ne_zero hpos.ne',
      fun subset hknows => (hanswer subset hknows).2 hpos⟩

theorem likelihood_wet {x : Nat → Nat} (hrain : x 0 < 2) (hgrass : x 1 = 1) :
    garden.likelihood wet x = 1 / 4 := by
  have hjoint := joint_garden (Network.uniform [2, 2]) hrain
  rw [hgrass, entry_even rfl (by simpa [Table.fits] using hrain)] at hjoint
  rw [Network.likelihood, agrees_wet, hgrass]
  exact hjoint.trans (by norm_num)

/-- Whether it rained or not, the explanation has the grass wet, with one quarter. -/
theorem explanation_exact_of_garden : garden.Reachable ∧ garden.Admits wet ∧
    ∃ e, ofNetwork garden {} = .ok e ∧ ∃ e', e.tell wet = (.ok (), e') ∧
      ∃ expl, (e'.mostProbable none).1 = .ok expl ∧ expl.probability = 1 / 4 ∧
        expl.assignment.get? 1 = some 1 ∧ ∃ rain < 2, expl.assignment.get? 0 = some rain := by
  obtain ⟨e, he⟩ := exists_ofNetwork reachable_garden
  obtain ⟨e', htell, -, -, hbest⟩ := explanation_exact reachable_garden he admits_wet
  have hpossible : garden.likelihood wet (fun v => v) = 1 / 4 := likelihood_wet two_pos rfl
  obtain ⟨best, hin, -, hfound, hanswer⟩ := hbest
    ⟨fun v => v, by change ∀ v ∈ [0, 1], v < garden.cardinality v; decide, by simp [hpossible]⟩
  have hrain : best 0 < 2 := hin 0 (Network.mem_ids.2 two_pos)
  have hgrass : best 1 = 1 := hfound 1 ⟨.observed, 1⟩ rfl
  obtain ⟨expl, hexpl, hreports⟩ := hanswer none (by simp [Network.Knows])
  have hstate (v : Nat) (hv : v < 2) : expl.assignment.get? v = some (best v) :=
    (hreports.assignment v (best v)).2 ⟨hv, by simp, rfl⟩
  refine ⟨reachable_garden, admits_wet, e, he, e', htell, expl, hexpl, ?_, ?_, best 0, hrain,
    hstate 0 two_pos⟩
  · rw [hreports.probability, likelihood_wet hrain hgrass]
  · rw [hstate 1 one_lt_two, hgrass]

end Engine
end Bayes
