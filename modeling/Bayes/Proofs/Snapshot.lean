import Bayes.Proofs.Joint
import Bayes.Proofs.Propagation.Calibrate
/-!
What a snapshot says. The factors it was propagated from are the joint of the network with its findings,
so its probability is the mass of the findings, and the distribution read off for a variable is the mass
of every state divided by that.
-/
namespace Bayes

namespace Network

noncomputable def leaving (n : Network ℝ) (leftOut : Option Nat) (t : JunctionTree)
    (found : Findings) : Propagator ℝ where
  tree := t
  factors := ((List.range t.size).map (n.cliqueFactor t found leftOut)).toArray

variable {n : Network ℝ} {found : Findings} {leftOut : Option Nat} {x : Nat → Nat} {v c : Nat}
  {t : JunctionTree}

theorem propagator_eq_leaving : n.propagator t found false = n.leaving none t found := rfl

theorem size_leaving : (n.leaving leftOut t found).factors.size = t.size := by simp [leaving]

theorem factor_leaving (hc : c < t.size) :
    (n.leaving leftOut t found).factor c = n.cliqueFactor t found leftOut c := by
  simp [Propagator.factor, leaving, hc]

theorem fits_leaving (h : n.WellFormed) (ht : t.Compiles n) :
    (n.leaving leftOut t found).Fits n.cardinality := by
  refine ⟨ht.rooted, fun c (hc : c < t.size) => ?_, fun c (hc : c < t.size) => ?_⟩
  · rw [factor_leaving hc]
    exact (means_cliqueFactor h ht c).shaped
  · rw [factor_leaving hc]
    exact (means_cliqueFactor h ht c).nonneg

theorem allVars_eq (ht : t.Compiles n) : t.allVars = n.ids := by
  refine t.increasing_allVars.ext (Scope.increasing_range _) fun v => ?_
  exact JunctionTree.mem_allVars.trans (ht.allVars_eq v)

theorem joint_leaving (h : n.WellFormed) (ht : t.Compiles n)
    (hx : Within n.cardinality n.ids x) :
    (n.leaving leftOut t found).joint (Finset.range t.size) x =
      ∏ v ∈ Finset.range n.size, n.part found leftOut x v := by
  rw [← prod_cliqueFactor h ht hx]
  refine Finset.prod_congr rfl fun c hc => ?_
  rw [factor_leaving (Finset.mem_range.1 hc)]

theorem mass_eq_over (h : n.WellFormed) (ht : t.Compiles n) (hfound : n.Admits found)
    (event : (Nat → Nat) → Bool) : n.mass found event =
      Reduction.sum.over n.cardinality t.allVars (fun x => if event x = true then
        (n.leaving none t found).joint (Finset.range t.size) x else 0) fun _ => 0 := by
  rw [mass_eq, allVars_eq ht]
  refine Reduction.over_congr fun x hx => ?_
  rw [joint_leaving h ht (mem_assignments.1 hx).1, prod_part hfound]

theorem mass_eq_total (h : n.WellFormed) (ht : t.Compiles n) (hfound : n.Admits found) :
    n.mass found (fun _ => true) = Reduction.sum.over n.cardinality t.allVars
      (Potential.product (n.leaving none t found).factors) fun _ => 0 := by
  rw [mass_eq_over h ht hfound]
  refine Reduction.over_congr fun x _ => ?_
  rw [if_pos rfl]
  exact Propagator.joint_range size_leaving

theorem mass_nonneg (h : n.WellFormed) (ht : t.Compiles n) (hfound : n.Admits found)
    (event : (Nat → Nat) → Bool) : 0 ≤ n.mass found event := by
  rw [mass_eq_over h ht hfound]
  refine Reduction.over_nonneg fun x => ?_
  split
  · exact (fits_leaving h ht).joint_nonneg subset_rfl x
  · exact le_rfl

end Network

namespace Snapshot

structure TakenOf (s : Snapshot ℝ) (n : Network ℝ) : Prop where
  vars : s.compiled.vars = n.vars
  compiles : s.compiled.tree.Compiles n
  admits : n.Admits s.findings
  calibrate : (n.propagator s.compiled.tree s.findings false).calibrate = .ok s.calibrated

variable {s : Snapshot ℝ} {n : Network ℝ} {v c : Nat}

theorem TakenOf.calibrated_eq (h : s.TakenOf n) :
    let p := n.leaving none s.compiled.tree s.findings
    s.calibrated = p.distributeAll (p.collectAll .sum) := by
  have heq := h.calibrate
  rw [Network.propagator_eq_leaving, Propagator.calibrate_eq rfl] at heq
  exact (Except.ok.inj heq).symm

theorem TakenOf.logProbability_eq (h : s.TakenOf n) (hn : n.WellFormed) :
    s.logProbability = if n.mass s.findings (fun _ => true) = 0 then none
      else some (Real.log (n.mass s.findings fun _ => true)) := by
  rw [logProbability, h.calibrated_eq, Network.mass_eq_total hn h.compiles h.admits]
  exact Propagator.logTotal_sum (Network.fits_leaving hn h.compiles) Network.size_leaving

theorem TakenOf.probability_eq (h : s.TakenOf n) (hn : n.WellFormed) :
    s.probability = n.mass s.findings fun _ => true := by
  rw [probability, h.logProbability_eq hn]
  by_cases hmass : n.mass s.findings (fun _ => true) = 0
  · rw [if_pos hmass, hmass]
    rfl
  · have hpos := lt_of_le_of_ne (Network.mass_nonneg hn h.compiles h.admits _) (Ne.symm hmass)
    rw [if_neg hmass]
    exact Real.exp_log hpos

theorem TakenOf.isContradictory_iff (h : s.TakenOf n) (hn : n.WellFormed) :
    s.isContradictory = true ↔ n.mass s.findings (fun _ => true) = 0 := by
  rw [isContradictory, h.logProbability_eq hn]
  split <;> simp [*]

/-- Every belief holds what all cliques tell. -/
theorem TakenOf.carries_belief (h : s.TakenOf n) (hn : n.WellFormed)
    (hc : c < s.compiled.tree.size) :
    (s.calibrated.beliefs.got c).Carries n.cardinality (s.compiled.tree.clique c)
      ((n.leaving none s.compiled.tree s.findings).tells .sum n.cardinality c
        (Finset.range s.compiled.tree.size)) := by
  have hfits : (n.leaving none s.compiled.tree s.findings).Fits n.cardinality :=
    Network.fits_leaving hn h.compiles
  rw [h.calibrated_eq]
  have hknown := Propagator.known_distribute hfits (Propagator.sent_collectAll hfits .sum)
  exact (hknown.beliefs c ((hfits.rooted.mem_preorder c).2 hc)).got

theorem TakenOf.mass_state (h : s.TakenOf n) (hn : n.WellFormed) (hc : c < s.compiled.tree.size)
    (hv : v ∈ s.compiled.tree.clique c) {i : Nat} (hi : i < n.cardinality v) :
    Reduction.sum.over n.cardinality
        ((s.compiled.tree.clique c).filter fun w => !([v] : List Nat).contains w)
        ((n.leaving none s.compiled.tree s.findings).tells .sum n.cardinality c
          (Finset.range s.compiled.tree.size)) (override (fun _ => 0) v i) =
      n.mass s.findings fun x => x v == i := by
  have hfits : (n.leaving none s.compiled.tree s.findings).Fits n.cardinality :=
    Network.fits_leaving hn h.compiles
  have hkeep : ∀ w ∈ [v], w ∈ s.compiled.tree.clique c := by simpa using hv
  have hstate : Within n.cardinality [v] fun _ => i := by simpa [Within] using hi
  have hfixed := Propagator.over_tells_fixed hfits hc hkeep (List.nodup_singleton v) hstate
    fun _ => 0
  have hat : (fun w => if w ∈ [v] then i else 0) = override (fun _ => 0) v i := by
    funext w
    simp [override]
  rw [hat] at hfixed
  refine hfixed.trans ?_
  rw [Network.mass_eq_over hn h.compiles h.admits]
  refine Reduction.over_congr fun x _ => ?_
  simp only [List.mem_singleton, forall_eq, beq_iff_eq]
  rfl

theorem TakenOf.mass_total (h : s.TakenOf n) (hn : n.WellFormed) (hc : c < s.compiled.tree.size) :
    Reduction.sum.over n.cardinality (s.compiled.tree.clique c)
        ((n.leaving none s.compiled.tree s.findings).tells .sum n.cardinality c
          (Finset.range s.compiled.tree.size)) (fun _ => 0) =
      n.mass s.findings fun _ => true := by
  have hfits : (n.leaving none s.compiled.tree s.findings).Fits n.cardinality :=
    Network.fits_leaving hn h.compiles
  rw [Network.mass_eq_total hn h.compiles h.admits]
  exact Propagator.over_tells_range hfits Network.size_leaving hc

theorem TakenOf.marginal_eq (h : s.TakenOf n) (hn : n.WellFormed) {x : Variable}
    (hx : n.vars[v]? = some x) (hmass : n.mass s.findings (fun _ => true) ≠ 0) :
    s.marginal v = .ok ⟨x.name, x.states, (List.range (n.cardinality v)).map fun i =>
      n.mass s.findings (fun y => y v == i) / n.mass s.findings fun _ => true⟩ := by
  obtain ⟨d, hd, _, hfamily⟩ := h.compiles.family v (Network.lt_of_vars hx)
  obtain ⟨c, hc, hhome, hvc⟩ := JunctionTree.home?_spec (hfamily v (Network.mem_family.2 (by simp)))
  have hcontradictory : s.isContradictory = false := by
    simpa [hmass] using h.isContradictory_iff hn
  have htotal := h.mass_total hn hc
  obtain ⟨total, q, hq, hshaped, hvalue⟩ :=
    (h.carries_belief hn hc).normalize_onto [v] (htotal.trans_ne hmass)
  have hscope : (s.compiled.tree.clique c).filter ([v] : List Nat).contains = [v] :=
    (h.compiles.rooted.increasing c).filter_contains (List.pairwise_singleton _ v) (by simpa using hvc)
  rw [hscope] at hshaped hvalue
  have hlist : q.table.toList = (List.range (n.cardinality v)).map fun i =>
      n.mass s.findings (fun y => y v == i) / n.mass s.findings fun _ => true := by
    rw [hshaped.toList_eq fun _ => 0, assignments_singleton, List.map_map]
    refine List.map_congr_left fun i hi => ?_
    have hi := List.mem_range.1 hi
    rw [Function.comp_apply, hvalue _ (by simpa [Within] using hi), h.mass_state hn hc hvc hi, htotal]
  rw [marginal, h.vars, hx]
  simp only [hcontradictory, hhome, hq, ← hlist]
  rfl

theorem TakenOf.marginal_error (h : s.TakenOf n) (hn : n.WellFormed) (hv : v < n.size)
    (hmass : n.mass s.findings (fun _ => true) = 0) :
    s.marginal v = .error .contradictoryEvidence := by
  obtain ⟨x, hx, _⟩ := Network.vars_of_lt hv
  rw [marginal, h.vars, hx]
  simp only [(h.isContradictory_iff hn).2 hmass]
  rfl

end Snapshot
end Bayes
