import Bayes.Proofs.Propagation.Distribute
/-!
Calibration is exact: on every tree that can be built, with one factor for every clique, every belief is
the sum of the product of all factors over the variables outside its clique, and the logarithm of the
whole sum comes with them, unless that sum is zero.
-/
namespace Bayes

def JunctionTree.allVars (t : JunctionTree) : List Nat := Scope.ofList t.cliques.toList.flatten

noncomputable def Potential.product (factors : Array (Potential ℝ)) (x : Nat → Nat) : ℝ :=
  (factors.toList.map fun q => q.value x).prod

/-- One factor without negative entries for every clique, over the variables of the clique. -/
structure JunctionTree.Supplied (card : Nat → Nat) (t : JunctionTree)
    (factors : Array (Potential ℝ)) : Prop where
  size_eq : factors.size = t.size
  scope : ∀ c (hc : c < factors.size), factors[c].scope = t.clique c
  cardinalities : ∀ c (hc : c < factors.size), factors[c].cardinalities = (t.clique c).map card
  nonneg : ∀ c (hc : c < factors.size), factors[c].Nonneg

namespace JunctionTree

variable {t : JunctionTree} {v : Nat}

theorem increasing_allVars (t : JunctionTree) : Scope.Increasing t.allVars :=
  Scope.increasing_ofList _

theorem mem_allVars : v ∈ t.allVars ↔ v ∈ t.vars (Finset.range t.size) := by
  simp only [allVars, Scope.mem_ofList, mem_vars, List.mem_flatten, Finset.mem_range,
    Array.mem_toList_iff, Array.mem_iff_getElem]
  constructor
  · rintro ⟨s, ⟨c, hc, rfl⟩, hv⟩
    exact ⟨c, hc, by simpa [clique, hc] using hv⟩
  · rintro ⟨c, hc, hv⟩
    have hc' : c < t.cliques.size := hc
    exact ⟨t.cliques[c], ⟨c, hc', rfl⟩, by simpa [clique, hc'] using hv⟩

end JunctionTree

namespace Propagator

variable {card : Nat → Nat} {how : Reduction} {p : Propagator ℝ} {t : JunctionTree}
  {factors : Array (Potential ℝ)} {x : Nat → Nat} {c : Nat} {D : Finset Nat}

theorem fits_of_supplied (ht : t.Rooted) (h : t.Supplied card factors) (cancelled : Bool) :
    (⟨t, factors, cancelled⟩ : Propagator ℝ).Fits card := by
  have hfactor (c : Nat) (hc : c < factors.size) :
      (⟨t, factors, cancelled⟩ : Propagator ℝ).factor c = factors[c] := by
    simp [factor, hc]
  refine ⟨ht, fun c hc => ?_, fun c hc => ?_⟩
  · have hc := h.size_eq ▸ hc
    rw [hfactor c hc]
    exact ⟨h.scope c hc, h.cardinalities c hc, ht.increasing c⟩
  · have hc := h.size_eq ▸ hc
    rw [hfactor c hc]
    exact h.nonneg c hc

theorem joint_range (h : p.factors.size = p.tree.size) :
    p.joint (Finset.range p.tree.size) x = Potential.product p.factors x := by
  have hlist : p.factors.toList = (List.range p.tree.size).map p.factor := by
    refine List.ext_getElem (by simp [h]) fun i hi _ => ?_
    have hi' : i < p.factors.size := by simpa using hi
    simp [factor, hi']
  rw [joint, Potential.product, hlist, List.map_map]
  rfl

theorem tells_range (h : p.factors.size = p.tree.size) :
    p.tells how card c (Finset.range p.tree.size) x =
      how.over card (p.tree.allVars.filter fun v => !(p.tree.clique c).contains v)
        (Potential.product p.factors) x := by
  have hnodup : (p.tree.allVars.filter fun v => !(p.tree.clique c).contains v).Nodup :=
    p.tree.increasing_allVars.nodup.filter _
  have hjoint : p.joint (Finset.range p.tree.size) = Potential.product p.factors := by
    funext y
    exact joint_range h
  rw [tells, hjoint]
  refine (Reduction.over_eq_overSet hnodup fun v => ?_).symm
  simp [JunctionTree.mem_allVars]

theorem over_tells_range (h : p.Fits card) (hsize : p.factors.size = p.tree.size)
    (hc : c < p.tree.size) :
    how.over card (p.tree.clique c) (p.tells how card c (Finset.range p.tree.size)) x =
      how.over card p.tree.allVars (Potential.product p.factors) x := by
  have hall : how.over card ((p.tree.clique c).filter fun v => !([] : List Nat).contains v)
      (p.tells how card c (Finset.range p.tree.size)) x = _ :=
    h.over_tells (Finset.mem_range.2 hc) (by simp)
  have hfilter : ((p.tree.clique c).filter fun v => !([] : List Nat).contains v) =
      p.tree.clique c := by simp
  have hjoint : p.joint (Finset.range p.tree.size) = Potential.product p.factors := by
    funext y
    exact joint_range hsize
  rw [hfilter, List.toFinset_nil, Finset.sdiff_empty, hjoint] at hall
  rw [hall]
  exact (Reduction.over_eq_overSet p.tree.increasing_allVars.nodup fun v =>
    JunctionTree.mem_allVars).symm

/-- What all cliques tell one of them, in given states of some of its variables. -/
theorem over_tells_fixed (h : p.Fits card) (hc : c < p.tree.size) {keep : List Nat}
    (hkeep : ∀ v ∈ keep, v ∈ p.tree.clique c) (hnodup : keep.Nodup) {a : Nat → Nat}
    (ha : Within card keep a) (x : Nat → Nat) :
    Reduction.sum.over card ((p.tree.clique c).filter fun v => !keep.contains v)
        (p.tells .sum card c (Finset.range p.tree.size)) (fun v => if v ∈ keep then a v else x v) =
      Reduction.sum.over card p.tree.allVars (fun y =>
        if ∀ v ∈ keep, y v = a v then p.joint (Finset.range p.tree.size) y else 0) x := by
  have hall := p.tree.increasing_allVars.nodup
  let rest := p.tree.allVars.filter fun v => !keep.contains v
  have hrest : rest.Nodup := hall.filter _
  have hnew : (keep ++ rest).Nodup := by
    refine List.nodup_append.2 ⟨hnodup, hrest, fun v hv w hw hvw => ?_⟩
    simpa [← hvw, hv] using (List.mem_filter.1 hw).2
  have hmem (v : Nat) : v ∈ p.tree.allVars ↔ v ∈ keep ++ rest := by
    have hkv : v ∈ keep → v ∈ p.tree.allVars := fun hv =>
      JunctionTree.mem_allVars.2 (JunctionTree.mem_vars.2 ⟨c, Finset.mem_range.2 hc, hkeep v hv⟩)
    simp only [rest, List.mem_append, List.mem_filter, Bool.not_eq_true', List.contains_eq_mem,
      decide_eq_false_iff_not]
    tauto
  rw [h.over_tells (Finset.mem_range.2 hc) hkeep, Reduction.over_eq hall hnew hmem,
    Reduction.sum_over_fixed keep rest hnew ha]
  refine (Reduction.over_eq_overSet hrest fun v => ?_).symm
  simp [rest, JunctionTree.mem_allVars]

theorem calibrate_eq {α : Type} [Scalar α] {p : Propagator α} (h : p.cancelled = false) :
    p.calibrate = .ok (p.distributeAll (p.collectAll .sum)) := by
  simp [calibrate, collect, distribute, h, bind, Except.bind]

theorem logTotal_sum (h : p.Fits card) (hsize : p.factors.size = p.tree.size) :
    (p.collectAll .sum).logTotal p.tree.root =
      if Reduction.sum.over card p.tree.allVars (Potential.product p.factors) x = 0 then none
      else some (Real.log
        (Reduction.sum.over card p.tree.allVars (Potential.product p.factors) x)) := by
  have hroot := h.rooted.root_lt
  have hs := sent_collectAll h .sum
  have hgathered := (hs.gathered _ (mem_postorder h hroot)).got
  rw [h.rooted.below_root] at hgathered
  have hscale := hgathered.logScale_eq x
  rw [over_tells_range h hsize hroot] at hscale
  rw [Collected.logTotal, hs.how_eq]
  exact hscale

/-- On every tree that can be built, both passes give the sums of the product of all factors. -/
theorem calibrate_exact {cliques : List (List Nat)}
    (ht : JunctionTree.build cliques = (.ok t : Except (Error ℝ) JunctionTree))
    (hf : t.Supplied card factors) :
    ∃ calibrated, (⟨t, factors, false⟩ : Propagator ℝ).calibrate = .ok calibrated ∧
      (∀ c < t.size, ∃ belief, calibrated.beliefs.at? c = some belief ∧
        belief.potential.scope = t.clique c ∧
        belief.potential.cardinalities = (t.clique c).map card ∧
        ∀ x, Within card (t.clique c) x → belief.value x =
          Reduction.sum.over card (t.allVars.filter fun v => !(t.clique c).contains v)
            (Potential.product factors) x) ∧
      ∀ x, calibrated.logPartition =
        if Reduction.sum.over card t.allVars (Potential.product factors) x = 0 then none
        else some (Real.log (Reduction.sum.over card t.allVars (Potential.product factors) x)) := by
  have h := fits_of_supplied (JunctionTree.build_spec ht).1 hf false
  have hknown := known_distribute h (sent_collectAll h .sum)
  refine ⟨_, calibrate_eq rfl, fun c hc => ?_, fun x => logTotal_sum h hf.size_eq⟩
  obtain ⟨belief, hbelief, hcarries⟩ := hknown.beliefs c ((h.rooted.mem_preorder c).2 hc)
  refine ⟨belief, hbelief, hcarries.shaped.scope, hcarries.shaped.shape, fun x hx => ?_⟩
  rw [hcarries.value_eq x hx]
  exact tells_range hf.size_eq

def pathTree : JunctionTree :=
  ⟨#[[0, 1], [1, 2]], [⟨0, 1, [1]⟩], [⟨0, none, [], 0⟩, ⟨1, some 0, [1], 1⟩], []⟩

theorem build_path :
    JunctionTree.build [[0, 1], [1, 2]] = (.ok pathTree : Except (Error ℝ) JunctionTree) := by cbv

noncomputable def pathFactors : Array (Potential ℝ) :=
  #[.ofFn [(0, 2), (1, 2)] fun _ => 1, .ofFn [(1, 2), (2, 2)] fun _ => 1]

theorem supplied_path : pathTree.Supplied (fun _ => 2) pathFactors := by
  have hnonneg (axes : List (Nat × Nat)) : (Potential.ofFn axes fun _ => (1 : ℝ)).Nonneg :=
    Potential.nonneg_ofFn fun _ => zero_le_one
  refine ⟨rfl, fun c hc => ?_, fun c hc => ?_, fun c hc => ?_⟩ <;> match c, hc with
    | 0, _ => first | rfl | exact hnonneg _
    | 1, _ => first | rfl | exact hnonneg _

theorem allVars_path : pathTree.allVars = [0, 1, 2] := rfl

theorem product_path {x : Nat → Nat} (hx : Within (fun _ => 2) pathTree.allVars x) :
    Potential.product pathFactors x = 1 := by
  rw [allVars_path] at hx
  have h01 := Potential.value_ofFn (s := [0, 1]) (f := fun _ => (1 : ℝ)) (by simp [Scope.Increasing])
    (hx.mono (by simp)) fun _ _ _ => rfl
  have h12 := Potential.value_ofFn (s := [1, 2]) (f := fun _ => (1 : ℝ)) (by simp [Scope.Increasing])
    (hx.mono (by simp)) fun _ _ _ => rfl
  simp only [List.map_cons, List.map_nil] at h01 h12
  simp [Potential.product, pathFactors, h01, h12]

/-- Of ones over three variables with two states each the sum is eight. -/
theorem calibrate_exact_on_path :
    JunctionTree.build [[0, 1], [1, 2]] = (.ok pathTree : Except (Error ℝ) JunctionTree) ∧
      pathTree.Supplied (fun _ => 2) pathFactors ∧
      ∃ calibrated, (⟨pathTree, pathFactors, false⟩ : Propagator ℝ).calibrate = .ok calibrated ∧
        calibrated.logPartition = some (Real.log 8) := by
  obtain ⟨calibrated, hcalibrate, _, hlog⟩ := calibrate_exact build_path supplied_path
  have htotal : Reduction.sum.over (fun _ => 2) pathTree.allVars (Potential.product pathFactors)
      (fun _ => 0) = 8 := by
    rw [Reduction.over_congr fun y hy => product_path (mem_assignments.1 hy).1, allVars_path]
    norm_num [Reduction.over, Reduction.apply, assignments]
  refine ⟨build_path, supplied_path, calibrated, hcalibrate, ?_⟩
  rw [hlog fun _ => 0, htotal, if_neg (by norm_num)]

end Propagator
end Bayes
