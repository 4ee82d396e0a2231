import Bayes.Propagation
import Bayes.Proofs.JunctionTree.Below
import Bayes.Proofs.Message
import Bayes.Proofs.Reduction
/-!
What the messages of a tree of cliques tell. Some cliques tell another one the reduction of the product
of their factors over all variables but its own. Parts of the tree that share no other variables tell
together the product of what each tells, so that every pass can be followed through sets of cliques
alone.
-/
namespace Bayes

variable {card : Nat → Nat} {how : Reduction} {x : Nat → Nat}

namespace Propagator

/-- One factor without negative entries for every clique of a rooted tree. -/
structure Fits (card : Nat → Nat) (p : Propagator ℝ) : Prop where
  rooted : p.tree.Rooted
  shaped : ∀ c < p.tree.size, (p.factor c).Shaped card (p.tree.clique c)
  nonneg : ∀ c < p.tree.size, (p.factor c).Nonneg

noncomputable def joint (p : Propagator ℝ) (D : Finset Nat) (x : Nat → Nat) : ℝ :=
  ∏ c ∈ D, (p.factor c).value x

/-- What the cliques in a set tell another clique. -/
noncomputable def tells (p : Propagator ℝ) (how : Reduction) (card : Nat → Nat) (c : Nat)
    (D : Finset Nat) : (Nat → Nat) → ℝ :=
  how.overSet card (p.tree.vars D \ (p.tree.clique c).toFinset) (p.joint D)

variable {p : Propagator ℝ} {c d e : Nat} {D E : Finset Nat}

theorem tells_congr {q : Propagator ℝ} (htree : q.tree = p.tree)
    (hfactor : ∀ d ∈ D, q.factor d = p.factor d) : q.tells how card c D = p.tells how card c D := by
  have hjoint : q.joint D = p.joint D := by
    funext y
    exact Finset.prod_congr rfl fun d hd => by rw [hfactor d hd]
  rw [tells, tells, htree, hjoint]

namespace Fits

variable (h : p.Fits card)
include h

theorem joint_nonneg (hD : D ⊆ Finset.range p.tree.size) (x : Nat → Nat) : 0 ≤ p.joint D x :=
  Finset.prod_nonneg fun c hc => (h.nonneg c (Finset.mem_range.1 (hD hc))).value_nonneg x

theorem dependsOn_joint (hD : D ⊆ Finset.range p.tree.size) :
    DependsOn (p.joint D) (p.tree.vars D) := by
  intro x y hxy
  refine Finset.prod_congr rfl fun c hc => ?_
  refine (h.shaped c (Finset.mem_range.1 (hD hc))).dependsOn fun v hv => hxy v ?_
  exact JunctionTree.mem_vars.2 ⟨c, hc, hv⟩

omit h in
theorem tells_self : p.tells how card c {c} x = (p.factor c).value x := by
  rw [tells, JunctionTree.vars_singleton, Finset.sdiff_self, Reduction.overSet_empty, joint,
    Finset.prod_singleton]

omit h in
theorem tells_empty : p.tells how card c ∅ x = 1 := by
  rw [tells, JunctionTree.vars, Finset.biUnion_empty, Finset.empty_sdiff, Reduction.overSet_empty,
    joint, Finset.prod_empty]

/-- Two parts of the tree tell together the product of what each tells. -/
theorem tells_union (hD : D ⊆ Finset.range p.tree.size) (hE : E ⊆ Finset.range p.tree.size)
    (hapart : p.tree.Apart c D E) :
    p.tells how card c (D ∪ E) x = p.tells how card c D x * p.tells how card c E x := by
  obtain ⟨hdisjoint, hshared⟩ := hapart
  have hjoint : p.joint (D ∪ E) = fun y => p.joint D y * p.joint E y := by
    funext y
    exact Finset.prod_union hdisjoint
  rw [tells, JunctionTree.vars_union, Finset.union_sdiff_distrib, hjoint]
  refine Reduction.overSet_mul (h.dependsOn_joint hD) (h.dependsOn_joint hE) (h.joint_nonneg hD)
    (h.joint_nonneg hE) ?_ ?_ ?_
  · refine Finset.disjoint_left.2 fun v hvD hvE => ?_
    obtain ⟨hvD, hvc⟩ := Finset.mem_sdiff.1 hvD
    exact hvc (List.mem_toFinset.2 (hshared v hvD (Finset.mem_sdiff.1 hvE).1))
  · intro v hvD hvE
    obtain ⟨hvD, hvc⟩ := Finset.mem_sdiff.1 hvD
    exact hvc (List.mem_toFinset.2 (hshared v hvD (Finset.mem_coe.1 hvE)))
  · intro v hvE hvD
    obtain ⟨hvE, hvc⟩ := Finset.mem_sdiff.1 hvE
    exact hvc (List.mem_toFinset.2 (hshared v (Finset.mem_coe.1 hvD) hvE))

theorem over_tells {keep : List Nat} (hcD : c ∈ D) (hkeep : ∀ v ∈ keep, v ∈ p.tree.clique c) :
    how.over card ((p.tree.clique c).filter fun v => !keep.contains v) (p.tells how card c D) x =
      how.overSet card (p.tree.vars D \ keep.toFinset) (p.joint D) x := by
  have hgone : ∀ v, v ∈ ((p.tree.clique c).filter fun v => !keep.contains v) ↔
      v ∈ (p.tree.clique c).toFinset \ keep.toFinset := by simp
  have hnodup := (h.rooted.increasing c).filter (fun v => !keep.contains v) |>.nodup
  have hdisjoint : Disjoint ((p.tree.clique c).toFinset \ keep.toFinset)
      (p.tree.vars D \ (p.tree.clique c).toFinset) := by
    refine Finset.disjoint_left.2 fun v hv hv' => ?_
    exact (Finset.mem_sdiff.1 hv').2 (Finset.mem_sdiff.1 hv).1
  have hvars : (p.tree.clique c).toFinset \ keep.toFinset ∪
      p.tree.vars D \ (p.tree.clique c).toFinset = p.tree.vars D \ keep.toFinset := by
    ext v
    have hcv : v ∈ p.tree.clique c → v ∈ p.tree.vars D := fun hv =>
      JunctionTree.mem_vars.2 ⟨c, hcD, hv⟩
    have hkv := hkeep v
    simp only [Finset.mem_union, Finset.mem_sdiff, List.mem_toFinset]
    tauto
  rw [Reduction.over_eq_overSet hnodup hgone, tells, ← Reduction.overSet_union hdisjoint, hvars]

/-- Keeping the variables that the cliques heard share with a neighbour gives what they tell it. -/
theorem tells_onto {keep : List Nat} (hcD : c ∈ D) (hkeep : ∀ v ∈ keep, v ∈ p.tree.clique c)
    (hshared : ∀ v ∈ p.tree.vars D, v ∈ p.tree.clique e ↔ v ∈ keep) :
    how.over card ((p.tree.clique c).filter fun v => !keep.contains v) (p.tells how card c D) x =
      p.tells how card e D x := by
  have hvars : p.tree.vars D \ keep.toFinset = p.tree.vars D \ (p.tree.clique e).toFinset := by
    ext v
    have hsv := hshared v
    simp only [Finset.mem_sdiff, List.mem_toFinset]
    tauto
  rw [h.over_tells hcD hkeep, hvars, tells]

end Fits
end Propagator
end Bayes
