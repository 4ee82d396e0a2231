import Mathlib.Data.Finset.Dedup
import Bayes.Proofs.Assignment
/-!
Reductions over sets of variables: sets are united part by part, functions that look at variables of
their own are reduced each by itself, and a sum over the assignments that fix the states of some
variables is a sum over the others.
-/
namespace Bayes

variable {card : Nat → Nat} {how : Reduction} {x : Nat → Nat}

namespace Reduction

variable {f g : (Nat → Nat) → ℝ} {A B : Finset Nat}

noncomputable def overSet (how : Reduction) (card : Nat → Nat) (A : Finset Nat)
    (f : (Nat → Nat) → ℝ) (x : Nat → Nat) : ℝ := how.over card A.toList f x

theorem over_eq_overSet {vs : List Nat} (hvs : vs.Nodup) (h : ∀ v, v ∈ vs ↔ v ∈ A) :
    how.over card vs f x = how.overSet card A f x := by
  refine over_eq hvs A.nodup_toList fun v => ?_
  rw [h, Finset.mem_toList]

theorem overSet_empty : how.overSet card ∅ f x = f x := by
  rw [overSet, Finset.toList_empty]
  exact over_nil

theorem overSet_union (h : Disjoint A B) :
    how.overSet card (A ∪ B) f x = how.overSet card A (how.overSet card B f) x := by
  have hnodup : (A.toList ++ B.toList).Nodup := by
    refine List.nodup_append.2 ⟨A.nodup_toList, B.nodup_toList, fun a ha b hb hab => ?_⟩
    rw [Finset.mem_toList] at ha hb
    exact Finset.disjoint_left.1 h ha (hab ▸ hb)
  rw [← over_eq_overSet hnodup (by simp)]
  exact over_append

theorem overSet_nonneg (h : ∀ y, 0 ≤ f y) : 0 ≤ how.overSet card A f x := over_nonneg h

theorem dependsOn_overSet {s : Set Nat} (hf : DependsOn f s) :
    DependsOn (how.overSet card A f) (s \ A) := by
  have h : DependsOn (how.over card A.toList f) (s \ {v | v ∈ A.toList}) := dependsOn_over hf
  simp only [Finset.mem_toList] at h
  exact h

/-- Functions that look only at variables of their own are reduced each by itself. -/
theorem overSet_mul {s t : Set Nat} (hf : DependsOn f s) (hg : DependsOn g t) (hf0 : ∀ y, 0 ≤ f y)
    (hg0 : ∀ y, 0 ≤ g y) (hAB : Disjoint A B) (hAt : ∀ v ∈ A, v ∉ t) (hBs : ∀ v ∈ B, v ∉ s) :
    how.overSet card (A ∪ B) (fun y => f y * g y) x =
      how.overSet card A f x * how.overSet card B g x := by
  have hinner (y : Nat → Nat) : how.overSet card B (fun z => f z * g z) y =
      how.overSet card B g y * f y := by
    rw [overSet, over_mul_left (hf0 y), mul_comm]
    · rfl
    · intro z hz
      refine hf fun v hv => (mem_assignments.1 hz).2 v fun hvB => ?_
      exact hBs v (Finset.mem_toList.1 hvB) hv
  have hconst : ∀ y ∈ assignments card A.toList x, how.overSet card B g y =
      how.overSet card B g x := by
    intro y hy
    refine dependsOn_overSet hg fun v hv => (mem_assignments.1 hy).2 v fun hvA => ?_
    exact hAt v (Finset.mem_toList.1 hvA) hv.1
  rw [overSet_union hAB]
  calc how.overSet card A (how.overSet card B fun z => f z * g z) x
      = how.over card A.toList (fun y => how.overSet card B g y * f y) x :=
        over_congr fun y _ => hinner y
    _ = how.overSet card B g x * how.overSet card A f x :=
        over_mul_left (overSet_nonneg hg0) hconst
    _ = _ := mul_comm _ _

theorem sum_over_le {vs : List Nat} (h : ∀ y ∈ assignments card vs x, f y ≤ g y) :
    sum.over card vs f x ≤ sum.over card vs g x :=
  List.sum_le_sum h

theorem sum_range_single {k j : Nat} (hj : j < k) {h : Nat → ℝ} (h0 : ∀ i, i ≠ j → h i = 0) :
    ((List.range k).map h).sum = h j := by
  change ∑ i ∈ Finset.range k, h i = h j
  exact Finset.sum_eq_single_of_mem j (Finset.mem_range.2 hj) fun i _ hij => h0 i hij

theorem sum_over_fixed (vs ws : List Nat) (hvs : (vs ++ ws).Nodup) {a : Nat → Nat}
    (ha : Within card vs a) : ∀ x,
      Reduction.sum.over card (vs ++ ws) (fun y => if ∀ v ∈ vs, y v = a v then f y else 0) x =
        Reduction.sum.over card ws f fun v => if v ∈ vs then a v else x v := by
  induction vs generalizing f with
  | nil =>
    intro x
    simp
  | cons v vs ih =>
    intro x
    rw [List.cons_append, List.nodup_cons] at hvs
    have hv := ha v List.mem_cons_self
    have hrest : Within card vs a := ha.mono fun w hw => List.mem_cons_of_mem v hw
    have hkeep (i : Nat) : ∀ y ∈ assignments card (vs ++ ws) (override x v i), y v = i := by
      intro y hy
      rw [(mem_assignments.1 hy).2 v hvs.1, override_same]
    rw [List.cons_append, over_cons, apply, sum_range_single hv]
    · have hcond : ∀ y ∈ assignments card (vs ++ ws) (override x v (a v)),
          (if ∀ w ∈ v :: vs, y w = a w then f y else 0) = if ∀ w ∈ vs, y w = a w then f y else 0 := by
        intro y hy
        simp [hkeep (a v) y hy]
      rw [over_congr hcond, ih hvs.2 hrest]
      congr 1
      funext w
      by_cases hwv : w = v
      · subst hwv
        by_cases hw : w ∈ vs <;> simp [hw]
      · simp [hwv, override]
    · intro i hi
      rw [over_congr (g := fun _ => 0) fun y hy => if_neg fun hall => hi ?_]
      · exact apply_zeros .sum _
      · rw [← hkeep i y hy]
        exact hall v List.mem_cons_self

end Reduction
end Bayes
