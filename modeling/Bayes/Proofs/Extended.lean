import Mathlib.Analysis.SpecialFunctions.Log.ENNRealLogExp
import Mathlib.Algebra.BigOperators.Ring.List
import Bayes.Proofs.Exact
/-!
Exact numbers with infinities: the extended real numbers as the numbers that tables hold. The maximum
of no numbers is minus infinity here, as it is for a running program; so a maximum may be taken part by
part even when parts are empty, but a factor zero does not leave it as it is.
-/
namespace Bayes

noncomputable instance : Scalar EReal where
  ofNat n := (n : ℝ)
  lt x y := decide (x < y)
  isFinite x := decide (x ≠ ⊥ ∧ x ≠ ⊤)
  bottom := ⊥
  aboveBottom x := decide (⊥ < x)
  exp x := (EReal.exp x : EReal)
  log x := ENNReal.log x.toENNReal

namespace Scalar

theorem isFinite_iff {x : EReal} : isFinite x = true ↔ ∃ r : ℝ, x = r := by
  simp only [isFinite, decide_eq_true_eq]
  constructor
  · rintro ⟨hbot, htop⟩
    exact ⟨x.toReal, (EReal.coe_toReal htop hbot).symm⟩
  · rintro ⟨r, rfl⟩
    exact ⟨EReal.coe_ne_bot r, EReal.coe_ne_top r⟩

theorem larger_eq (x y : EReal) : larger x y = max x y := by
  by_cases h : x < y
  · rw [larger, if_pos (by simpa [lt] using h), max_eq_right h.le]
  · rw [larger, if_neg (by simpa [lt] using h), max_eq_left (not_lt.1 h)]

theorem foldl_larger_le {b y : EReal} (xs : List EReal) :
    xs.foldl larger b ≤ y ↔ b ≤ y ∧ ∀ x ∈ xs, x ≤ y := by
  induction xs generalizing b with
  | nil => simp
  | cons x xs ih => rw [List.foldl_cons, ih, larger_eq, max_le_iff, List.forall_mem_cons, and_assoc]

theorem maximum_le_iff {xs : List EReal} {y : EReal} : maximum xs ≤ y ↔ ∀ x ∈ xs, x ≤ y := by
  -- what is not above minus infinity is below everything
  have hall : (∀ x ∈ xs.filter aboveBottom, x ≤ y) ↔ ∀ x ∈ xs, x ≤ y := by
    constructor
    · intro h x hx
      by_cases hbot : x = ⊥
      · exact hbot ▸ bot_le
      · exact h x (List.mem_filter.2 ⟨hx, by simpa [aboveBottom] using bot_lt_iff_ne_bot.2 hbot⟩)
    · exact fun h x hx => h x (List.mem_filter.1 hx).1
  rw [← hall, maximum]
  split
  · next hnil =>
    have hbot : (bottom : EReal) ≤ y := bot_le
    simp [hnil, hbot]
  · next x rest hcons => rw [hcons, foldl_larger_le, List.forall_mem_cons]

theorem maximum_eq_foldl (xs : List EReal) : maximum xs = xs.foldl larger bottom := by
  refine eq_of_forall_ge_iff fun y => ?_
  rw [maximum_le_iff, foldl_larger_le]
  exact (and_iff_right bot_le).symm

theorem isGreatest_maximum_of_ne_nil {xs : List EReal} (h : xs ≠ []) :
    IsGreatest {x | x ∈ xs} (maximum xs) := by
  obtain ⟨m, hm, hle⟩ : ∃ m ∈ xs, ∀ x ∈ xs, x ≤ m := by
    have hset := xs.toFinset.exists_max_image id (by simpa using h)
    simpa using hset
  have heq : maximum xs = m := le_antisymm (maximum_le_iff.2 hle) (maximum_le_iff.1 le_rfl m hm)
  exact heq ▸ ⟨hm, hle⟩

end Scalar

open Scalar in
instance : Exact EReal where
  apply_singleton how x := by
    cases how with
    | sum => exact List.sum_singleton
    | max => exact eq_of_forall_ge_iff fun y => by simp [Reduction.apply, maximum_le_iff]
  apply_perm how {xs ys} h := by
    cases how with
    | sum => exact h.sum_eq
    | max => exact eq_of_forall_ge_iff fun y => by simp [Reduction.apply, maximum_le_iff, h.mem_iff]
  apply_nils how l := by
    cases how with
    | sum => exact List.sum_map_zero
    | max => exact eq_of_forall_ge_iff fun y => by simp [Reduction.apply, maximum_le_iff]
  apply_flatMap how l f _ := by
    cases how with
    | sum => simp [Reduction.apply, List.flatMap, List.sum_flatten, Function.comp_def]
    | max =>
      refine eq_of_forall_ge_iff fun y => ?_
      simp only [Reduction.apply, maximum_le_iff, List.mem_flatMap, List.forall_mem_map]
      exact ⟨fun h b hb x hx => h x ⟨b, hb, hx⟩, fun h x ⟨b, hb, hx⟩ => h b hb x hx⟩

namespace Reduction
open Scalar

theorem sum_mul_left (c : ℝ) {xs : List EReal} (h : ∀ x ∈ xs, ∃ r : ℝ, x = r) :
    sum.apply (xs.map ((c : EReal) * ·)) = c * sum.apply xs := by
  have hreal : ∃ r : ℝ, sum.apply xs = r ∧ sum.apply (xs.map ((c : EReal) * ·)) = (c * r : ℝ) := by
    induction xs with
    | nil => exact ⟨0, rfl, by simp [apply]⟩
    | cons x xs ih =>
      obtain ⟨⟨r, rfl⟩, hxs⟩ := List.forall_mem_cons.1 h
      obtain ⟨t, hsum, hmul⟩ := ih hxs
      refine ⟨r + t, ?_, ?_⟩
      · rw [apply, List.sum_cons, EReal.coe_add]
        exact congrArg ((r : EReal) + ·) hsum
      · rw [apply, List.map_cons, List.sum_cons, mul_add, EReal.coe_add, EReal.coe_mul]
        exact congrArg ((c : EReal) * r + ·) hmul
  obtain ⟨r, hsum, hmul⟩ := hreal
  rw [hmul, hsum, EReal.coe_mul]

theorem max_mul_left {c : EReal} (hc : 0 ≤ c) {xs : List EReal} (h : xs ≠ []) :
    max.apply (xs.map (c * ·)) = c * max.apply xs := by
  obtain ⟨hmem, hle⟩ := isGreatest_maximum_of_ne_nil h
  refine le_antisymm (maximum_le_iff.2 fun y hy => ?_)
    (maximum_le_iff.1 le_rfl _ (List.mem_map_of_mem hmem))
  obtain ⟨x, hx, rfl⟩ := List.mem_map.1 hy
  exact mul_le_mul_of_nonneg_left (hle hx) hc

theorem max_mul_left_nil {c : ℝ} (hc : 0 < c) :
    (c : EReal) * max.apply [] = max.apply ([] : List EReal) :=
  EReal.coe_mul_bot_of_pos hc

end Reduction
end Bayes
