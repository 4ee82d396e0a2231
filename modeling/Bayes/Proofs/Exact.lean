import Mathlib.Analysis.SpecialFunctions.Log.Basic
import Mathlib.Algebra.BigOperators.Ring.List
import Mathlib.Algebra.BigOperators.Ring.Finset
import Bayes.Potential
/-!
Exact numbers, and what the two ways to eliminate a variable have in common there. Both take a list to
one number, do not look at the order of the list, and can work on its parts first. The real numbers are
such numbers; there both reductions also let a common factor that is not negative out.
-/
namespace Bayes

/-- The numbers for which reductions do not depend on the order in which they meet the entries. -/
class Exact (α : Type) [Scalar α] : Prop where
  apply_singleton (how : Reduction) (x : α) : how.apply [x] = x
  apply_perm (how : Reduction) {xs ys : List α} : xs.Perm ys → how.apply xs = how.apply ys
  /-- Parts without any entry are together as good as one. -/
  apply_nils {β : Type} (how : Reduction) (l : List β) :
    how.apply (l.map fun _ => how.apply ([] : List α)) = how.apply []
  apply_flatMap {β : Type} (how : Reduction) (l : List β) (f : β → List α) :
    (∀ b ∈ l, f b ≠ []) → how.apply (l.flatMap f) = how.apply (l.map fun b => how.apply (f b))

/-- The maximum of no numbers is zero, so that the two reductions agree on empty lists. -/
noncomputable instance : Scalar ℝ where
  ofNat n := n
  lt x y := decide (x < y)
  isFinite _ := true
  bottom := 0
  aboveBottom _ := true
  exp := Real.exp
  log := Real.log

namespace Scalar

theorem lt_iff (x y : ℝ) : lt x y = true ↔ x < y := by simp [lt]

theorem larger_eq_max (x y : ℝ) : larger x y = max x y := by
  by_cases h : x < y
  · rw [larger, if_pos ((lt_iff x y).2 h), max_eq_right h.le]
  · rw [larger, if_neg (mt (lt_iff x y).1 h), max_eq_left (not_lt.1 h)]

theorem maximum_nil : maximum ([] : List ℝ) = 0 := rfl

theorem maximum_cons (x : ℝ) (xs : List ℝ) : maximum (x :: xs) = xs.foldl max x := by
  have hall : (x :: xs).filter aboveBottom = x :: xs := List.filter_eq_self.2 fun _ _ => rfl
  have hmax : (larger : ℝ → ℝ → ℝ) = max := by
    funext a b
    exact larger_eq_max a b
  rw [maximum, hall, hmax]

theorem le_foldl_max (x : ℝ) (xs : List ℝ) : ∀ y ∈ x :: xs, y ≤ xs.foldl max x := by
  induction xs generalizing x with
  | nil => simp
  | cons z xs ih =>
    intro y hy
    have hz : max x z ≤ xs.foldl max (max x z) := ih _ _ List.mem_cons_self
    obtain rfl | hy := List.mem_cons.1 hy
    · exact (le_max_left _ _).trans hz
    · obtain rfl | hy := List.mem_cons.1 hy
      · exact (le_max_right _ _).trans hz
      · exact ih _ _ (List.mem_cons_of_mem _ hy)

theorem foldl_max_mem (x : ℝ) (xs : List ℝ) : xs.foldl max x ∈ x :: xs := by
  induction xs generalizing x with
  | nil => simp
  | cons z xs ih =>
    rw [List.foldl_cons]
    obtain h | h := List.mem_cons.1 (ih (max x z))
    · rw [h]
      obtain hx | hx := max_choice x z <;> simp [hx]
    · exact List.mem_cons_of_mem _ (List.mem_cons_of_mem _ h)

theorem isGreatest_maximum {xs : List ℝ} (h : xs ≠ []) : IsGreatest {x | x ∈ xs} (maximum xs) := by
  cases xs with
  | nil => exact absurd rfl h
  | cons x xs =>
    rw [maximum_cons]
    exact ⟨foldl_max_mem x xs, le_foldl_max x xs⟩

theorem maximum_eq_of_isGreatest {xs : List ℝ} {m : ℝ} (h : IsGreatest {x | x ∈ xs} m) :
    maximum xs = m := by
  have hne : xs ≠ [] := List.ne_nil_of_mem h.1
  exact (isGreatest_maximum hne).unique h

end Scalar

namespace Reduction
open Scalar

theorem apply_nil (how : Reduction) : how.apply ([] : List ℝ) = 0 := by
  cases how <;> rfl

theorem apply_singleton (how : Reduction) (x : ℝ) : how.apply [x] = x := by
  cases how with
  | sum => simp [apply]
  | max => simp [apply, maximum_cons]

theorem apply_perm (how : Reduction) {xs ys : List ℝ} (h : xs.Perm ys) :
    how.apply xs = how.apply ys := by
  cases how with
  | sum => exact h.sum_eq
  | max =>
    cases xs with
    | nil => rw [h.nil_eq]
    | cons x xs =>
      have hg : IsGreatest {y | y ∈ ys} (maximum (x :: xs)) := by
        simpa only [h.mem_iff] using isGreatest_maximum (List.cons_ne_nil x xs)
      exact (maximum_eq_of_isGreatest hg).symm

theorem apply_nonneg (how : Reduction) {xs : List ℝ} (h : ∀ x ∈ xs, 0 ≤ x) : 0 ≤ how.apply xs := by
  cases how with
  | sum => exact List.sum_nonneg h
  | max =>
    cases xs with
    | nil => exact le_rfl
    | cons x xs => exact h _ (isGreatest_maximum (List.cons_ne_nil x xs)).1

theorem apply_mul_left (how : Reduction) {c : ℝ} (hc : 0 ≤ c) (xs : List ℝ) :
    how.apply (xs.map (c * ·)) = c * how.apply xs := by
  cases how with
  | sum =>
    have h := List.sum_map_mul_left xs id c
    simpa [apply] using h
  | max =>
    cases xs with
    | nil => simp [apply, maximum_nil]
    | cons x xs =>
      obtain ⟨hmem, hle⟩ := isGreatest_maximum (List.cons_ne_nil x xs)
      refine maximum_eq_of_isGreatest ⟨List.mem_map_of_mem hmem, fun y hy => ?_⟩
      obtain ⟨z, hz, rfl⟩ := List.mem_map.1 hy
      exact mul_le_mul_of_nonneg_left (hle hz) hc

theorem apply_zeros {β : Type} (how : Reduction) (l : List β) :
    how.apply (l.map fun _ => (0 : ℝ)) = 0 := by
  have h := apply_mul_left how le_rfl (l.map fun _ => (0 : ℝ))
  simpa [Function.comp_def] using h

theorem apply_flatMap {β : Type} (how : Reduction) (l : List β) (f : β → List ℝ)
    (h : ∀ b ∈ l, f b ≠ []) : how.apply (l.flatMap f) = how.apply (l.map fun b => how.apply (f b)) := by
  cases how with
  | sum => simp [apply, List.flatMap, List.sum_flatten, Function.comp_def]
  | max =>
    cases l with
    | nil => rfl
    | cons b l =>
      have hne : (b :: l).map (fun b => maximum (f b)) ≠ [] := by simp
      obtain ⟨hmem, hle⟩ := isGreatest_maximum hne
      obtain ⟨c, hc, hcm⟩ := List.mem_map.1 hmem
      refine maximum_eq_of_isGreatest ⟨List.mem_flatMap.2 ⟨c, hc, ?_⟩, ?_⟩
      · change maximum ((b :: l).map fun b => maximum (f b)) ∈ f c
        rw [← hcm]
        exact (isGreatest_maximum (h c hc)).1
      · rintro y hy
        obtain ⟨d, hd, hyd⟩ := List.mem_flatMap.1 hy
        have hmax : maximum (f d) ∈ (b :: l).map fun b => maximum (f b) := List.mem_map_of_mem hd
        exact ((isGreatest_maximum (h d hd)).2 hyd).trans (hle hmax)

end Reduction

instance : Exact ℝ where
  apply_singleton := Reduction.apply_singleton
  apply_perm := Reduction.apply_perm
  apply_nils how l := by
    rw [Reduction.apply_nil]
    exact Reduction.apply_zeros how l
  apply_flatMap := Reduction.apply_flatMap

end Bayes
