import Bayes.Proofs.Potential
import Bayes.Proofs.Potential.Elimination
import Bayes.Proofs.Potential.Entries
/-!
Tables as a whole: all entries in the order of the assignments, the mass of a table, and tables
scaled to unit mass.
-/
namespace Bayes

variable {card : Nat → Nat} {s : List Nat}

theorem map_assignments (hs : s.Nodup) (x : Nat → Nat) :
    (assignments card s x).map (fun y => s.map y) = Table.indices (s.map card) := by
  induction s generalizing x with
  | nil => rfl
  | cons v s ih =>
    obtain ⟨hv, hs⟩ := List.nodup_cons.1 hs
    have hpart (i : Nat) : (assignments card s (override x v i)).map (fun y => (v :: s).map y) =
        (Table.indices (s.map card)).map (i :: ·) := by
      rw [← ih hs (override x v i), List.map_map]
      refine List.map_congr_left fun y hy => ?_
      have hyv : y v = i := by rw [(mem_assignments.1 hy).2 v hv, override_same]
      simp [hyv]
    rw [assignments, List.map_flatMap, List.map_cons, Table.indices_cons]
    simp only [hpart]

namespace Potential

section
variable {α : Type} [Scalar α] {p : Potential α}

theorem Shaped.toList_eq (h : p.Shaped card s) (x : Nat → Nat) :
    p.table.toList = (assignments card s x).map p.value := by
  rw [Table.toList_eq_map_entry, h.shape, ← map_assignments h.increasing.nodup x, List.map_map]
  refine List.map_congr_left fun y hy => ?_
  exact (h.value_eq (mem_assignments.1 hy).1).symm

theorem Shaped.total_eq (h : p.Shaped card s) (x : Nat → Nat) :
    p.total = Reduction.sum.over card s p.value x := by
  rw [total, h.toList_eq x]
  rfl

/-- A table with mass has states on every axis. -/
theorem zero_not_mem_shape (h : p.total ≠ 0) : 0 ∉ p.table.shape := by
  intro h0
  have hsize : Table.size p.table.shape = 0 := List.prod_eq_zero h0
  rw [← p.table.length_toList] at hsize
  exact h (by rw [total, List.eq_nil_of_length_eq_zero hsize, List.sum_nil])

end

variable {p : Potential ℝ}

theorem nonneg_onto (h : p.Nonneg) (keep : List Nat) (how : Reduction) : (p.onto keep how).Nonneg :=
  onto_induction h fun _ v hq => nonneg_eliminate hq v how

/-! Scaling -/

theorem nonneg_map (h : p.Nonneg) {f : ℝ → ℝ} (hf : ∀ a, 0 ≤ a → 0 ≤ f a) :
    ({ p with table := p.table.map f } : Potential ℝ).Nonneg := by
  intro e he
  rw [Table.toList_map] at he
  obtain ⟨a, ha, rfl⟩ := List.mem_map.1 he
  exact hf a (h a ha)

theorem total_nonneg (h : p.Nonneg) : 0 ≤ p.total := List.sum_nonneg h

theorem normalize_eq (h : 0 < p.total) :
    p.normalize = .ok (p.total, { p with table := p.table.map (· / p.total) }) := by
  simp only [normalize]
  rw [if_pos]
  simp [Scalar.lt, Scalar.isFinite, h]

theorem normalize_eq_error (h : p.total = 0) : p.normalize = .error .contradictoryEvidence := by
  simp only [normalize, h]
  rw [if_neg]
  simp [Scalar.lt]

theorem total_normalized (h : 0 < p.total) :
    ({ p with table := p.table.map (· / p.total) } : Potential ℝ).total = 1 := by
  have hsum : (p.table.toList.map (· / p.total)).sum = p.table.toList.sum / p.total := by
    simpa [div_eq_mul_inv] using List.sum_map_mul_right p.table.toList id p.total⁻¹
  rw [total, Table.toList_map, hsum]
  exact div_self h.ne'

end Potential
end Bayes
