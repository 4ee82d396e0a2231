import Bayes.Proofs.Potential.Shaped
/-!
Potentials over the real numbers whose entries are not negative, which no operation changes.
-/
namespace Bayes
namespace Potential

def Nonneg (p : Potential ℝ) : Prop := ∀ e ∈ p.table.toList, 0 ≤ e

variable {p q : Potential ℝ}

theorem Nonneg.value_nonneg (h : p.Nonneg) (x : Nat → Nat) : 0 ≤ p.value x := by
  let index := p.axes.map fun a => if a.2 = 1 then 0 else x a.1
  change 0 ≤ p.table.entry index
  obtain hmem | h0 := p.table.entry_mem_or_zero index
  · exact h _ hmem
  · exact h0.ge

theorem nonneg_ofFn {axes : List (Nat × Nat)} {f : (Nat → Nat) → ℝ} (h : ∀ x, 0 ≤ f x) :
    (ofFn axes f).Nonneg :=
  forall_mem_ofFn h

theorem nonneg_multiply (hp : p.Nonneg) (hq : q.Nonneg) : (p.multiply q).Nonneg :=
  nonneg_ofFn fun x => mul_nonneg (hp.value_nonneg x) (hq.value_nonneg x)

theorem nonneg_eliminate (h : p.Nonneg) (v : Nat) (how : Reduction) : (p.eliminate v how).Nonneg := by
  rw [eliminate]
  split
  · exact h
  · refine nonneg_ofFn fun x => Reduction.apply_nonneg how fun r hr => ?_
    obtain ⟨i, _, rfl⟩ := List.mem_map.1 hr
    exact h.value_nonneg _

theorem nonneg_condition (h : p.Nonneg) (v state : Nat) : (p.condition v state).Nonneg := by
  rw [condition]
  split
  · refine nonneg_ofFn fun x => ?_
    split
    · exact h.value_nonneg x
    · exact le_rfl
  · exact h

theorem nonneg_unit : (unit : Potential ℝ).Nonneg := nonneg_ofFn fun _ => zero_le_one

theorem nonneg_indicator (v k state : Nat) : (indicator v k state : Potential ℝ).Nonneg := by
  refine nonneg_ofFn fun x => ?_
  split
  · exact zero_le_one
  · exact le_rfl

theorem nonneg_ofTable {table : Table ℝ} (h : ∀ e ∈ table.toList, 0 ≤ e) (scope : List Nat) :
    (ofTable scope table).Nonneg := by
  refine nonneg_ofFn fun x => ?_
  obtain hmem | h0 := table.entry_mem_or_zero (scope.map x)
  · exact h _ hmem
  · exact h0.ge

end Potential
end Bayes
