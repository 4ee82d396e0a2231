import Bayes.Proofs.Extended
import Bayes.Proofs.Potential.Elimination
/-!
Elimination in exact arithmetic. Dropping variables sums or maximizes over their joint states, in any
order and in any number of steps, and a factor that does not have a variable may be left out when the
variable is eliminated. The maximum needs more for that than entries that are not negative: over no
states it is minus infinity, and zero times minus infinity is another number.
-/
namespace Bayes

theorem Reduction.fold_eq_apply (how : Reduction) (xs : List EReal) : how.fold xs = how.apply xs := by
  cases how with
  | sum => exact List.sum_eq_foldl.symm
  | max => exact (Scalar.maximum_eq_foldl xs).symm

namespace Potential

variable {α : Type} {card : Nat → Nat} {s t : List Nat} {v : Nat}

def dropped (p : Potential α) (keep : List Nat) : List Nat := p.scope.filter fun v => !keep.contains v

def FiniteEntries [Scalar α] (p : Potential α) : Prop :=
  ∀ e ∈ p.table.toList, Scalar.isFinite e = true

variable {p q : Potential EReal} {x : Nat → Nat}

theorem Shaped.isGreatest_onto (h : p.Shaped card s) {keep : List Nat}
    (hx : Within card (s.filter keep.contains) x)
    (hpos : ∀ v ∈ s.filter (fun v => !keep.contains v), 0 < card v) :
    IsGreatest {e | ∃ y ∈ assignments card (s.filter fun v => !keep.contains v) x, p.value y = e}
      ((p.onto keep .max).value x) := by
  rw [(h.onto_spec keep .max).2 x hx]
  have hne : (assignments card (s.filter fun v => !keep.contains v) x).map p.value ≠ [] := by
    intro hnil
    obtain ⟨v, hv, h0⟩ := assignments_eq_nil.1 (List.map_eq_nil_iff.1 hnil)
    exact (hpos v hv).ne' h0
  have hgreatest := Scalar.isGreatest_maximum_of_ne_nil hne
  simp only [List.mem_map] at hgreatest
  exact hgreatest

theorem Shaped.sumOut_multiply (hp : p.Shaped card s) (hq : q.Shaped card t) (hv : v ∉ s)
    (hpf : p.FiniteEntries) (hqf : q.FiniteEntries) :
    (p.multiply q).sumOut v = p.multiply (q.sumOut v) := by
  refine hp.eliminate_multiply hq hv fun _ x hxs hxt => ?_
  obtain ⟨c, hc⟩ := Scalar.isFinite_iff.1 (hpf _ (hp.value_mem hxs))
  have hreal : ∀ e ∈ (List.range (card v)).map fun i => q.value (override x v i), ∃ r : ℝ, e = r := by
    intro e he
    obtain ⟨i, hi, rfl⟩ := List.mem_map.1 he
    exact Scalar.isFinite_iff.1 (hqf _ (hq.value_mem (within_override hxt (List.mem_range.1 hi))))
  have hmul := Reduction.sum_mul_left c hreal
  rw [List.map_map] at hmul
  rw [hc]
  exact hmul

theorem Shaped.maxOut_multiply (hp : p.Shaped card s) (hq : q.Shaped card t) (hv : v ∉ s)
    (hpf : p.FiniteEntries) (hnonneg : ∀ e ∈ p.table.toList, 0 ≤ e)
    (hstates : card v = 0 → v ∈ t → ∀ e ∈ p.table.toList, 0 < e) :
    (p.multiply q).maxOut v = p.multiply (q.maxOut v) := by
  refine hp.eliminate_multiply hq hv fun hvt x hxs _ => ?_
  have hmem := hp.value_mem hxs
  by_cases h0 : card v = 0
  · obtain ⟨c, hc⟩ := Scalar.isFinite_iff.1 (hpf _ hmem)
    have hpos := hstates h0 hvt _ hmem
    rw [hc] at hpos ⊢
    rw [h0, List.range_zero, List.map_nil, List.map_nil]
    exact (Reduction.max_mul_left_nil (EReal.coe_pos.1 hpos)).symm
  · have hne : ((List.range (card v)).map fun i => q.value (override x v i)) ≠ [] := by simpa using h0
    have hmul := Reduction.max_mul_left (hnonneg _ hmem) hne
    rw [List.map_map] at hmul
    exact hmul

/-- Dropping variables does not depend on the order, and a factor without the variable stays outside. -/
theorem elimination_exact (p : Potential EReal) (hp : p.Formed) (keep : List Nat) :
    (∀ how, (∀ v, p.eliminateByAxis v how = p.eliminate v how) ∧
      p.ontoByAxes keep how = p.onto keep how ∧ (p.onto keep how).scope = Scope.inter p.scope keep ∧
      ∀ v ∈ Scope.inter p.scope keep, (p.onto keep how).cardinality? v = p.cardinality? v) ∧
    (∀ x, Within p.width (Scope.inter p.scope keep) x →
      (p.onto keep .sum).valueAt? ((Scope.inter p.scope keep).map x) =
        some ((assignments p.width (p.dropped keep) x).map p.value).sum ∧
      ((∀ v ∈ p.dropped keep, 0 < p.width v) →
        ∃ m, (p.onto keep .max).valueAt? ((Scope.inter p.scope keep).map x) = some m ∧
          IsGreatest {e | ∃ y ∈ assignments p.width (p.dropped keep) x, p.value y = e} m)) ∧
    (∀ how (order : List Nat), order.Perm (p.dropped keep) →
      order.foldl (fun q v => q.eliminate v how) p = p.onto keep how) ∧
    (∀ how fewer, (∀ v ∈ fewer, v ∈ keep) → (p.onto keep how).onto fewer how = p.onto fewer how) ∧
    ∀ q v, q.Formed → p.Agrees q → v ∉ p.scope → p.FiniteEntries → q.FiniteEntries →
      (p.multiply q).sumOut v = p.multiply (q.sumOut v) ∧
      ((∀ e ∈ p.table.toList, 0 ≤ e) →
        q.cardinality? v ≠ some 0 ∨ (∀ e ∈ p.table.toList, 0 < e) →
        (p.multiply q).maxOut v = p.multiply (q.maxOut v)) := by
  have hps := hp.shaped
  refine ⟨fun how => ?_, fun x hx => ⟨?_, fun hpos => ?_⟩, fun how order horder => ?_,
    fun how fewer hfewer => hps.onto_onto hfewer, fun q v hq hagree hv hpf hqf => ?_⟩
  · have honto := (hps.onto_spec keep how).1
    refine ⟨hps.eliminateByAxis_eq how.fold_eq_apply, hps.ontoByAxes_eq how.fold_eq_apply keep,
      honto.scope, fun v hv => ?_⟩
    rw [honto.cardinality?_eq, hps.cardinality?_eq, if_pos (Scope.mem_inter.1 hv).1]
    exact if_pos hv
  · obtain ⟨honto, hvalue⟩ := hps.onto_spec keep .sum
    exact (honto.valueAt?_eq hx).trans (congrArg some (hvalue x hx))
  · obtain ⟨honto, -⟩ := hps.onto_spec keep .max
    exact ⟨_, honto.valueAt?_eq hx, hps.isGreatest_onto hx hpos⟩
  · exact (hps.onto_eq horder).symm
  · obtain ⟨card, hshaped⟩ := exists_shaped [p, q] (by simp [hp, hq]) (by simp [hagree])
    have hps : p.Shaped card p.scope := hshaped p (by simp)
    have hqs : q.Shaped card q.scope := hshaped q (by simp)
    refine ⟨hps.sumOut_multiply hqs hv hpf hqf, fun hnonneg hstates => ?_⟩
    refine hps.maxOut_multiply hqs hv hpf hnonneg fun h0 hvq => hstates.resolve_left ?_
    rw [hqs.cardinality?_eq, if_pos hvq, h0]
    exact fun h => h rfl

theorem finiteEntries_indicator (v cardinality state : Nat) :
    (indicator v cardinality state : Potential EReal).FiniteEntries := by
  refine forall_mem_ofFn fun x => Scalar.isFinite_iff.2 ?_
  split
  · exact ⟨1, rfl⟩
  · exact ⟨0, rfl⟩

theorem zero_le_indicator (v cardinality state : Nat) :
    ∀ e ∈ (indicator v cardinality state : Potential EReal).table.toList, 0 ≤ e := by
  refine forall_mem_ofFn fun x => ?_
  split
  · exact zero_le_one
  · exact le_rfl

/-- The first factor is zero at one of its states. -/
theorem elimination_exact_of_selected :
    let p : Potential EReal := indicator 0 2 1
    let q : Potential EReal := ofFn [(0, 2), (1, 3)] fun x => ((x 0 + 2 * x 1 : ℝ) : EReal)
    (p.Formed ∧ q.Formed ∧ p.Agrees q ∧ 1 ∉ p.scope) ∧
    (p.FiniteEntries ∧ q.FiniteEntries ∧ ∀ e ∈ p.table.toList, 0 ≤ e) ∧
    (p.multiply q).sumOut 1 = p.multiply (q.sumOut 1) ∧
    (p.multiply q).maxOut 1 = p.multiply (q.maxOut 1) ∧
    [0, 1].foldl (fun r v => r.eliminate v .sum) q = q.onto [] .sum := by
  intro p q
  let card (v : Nat) := if v = 1 then 3 else 2
  have hp : p.Shaped card [0] := ⟨rfl, rfl, by simp [Scope.Increasing]⟩
  have hq : q.Shaped card [0, 1] := ⟨rfl, rfl, by simp [Scope.Increasing]⟩
  have hagree : p.Agrees q := hp.agrees hq
  have hpf : p.FiniteEntries := finiteEntries_indicator 0 2 1
  have hqf : q.FiniteEntries := forall_mem_ofFn fun x => Scalar.isFinite_iff.2 ⟨_, rfl⟩
  have hnonneg : ∀ e ∈ p.table.toList, 0 ≤ e := zero_le_indicator 0 2 1
  have hv : 1 ∉ p.scope := by rw [hp.scope]; decide
  have hstates : q.cardinality? 1 ≠ some 0 := by
    rw [hq.cardinality?_eq]
    decide
  obtain ⟨-, -, -, -, hproduct⟩ := elimination_exact p hp.formed []
  obtain ⟨-, -, horder, -⟩ := elimination_exact q hq.formed []
  obtain ⟨hsum, hmax⟩ := hproduct q 1 hq.formed hagree hv hpf hqf
  exact ⟨⟨hp.formed, hq.formed, hagree, hv⟩, ⟨hpf, hqf, hnonneg⟩, hsum,
    hmax hnonneg (Or.inl hstates), horder .sum [0, 1] (List.Perm.refl _)⟩

/-- A factor zero does not leave the maximum over a variable without states. -/
theorem maxOut_multiply_fails :
    let p : Potential EReal := indicator 0 2 1
    let q : Potential EReal := ofFn [(1, 0)] fun _ => 1
    (p.Formed ∧ q.Formed ∧ p.Agrees q ∧ 1 ∉ p.scope) ∧
    (p.FiniteEntries ∧ q.FiniteEntries ∧ ∀ e ∈ p.table.toList, 0 ≤ e) ∧
    (p.multiply q).maxOut 1 ≠ p.multiply (q.maxOut 1) := by
  intro p q
  let card (v : Nat) := if v = 1 then 0 else 2
  have hp : p.Shaped card [0] := ⟨rfl, rfl, by simp [Scope.Increasing]⟩
  have hq : q.Shaped card [1] := ⟨rfl, rfl, by simp [Scope.Increasing]⟩
  have hv : 1 ∉ p.scope := by rw [hp.scope]; decide
  refine ⟨⟨hp.formed, hq.formed, hp.agrees hq, hv⟩, ⟨finiteEntries_indicator 0 2 1,
    forall_mem_ofFn fun _ => Scalar.isFinite_iff.2 ⟨1, rfl⟩, zero_le_indicator 0 2 1⟩, fun heq => ?_⟩
  -- the entry at the first state
  let x (_ : Nat) := 0
  have hx : Within card [0] x := by simp [Within, card, x]
  have hleft : ((p.multiply q).maxOut 1).value x = ⊥ := by
    have hmem : 1 ∈ Scope.union [0] [1] := by decide
    exact ((hp.multiply hq).value_eliminate hmem hx).trans
      (Reduction.over_of_card_zero ⟨1, List.mem_singleton_self 1, rfl⟩)
  have hright : (p.multiply (q.maxOut 1)).value x = 0 := by
    have hzero : p.value x = 0 := by
      have hstate : x 0 < card 0 := by decide
      exact (value_indicator hstate).trans (if_neg (by decide))
    rw [maxOut, hp.value_multiply (hq.eliminate 1 .max) hx, hzero, zero_mul]
  rw [heq, hright] at hleft
  exact EReal.zero_ne_bot hleft

end Potential
end Bayes
