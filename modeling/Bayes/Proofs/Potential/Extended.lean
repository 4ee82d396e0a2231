import Bayes.Proofs.Potential.Distributive
import Bayes.Proofs.Potential.Mass
/-!
Tables of real numbers among those of extended real numbers. The operations keep them there but for one:
the maximum over a variable without states is minus infinity, and it is an entry of what is left unless
a variable without states is left, too.
-/
namespace Bayes

variable {p q : Potential ℝ} {keep : List Nat} {how : Reduction}

namespace Reduction

theorem sum_coe (xs : List ℝ) : (xs.map Real.toEReal).sum = (xs.sum : ℝ) := by
  induction xs with
  | nil => rfl
  | cons x xs ih => rw [List.map_cons, List.sum_cons, List.sum_cons, ih, EReal.coe_add]

theorem apply_coe (how : Reduction) {xs : List ℝ} (h : how = .sum ∨ xs ≠ []) :
    how.apply (xs.map Real.toEReal) = (how.apply xs : ℝ) := by
  cases how with
  | sum => exact sum_coe xs
  | max =>
    have hne : xs ≠ [] := h.resolve_left (by decide)
    have hgreatest := Scalar.isGreatest_maximum hne
    refine (Scalar.isGreatest_maximum_of_ne_nil (by simpa using hne)).unique ⟨?_, fun y hy => ?_⟩
    · exact List.mem_map_of_mem hgreatest.1
    · obtain ⟨r, hr, rfl⟩ := List.mem_map.1 hy
      exact EReal.coe_le_coe_iff.2 (hgreatest.2 hr)

end Reduction

namespace Potential

noncomputable def extended (p : Potential ℝ) : Potential EReal := p.map Real.toEReal

/-- The numbers that factors hold: real ones, and none of them negative. -/
structure Proper (p : Potential EReal) : Prop where
  formed : p.Formed
  finite : p.FiniteEntries
  nonneg : ∀ e ∈ p.table.toList, 0 ≤ e

theorem Proper.exists_extended {p : Potential EReal} (h : p.Proper) :
    ∃ q : Potential ℝ, q.Formed ∧ q.Nonneg ∧ q.extended = p := by
  refine ⟨p.map EReal.toReal, ⟨h.formed.increasing, h.formed.length⟩, fun e he => ?_, ?_⟩
  · rw [map, Table.toList_map] at he
    obtain ⟨a, ha, rfl⟩ := List.mem_map.1 he
    exact EReal.toReal_nonneg (h.nonneg a ha)
  · have hentry : ∀ a ∈ p.table.toList, ((a.toReal : ℝ) : EReal) = a := by
      intro a ha
      obtain ⟨r, rfl⟩ := Scalar.isFinite_iff.1 (h.finite a ha)
      rw [EReal.toReal_coe]
    refine congrArg (Potential.mk p.scope) ((Table.map_map _ _ _).trans (Table.eq_of_toList rfl ?_))
    rw [Table.toList_map, List.map_congr_left hentry, List.map_id']

theorem Formed.extended (h : p.Formed) : p.extended.Formed := ⟨h.increasing, h.length⟩

theorem total_extended (p : Potential ℝ) : p.extended.total = (p.total : ℝ) := by
  rw [total, Potential.extended, map, Table.toList_map, Reduction.sum_coe]
  rfl

theorem normalize_extended (h : 0 < p.total) : p.extended.normalize =
    .ok ((p.total : ℝ), (p.map (· / p.total)).extended) := by
  have hscaled : (p.table.map Real.toEReal).map (· / (p.total : EReal)) =
      (p.table.map (· / p.total)).map Real.toEReal := by
    rw [Table.map_map, Table.map_map]
    rfl
  have hlt : Scalar.lt 0 (p.total : EReal) = true := decide_eq_true (EReal.coe_pos.2 h)
  have hfinite : Scalar.isFinite (p.total : EReal) = true := Scalar.isFinite_iff.2 ⟨_, rfl⟩
  simp only [normalize, total_extended, hlt, hfinite, Bool.and_self, if_true]
  exact congrArg (fun t => Except.ok ((p.total : EReal), Potential.mk p.scope t)) hscaled

theorem normalize_extended_eq_error (h : p.total = 0) :
    p.extended.normalize = .error .contradictoryEvidence := by
  have hlt : Scalar.lt 0 ((0 : ℝ) : EReal) = false := decide_eq_false (lt_irrefl _)
  simp only [normalize, total_extended, h, hlt, Bool.false_and, Bool.false_eq_true, if_false]

theorem multiply_extended (p q : Potential ℝ) :
    p.extended.multiply q.extended = (p.multiply q).extended :=
  multiply_map rfl rfl (fun a b => (EReal.coe_mul a b).symm) p q

theorem zeroed_extended (p : Potential ℝ) : p.extended.zeroed = p.zeroed.extended := by
  have htable : (p.table.map Real.toEReal).map (fun _ => (0 : EReal)) =
      (p.table.map fun _ => (0 : ℝ)).map Real.toEReal := by
    rw [Table.map_map, Table.map_map]
    rfl
  exact congrArg (Potential.mk p.scope) htable

theorem zeroed_eq {α : Type} [Scalar α] {r r' : Potential α} (hscope : r.scope = r'.scope)
    (hshape : r.table.shape = r'.table.shape) : r.zeroed = r'.zeroed := by
  have htable : r.table.map (fun _ => (0 : α)) = r'.table.map fun _ => 0 := by
    refine Table.eq_of_toList hshape ?_
    rw [Table.toList_map, Table.toList_map, List.map_const', List.map_const', Table.length_toList,
      Table.length_toList, hshape]
  rw [zeroed, zeroed, htable, hscope]

/-! Keeping some variables -/

/-- No maximum over no states is an entry of what is left. -/
def Attained {α : Type} (p : Potential α) (keep : List Nat) (how : Reduction) : Prop :=
  how = .max → (∃ v ∈ p.dropped keep, p.width v = 0) →
    ∃ v ∈ Scope.inter p.scope keep, p.width v = 0

theorem Shaped.attained {α : Type} {p : Potential α} {card : Nat → Nat} {s : List Nat}
    (h : p.Shaped card s) (hstates : ∀ v ∈ s, card v ≠ 0) : p.Attained keep how := by
  rintro - ⟨v, hv, h0⟩
  have hv : v ∈ s := h.scope ▸ (List.mem_filter.1 hv).1
  exact absurd (h.width_eq hv ▸ h0) (hstates v hv)

theorem onto_extended (h : p.Formed) (hattained : p.Attained keep how) :
    p.extended.onto keep how = (p.onto keep how).extended := by
  by_cases hkept : ∃ v ∈ Scope.inter p.scope keep, p.width v = 0
  · -- nothing is left to compare
    obtain ⟨v, hv, h0⟩ := hkept
    have honto := (h.shaped.onto_spec keep how).1
    refine (h.extended.shaped.onto_spec keep how).1.ext
      ⟨honto.scope, honto.shape, honto.increasing⟩ fun x hx => ?_
    exact absurd (h0 ▸ hx v hv : x v < 0) (Nat.not_lt_zero _)
  · refine onto_map rfl keep fun xs hxs => Reduction.apply_coe how ?_
    cases how with
    | sum => exact Or.inl rfl
    | max =>
      refine Or.inr fun hnil => hkept ?_
      rw [h.shaped.shape, hnil] at hxs
      obtain ⟨v, hv, h0⟩ := List.mem_map.1 hxs
      by_cases hk : v ∈ keep
      · exact ⟨v, Scope.mem_inter.2 ⟨hv, hk⟩, h0⟩
      · exact hattained rfl ⟨v, List.mem_filter.2 ⟨hv, by simpa using hk⟩, h0⟩

/-- Otherwise there are entries, and every one is a maximum over no states. -/
theorem onto_eq_bot {p : Potential EReal} (h : p.Formed) (hnot : ¬ p.Attained keep how) :
    (p.onto keep how).table.toList ≠ [] ∧ ∀ e ∈ (p.onto keep how).table.toList, e = ⊥ := by
  simp only [Attained, Classical.not_imp] at hnot
  obtain ⟨rfl, hdropped, hkept⟩ := hnot
  obtain ⟨honto, hvalue⟩ := h.shaped.onto_spec keep .max
  rw [honto.toList_eq fun _ => 0]
  refine ⟨fun hnil => hkept (assignments_eq_nil.1 (List.map_eq_nil_iff.1 hnil)), fun e he => ?_⟩
  obtain ⟨y, hy, rfl⟩ := List.mem_map.1 he
  rw [hvalue y (mem_assignments.1 hy).1]
  exact Reduction.over_of_card_zero hdropped

theorem onto_extended_iff (h : p.Formed) :
    (p.onto keep how).extended = p.extended.onto keep how ↔ p.extended.Attained keep how := by
  refine ⟨fun heq => ?_, fun hattained => (onto_extended h hattained).symm⟩
  by_contra hnot
  obtain ⟨hne, hbot⟩ := onto_eq_bot h.extended hnot
  obtain ⟨e, he⟩ := List.exists_mem_of_ne_nil _ hne
  have hreal : e ∈ (p.onto keep how).extended.table.toList := heq ▸ he
  rw [Potential.extended, map, Table.toList_map] at hreal
  obtain ⟨r, -, hr⟩ := List.mem_map.1 hreal
  exact EReal.coe_ne_bot r (hr.trans (hbot e he))

end Potential
end Bayes
