import Bayes.Message
import Bayes.Proofs.Potential.Entries
import Bayes.Proofs.Potential.Mass
/-!
The table that a message stands for. Moving the mass of a table into the scale does not change it, also
when there is no mass to move, and scales are multiplied where tables are; so multiplying messages, or
keeping some of their variables, does just that to the tables they stand for.
-/
namespace Bayes.Message

/-- What a scale is the logarithm of. It is missing where there is no mass. -/
def weight {α : Type} [Scalar α] : Option α → α
  | none => 0
  | some l => Scalar.exp l

def represented {α : Type} [Scalar α] (m : Message α) : Potential α :=
  m.potential.map (· * weight m.logScale)

/-- Unit mass and a finite scale, or zeros and no scale. -/
def Normal {α : Type} [Scalar α] (m : Message α) : Prop :=
  (∃ l, m.logScale = some l ∧ Scalar.isFinite l = true ∧ m.potential.total = 1) ∨
    m.logScale = none ∧ ∀ e ∈ m.potential.table.toList, e = 0

variable {m n : Message ℝ} {p : Potential ℝ}

theorem weight_nonneg (l : Option ℝ) : 0 ≤ weight l := by
  cases l with
  | none => exact le_rfl
  | some l => exact (Real.exp_pos l).le

theorem weight_addScales (l k : Option ℝ) : weight (addScales l k) = weight l * weight k := by
  cases l with
  | none => exact (zero_mul _).symm
  | some l =>
    cases k with
    | none => exact (mul_zero _).symm
    | some k => exact Real.exp_add l k

/-! The mass goes into the scale -/

theorem scaled_none {α : Type} [Scalar α] (p : Potential α) : scaled p none = ⟨p.zeroed, none⟩ := by
  cases h : p.normalize <;> simp [scaled, h]

theorem scaled_cases (h : p.Nonneg) (l : Option ℝ) :
    (∃ k, l = some k ∧ 0 < p.total ∧
      scaled p l = ⟨p.map (· / p.total), some (k + Real.log p.total)⟩) ∨
    (l = none ∨ p.total = 0) ∧ scaled p l = ⟨p.zeroed, none⟩ := by
  obtain h0 | hpos := (Potential.total_nonneg h).eq_or_lt
  · refine Or.inr ⟨Or.inr h0.symm, ?_⟩
    simp [scaled, Potential.normalize_eq_error h0.symm]
  · cases l with
    | none => exact Or.inr ⟨Or.inl rfl, scaled_none p⟩
    | some k =>
      refine Or.inl ⟨k, rfl, hpos, ?_⟩
      simp [scaled, Potential.normalize_eq hpos, Scalar.log, Potential.map]

theorem shaped_scaled {card : Nat → Nat} {s : List Nat} (hp : p.Shaped card s) (h : p.Nonneg)
    (l : Option ℝ) : (scaled p l).potential.Shaped card s := by
  obtain ⟨k, -, -, heq⟩ | ⟨-, heq⟩ := scaled_cases h l
  · exact heq ▸ hp.map _
  · exact heq ▸ hp.map _

theorem nonneg_zeroed (p : Potential ℝ) : p.zeroed.Nonneg := by
  intro e he
  rw [Potential.zeroed, Table.toList_map] at he
  obtain ⟨-, -, rfl⟩ := List.mem_map.1 he
  exact le_rfl

theorem nonneg_scaled (h : p.Nonneg) (l : Option ℝ) : (scaled p l).potential.Nonneg := by
  obtain ⟨k, -, hpos, heq⟩ | ⟨-, heq⟩ := scaled_cases h l
  · rw [heq]
    exact Potential.nonneg_map h fun a ha => div_nonneg ha hpos.le
  · rw [heq]
    exact nonneg_zeroed p

theorem normal_scaled (h : p.Nonneg) (l : Option ℝ) : (scaled p l).Normal := by
  obtain ⟨k, -, hpos, heq⟩ | ⟨-, heq⟩ := scaled_cases h l
  · rw [heq]
    exact Or.inl ⟨_, rfl, rfl, Potential.total_normalized hpos⟩
  · rw [heq]
    refine Or.inr ⟨rfl, fun e he => ?_⟩
    rw [Potential.zeroed, Table.toList_map] at he
    obtain ⟨-, -, rfl⟩ := List.mem_map.1 he
    rfl

/-- A table without mass has no entries but zeros, so nothing is lost with its scale. -/
theorem represented_scaled (h : p.Nonneg) (l : Option ℝ) :
    (scaled p l).represented = p.map (· * weight l) := by
  obtain ⟨k, rfl, hpos, heq⟩ | ⟨hzero, heq⟩ := scaled_cases h l
  · rw [heq]
    refine congrArg (Potential.mk p.scope) ((Table.map_map _ _ _).trans ?_)
    refine Table.map_congr fun a _ => ?_
    change a / p.total * Real.exp (k + Real.log p.total) = a * Real.exp k
    rw [Real.exp_add, Real.exp_log hpos]
    field_simp
  · rw [heq]
    refine congrArg (Potential.mk p.scope) ((Table.map_map _ _ _).trans ?_)
    refine Table.map_congr fun a ha => ?_
    have hright : a * weight l = 0 := by
      obtain rfl | h0 := hzero
      · exact mul_zero a
      · rw [List.all_zero_of_le_zero_le_of_sum_eq_zero h h0 ha, zero_mul]
    rw [hright]
    exact zero_mul _

theorem represented_ofPotential (h : p.Nonneg) : (ofPotential p).represented = p := by
  rw [ofPotential, represented_scaled h]
  refine congrArg (Potential.mk p.scope) (Table.eq_of_toList rfl ?_)
  rw [Table.toList_map]
  simp [weight, Scalar.exp]

theorem represented_multiply (hm : m.potential.Nonneg) (hn : n.potential.Nonneg) :
    (m.multiply n).represented = m.represented.multiply n.represented := by
  rw [multiply, represented_scaled (Potential.nonneg_multiply hm hn), weight_addScales]
  refine (Potential.multiply_map (zero_mul _) (zero_mul _) (fun a b => ?_) _ _).symm
  ring

theorem represented_onto (hm : m.potential.Nonneg) (keep : List Nat) (how : Reduction) :
    (m.onto keep how).represented = m.represented.onto keep how := by
  rw [onto, represented_scaled (Potential.nonneg_onto hm keep how)]
  refine (Potential.onto_map (zero_mul _) keep fun xs _ => ?_).symm
  have hmul := Reduction.apply_mul_left how (weight_nonneg m.logScale) xs
  simpa only [mul_comm] using hmul

/-! Reading -/

theorem value_eq_mul_weight (m : Message ℝ) (x : Nat → Nat) :
    m.value x = m.potential.value x * weight m.logScale := by
  rw [value]
  cases m.logScale with
  | none => exact (mul_zero _).symm
  | some l => rfl

theorem value_represented (m : Message ℝ) (x : Nat → Nat) : m.represented.value x = m.value x := by
  rw [value_eq_mul_weight]
  exact Potential.value_map (zero_mul _) _ x

theorem value?_represented {α : Type} [Scalar α] (h0 : ∀ a : α, a * 0 = 0) (m : Message α)
    (assignment : VarMap Nat) : m.represented.value? assignment = m.value? assignment := by
  have hget : (m.potential.table.map (· * weight m.logScale)).get? = fun index =>
      (m.potential.table.get? index).map (· * weight m.logScale) :=
    funext fun index => Table.get?_map _ _ index
  rw [Potential.value?, value?, Potential.value?, Option.map_bind]
  change (m.potential.scope.mapM assignment.get?).bind (m.potential.table.map _).get? = _
  rw [hget]
  cases m.logScale with
  | none => simp [weight, h0]
  | some l => rfl

theorem Normal.isZero_iff (h : m.Normal) :
    m.isZero = true ↔ ∀ e ∈ m.represented.table.toList, e = 0 := by
  have hentries : m.represented.table.toList =
      m.potential.table.toList.map (· * weight m.logScale) := Table.toList_map _ _
  rw [hentries, List.forall_mem_map, isZero]
  obtain ⟨l, hl, -, htotal⟩ | ⟨hl, -⟩ := h
  · rw [hl]
    refine ⟨fun hnone => by simp at hnone, fun hall => ?_⟩
    have hzero : ∀ e ∈ m.potential.table.toList, e = 0 := fun e he =>
      (mul_eq_zero.1 (hall e he)).resolve_right (Real.exp_pos l).ne'
    rw [Potential.total, List.sum_eq_zero hzero] at htotal
    exact absurd htotal zero_ne_one
  · rw [hl]
    exact ⟨fun _ e _ => mul_zero e, fun _ => rfl⟩

end Bayes.Message
