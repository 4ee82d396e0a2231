import Bayes.Proofs.Message.Represented
/-!
What messages stand for. A message carries a function of assignments; multiplying messages multiplies
the functions, and keeping some variables reduces the function, although the tables are scaled at every
step. The scale is the logarithm of the mass of the function, and it is missing just when there is none.
-/
namespace Bayes.Message

structure Carries (card : Nat → Nat) (s : List Nat) (m : Message ℝ) (f : (Nat → Nat) → ℝ) :
    Prop where
  shaped : m.potential.Shaped card s
  nonneg : m.potential.Nonneg
  value_eq : ∀ x, Within card s x → m.value x = f x
  unit_mass : ∀ l, m.logScale = some l → m.potential.total = 1
  no_mass : m.logScale = none → ∀ x, m.potential.value x = 0

variable {card : Nat → Nat} {s t : List Nat} {m n : Message ℝ} {f g : (Nat → Nat) → ℝ}
  {p : Potential ℝ} {x : Nat → Nat}

theorem Carries.congr (h : m.Carries card s f) (hfg : ∀ x, Within card s x → f x = g x) :
    m.Carries card s g :=
  { h with value_eq := fun x hx => (h.value_eq x hx).trans (hfg x hx) }

theorem value_of_some {l : ℝ} (h : m.logScale = some l) (x : Nat → Nat) :
    m.value x = m.potential.value x * Real.exp l := by
  simp only [value, h]
  rfl

theorem value_of_none (h : m.logScale = none) (x : Nat → Nat) : m.value x = 0 := by
  simp only [value, h]

theorem Carries.apply_nonneg (h : m.Carries card s f) (hx : Within card s x) : 0 ≤ f x := by
  rw [← h.value_eq x hx]
  cases hl : m.logScale with
  | none => exact (value_of_none hl x).ge
  | some l =>
    rw [value_of_some hl]
    exact mul_nonneg (h.nonneg.value_nonneg x) (Real.exp_pos l).le

/-- The mass of the table goes into the scale, also when there is none, or no scale. -/
theorem carries_scaled (hp : p.Shaped card s) (h : p.Nonneg) (l : Option ℝ) :
    (scaled p l).Carries card s fun x => p.value x * weight l where
  shaped := shaped_scaled hp h l
  nonneg := nonneg_scaled h l
  value_eq x _ := by
    rw [← value_represented, represented_scaled h]
    exact Potential.value_map (zero_mul _) p x
  unit_mass k hk := by
    obtain ⟨-, -, -, htotal⟩ | ⟨hnone, -⟩ := normal_scaled h l
    · exact htotal
    · simp [hk] at hnone
  no_mass hnone x := by
    obtain ⟨k, hk, -⟩ | ⟨-, hzero⟩ := normal_scaled h l
    · simp [hk] at hnone
    · exact (Table.entry_mem_or_zero _ _).elim (hzero _) id

theorem carries_ofPotential (hp : p.Shaped card s) (h : p.Nonneg) :
    (ofPotential p).Carries card s p.value := by
  refine (carries_scaled hp h (some 0)).congr fun x _ => ?_
  change p.value x * Real.exp 0 = p.value x
  rw [Real.exp_zero, mul_one]

theorem carries_unit : (unit : Message ℝ).Carries card [] fun _ => 1 :=
  (carries_ofPotential Potential.shaped_unit Potential.nonneg_unit).congr fun x _ =>
    Potential.value_unit x

theorem Carries.multiply (hm : m.Carries card s f) (hn : n.Carries card t g) :
    (m.multiply n).Carries card (Scope.union s t) fun x => f x * g x := by
  have hshaped := hm.shaped.multiply hn.shaped
  refine (carries_scaled hshaped (Potential.nonneg_multiply hm.nonneg hn.nonneg) _).congr fun x hx => ?_
  have hs : Within card s x := hx.mono fun v hv => Scope.mem_union.2 (Or.inl hv)
  have ht : Within card t x := hx.mono fun v hv => Scope.mem_union.2 (Or.inr hv)
  rw [← hm.value_eq x hs, ← hn.value_eq x ht, value_eq_mul_weight, value_eq_mul_weight,
    hm.shaped.value_multiply hn.shaped hx, weight_addScales]
  ring

theorem Carries.onto (hm : m.Carries card s f) (keep : List Nat) (how : Reduction) :
    (m.onto keep how).Carries card (s.filter keep.contains)
      (how.over card (s.filter fun v => !keep.contains v) f) := by
  obtain ⟨hshaped, hvalue⟩ := hm.shaped.onto_spec keep how
  refine (carries_scaled hshaped (Potential.nonneg_onto hm.nonneg keep how) _).congr fun x hx => ?_
  have hval : ∀ y ∈ assignments card (s.filter fun v => !keep.contains v) x,
      f y = weight m.logScale * m.potential.value y := by
    intro y hy
    obtain ⟨hgone, hkept⟩ := mem_assignments.1 hy
    -- the kept and the eliminated variables together are those of the scope
    have hin : Within card s y := by
      intro v hv
      by_cases hk : v ∈ keep
      · rw [hkept v (by simp [hk])]
        exact hx v (by simp [hv, hk])
      · exact hgone v (by simp [hv, hk])
    rw [← hm.value_eq y hin, value_eq_mul_weight, mul_comm]
  rw [hvalue x hx, Reduction.over_congr hval,
    Reduction.over_mul_left (g := fun _ => weight m.logScale) (weight_nonneg _) fun _ _ => rfl,
    mul_comm]

theorem Carries.absorb (hm : m.Carries card s f) (hn : n.Carries card t g) (ht : ∀ v ∈ t, v ∈ s) :
    (m.absorb (some n)).Carries card s fun x => f x * g x := by
  have h := hm.multiply hn
  rwa [hm.shaped.increasing.union_eq_left ht] at h

theorem Carries.logScale_eq (h : m.Carries card s f) (x : Nat → Nat) :
    m.logScale = if Reduction.sum.over card s f x = 0 then none
      else some (Real.log (Reduction.sum.over card s f x)) := by
  cases hl : m.logScale with
  | none =>
    rw [Reduction.over_congr (g := fun _ => 0) fun y hy => by
      rw [← h.value_eq y (mem_assignments.1 hy).1, value_of_none hl]]
    exact (if_pos (Reduction.apply_zeros .sum _)).symm
  | some l =>
    have hval : ∀ y ∈ assignments card s x, f y = Real.exp l * m.potential.value y := by
      intro y hy
      rw [← h.value_eq y (mem_assignments.1 hy).1, value_of_some hl, mul_comm]
    have hmass : Reduction.sum.over card s f x = Real.exp l := by
      rw [Reduction.over_congr hval,
        Reduction.over_mul_left (g := fun _ => Real.exp l) (Real.exp_pos l).le fun _ _ => rfl,
        ← h.shaped.total_eq x, h.unit_mass l hl, mul_one]
    rw [hmass, if_neg (Real.exp_pos l).ne', Real.log_exp]

theorem normalize_of_scaled {l : Option ℝ} {k : ℝ} (h : (scaled p l).logScale = some k) :
    ∃ total, p.normalize = .ok (total, (scaled p l).potential) := by
  cases hp : p.normalize with
  | error e => simp [scaled, hp] at h
  | ok r =>
    obtain ⟨total, q⟩ := r
    cases l with
    | none => simp [scaled, hp] at h
    | some l => exact ⟨total, by simp [scaled, hp]⟩

/-- The table over some variables, scaled to unit mass, has what is carried divided by its mass. -/
theorem Carries.normalize_onto (hm : m.Carries card s f) (keep : List Nat)
    (hmass : Reduction.sum.over card s f x ≠ 0) :
    ∃ total q, (m.potential.onto keep .sum).normalize = .ok (total, q) ∧
      q.Shaped card (s.filter keep.contains) ∧
      ∀ y, Within card (s.filter keep.contains) y → q.value y =
        Reduction.sum.over card (s.filter fun v => !keep.contains v) f y /
          Reduction.sum.over card s f x := by
  have honto := hm.onto keep .sum
  have hscale := honto.logScale_eq x
  rw [Reduction.over_filter hm.shaped.increasing.nodup, if_neg hmass] at hscale
  have hpos : 0 < Reduction.sum.over card s f x := by
    refine lt_of_le_of_ne (Reduction.apply_nonneg .sum fun r hr => ?_) hmass.symm
    obtain ⟨y, hy, rfl⟩ := List.mem_map.1 hr
    exact hm.apply_nonneg (mem_assignments.1 hy).1
  obtain ⟨total, htotal⟩ := normalize_of_scaled hscale
  refine ⟨total, _, htotal, honto.shaped, fun y hy => ?_⟩
  have hvalue := honto.value_eq y hy
  rw [value_of_some hscale, Real.exp_log hpos] at hvalue
  exact eq_div_of_mul_eq hmass hvalue

end Bayes.Message
