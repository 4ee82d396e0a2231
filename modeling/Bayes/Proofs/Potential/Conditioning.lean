import Bayes.Proofs.Potential.Elimination
import Bayes.Proofs.Potential.Product
import Bayes.Proofs.Reduction
/-!
Conditioning, slicing and dividing agree with multiplying. To fill all other places of an axis with
zero is to multiply by an indicator, and what is left after the variable is summed out is the slice;
different variables may be set in any order; and a quotient takes back a product wherever the divisor is
not zero. All three are also told by the places of the axes.
-/
namespace Bayes

variable {α : Type} {card : Nat → Nat} {s t : List Nat} {x : Nat → Nat} {v w i j : Nat}

theorem getD_map_idxOf (f : Nat → Nat) (hv : v ∈ s) : (s.map f).getD (s.idxOf v) 0 = f v := by
  have hlt : s.idxOf v < s.length := List.idxOf_lt_length_of_mem hv
  simp [List.getD_eq_getElem?_getD, hlt]

namespace Potential

variable {p q : Potential α}

theorem Shaped.getD_shape (h : p.Shaped card s) (hv : v ∈ s) :
    p.table.shape.getD (p.scope.idxOf v) 0 = card v := by
  rw [h.shape, h.scope, getD_map_idxOf card hv]

theorem Shaped.hasState_iff (h : p.Shaped card s) : p.hasState v i = true ↔ (v ∈ s → i < card v) := by
  rw [hasState, h.cardinality?_eq]
  by_cases hv : v ∈ s <;> simp [hv]

variable [Scalar α]

theorem Shaped.condition_of_not_mem (h : p.Shaped card s) (hv : v ∉ s) : p.condition v i = p := by
  rw [Potential.condition, if_neg (mt (h.contains_iff v).1 hv)]

theorem Shaped.slice_of_not_mem (h : p.Shaped card s) (hv : v ∉ s) : p.slice v i = p := by
  rw [Potential.slice, if_neg (mt (h.contains_iff v).1 hv)]

theorem Shaped.slice?_eq (h : p.Shaped card s) (hi : v ∈ s → i < card v) :
    p.slice? v i = some (p.slice v i) :=
  if_pos (h.hasState_iff.2 hi)

theorem Shaped.slice?_eq_none (h : p.Shaped card s) (hi : ¬ (v ∈ s → i < card v)) :
    p.slice? v i = none :=
  if_neg (mt h.hasState_iff.1 hi)

/-! By the places of the axes -/

/-- The places of all other states are filled with zero, one after the other. -/
def conditionByAxis (p : Potential α) (v state : Nat) : Potential α :=
  if p.contains v then
    let axis := p.scope.idxOf v
    let others := (List.range (p.table.shape.getD axis 0)).filter (· != state)
    ⟨p.scope, others.foldl (fun t other => t.fillAt axis other 0) p.table⟩
  else p

def sliceByAxis? (p : Potential α) (v state : Nat) : Option (Potential α) :=
  if p.contains v then
    let axis := p.scope.idxOf v
    if state < p.table.shape.getD axis 0 then
      some ⟨p.scope.eraseIdx axis, p.table.reduceAxis (fun along => along.getD state 0) axis⟩
    else none
  else some p

def divideByAxes? (p q : Potential α) : Option (Potential α) := do
  let divisor ← (q.aligned p.scope).broadcast? p.table.shape
  return ⟨p.scope, p.table.zipWith (fun a b => if b == 0 then 0 else a / b) divisor⟩

theorem Shaped.conditionByAxis_eq (h : p.Shaped card s) (v state : Nat) :
    p.conditionByAxis v state = p.condition v state := by
  by_cases hv : v ∈ s
  · rw [conditionByAxis, if_pos ((h.contains_iff v).2 hv)]
    simp only [h.getD_shape hv]
    obtain ⟨hshape, hentry⟩ := Table.foldl_fillAt (p.scope.idxOf v) 0
      ((List.range (card v)).filter (· != state)) p.table
    have hfilled : Shaped card s ⟨p.scope, ((List.range (card v)).filter (· != state)).foldl
        (fun t other => t.fillAt (p.scope.idxOf v) other 0) p.table⟩ :=
      ⟨h.scope, hshape.trans h.shape, h.increasing⟩
    refine hfilled.ext (h.condition v state) fun x hx => ?_
    have hplace : (s.map x).getD (p.scope.idxOf v) 0 = x v := by rw [h.scope, getD_map_idxOf x hv]
    have hother : x v ∈ (List.range (card v)).filter (· != state) ↔ x v ≠ state := by
      simp [hx v hv]
    rw [hfilled.value_eq hx, hentry _ (hx.fits h.shape), hplace, h.value_condition hv hx,
      ← h.value_eq hx]
    by_cases hstate : x v = state
    · rw [if_neg (mt hother.1 (not_not_intro hstate)), if_pos hstate]
    · rw [if_pos (hother.2 hstate), if_neg hstate]
  · rw [conditionByAxis, if_neg (mt (h.contains_iff v).1 hv), h.condition_of_not_mem hv]

theorem Shaped.sliceByAxis?_eq (h : p.Shaped card s) (v state : Nat) :
    p.sliceByAxis? v state = p.slice? v state := by
  by_cases hv : v ∈ s
  · rw [sliceByAxis?, if_pos ((h.contains_iff v).2 hv)]
    simp only [h.getD_shape hv]
    by_cases hstate : state < card v
    · rw [if_pos hstate, h.slice?_eq fun _ => hstate]
      obtain ⟨hnew, hvalue⟩ := h.reduceAxis_spec hv (fun along => along.getD state 0) rfl
      refine congrArg some (hnew.ext (h.slice v state) fun x hx => ?_)
      rw [hvalue x hx, h.value_slice hv hx]
      simp [List.getD_eq_getElem?_getD, hstate]
    · rw [if_neg hstate, h.slice?_eq_none fun hlt => hstate (hlt hv)]
  · rw [sliceByAxis?, if_neg (mt (h.contains_iff v).1 hv), h.slice?_eq fun hmem => absurd hmem hv,
      h.slice_of_not_mem hv]

theorem Shaped.value_divide (hp : p.Shaped card s) (hq : DependsOn q.value {v | v ∈ s})
    (hx : Within card s x) :
    (p.divide q).value x = if q.value x == 0 then 0 else p.value x / q.value x := by
  rw [Potential.divide, hp.axes_eq]
  refine value_ofFn (f := fun x => if q.value x == 0 then 0 else p.value x / q.value x) hp.increasing
    hx fun y z hyz => ?_
  have hdividend : p.value y = p.value z := hp.dependsOn hyz
  have hdivisor : q.value y = q.value z := hq hyz
  simp only [hdividend, hdivisor]

theorem Formed.divideByAxes?_eq (hp : p.Formed) (hq : q.Formed) (hsub : ∀ v ∈ q.scope, v ∈ p.scope) :
    p.divideByAxes? q = p.divide? q := by
  have hps := hp.shaped
  have hall : q.scope.all p.contains = true := by
    simpa [hps.contains_iff] using hsub
  have hunion : Scope.union p.scope q.scope = p.scope := hp.increasing.union_eq_left hsub
  have hjoint : ∀ v ∈ p.scope, p.jointWidth q v = p.width v := fun v hv => hp.jointWidth_left hv
  have hspreads : p.spreads q = true ↔ ∀ v ∈ p.scope, q.width v = p.width v ∨ q.width v = 1 := by
    rw [hp.spreads_iff hq, hunion]
    exact forall₂_congr fun v hv => by rw [hjoint v hv]
  rw [divide?, hall, Bool.true_and]
  simp only [divideByAxes?, hps.shape]
  by_cases h : p.spreads q = true
  · obtain ⟨divisor, hdivisor, -, hentry⟩ :=
      hq.broadcast?_aligned hp.increasing hsub (hspreads.1 h)
    rw [if_pos h, hdivisor]
    have hdepends : DependsOn q.value {v | v ∈ p.scope} := hq.shaped.dependsOn.mono hsub
    have hquotient : Shaped p.width p.scope
        ⟨p.scope, p.table.zipWith (fun a b => if b == 0 then 0 else a / b) divisor⟩ :=
      ⟨rfl, hps.shape, hp.increasing⟩
    refine congrArg some (hquotient.ext (hps.divide q) fun x hx => ?_)
    rw [hquotient.value_eq hx, hps.value_divide hdepends hx, Table.zipWith,
      Table.entry_ofFn _ (hx.fits hps.shape), hentry x hx, hps.value_eq hx]
  · rw [if_neg h, hq.broadcast?_aligned_eq_none hp.increasing hsub (mt hspreads.2 h)]
    rfl

/-! Variables set one after the other -/

theorem Shaped.value_condition_eq (h : p.Shaped card s) (hx : Within card s x) :
    (p.condition v i).value x = if v ∈ s ∧ x v ≠ i then 0 else p.value x := by
  by_cases hv : v ∈ s
  · rw [h.value_condition hv hx]
    by_cases hi : x v = i <;> simp [hv, hi]
  · rw [h.condition_of_not_mem hv, if_neg fun hboth => hv hboth.1]

theorem Shaped.condition_comm (h : p.Shaped card s) (v w i j : Nat) :
    (p.condition v i).condition w j = (p.condition w j).condition v i := by
  have hfirst := h.condition v i
  have hsecond := h.condition w j
  refine (hfirst.condition w j).ext (hsecond.condition v i) fun x hx => ?_
  rw [hfirst.value_condition_eq hx, hsecond.value_condition_eq hx, h.value_condition_eq hx,
    h.value_condition_eq hx]
  split_ifs <;> rfl

theorem Shaped.slice_comm (h : p.Shaped card s) (hvw : v ≠ w) (hi : v ∈ s → i < card v)
    (hj : w ∈ s → j < card w) : (p.slice v i).slice w j = (p.slice w j).slice v i := by
  have hfirst := h.slice v i
  have hsecond := h.slice w j
  by_cases hv : v ∈ s
  · by_cases hw : w ∈ s
    · have hvs : v ∈ s.filter (· != w) := List.mem_filter.2 ⟨hv, by simpa using hvw⟩
      have hws : w ∈ s.filter (· != v) := List.mem_filter.2 ⟨hw, by simpa using hvw.symm⟩
      have hright := hsecond.slice v i
      rw [List.filter_comm] at hright
      refine (hfirst.slice w j).ext hright fun x hx => ?_
      have hx' : Within card ((s.filter (· != w)).filter (· != v)) x := by
        rwa [List.filter_comm]
      rw [hfirst.value_slice hws hx, hsecond.value_slice hvs hx',
        h.value_slice hv (within_override hx (hj hw)), h.value_slice hw (within_override hx' (hi hv)),
        override_comm x hvw.symm]
    · rw [hfirst.slice_of_not_mem fun hmem => hw (List.mem_filter.1 hmem).1, h.slice_of_not_mem hw]
  · rw [hsecond.slice_of_not_mem fun hmem => hv (List.mem_filter.1 hmem).1, h.slice_of_not_mem hv]

theorem Shaped.slice_condition (h : p.Shaped card s) (hvw : v ≠ w) (hj : w ∈ s → j < card w) :
    (p.condition v i).slice w j = (p.slice w j).condition v i := by
  have hfirst := h.condition v i
  have hsecond := h.slice w j
  by_cases hw : w ∈ s
  · refine (hfirst.slice w j).ext (hsecond.condition v i) fun x hx => ?_
    have hover : Within card s (override x w j) := within_override hx (hj hw)
    have hmem : v ∈ s.filter (· != w) ↔ v ∈ s := by simp [hvw]
    rw [hfirst.value_slice hw hx, h.value_condition_eq hover, override_ne x j hvw,
      hsecond.value_condition_eq hx, h.value_slice hw hx]
    simp only [hmem]
  · rw [hfirst.slice_of_not_mem hw, h.slice_of_not_mem hw]

theorem Shaped.slice?_bind (h : p.Shaped card s) (hvw : v ≠ w) :
    (p.slice? v i).bind (·.slice? w j) =
      if (v ∈ s → i < card v) ∧ (w ∈ s → j < card w) then some ((p.slice v i).slice w j) else none := by
  have hsecond := h.slice v i
  have hmem : w ∈ s.filter (· != v) ↔ w ∈ s := by simp [hvw.symm]
  by_cases hi : v ∈ s → i < card v
  · rw [h.slice?_eq hi, Option.bind_some]
    by_cases hj : w ∈ s → j < card w
    · rw [if_pos ⟨hi, hj⟩, hsecond.slice?_eq fun hw => hj (hmem.1 hw)]
    · rw [if_neg fun hboth => hj hboth.2, hsecond.slice?_eq_none fun hsome => hj (hsome ∘ hmem.2)]
  · rw [if_neg fun hboth => hi hboth.1, h.slice?_eq_none hi]
    rfl

/-- Different variables may be set in either order, whether they stay in the scope or not. -/
theorem Formed.set_comm (h : p.Formed) (hvw : v ≠ w) (i j : Nat) :
    (p.condition v i).condition w j = (p.condition w j).condition v i ∧
    (p.slice? v i).bind (·.slice? w j) = (p.slice? w j).bind (·.slice? v i) ∧
    (p.condition v i).slice? w j = (p.slice? w j).map (·.condition v i) := by
  have hp := h.shaped
  have hfirst := hp.condition v i
  refine ⟨hp.condition_comm v w i j, ?_, ?_⟩
  · rw [hp.slice?_bind hvw, hp.slice?_bind hvw.symm]
    by_cases hboth : (v ∈ p.scope → i < p.width v) ∧ (w ∈ p.scope → j < p.width w)
    · rw [if_pos hboth, if_pos hboth.symm, hp.slice_comm hvw hboth.1 hboth.2]
    · rw [if_neg hboth, if_neg fun hsome => hboth hsome.symm]
  · by_cases hj : w ∈ p.scope → j < p.width w
    · rw [hfirst.slice?_eq hj, hp.slice?_eq hj, hp.slice_condition hvw hj, Option.map_some]
    · rw [hfirst.slice?_eq_none hj, hp.slice?_eq_none hj, Option.map_none]

end Potential

/-! Against products, with exact numbers -/

namespace Potential

variable {p q : Potential ℝ}

theorem Shaped.multiply_indicator (h : p.Shaped card s) (hv : v ∈ s) :
    p.multiply (indicator v (card v) i) = p.condition v i := by
  have hind : (indicator v (card v) i : Potential ℝ).Shaped card [v] := shaped_indicator v i
  have hscope : Scope.union s [v] = s := h.increasing.union_eq_left (by simpa using hv)
  have hproduct := h.multiply hind
  rw [hscope] at hproduct
  refine hproduct.ext (h.condition v i) fun x hx => ?_
  rw [h.value_multiply hind (hscope.symm ▸ hx), value_indicator (hx v hv), h.value_condition hv hx,
    mul_ite, mul_one, mul_zero]

theorem Shaped.sumOut_condition (h : p.Shaped card s) (hv : v ∈ s) (hi : i < card v) :
    (p.condition v i).sumOut v = p.slice v i := by
  have hset := h.condition v i
  refine (hset.eliminate v .sum).ext (h.slice v i) fun x hx => ?_
  have hzero : ∀ j, j ≠ i → (if override x v j v = i then p.value (override x v j) else 0) = 0 :=
    fun j hj => if_neg (by rwa [override_same])
  calc ((p.condition v i).eliminate v .sum).value x
      = ((List.range (card v)).map fun j => (p.condition v i).value (override x v j)).sum := by
        rw [hset.value_eliminate hv hx, Reduction.over_singleton, Reduction.apply]
    _ = ((List.range (card v)).map fun j =>
          if override x v j v = i then p.value (override x v j) else 0).sum := by
        refine congrArg List.sum (List.map_congr_left fun j hj => ?_)
        exact h.value_condition hv (within_override hx (List.mem_range.1 hj))
    _ = (p.slice v i).value x := by
        rw [Reduction.sum_range_single hi hzero, override_same, if_pos rfl, h.value_slice hv hx]

theorem Shaped.value_divide_multiply (hp : p.Shaped card s) (hq : q.Shaped card t)
    (hsub : ∀ v ∈ t, v ∈ s) (hx : Within card s x) :
    ((p.multiply q).divide q).value x = if q.value x = 0 then 0 else p.value x := by
  have hscope : Scope.union s t = s := hp.increasing.union_eq_left hsub
  have hproduct := hp.multiply hq
  rw [hscope] at hproduct
  rw [hproduct.value_divide (hq.dependsOn.mono hsub) hx, hp.value_multiply hq (hscope.symm ▸ hx)]
  by_cases hzero : q.value x = 0 <;> simp [hzero]

theorem Shaped.divide?_multiply (hp : p.Shaped card s) (hq : q.Shaped card t) (hsub : ∀ v ∈ t, v ∈ s) :
    ∃ r : Potential ℝ, (p.multiply q).divide? q = some r ∧ r.Shaped card s ∧
      ∀ x, Within card s x → r.value x = if q.value x = 0 then 0 else p.value x := by
  have hproduct := hp.multiply hq
  rw [hp.increasing.union_eq_left hsub] at hproduct
  have hcontains : q.scope.all (p.multiply q).contains = true := by
    rw [List.all_eq_true, hq.scope]
    exact fun v hv => (hproduct.contains_iff v).2 (hsub v hv)
  have hspreads : (p.multiply q).spreads q = true :=
    (hproduct.agrees hq).spreads hproduct.formed hq.formed
  refine ⟨(p.multiply q).divide q, if_pos ?_, hproduct.divide q,
    fun x hx => hp.value_divide_multiply hq hsub hx⟩
  rw [hcontains, hspreads, Bool.true_and]

/-- To set a variable is to multiply by an indicator, to drop it afterwards is to take a slice, and what
a product was multiplied by may be divided out wherever it is not zero. -/
theorem conditioning_exact {α : Type} [Scalar α] :
    (∀ p : Potential α, p.Formed →
      (∀ v state, p.conditionByAxis v state = p.condition v state ∧
        p.sliceByAxis? v state = p.slice? v state) ∧
      (∀ q : Potential α, q.Formed → (∀ v ∈ q.scope, v ∈ p.scope) →
        p.divideByAxes? q = p.divide? q) ∧
      ∀ v w i j, v ≠ w →
        (p.condition v i).condition w j = (p.condition w j).condition v i ∧
        (p.slice? v i).bind (·.slice? w j) = (p.slice? w j).bind (·.slice? v i) ∧
        (p.condition v i).slice? w j = (p.slice? w j).map (·.condition v i)) ∧
    ∀ p : Potential ℝ, p.Formed →
      (∀ v k state, p.cardinality? v = some k → state < k →
        multiplyByAxes? p (indicator v k state) = some (p.condition v state) ∧
        p.multiply (indicator v k state) = p.condition v state ∧
        p.slice? v state = some ((p.condition v state).sumOut v)) ∧
      ∀ q : Potential ℝ, q.Formed → (∀ v ∈ q.scope, v ∈ p.scope) → p.Agrees q →
        ∃ r, (p.multiply q).divide? q = some r ∧ r.scope = p.scope ∧
          r.cardinalities = p.cardinalities ∧
          ∀ x, r.valueAt? (p.scope.map x) = (p.valueAt? (p.scope.map x)).bind fun a =>
            (q.valueAt? (q.scope.map x)).map fun b => if b = 0 then 0 else a := by
  refine ⟨fun p hp => ⟨fun v state => ⟨hp.shaped.conditionByAxis_eq v state,
      hp.shaped.sliceByAxis?_eq v state⟩, fun q hq hsub => hp.divideByAxes?_eq hq hsub,
      fun v w i j hvw => hp.set_comm hvw i j⟩,
    fun p hp => ⟨fun v k state hk hstate => ?_, fun q hq hsub hagree => ?_⟩⟩
  · have hps := hp.shaped
    have hv : v ∈ p.scope := by
      by_contra hnot
      rw [hps.cardinality?_eq, if_neg hnot] at hk
      cases hk
    have hwidth : p.width v = k := by rw [Potential.width, hk, Option.getD_some]
    subst hwidth
    have hind : (indicator v (p.width v) state : Potential ℝ).Shaped p.width [v] :=
      shaped_indicator v state
    have hproduct : p.multiply (indicator v (p.width v) state) = p.condition v state :=
      hps.multiply_indicator hv
    refine ⟨?_, hproduct, ?_⟩
    · rw [multiplyByAxes?_eq hp hind.formed, if_pos ((hps.agrees hind).spreads hp hind.formed), hproduct]
    · rw [hps.slice?_eq fun _ => hstate, hps.sumOut_condition hv hstate]
  · obtain ⟨card, hshaped⟩ := exists_shaped [p, q] (by simp [hp, hq]) (by simp [hagree])
    have hps : p.Shaped card p.scope := hshaped p (by simp)
    have hqs : q.Shaped card q.scope := hshaped q (by simp)
    obtain ⟨r, hr, hrs, hvalue⟩ := hps.divide?_multiply hqs hsub
    refine ⟨r, hr, hrs.scope, hrs.shape.trans hps.shape.symm, fun x => ?_⟩
    by_cases hx : Within card p.scope x
    · rw [hrs.valueAt?_eq hx, hps.valueAt?_eq hx, hqs.valueAt?_eq (hx.mono hsub), hvalue x hx]
      rfl
    · rw [hrs.valueAt?_eq_none hx, hps.valueAt?_eq_none hx]
      rfl

/-- The divisor is zero at the first of its three states. -/
theorem conditioning_exact_of_zero :
    let p : Potential ℝ := ofFn [(0, 2), (1, 3)] fun x => x 0 + 10 * x 1
    let q : Potential ℝ := ofFn [(1, 3)] fun x => x 1
    (p.Formed ∧ q.Formed ∧ p.Agrees q ∧ p.cardinality? 1 = some 3) ∧
    p.conditionByAxis 1 2 = p.multiply (indicator 1 3 2) ∧
    p.sliceByAxis? 1 2 = some ((p.multiply (indicator 1 3 2)).sumOut 1) ∧
    (p.condition 0 1).slice? 1 2 = (p.slice? 1 2).map (·.condition 0 1) ∧
    ∃ r, (p.multiply q).divide? q = some r ∧ r.valueAt? [1, 0] = some 0 ∧ r.valueAt? [1, 2] = some 21 := by
  intro p q
  let card (v : Nat) := if v = 1 then 3 else 2
  have hp : p.Shaped card [0, 1] := ⟨rfl, rfl, by simp [Scope.Increasing]⟩
  have hq : q.Shaped card [1] := ⟨rfl, rfl, by simp [Scope.Increasing]⟩
  have hsub : ∀ v ∈ q.scope, v ∈ p.scope := by
    rw [hp.scope, hq.scope]
    decide
  have hthree : p.cardinality? 1 = some 3 := by
    rw [hp.cardinality?_eq]
    decide
  have hpfn : p = ofFn ([0, 1].map fun v => (v, card v)) fun x => (x 0 + 10 * x 1 : ℝ) := rfl
  have hqfn : q = ofFn ([1].map fun v => (v, card v)) fun x => (x 1 : ℝ) := rfl
  have hpvalue : ∀ x, Within card [0, 1] x → p.valueAt? ([0, 1].map x) = some (x 0 + 10 * x 1 : ℝ) := by
    intro x hx
    rw [hp.valueAt?_eq hx, hpfn, value_ofFn hp.increasing hx]
    intro y z hyz
    simp only [hyz 0 (by simp), hyz 1 (by simp)]
  have hqvalue : ∀ x, Within card [0, 1] x → q.valueAt? ([1].map x) = some (x 1 : ℝ) := by
    intro x hx
    have hx : Within card [1] x := hx.mono (by simp)
    rw [hq.valueAt?_eq hx, hqfn, value_ofFn hq.increasing hx]
    intro y z hyz
    simp only [hyz 1 (by simp)]
  obtain ⟨hplaces, hlaws⟩ := @conditioning_exact ℝ _
  obtain ⟨hbyAxis, -, hcomm⟩ := hplaces p hp.formed
  obtain ⟨hset, hdivide⟩ := hlaws p hp.formed
  obtain ⟨-, hindicator, hslice⟩ := hset 1 3 2 hthree (by decide)
  obtain ⟨r, hr, -, -, hvalue⟩ := hdivide q hq.formed hsub (hp.agrees hq)
  have hquotient : ∀ x, Within card [0, 1] x → r.valueAt? ([0, 1].map x) =
      some (if (x 1 : ℝ) = 0 then 0 else (x 0 + 10 * x 1 : ℝ)) := by
    intro x hx
    have hr := hvalue x
    rw [hp.scope, hq.scope, hpvalue x hx, hqvalue x hx] at hr
    exact hr
  refine ⟨⟨hp.formed, hq.formed, hp.agrees hq, hthree⟩, (hbyAxis 1 2).1.trans hindicator.symm, ?_,
    (hcomm 0 1 1 2 (by decide)).2.2, r, hr, ?_, ?_⟩
  · rw [(hbyAxis 1 2).2, hslice, hindicator]
  · refine (hquotient (fun v => if v = 1 then 0 else 1) (by simp [Within, card])).trans ?_
    norm_num
  · refine (hquotient (fun v => if v = 1 then 2 else 1) (by simp [Within, card])).trans ?_
    norm_num

end Potential
end Bayes
