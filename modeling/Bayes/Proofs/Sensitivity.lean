import Bayes.Proofs.Inference
import Bayes.Proofs.Surroundings
/-!
Sensitivity is exact. The mass of the findings is linear in the entries of a row, with the masses beside
the entries for coefficients, so the reported derivatives tell exactly how the mass moves with an entry
alone, and with an entry that the rest of its row makes up for.
-/
namespace Bayes

namespace Reduction

theorem sum_over_linear {card : Nat → Nat} {vs : List Nat} {x : Nat → Nat} (I : Finset Nat)
    (f : (Nat → Nat) → ℝ) (c : Nat → ℝ) (g : Nat → (Nat → Nat) → ℝ) :
    Reduction.sum.over card vs (fun y => f y + ∑ i ∈ I, c i * g i y) x =
      Reduction.sum.over card vs f x + ∑ i ∈ I, c i * Reduction.sum.over card vs (g i) x := by
  simp only [Reduction.over, apply]
  induction assignments card vs x with
  | nil => simp
  | cons y l ih =>
    simp only [List.map_cons, List.sum_cons, ih, mul_add, Finset.sum_add_distrib]
    ring

end Reduction

namespace Network

/-- A network in which every entry of the row of an entry is changed by some amount. -/
noncomputable def shifting (n : Network ℝ) (entry : TableEntry) (change : Nat → ℝ) : Network ℝ :=
  let table := n.table entry.owner
  n.withTable entry.owner (Table.ofFn table.shape fun index =>
    table.entry index + if index.dropLast = entry.parents then change (index.getLastD 0) else 0)

variable {n : Network ℝ} {found : Findings} {x : Nat → Nat} {u v : Nat} {t : Table ℝ}
  {entry : TableEntry}

theorem entryAt_withTable (hv : v < n.size) : (n.withTable v t).entryAt x u =
    if u = v then t.entry ((n.parents v ++ [v]).map x) else n.entryAt x u := by
  rw [entryAt, table_withTable n hv, parents_withTable]
  by_cases huv : u = v
  · rw [if_pos huv, if_pos huv, huv]
  · rw [if_neg huv, if_neg huv, entryAt]

theorem part_withTable (hv : v < n.size) :
    (n.withTable v t).part found (some v) x u = n.part found (some v) x u := by
  by_cases huv : u = v
  · simp only [part, huv, if_true]
  · have hvu : some v ≠ some u := fun heq => huv (Option.some.inj heq).symm
    simp only [part, if_neg hvu, entryAt_withTable hv, if_neg huv]

theorem admits_withTable (h : n.Admits found) : (n.withTable v t).Admits found := by
  simpa [Admits] using h

theorem mass_eq_leftOut (hv : v < n.size) (hfound : n.Admits found)
    (hforced : Findings.intervened found v = false) :
    n.mass found (fun _ => true) = Reduction.sum.over n.cardinality n.ids (fun y =>
      (∏ u ∈ Finset.range n.size, n.part found (some v) y u) * n.entryAt y v) fun _ => 0 := by
  rw [mass_eq]
  refine Reduction.over_congr fun y _ => ?_
  rw [if_pos rfl, ← prod_part hfound, prod_part_leftOut (Finset.mem_range.2 hv) hforced]

theorem mass_withTable_of_intervened (hv : v < n.size)
    (hforced : Findings.intervened found v = true) (event : (Nat → Nat) → Bool) :
    (n.withTable v t).mass found event = n.mass found event := by
  have hjoint : (n.withTable v t).joint found = n.joint found := by
    funext y
    rw [joint_eq_prod, joint_eq_prod, size_withTable]
    refine Finset.prod_congr rfl fun u _ => ?_
    rw [entryAt_withTable hv]
    by_cases huv : u = v
    · rw [huv, if_pos hforced, if_pos hforced]
    · rw [if_neg huv]
  rw [mass, hjoint, cardinality_withTable, ids_withTable, mass]

theorem entryAt_shifting (h : n.WellFormed) (hv : entry.owner < n.size) (change : Nat → ℝ)
    (hx : Within n.cardinality n.ids x) : (n.shifting entry change).entryAt x entry.owner =
      n.entryAt x entry.owner +
        if (n.parents entry.owner).map x = entry.parents then change (x entry.owner) else 0 := by
  have hin : Within n.cardinality (n.parents entry.owner ++ [entry.owner]) x := by
    refine hx.mono fun w hw => mem_ids.2 ?_
    obtain hw | hw := List.mem_append.1 hw
    · exact h.parents_lt _ w hw
    · exact List.mem_singleton.1 hw ▸ hv
  rw [shifting, entryAt_withTable hv, if_pos rfl, Table.entry_ofFn, entryAt, List.map_append,
    List.map_singleton, List.dropLast_concat, List.getLastD_concat]
  rw [h.shape _ hv]
  exact fits_map.2 hin

/-- The mass is linear in the entries of a row. -/
theorem mass_shifting (h : n.WellFormed) (hv : entry.owner < n.size) (hfound : n.Admits found)
    (hforced : Findings.intervened found entry.owner = false) (change : Nat → ℝ) :
    (n.shifting entry change).mass found (fun _ => true) = n.mass found (fun _ => true) +
      ∑ state ∈ Finset.range (n.cardinality entry.owner),
        change state * n.beside found entry.owner (entry.parents ++ [state]) := by
  have hadmits : (n.shifting entry change).Admits found := admits_withTable hfound
  have hsize : (n.shifting entry change).size = n.size := size_withTable n _ _
  rw [mass_eq_leftOut (hsize ▸ hv) hadmits hforced, mass_eq_leftOut hv hfound hforced]
  simp only [beside]
  rw [← Reduction.sum_over_linear]
  simp only [shifting, cardinality_withTable, ids_withTable, size_withTable, part_withTable hv]
  refine Reduction.over_congr fun y hy => ?_
  have hin := (mem_assignments.1 hy).1
  have hentry := entryAt_shifting h hv change hin
  rw [shifting] at hentry
  rw [hentry, mul_add]
  refine congrArg _ ?_
  have hrow (state : Nat) : (n.parents entry.owner ++ [entry.owner]).map y =
      entry.parents ++ [state] ↔
        (n.parents entry.owner).map y = entry.parents ∧ y entry.owner = state := by
    rw [List.map_append, List.map_singleton]
    constructor
    · intro heq
      obtain ⟨hparents, hstate⟩ := List.append_inj' heq rfl
      exact ⟨hparents, List.head_eq_of_cons_eq hstate⟩
    · rintro ⟨hparents, hstate⟩
      rw [hparents, hstate]
  by_cases hparents : (n.parents entry.owner).map y = entry.parents
  · have hstate : y entry.owner ∈ Finset.range (n.cardinality entry.owner) :=
      Finset.mem_range.2 (hin _ (mem_ids.2 hv))
    simp only [hrow, hparents, true_and, if_true, mul_ite, mul_zero]
    rw [Finset.sum_ite_eq, if_pos hstate, mul_comm]
  · simp only [hrow, hparents, false_and, if_false, mul_zero, Finset.sum_const_zero]

noncomputable def rowOf (n : Network ℝ) (entry : TableEntry) : List ℝ :=
  (List.range (n.cardinality entry.owner)).map fun state =>
    (n.table entry.owner).entry (entry.parents ++ [state])

/-- What another state of the row gives, for every unit that an entry gets. -/
noncomputable def weight (n : Network ℝ) (entry : TableEntry) (state : Nat) : ℝ :=
  let value state := (n.table entry.owner).entry (entry.parents ++ [state])
  if 1 / 2 ^ 52 < 1 - value entry.state then value state / (1 - value entry.state)
  else 1 / ((n.cardinality entry.owner : ℝ) - 1)

end Network

namespace Sensitivity

variable {n : Network ℝ} {s : Snapshot ℝ} {entry : TableEntry} {found : Findings}

theorem nth_map_range {k i : Nat} (f : Nat → ℝ) (hi : i < k) : nth ((List.range k).map f) i = f i := by
  simp [nth, hi]

theorem length_rowOf : (n.rowOf entry).length = n.cardinality entry.owner := by simp [Network.rowOf]

theorem nth_rowOf {state : Nat} (h : state < n.cardinality entry.owner) :
    nth (n.rowOf entry) state = (n.table entry.owner).entry (entry.parents ++ [state]) :=
  nth_map_range _ h

theorem row_ok (h : entry.Of n) : row n entry = .ok (n.rowOf entry) := by
  obtain ⟨node, hnode, hparents, hcard, htable⟩ := Network.node?_of_lt h.owner
  obtain ⟨hfits, hstate⟩ := h.fits_parents
  have hlookup : n.lookupState entry.owner entry.state = .ok node := by
    simp [Network.lookupState, Network.lookup, hnode, hcard, hstate]
  have hlength : node.parents.length = entry.parents.length := by rw [hparents, h.length_parents]
  have hforM : ((node.parents.zip entry.parents).forM fun p =>
      discard (n.lookupState p.1 p.2)) = .ok () := by
    refine forM_eq_ok fun p hp => ?_
    obtain ⟨parent, hparent⟩ := Network.lookupState_ok (lt_of_fits_map hfits p (hparents ▸ hp))
    rw [hparent]
    rfl
  rw [row, hlookup]
  simp only [hlength, ne_eq, not_true_eq_false, if_false, hforM, hcard, htable]
  rfl

theorem share_eq (h : entry.Of n) {state : Nat} (hstate : state < n.cardinality entry.owner) :
    share (n.rowOf entry) entry.state state = n.weight entry state := by
  have hself := h.fits_parents.2
  have hepsilon : (Scalar.epsilon : ℝ) = 1 / 2 ^ 52 := by
    norm_num [Scalar.epsilon, Scalar.ofNat]
  have hcount : (Scalar.ofNat (n.cardinality entry.owner - 1) : ℝ) =
      (n.cardinality entry.owner : ℝ) - 1 := by
    have hpos : 1 ≤ n.cardinality entry.owner := by omega
    exact Nat.cast_pred hpos
  simp only [share, nth_rowOf hself, nth_rowOf hstate, Scalar.lt_iff, hepsilon, length_rowOf,
    hcount]
  rfl

/-- An entry that moves together with the rest of its row. -/
theorem covary_eq (h : entry.Of n) (f : Nat → ℝ) (d : ℝ) :
    ∑ state ∈ Finset.range (n.cardinality entry.owner),
        (if state = entry.state then d else -(d * n.weight entry state)) * f state =
      d * covary ((List.range (n.cardinality entry.owner)).map f) (n.rowOf entry) entry.state := by
  have hself := h.fits_parents.2
  have hothers : (((List.range (n.cardinality entry.owner)).filter (· != entry.state)).map fun other =>
      share (n.rowOf entry) entry.state other *
          nth ((List.range (n.cardinality entry.owner)).map f) other).sum =
      ∑ state ∈ Finset.range (n.cardinality entry.owner),
        if state = entry.state then 0 else n.weight entry state * f state := by
    rw [Network.sum_map_filter]
    change ∑ other ∈ Finset.range (n.cardinality entry.owner), _ = _
    refine Finset.sum_congr rfl fun state hstate => ?_
    have hstate := Finset.mem_range.1 hstate
    rw [share_eq h hstate, nth_map_range f hstate]
    by_cases heq : state = entry.state <;> simp [heq]
  have hpoint (state : Nat) :
      (if state = entry.state then d else -(d * n.weight entry state)) * f state =
        (if state = entry.state then d * f state else 0) -
          d * if state = entry.state then 0 else n.weight entry state * f state := by
    by_cases heq : state = entry.state
    · simp [heq]
    · simp only [if_neg heq]
      ring
  rw [covary, length_rowOf, hothers, nth_map_range f hself,
    Finset.sum_congr rfl fun state _ => hpoint state, Finset.sum_sub_distrib, ← Finset.mul_sum,
    Finset.sum_ite_eq', if_pos (Finset.mem_range.2 hself), mul_sub]

theorem evidenceSlope_exact (h : s.TakenOf n) (hn : n.WellFormed) (hentry : entry.Of n) :
    let slope := evidenceSlope n s entry (n.rowOf entry)
    slope.probability = n.mass s.findings (fun _ => true) ∧
      (∀ d, (n.shifting entry fun state => if state = entry.state then d else 0).mass s.findings
        (fun _ => true) = slope.probability + d * slope.derivative) ∧
      (∀ d, (n.shifting entry fun state => if state = entry.state then d
        else -(d * n.weight entry state)).mass s.findings (fun _ => true) =
          slope.probability + d * slope.covaried) ∧
      (Findings.intervened s.findings entry.owner = true →
        slope.derivative = 0 ∧ slope.covaried = 0) := by
  intro slope
  let coefficient (state : Nat) : ℝ :=
    if Findings.intervened s.findings entry.owner = true then 0
    else n.beside s.findings entry.owner (entry.parents ++ [state])
  have hcoefficients : coefficients n s entry =
      (List.range (n.cardinality entry.owner)).map coefficient := h.coefficients_eq hn hentry
  have hprobability : slope.probability = n.mass s.findings (fun _ => true) := h.probability_eq hn
  have hderivative : slope.derivative = coefficient entry.state := by
    change nth (coefficients n s entry) entry.state = _
    rw [hcoefficients, nth_map_range _ hentry.fits_parents.2]
  have hcovaried (d : ℝ) : d * slope.covaried = ∑ state ∈ Finset.range (n.cardinality entry.owner),
      (if state = entry.state then d else -(d * n.weight entry state)) * coefficient state := by
    rw [covary_eq hentry, ← hcoefficients]
    rfl
  have hmass (change : Nat → ℝ) : (n.shifting entry change).mass s.findings (fun _ => true) =
      slope.probability + ∑ state ∈ Finset.range (n.cardinality entry.owner),
        change state * coefficient state := by
    rw [hprobability]
    by_cases hforced : Findings.intervened s.findings entry.owner = true
    · simp only [coefficient, hforced, if_true, mul_zero, Finset.sum_const_zero, add_zero]
      exact Network.mass_withTable_of_intervened hentry.owner hforced _
    · simp only [coefficient, hforced]
      exact Network.mass_shifting hn hentry.owner h.admits (by simpa using hforced) change
  refine ⟨hprobability, fun d => ?_, fun d => ?_, fun hforced => ?_⟩
  · rw [hmass, hderivative]
    simp only [ite_mul, zero_mul]
    rw [Finset.sum_ite_eq', if_pos (Finset.mem_range.2 hentry.fits_parents.2)]
  · rw [hmass, hcovaried]
  · have hzero (state : Nat) : coefficient state = 0 := if_pos hforced
    have hone := hcovaried 1
    simp only [hzero, mul_zero, Finset.sum_const_zero, one_mul] at hone
    exact ⟨hderivative.trans (hzero _), hone⟩

end Sensitivity

namespace Engine

variable {n : Network ℝ} {found : Findings} {config : Config} {e : Engine ℝ} {entry : TableEntry}

/-- The reported slope is that of the mass, for the entry alone and along its row. -/
theorem sensitivity_exact (hn : n.Reachable) (he : ofNetwork n config = .ok e)
    (hfound : n.Admits found) (hmass : 0 < n.mass found fun _ => true) (hentry : entry.Of n) :
    ∃ e' slope, e.tell found = (.ok (), e') ∧
      (e'.sensitivity none entry).1 =
        .ok ⟨entry, none, (n.table entry.owner).entry (entry.parents ++ [entry.state]), slope⟩ ∧
      slope.probability = n.mass found (fun _ => true) ∧
      (∀ d, (n.shifting entry fun state => if state = entry.state then d else 0).mass found
        (fun _ => true) = slope.probability + d * slope.derivative) ∧
      (∀ d, (n.shifting entry fun state => if state = entry.state then d
        else -(d * n.weight entry state)).mass found (fun _ => true) =
          slope.probability + d * slope.covaried) ∧
      (Findings.intervened found entry.owner = true →
        slope.derivative = 0 ∧ slope.covaried = 0) := by
  obtain ⟨e', htell, hready⟩ := ready_tell he hfound
  obtain ⟨s, e'', hpropagate, hnetwork, htaken, rfl⟩ := hready.propagate
  refine ⟨e', _, htell, ?_, Sensitivity.evidenceSlope_exact htaken hn.wellFormed hentry⟩
  have hsound : s.isContradictory = false := by
    simpa [hmass.ne'] using htaken.isContradictory_iff hn.wellFormed
  rw [sensitivity, hpropagate]
  simp only [hnetwork, Sensitivity.ofEntry, Sensitivity.row_ok hentry, hsound,
    Sensitivity.nth_rowOf hentry.fits_parents.2]
  rfl

def wetByRain : TableEntry := ⟨1, [1], 1⟩

theorem wetByRain_of_garden : wetByRain.Of garden := ⟨Nat.one_lt_two, rfl⟩

theorem mass_wetByRain (amount : Nat → ℝ) (rains : Nat → Bool) :
    (garden.shifting wetByRain amount).mass wet (fun x => rains (x 0)) =
      garden.mass wet (fun x => rains (x 0)) + if rains 1 then amount 1 / 2 else 0 := by
  have hentry : ∀ rain < 2, 1 / 2 * (Table.ofFn [2, 2] fun index =>
      (Network.uniform [2, 2] : Table ℝ).entry index +
        if index.dropLast = [1] then amount (index.getLastD 0) else 0).entry [rain, 1] =
      1 / 4 + if rain = 1 then amount 1 / 2 else 0 := by
    intro rain hrain
    have hfits : Table.fits [2, 2] [rain, 1] = true := by simpa [Table.fits] using hrain
    have hrow : [rain, 1].dropLast = [rain] := rfl
    have hstate : [rain, 1].getLastD 0 = 1 := rfl
    simp only [Table.entry_ofFn _ hfits, entry_even rfl hfits, hrow, hstate, List.cons.injEq, and_true]
    split <;> ring
  calc (garden.shifting wetByRain amount).mass wet (fun x => rains (x 0))
      = ∑ rain ∈ Finset.range 2,
          if rains rain then 1 / 4 + if rain = 1 then amount 1 / 2 else 0 else 0 :=
        (mass_garden _ rains).trans (Finset.sum_congr rfl fun rain hrain =>
          congrArg (if rains rain then · else 0) (hentry rain (Finset.mem_range.1 hrain)))
    _ = garden.mass wet (fun x => rains (x 0)) + if rains 1 then amount 1 / 2 else 0 := by
        rw [mass_wet, Finset.sum_range_succ, Finset.sum_range_one, Finset.sum_range_succ,
          Finset.sum_range_one, if_neg zero_ne_one, if_pos rfl, add_zero, add_assoc]
        cases rains 1 <;> simp

/-- Half of the mass of the wet grass moves with the entry: as much as that of the rain. -/
theorem sensitivity_exact_of_garden : garden.Reachable ∧ garden.Admits wet ∧
    0 < garden.mass wet (fun _ => true) ∧ wetByRain.Of garden ∧
    ∃ e, ofNetwork garden {} = .ok e ∧ ∃ e' slope, e.tell wet = (.ok (), e') ∧
      (e'.sensitivity none wetByRain).1 = .ok ⟨wetByRain, none, 1 / 2, slope⟩ ∧
      slope.probability = 1 / 2 ∧ slope.derivative = 1 / 2 := by
  obtain ⟨e, he⟩ := exists_ofNetwork reachable_garden
  have hpos : 0 < garden.mass wet (fun _ => true) := by
    rw [mass_wet_all]
    norm_num
  obtain ⟨e', slope, htell, hanswer, hprobability, halone, -⟩ :=
    sensitivity_exact reachable_garden he admits_wet hpos wetByRain_of_garden
  have hvalue : (garden.table 1).entry [1, 1] = 1 / 2 := entry_even rfl rfl
  have hslope := halone 1
  rw [mass_wetByRain _ fun _ => true, hprobability, one_mul, if_pos rfl] at hslope
  refine ⟨reachable_garden, admits_wet, hpos, wetByRain_of_garden, e, he, e', slope, htell, ?_,
    hprobability.trans mass_wet_all, ?_⟩
  · exact hanswer.trans (by rw [← hvalue]; rfl)
  · exact (add_left_cancel hslope).symm.trans (by simp [wetByRain])

end Engine
end Bayes
