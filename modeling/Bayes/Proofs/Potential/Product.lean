import Bayes.Potential.Defined
import Bayes.Proofs.Exact
import Bayes.Proofs.Potential.Form
import Bayes.Proofs.Table.Axes
/-!
Products axis by axis. Both tables get an axis of length one for every variable that only the other
one has, one after the other along the scope of the product; each is then spread over the shape of the
product, and entries at the same place are multiplied. The result is the product at every assignment.
-/
namespace Bayes.Potential

variable {α : Type} {card width : Nat → Nat} {s t u scope : List Nat} {p q r : Potential α}
  {x : Nat → Nat}

/-- A product is defined when every axis is as long as that of the product, or stands for all. -/
theorem Formed.spreads_iff (hp : p.Formed) (hq : q.Formed) : p.spreads q = true ↔
    ∀ v ∈ Scope.union p.scope q.scope, q.width v = p.jointWidth q v ∨ q.width v = 1 := by
  rw [spreads, hq.shaped.axes_eq, List.all_map, List.all_eq_true]
  constructor
  · intro h v _
    by_cases hp' : v ∈ p.scope
    · by_cases hq' : v ∈ q.scope
      · simpa [hp.shaped.cardinality?_eq, hp', hp.jointWidth_left hp'] using h v hq'
      · exact Or.inr (hq.width_of_not_mem hq')
    · exact Or.inl (hp.jointWidth_right hp').symm
  · intro h v hv
    by_cases hp' : v ∈ p.scope
    · simpa [hp.shaped.cardinality?_eq, hp', hp.jointWidth_left hp'] using
        h v (Scope.mem_union.2 (Or.inr hv))
    · simp [hp.shaped.cardinality?_eq, hp']

theorem Agrees.spreads (h : p.Agrees q) (hp : p.Formed) (hq : q.Formed) : p.spreads q = true := by
  refine (hp.spreads_iff hq).2 fun v _ => ?_
  by_cases hpv : v ∈ p.scope
  · by_cases hqv : v ∈ q.scope
    · refine Or.inl ?_
      rw [hp.jointWidth_left hpv, Potential.width, Potential.width, h v hpv hqv]
    · exact Or.inr (hq.width_of_not_mem hqv)
  · exact Or.inl (hp.jointWidth_right hpv).symm

variable [Scalar α]

def aligned (p : Potential α) (scope : List Nat) : Table α :=
  scope.zipIdx.foldl (fun view e => if p.contains e.1 then view else view.insertAxis e.2) p.table

def multiplyByAxes? (p q : Potential α) : Option (Potential α) := do
  let scope := Scope.union p.scope q.scope
  let shape := scope.map fun v => ((p.cardinality? v).or (q.cardinality? v)).getD 1
  let left ← (p.aligned scope).broadcast? shape
  let right ← (q.aligned scope).broadcast? shape
  return ⟨scope, left.zipWith (· * ·) right⟩

/-- The variables before the list have their axes, and those of the list only if the table had them.
Each new axis moves the ones behind it, so the place to insert is the place in the scope. -/
theorem foldl_insertAxis (hone : ∀ v, p.contains v = false → width v = 1) (rest : List Nat) :
    ∀ (front : List Nat) (view : Table α),
      view.shape = (front ++ rest.filter p.contains).map width →
      let final := (rest.zipIdx front.length).foldl
        (fun view e => if p.contains e.1 then view else view.insertAxis e.2) view
      final.shape = (front ++ rest).map width ∧ ∀ y, Within width (front ++ rest) y →
        final.entry ((front ++ rest).map y) =
          view.entry ((front ++ rest.filter p.contains).map y) := by
  induction rest with
  | nil =>
    intro front view hshape
    exact ⟨by simpa using hshape, fun y _ => rfl⟩
  | cons v rest ih =>
    intro front view hshape
    have hlength : (front ++ [v]).length = front.length + 1 := by simp
    rw [List.zipIdx_cons, List.foldl_cons, ← hlength]
    by_cases hv : p.contains v = true
    · rw [List.filter_cons_of_pos hv] at hshape ⊢
      simpa [hv] using ih (front ++ [v]) view (by simpa using hshape)
    · have hv : p.contains v = false := by simpa using hv
      rw [List.filter_cons_of_neg (by simp [hv])] at hshape ⊢
      have hcut : view.shape = front.map width ++ (rest.filter p.contains).map width := by
        rw [hshape, List.map_append]
      have haxis : front.length = (front.map width).length := by simp
      have hnew : (view.insertAxis front.length).shape =
          (front ++ [v] ++ rest.filter p.contains).map width := by
        rw [Table.shape_insertAxis hcut haxis]
        simp [hone v hv]
      obtain ⟨hfinal, hentry⟩ := ih (front ++ [v]) _ hnew
      simp only [hv, Bool.false_eq_true, if_false]
      refine ⟨by simpa using hfinal, fun y hy => ?_⟩
      have hsplit : front ++ v :: rest = front ++ [v] ++ rest := by simp
      rw [hsplit] at hy ⊢
      rw [hentry y hy]
      have hwithin : Within width (front ++ [v] ++ rest.filter p.contains) y :=
        hy.mono fun w hw => by grind
      have hfits := fits_map.2 hwithin
      simp only [List.map_append, List.map_cons, List.append_assoc, List.cons_append, List.nil_append,
        hone v hv] at hfits ⊢
      exact Table.entry_insertAxis hcut haxis hfits (by simp)

theorem Formed.aligned_spec (h : p.Formed) (hscope : Scope.Increasing scope)
    (hsub : ∀ v ∈ p.scope, v ∈ scope) : (p.aligned scope).shape = scope.map p.width ∧
      ∀ y, Within p.width scope y →
        (p.aligned scope).entry (scope.map y) = p.table.entry (p.scope.map y) := by
  have hfilter : scope.filter p.contains = p.scope :=
    hscope.filter_contains h.increasing hsub
  have hone (v : Nat) (hv : p.contains v = false) : p.width v = 1 :=
    h.width_of_not_mem fun hmem => by simp [(h.shaped.contains_iff v).2 hmem] at hv
  have hshape : p.table.shape = ([] ++ scope.filter p.contains).map p.width := by
    rw [List.nil_append, hfilter, h.shaped.shape]
  have hloop := foldl_insertAxis hone scope [] p.table hshape
  rw [List.nil_append, List.nil_append, hfilter] at hloop
  exact hloop

theorem Formed.broadcast?_aligned (h : p.Formed) (hscope : Scope.Increasing scope)
    (hsub : ∀ v ∈ p.scope, v ∈ scope) (hwidth : ∀ v ∈ scope, p.width v = width v ∨ p.width v = 1) :
    ∃ view : Table α, (p.aligned scope).broadcast? (scope.map width) = some view ∧
      view.shape = scope.map width ∧
      ∀ x, Within width scope x → view.entry (scope.map x) = p.value x := by
  obtain ⟨hshape, hentry⟩ := h.aligned_spec hscope hsub
  refine ⟨_, if_pos ?_, rfl, fun x hx => ?_⟩
  · simpa [hshape, List.zip_map'] using hwidth
  · let y (v : Nat) := if p.width v = 1 then 0 else x v
    have hy : Within p.width scope y := by
      intro v hv
      by_cases hone : p.width v = 1
      · simp [y, hone]
      · have hyv : y v = x v := if_neg hone
        rw [hyv, (hwidth v hv).resolve_right hone]
        exact hx v hv
    have hindex : ((p.aligned scope).shape.zip ((scope.map x).drop
        ((scope.map width).length - (p.aligned scope).shape.length))).map
          (fun e => if e.1 = 1 then 0 else e.2) = scope.map y := by
      simp [hshape, List.zip_map', y]
    rw [Table.entry_ofFn _ (fits_map.2 hx), hindex, hentry y hy, value, h.shaped.axes_eq,
      List.map_map]
    rfl

theorem Formed.broadcast?_aligned_eq_none (h : p.Formed) (hscope : Scope.Increasing scope)
    (hsub : ∀ v ∈ p.scope, v ∈ scope)
    (hwidth : ¬ ∀ v ∈ scope, p.width v = width v ∨ p.width v = 1) :
    (p.aligned scope).broadcast? (scope.map width) = none := by
  refine if_neg fun hall => hwidth ?_
  simpa [(h.aligned_spec hscope hsub).1, List.zip_map'] using hall

theorem multiplyByAxes?_eq (hp : p.Formed) (hq : q.Formed) :
    multiplyByAxes? p q = if p.spreads q then some (p.multiply q) else none := by
  let scope := Scope.union p.scope q.scope
  have hscope : Scope.Increasing scope := Scope.increasing_union _ _
  have hpsub : ∀ v ∈ p.scope, v ∈ scope := fun v hv => Scope.mem_union.2 (Or.inl hv)
  have hqsub : ∀ v ∈ q.scope, v ∈ scope := fun v hv => Scope.mem_union.2 (Or.inr hv)
  have hpwidth : ∀ v ∈ scope, p.width v = p.jointWidth q v ∨ p.width v = 1 := by
    intro v _
    by_cases hv : v ∈ p.scope
    · exact Or.inl (hp.jointWidth_left hv).symm
    · exact Or.inr (hp.width_of_not_mem hv)
  obtain ⟨left, hleft, hshape, hlentry⟩ := hp.broadcast?_aligned hscope hpsub hpwidth
  by_cases hspreads : p.spreads q = true
  · obtain ⟨right, hright, -, hrentry⟩ :=
      hq.broadcast?_aligned hscope hqsub ((hp.spreads_iff hq).1 hspreads)
    have htable : left.zipWith (· * ·) right = Table.ofFn (scope.map (p.jointWidth q)) fun index =>
        p.value (assign scope index) * q.value (assign scope index) := by
      rw [Table.zipWith, hshape]
      refine Table.ofFn_congr fun index hfits => ?_
      obtain ⟨hwithin, hindex⟩ := within_assign hscope.nodup hfits
      rw [← hlentry _ hwithin, ← hrentry _ hwithin, hindex]
    have hproduct : p.multiply q = ⟨scope, left.zipWith (· * ·) right⟩ := by
      simp only [multiply, ofFn, jointAxes, List.map_map, Function.comp_def, List.map_id', htable]
      rfl
    rw [if_pos hspreads, hproduct]
    simp only [multiplyByAxes?]
    exact (congrArg (Option.bind · _) hleft).trans (congrArg (Option.bind · _) hright)
  · have hright := hq.broadcast?_aligned_eq_none hscope hqsub (mt (hp.spreads_iff hq).2 hspreads)
    rw [if_neg hspreads]
    simp only [multiplyByAxes?]
    exact (congrArg (Option.bind · _) hleft).trans (congrArg (Option.bind · _) hright)

/-! Laws of the product -/

theorem Shaped.valueAt?_multiply (hp : p.Shaped card s) (hq : q.Shaped card t) (x : Nat → Nat) :
    (p.multiply q).valueAt? ((p.multiply q).scope.map x) =
      (p.valueAt? (p.scope.map x)).bind fun a =>
        (q.valueAt? (q.scope.map x)).map fun b => a * b := by
  have hpq := hp.multiply hq
  rw [hpq.scope, hp.scope, hq.scope]
  by_cases hs : Within card s x
  · by_cases ht : Within card t x
    · have hx : Within card (Scope.union s t) x := within_union.2 ⟨hs, ht⟩
      rw [hpq.valueAt?_eq hx, hp.valueAt?_eq hs, hq.valueAt?_eq ht, hp.value_multiply hq hx]
      rfl
    · rw [hpq.valueAt?_eq_none (mt within_union.1 (ht ·.2)), hp.valueAt?_eq hs,
        hq.valueAt?_eq_none ht]
      rfl
  · rw [hpq.valueAt?_eq_none (mt within_union.1 (hs ·.1)), hp.valueAt?_eq_none hs]
    rfl

theorem Shaped.multiply_comm (hp : p.Shaped card s) (hq : q.Shaped card t)
    (hmul : ∀ a b : α, a * b = b * a) : p.multiply q = q.multiply p := by
  have hqp := hq.multiply hp
  rw [Scope.union_comm] at hqp
  refine (hp.multiply hq).ext hqp fun x hx => ?_
  rw [hp.value_multiply hq hx, hq.value_multiply hp (Scope.union_comm s t ▸ hx), hmul]

theorem Shaped.multiply_assoc (hp : p.Shaped card s) (hq : q.Shaped card t) (hr : r.Shaped card u)
    (hmul : ∀ a b c : α, a * b * c = a * (b * c)) :
    (p.multiply q).multiply r = p.multiply (q.multiply r) := by
  have hright := hp.multiply (hq.multiply hr)
  rw [← Scope.union_assoc] at hright
  refine ((hp.multiply hq).multiply hr).ext hright fun x hx => ?_
  have hpq := (within_union.1 hx).1
  have hx' := Scope.union_assoc s t u ▸ hx
  have hqr := (within_union.1 hx').2
  rw [(hp.multiply hq).value_multiply hr hx, hp.value_multiply hq hpq,
    hp.value_multiply (hq.multiply hr) hx', hq.value_multiply hr hqr, hmul]

theorem Shaped.unit_multiply (hp : p.Shaped card s) (hone : ∀ a : α, 1 * a = a) :
    unit.multiply p = p := by
  have hunit := shaped_unit.multiply hp
  rw [Scope.union, List.nil_append, hp.increasing.ofList_eq] at hunit
  refine hunit.ext hp fun x hx => ?_
  have hx' : Within card (Scope.union [] s) x := within_union.2 ⟨by simp [Within], hx⟩
  rw [shaped_unit.value_multiply hp hx', value_unit, hone]

/-- The product over the union of the scopes is what working axis by axis gives, and multiplies the
entries at every assignment; in exact arithmetic neither order nor grouping of the factors matters. -/
theorem multiply_pointwise :
    (∀ p q : Potential α, p.Formed → q.Formed → p.Agrees q →
      multiplyByAxes? p q = some (p.multiply q) ∧
      p.multiply? q = (if areHeld (p.jointAxes q) then some (p.multiply q) else none) ∧
      (p.multiply q).Formed ∧
      (∀ v, v ∈ (p.multiply q).scope ↔ v ∈ p.scope ∨ v ∈ q.scope) ∧
      (∀ v, (p.multiply q).cardinality? v = (p.cardinality? v).or (q.cardinality? v)) ∧
      ∀ x, (p.multiply q).valueAt? ((p.multiply q).scope.map x) =
        (p.valueAt? (p.scope.map x)).bind fun a =>
          (q.valueAt? (q.scope.map x)).map fun b => a * b) ∧
    ∀ p q r : Potential ℝ, p.Formed → q.Formed → r.Formed →
      p.Agrees q → p.Agrees r → q.Agrees r →
      p.multiply q = q.multiply p ∧ (p.multiply q).multiply r = p.multiply (q.multiply r) ∧
      unit.multiply p = p ∧ p.multiply unit = p := by
  refine ⟨fun p q hp hq hagree => ?_, fun p q r hp hq hr hpq hpr hqr => ?_⟩
  · obtain ⟨card, hshaped⟩ := exists_shaped [p, q] (by simp [hp, hq]) (by simp [hagree])
    have hps : p.Shaped card p.scope := hshaped p (by simp)
    have hqs : q.Shaped card q.scope := hshaped q (by simp)
    have hpq := hps.multiply hqs
    have hspreads := hagree.spreads hp hq
    refine ⟨?_, ?_, formed_multiply p q, fun v => ?_, fun v => ?_, hps.valueAt?_multiply hqs⟩
    · rw [multiplyByAxes?_eq hp hq, if_pos hspreads]
    · rw [multiply?, multiplies, hspreads, Bool.true_and]
    · rw [hpq.scope, Scope.mem_union]
    · rw [hpq.cardinality?_eq, hps.cardinality?_eq, hqs.cardinality?_eq]
      by_cases hv : v ∈ p.scope <;> simp [Scope.mem_union, hv]
  · obtain ⟨card, hshaped⟩ := exists_shaped [p, q, r] (by simp [hp, hq, hr]) (by simp [hpq, hpr, hqr])
    have hps : p.Shaped card p.scope := hshaped p (by simp)
    have hqs : q.Shaped card q.scope := hshaped q (by simp)
    have hrs : r.Shaped card r.scope := hshaped r (by simp)
    have hunit := hps.unit_multiply one_mul
    exact ⟨hps.multiply_comm hqs mul_comm, hps.multiply_assoc hqs hrs mul_assoc, hunit,
      (hps.multiply_comm shaped_unit mul_comm).trans hunit⟩

/-- The axis of the second factor belongs between those of the first. -/
theorem multiply_pointwise_of_interleaved :
    let p : Potential ℝ := ofFn [(0, 2), (2, 3)] fun x => x 0 + 10 * x 2
    let q : Potential ℝ := ofFn [(1, 2)] fun x => x 1 + 1
    let r : Potential ℝ := ofFn [(0, 2), (1, 2)] fun x => x 0 - x 1
    (p.Formed ∧ q.Formed ∧ r.Formed) ∧ (p.Agrees q ∧ p.Agrees r ∧ q.Agrees r) ∧
    (p.multiply q).scope = [0, 1, 2] ∧ (p.multiply q).valueAt? [1, 1, 2] = some 42 ∧
    (p.multiply q).multiply r = p.multiply (q.multiply r) := by
  intro p q r
  let card (v : Nat) := if v = 2 then 3 else 2
  have hp : p.Shaped card [0, 2] := ⟨rfl, rfl, by simp [Scope.Increasing]⟩
  have hq : q.Shaped card [1] := ⟨rfl, rfl, by simp [Scope.Increasing]⟩
  have hr : r.Shaped card [0, 1] := ⟨rfl, rfl, by simp [Scope.Increasing]⟩
  obtain ⟨hproduct, hlaws⟩ := @multiply_pointwise ℝ _
  obtain ⟨-, -, -, -, -, hvalue⟩ := hproduct p q hp.formed hq.formed (hp.agrees hq)
  obtain ⟨-, hassoc, -, -⟩ := hlaws p q r hp.formed hq.formed hr.formed (hp.agrees hq)
    (hp.agrees hr) (hq.agrees hr)
  let x (v : Nat) := if v = 2 then 2 else 1
  have hpx : p.valueAt? [1, 2] = some 21 := by
    have h0 : assign [0, 2] [1, 2] 0 = 1 := rfl
    have h2 : assign [0, 2] [1, 2] 2 = 2 := rfl
    rw [valueAt?, Table.get?_eq_some rfl]
    norm_num [p, ofFn, Table.entry_ofFn, Table.fits, h0, h2]
  have hqx : q.valueAt? [1] = some 2 := by
    rw [valueAt?, Table.get?_eq_some rfl]
    norm_num [q, ofFn, Table.entry_ofFn, Table.fits, assign]
  refine ⟨⟨hp.formed, hq.formed, hr.formed⟩, ⟨hp.agrees hq, hp.agrees hr, hq.agrees hr⟩, rfl,
    (hvalue x).trans ?_, hassoc⟩
  change (p.valueAt? [1, 2]).bind (fun a => (q.valueAt? [1]).map fun b => a * b) = some 42
  rw [hpx, hqx]
  norm_num

end Bayes.Potential
