import Bayes.Proofs.Potential.Index
import Bayes.Proofs.Scope
/-!
Potentials over any numbers. A potential is described by the variables of its scope, in increasing
order, and one cardinality for every variable; the value of every operation is told at assignments
whose states exist. Two potentials of the same form that agree there are equal.
-/
namespace Bayes

variable {α : Type} {card : Nat → Nat} {s t : List Nat} {x : Nat → Nat}

theorem Scope.filter_ne_of_not_mem {v : Nat} (hv : v ∉ s) : s.filter (· != v) = s :=
  List.filter_eq_self.2 fun w hw => by simpa using fun e : w = v => hv (e ▸ hw)

theorem within_union : Within card (Scope.union s t) x ↔ Within card s x ∧ Within card t x := by
  simp only [Within, Scope.mem_union, or_imp, forall_and]

namespace Potential

/-- A table over the variables of a list, which have the given cardinalities. -/
structure Shaped (card : Nat → Nat) (s : List Nat) (p : Potential α) : Prop where
  scope : p.scope = s
  shape : p.table.shape = s.map card
  increasing : Scope.Increasing s

variable {p q : Potential α}

theorem Shaped.axes_eq (h : p.Shaped card s) : p.axes = s.map fun v => (v, card v) := by
  rw [axes, cardinalities, h.shape, h.scope, zip_map_self]

theorem Shaped.cardinality?_eq (h : p.Shaped card s) (v : Nat) :
    p.cardinality? v = if v ∈ s then some (card v) else none := by
  rw [cardinality?, h.axes_eq, lookup_map_pair]

theorem Shaped.contains_iff (h : p.Shaped card s) (v : Nat) : p.contains v = true ↔ v ∈ s := by
  simp [contains, h.scope]

theorem Shaped.without_eq (h : p.Shaped card s) (v : Nat) :
    p.without v = (s.filter (· != v)).map fun w => (w, card w) := by
  rw [without, h.axes_eq, List.filter_map]
  rfl

theorem Shaped.jointAxes_eq (hp : p.Shaped card s) (hq : q.Shaped card t) :
    p.jointAxes q = (Scope.union s t).map fun v => (v, card v) := by
  rw [jointAxes, hp.scope, hq.scope]
  refine List.map_congr_left fun v hv => ?_
  rw [Scope.mem_union] at hv
  rw [hp.cardinality?_eq, hq.cardinality?_eq]
  by_cases hs : v ∈ s
  · simp [hs]
  · simp [hs, hv.resolve_left hs]

/-! Forms -/

theorem shaped_ofFn (hs : Scope.Increasing s) (f : (Nat → Nat) → α) :
    (ofFn (s.map fun v => (v, card v)) f).Shaped card s where
  scope := by simp [ofFn, Function.comp_def]
  shape := by simp [ofFn, Table.ofFn, Function.comp_def]
  increasing := hs

theorem forall_mem_ofFn {axes : List (Nat × Nat)} {f : (Nat → Nat) → α} {P : α → Prop}
    (h : ∀ x, P (f x)) : ∀ e ∈ (ofFn axes f).table.toList, P e := by
  intro e he
  obtain ⟨i, _, rfl⟩ : ∃ i ∈ Table.indices (axes.map (·.2)), f (assign (axes.map (·.1)) i) = e := by
    simpa [ofFn, Table.ofFn, Table.toList] using he
  exact h _

theorem Shaped.map (h : p.Shaped card s) (f : α → α) :
    ({ p with table := p.table.map f } : Potential α).Shaped card s :=
  ⟨h.scope, h.shape, h.increasing⟩

theorem constant_eq (hs : Scope.Increasing s) (c : α) :
    constant (s.map fun v => (v, card v)) c = ofFn (s.map fun v => (v, card v)) fun _ => c := by
  have hf : firstAxes (s.map fun v => (v, card v)) = s.map fun v => (v, card v) := by
    have hk : (s.map fun v => (v, card v)).map (·.1) = s := by simp [Function.comp_def]
    rw [firstAxes, hk, hs.ofList_eq]
    refine List.map_congr_left fun v hv => ?_
    rw [lookup_map_pair, if_pos hv]
    rfl
  rw [constant, hf]

theorem Shaped.valueAt?_eq_none (h : p.Shaped card s) (hx : ¬ Within card s x) :
    p.valueAt? (s.map x) = none := by
  rw [valueAt?, Table.get?, h.shape, if_neg (mt fits_map.1 hx)]

variable [Scalar α]

theorem Shaped.multiply (hp : p.Shaped card s) (hq : q.Shaped card t) :
    (p.multiply q).Shaped card (Scope.union s t) := by
  rw [Potential.multiply, hp.jointAxes_eq hq]
  exact shaped_ofFn (Scope.increasing_union s t) _

theorem Shaped.divide (h : p.Shaped card s) (q : Potential α) : (p.divide q).Shaped card s := by
  rw [Potential.divide, h.axes_eq]
  exact shaped_ofFn h.increasing _

theorem Shaped.eliminate (h : p.Shaped card s) (v : Nat) (how : Reduction) :
    (p.eliminate v how).Shaped card (s.filter (· != v)) := by
  rw [Potential.eliminate, h.cardinality?_eq]
  by_cases hv : v ∈ s
  · simp only [hv, if_true, h.without_eq]
    exact shaped_ofFn (h.increasing.filter _) _
  · simp only [hv, if_false, Scope.filter_ne_of_not_mem hv]
    exact h

theorem Shaped.condition (h : p.Shaped card s) (v state : Nat) :
    (p.condition v state).Shaped card s := by
  rw [Potential.condition]
  split
  · rw [h.axes_eq]
    exact shaped_ofFn h.increasing _
  · exact h

theorem Shaped.slice (h : p.Shaped card s) (v state : Nat) :
    (p.slice v state).Shaped card (s.filter (· != v)) := by
  rw [Potential.slice]
  split
  · rw [h.without_eq]
    exact shaped_ofFn (h.increasing.filter _) _
  · next hc =>
    rw [Scope.filter_ne_of_not_mem (mt (h.contains_iff v).2 hc)]
    exact h

theorem shaped_unit : (unit : Potential α).Shaped card [] := shaped_ofFn (s := []) .nil _

theorem shaped_indicator (v state : Nat) :
    (indicator v (card v) state : Potential α).Shaped card [v] :=
  shaped_ofFn (s := [v]) (List.pairwise_singleton _ v) _

theorem ofTable_eq {scope : List Nat} {table : Table α} (ht : table.shape = scope.map card) :
    ofTable scope table =
      ofFn ((Scope.ofList scope).map fun v => (v, card v)) fun x => table.entry (scope.map x) := by
  rw [ofTable, ht]
  refine congrArg (ofFn · _) (List.map_congr_left fun v hv => ?_)
  rw [zip_map_self, lookup_map_pair, if_pos (Scope.mem_ofList.1 hv)]
  rfl

theorem shaped_ofTable {scope : List Nat} {table : Table α} (ht : table.shape = scope.map card) :
    (ofTable scope table).Shaped card (Scope.ofList scope) := by
  rw [ofTable_eq ht]
  exact shaped_ofFn (Scope.increasing_ofList scope) _

/-! Values -/

theorem Shaped.value_eq (h : p.Shaped card s) (hx : Within card s x) :
    p.value x = p.table.entry (s.map x) := by
  rw [value, h.axes_eq, List.map_map]
  refine congrArg p.table.entry (List.map_congr_left fun v hv => ?_)
  have hv := hx v hv
  by_cases h1 : card v = 1
  · have h0 : x v = 0 := by omega
    simp [h1, h0]
  · simp [h1]

theorem Shaped.value_mem (h : p.Shaped card s) (hx : Within card s x) :
    p.value x ∈ p.table.toList := by
  rw [h.value_eq hx, Table.toList_eq_map_entry]
  exact List.mem_map_of_mem (Table.mem_indices.2 (hx.fits h.shape))

theorem Shaped.valueAt?_eq (h : p.Shaped card s) (hx : Within card s x) :
    p.valueAt? (s.map x) = some (p.value x) := by
  rw [valueAt?, h.value_eq hx]
  exact Table.get?_eq_some (hx.fits h.shape)

theorem Shaped.dependsOn (h : p.Shaped card s) : DependsOn p.value {v | v ∈ s} := by
  intro x y hxy
  rw [value, value, h.axes_eq, List.map_map, List.map_map]
  refine congrArg p.table.entry (List.map_congr_left fun v hv => ?_)
  simp [hxy v hv]

theorem value_ofFn {f : (Nat → Nat) → α} (hs : Scope.Increasing s) (hx : Within card s x)
    (hf : DependsOn f {v | v ∈ s}) : (ofFn (s.map fun v => (v, card v)) f).value x = f x := by
  have hk : (s.map fun v => (v, card v)).map (·.1) = s := by simp [Function.comp_def]
  have hc : (s.map fun v => (v, card v)).map (·.2) = s.map card := by simp [Function.comp_def]
  rw [(shaped_ofFn hs f).value_eq hx, ofFn, hk, hc, Table.entry_ofFn _ (fits_map.2 hx)]
  refine hf fun v (hv : v ∈ s) => ?_
  rw [assign_map, if_pos hv]

theorem Shaped.value_multiply (hp : p.Shaped card s) (hq : q.Shaped card t)
    (hx : Within card (Scope.union s t) x) : (p.multiply q).value x = p.value x * q.value x := by
  rw [Potential.multiply, hp.jointAxes_eq hq]
  refine value_ofFn (f := fun x => p.value x * q.value x) (Scope.increasing_union s t) hx ?_
  intro y z hyz
  have hs : p.value y = p.value z := hp.dependsOn fun v hv => hyz v (Scope.mem_union.2 (Or.inl hv))
  have ht : q.value y = q.value z := hq.dependsOn fun v hv => hyz v (Scope.mem_union.2 (Or.inr hv))
  simp only [hs, ht]

theorem Shaped.dependsOn_override (h : p.Shaped card s) (v i : Nat) :
    DependsOn (fun x => p.value (override x v i)) {w | w ∈ s.filter (· != v)} := by
  intro y z hyz
  refine h.dependsOn fun w hw => ?_
  by_cases hwv : w = v
  · rw [hwv, override_same, override_same]
  · rw [override_ne _ _ hwv, override_ne _ _ hwv]
    exact hyz w (List.mem_filter.2 ⟨hw, by simpa using hwv⟩)

theorem Shaped.value_eliminate {v : Nat} {how : Reduction} (h : p.Shaped card s) (hv : v ∈ s)
    (hx : Within card (s.filter (· != v)) x) :
    (p.eliminate v how).value x = how.over card [v] p.value x := by
  rw [Reduction.over_singleton, Potential.eliminate, h.cardinality?_eq, if_pos hv]
  simp only [h.without_eq]
  refine value_ofFn (f := fun x => how.apply ((List.range (card v)).map fun i =>
    p.value (override x v i))) (h.increasing.filter _) hx fun y z hyz => ?_
  exact congrArg how.apply (List.map_congr_left fun i _ => h.dependsOn_override v i hyz)

theorem Shaped.value_condition {v state : Nat} (h : p.Shaped card s) (hv : v ∈ s)
    (hx : Within card s x) : (p.condition v state).value x = if x v = state then p.value x else 0 := by
  rw [Potential.condition, if_pos ((h.contains_iff v).2 hv), h.axes_eq]
  refine value_ofFn (f := fun x => if x v = state then p.value x else 0) h.increasing hx ?_
  intro y z hyz
  have hp : p.value y = p.value z := h.dependsOn hyz
  simp only [hp, hyz v hv]

theorem Shaped.value_slice {v state : Nat} (h : p.Shaped card s) (hv : v ∈ s)
    (hx : Within card (s.filter (· != v)) x) :
    (p.slice v state).value x = p.value (override x v state) := by
  rw [Potential.slice, if_pos ((h.contains_iff v).2 hv), h.without_eq]
  exact value_ofFn (f := fun x => p.value (override x v state)) (h.increasing.filter _) hx
    (h.dependsOn_override v state)

theorem value_unit (x : Nat → Nat) : (unit : Potential α).value x = 1 :=
  have hx : Within (fun _ => 0) [] x := fun _ h => absurd h List.not_mem_nil
  value_ofFn .nil hx fun _ _ _ => rfl

theorem value_indicator {v state : Nat} (hx : x v < card v) :
    (indicator v (card v) state : Potential α).value x = if x v = state then 1 else 0 := by
  have hx : Within card [v] x := by simpa [Within] using hx
  refine value_ofFn (f := fun x => if x v = state then 1 else 0) (List.pairwise_singleton _ v) hx ?_
  intro y z hyz
  simp only [hyz v (List.mem_singleton_self v)]

theorem value_ofTable {scope : List Nat} {table : Table α} (ht : table.shape = scope.map card)
    (hx : Within card scope x) : (ofTable scope table).value x = table.entry (scope.map x) := by
  rw [ofTable_eq ht]
  refine value_ofFn (f := fun x => table.entry (scope.map x)) (Scope.increasing_ofList scope)
    (hx.mono fun v => Scope.mem_ofList.1) ?_
  intro y z hyz
  exact congrArg table.entry (List.map_congr_left fun v hv => hyz v (Scope.mem_ofList.2 hv))

/-- Every index is that of an assignment, so values at assignments are all there is. -/
theorem Shaped.ext (hp : p.Shaped card s) (hq : q.Shaped card s)
    (h : ∀ x, Within card s x → p.value x = q.value x) : p = q := by
  have hshape : p.table.shape = q.table.shape := hp.shape.trans hq.shape.symm
  have hentry : ∀ index ∈ Table.indices p.table.shape, p.table.entry index = q.table.entry index := by
    intro index hindex
    have hfits : Table.fits (s.map card) index = true := by
      rw [← hp.shape]
      exact Table.mem_indices.1 hindex
    obtain ⟨hx, heq⟩ := within_assign hp.increasing.nodup hfits
    rw [← heq, ← hp.value_eq hx, ← hq.value_eq hx]
    exact h _ hx
  have htable : p.table = q.table := by
    refine Table.eq_of_toList hshape ?_
    rw [Table.toList_eq_map_entry, Table.toList_eq_map_entry, ← hshape]
    exact List.map_congr_left hentry
  obtain ⟨pscope, ptable⟩ := p
  obtain ⟨qscope, qtable⟩ := q
  congr 1
  exact hp.scope.trans hq.scope.symm

end Potential
end Bayes
