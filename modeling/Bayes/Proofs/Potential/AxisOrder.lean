import Bayes.Proofs.Network.InPlace
import Bayes.Proofs.Potential.Form
import Bayes.Proofs.Table.Axes
/-!
Potentials do not tell in which order the axes of a table came. The axes are sorted by their variables,
and the table has its axes moved accordingly; an assignment finds the entry that stands at its states
in the order that was given, also when the axes were moved before.
-/
namespace Bayes

def pick (axes scope : List Nat) : List Nat := axes.map fun axis => scope.getD axis 0

variable {α : Type} [Scalar α] {card : Nat → Nat} {axes scope : List Nat} {table : Table α}
  {x : Nat → Nat}

theorem pick_map (f : Nat → Nat) (haxes : ∀ axis ∈ axes, axis < scope.length) :
    pick axes (scope.map f) = (pick axes scope).map f := by
  rw [pick, pick, List.map_map]
  refine List.map_congr_left fun axis haxis => ?_
  simp [haxes axis haxis]

theorem perm_pick (haxes : axes.Perm (List.range scope.length)) : (pick axes scope).Perm scope := by
  have h := haxes.map (scope.getD · 0)
  rwa [Table.map_getD_range] at h

theorem lt_of_perm_range (haxes : axes.Perm (List.range scope.length)) :
    ∀ axis ∈ axes, axis < scope.length := fun _ haxis =>
  List.mem_range.1 (haxes.mem_iff.1 haxis)

/-! Tables with their axes moved -/

theorem Table.shape_permuteAxes (ht : table.shape = scope.map card)
    (haxes : axes.Perm (List.range scope.length)) :
    (table.permuteAxes axes).shape = (pick axes scope).map card := by
  rw [← pick_map card (lt_of_perm_range haxes), ← ht]
  rfl

theorem Table.entry_permuteAxes_map (ht : table.shape = scope.map card)
    (haxes : axes.Perm (List.range scope.length)) (hx : Within card scope x) :
    (table.permuteAxes axes).entry ((pick axes scope).map x) = table.entry (scope.map x) := by
  rw [← pick_map x (lt_of_perm_range haxes)]
  exact Table.entry_permuteAxes (by rwa [ht, List.length_map]) (hx.fits ht)

namespace Potential

def axisOrder (scope : List Nat) : List Nat :=
  (List.range scope.length).mergeSort fun a b => scope.getD a 0 ≤ scope.getD b 0

def sortAxes (scope : List Nat) (table : Table α) : Potential α where
  scope := pick (axisOrder scope) scope
  table := table.permuteAxes (axisOrder scope)

theorem perm_axisOrder (scope : List Nat) : (axisOrder scope).Perm (List.range scope.length) :=
  List.mergeSort_perm _ _

theorem increasing_pick_axisOrder (h : scope.Nodup) :
    Scope.Increasing (pick (axisOrder scope) scope) := by
  have hsorted : (pick (axisOrder scope) scope).Pairwise (· ≤ ·) := by
    rw [pick, List.pairwise_map]
    refine List.Pairwise.imp of_decide_eq_true (List.pairwise_mergeSort ?_ ?_ _)
    · intro a b c hab hbc
      simp only [decide_eq_true_eq] at *
      omega
    · intro a b
      simp only [Bool.or_eq_true, decide_eq_true_eq]
      omega
  have hnodup : (pick (axisOrder scope) scope).Nodup :=
    (perm_pick (perm_axisOrder scope)).nodup_iff.2 h
  exact (hsorted.and hnodup).imp fun {v w} hvw => Nat.lt_of_le_of_ne hvw.1 hvw.2

/-- Nothing but the entries at assignments is kept of a table. -/
theorem ofTable_congr {scope' : List Nat} {table' : Table α} (ht : table.shape = scope.map card)
    (ht' : table'.shape = scope'.map card) (hscope : ∀ v, v ∈ scope ↔ v ∈ scope')
    (hentry : ∀ x, Within card scope x → table'.entry (scope'.map x) = table.entry (scope.map x)) :
    ofTable scope' table' = ofTable scope table := by
  have hshaped' : (ofTable scope' table').Shaped card (Scope.ofList scope) := by
    rw [Scope.ofList_congr hscope]
    exact shaped_ofTable ht'
  refine hshaped'.ext (shaped_ofTable ht) fun x hx => ?_
  have hx : Within card scope x := hx.mono fun v => Scope.mem_ofList.2
  rw [value_ofTable ht' (hx.mono fun v => (hscope v).2), value_ofTable ht hx, hentry x hx]

theorem ofTable_permuteAxes (ht : table.shape = scope.map card)
    (haxes : axes.Perm (List.range scope.length)) :
    ofTable (pick axes scope) (table.permuteAxes axes) = ofTable scope table :=
  ofTable_congr ht (Table.shape_permuteAxes ht haxes) (fun _ => (perm_pick haxes).mem_iff.symm)
    fun _ => Table.entry_permuteAxes_map ht haxes

theorem sortAxes_eq (hscope : scope.Nodup) (ht : table.shape = scope.map card) :
    sortAxes scope table = ofTable scope table := by
  have haxes := perm_axisOrder scope
  have hincreasing := increasing_pick_axisOrder hscope
  have hshape := Table.shape_permuteAxes ht haxes
  have hshaped : (sortAxes scope table).Shaped card (pick (axisOrder scope) scope) :=
    ⟨rfl, hshape, hincreasing⟩
  have hsame : (ofTable (pick (axisOrder scope) scope) (table.permuteAxes (axisOrder scope))).Shaped
      card (pick (axisOrder scope) scope) := by
    have h := shaped_ofTable hshape
    rwa [hincreasing.ofList_eq] at h
  rw [← ofTable_permuteAxes ht haxes]
  refine hshaped.ext hsame fun x hx => ?_
  rw [value_ofTable hshape hx, hshaped.value_eq hx]
  rfl

theorem value?_ofTable (ht : table.shape = scope.map card) (m : VarMap Nat) :
    (ofTable scope table).value? m = (scope.mapM m.get?).bind table.get? := by
  have hp := shaped_ofTable ht
  rw [value?, hp.scope]
  by_cases hm : ∀ v ∈ scope, ∃ i, m.get? v = some i
  · let x (v : Nat) := (m.get? v).getD 0
    have hx : ∀ v ∈ scope, m.get? v = some (x v) := by
      intro v hv
      obtain ⟨i, hi⟩ := hm v hv
      simp [x, hi]
    rw [mapM_eq_some scope hx, mapM_eq_some (Scope.ofList scope) fun v hv =>
      hx v (Scope.mem_ofList.1 hv), Option.bind_some, Option.bind_some]
    by_cases hwithin : Within card scope x
    · have hall : Within card (Scope.ofList scope) x := hwithin.mono fun v => Scope.mem_ofList.1
      rw [Table.get?_eq_some (hwithin.fits ht), ← value_ofTable ht hwithin]
      exact hp.valueAt?_eq hall
    · have hnot : ¬ Within card (Scope.ofList scope) x :=
        fun h => hwithin (h.mono fun v => Scope.mem_ofList.2)
      have hnone : table.get? (scope.map x) = none := by
        rw [Table.get?, ht, if_neg (mt fits_map.1 hwithin)]
      rw [hnone]
      exact hp.valueAt?_eq_none hnot
  · push Not at hm
    obtain ⟨v, hv, hnone⟩ := hm
    have hnone : m.get? v = none := Option.eq_none_iff_forall_ne_some.2 hnone
    rw [mapM_eq_none ⟨v, hv, hnone⟩, mapM_eq_none ⟨v, Scope.mem_ofList.2 hv, hnone⟩, Option.bind_none,
      Option.bind_none]

/-! Tables that are refused -/

theorem ofTable?_eq (scope : List Nat) (table : Table α) : ofTable? scope table =
    if table.shape.length ≠ scope.length ∨ ¬ scope.Nodup then .error (.scopeMismatch scope table.shape)
    else .ok (ofTable scope table) := by
  rw [ofTable?]
  refine if_congr ?_ rfl rfl
  simp [Scope.length_ofList_eq_iff]

theorem ofTable?_eq_ok (hlength : table.shape.length = scope.length) (hscope : scope.Nodup) :
    ofTable? scope table = .ok (ofTable scope table) := by
  rw [ofTable?_eq, if_neg]
  simp [hlength, hscope]

end Potential

/-- The factor of a variable finds the entries of the conditional table, the states of the parents
first and in the order in which they became parents. -/
theorem Network.Coherent.factorOf_eq {n : Network α} (h : n.Coherent) {v : Nat} (hv : v < n.size) :
    ∃ p, n.factorOf v = .ok p ∧ p.Formed ∧
      ∀ m, p.value? m = ((n.parents v ++ [v]).mapM m.get?).bind (n.table v).get? := by
  have hshape : (n.table v).shape = (n.parents v ++ [v]).map n.cardinality := by
    rw [(h.fills v hv).shape_eq, Network.tableShape_eq hv]
  obtain ⟨node, hnode, -⟩ := Network.node?_of_lt hv
  refine ⟨n.factor v, ?_, ?_, fun m => ?_⟩
  · rw [Network.factorOf, Network.lookup, hnode]
    rfl
  · rw [Network.factor_eq hv]
    exact Potential.formed_ofTable _ _
  · rw [Network.factor_eq hv]
    exact Potential.value?_ofTable hshape m

namespace Potential

/-- A potential is the same for every order in which the axes of its table come; a table is refused
just when it has not one axis for every variable; and every potential has the same form. -/
theorem axes_in_any_order (scope : List Nat) (table : Table α) (n : Network α) (hn : n.Reached) :
    (∀ e, ofTable? scope table = .error e ↔ e = .scopeMismatch scope table.shape ∧
      (table.shape.length ≠ scope.length ∨ ¬ scope.Nodup)) ∧
    (table.shape.length = scope.length → scope.Nodup →
      ofTable? scope table = .ok (sortAxes scope table) ∧
      (∀ axes, axes.Perm (List.range scope.length) →
        ofTable? (pick axes scope) (table.permuteAxes axes) = .ok (sortAxes scope table)) ∧
      ∀ m, (sortAxes scope table).value? m = (scope.mapM m.get?).bind table.get?) ∧
    (∀ v < n.size, ∃ p, n.factorOf v = .ok p ∧ p.Formed ∧
      ∀ m, p.value? m = ((n.parents v ++ [v]).mapM m.get?).bind (n.table v).get?) ∧
    ∀ p : Potential α, p.Made → p.Formed := by
  refine ⟨fun e => ?_, fun hlength hscope => ?_, fun v => hn.coherent.factorOf_eq,
    fun p => Made.formed⟩
  · rw [ofTable?_eq]
    split
    · next h => rw [Except.error.injEq, and_iff_left h, eq_comm]
    · next h => simp [h]
  · have ht : table.shape = scope.map (assign scope table.shape) :=
      (map_assign hscope hlength).symm
    rw [sortAxes_eq hscope ht]
    refine ⟨ofTable?_eq_ok hlength hscope, fun axes haxes => ?_, value?_ofTable ht⟩
    have hpicked := (perm_pick haxes).nodup_iff.2 hscope
    rw [ofTable?_eq_ok (by simp [Table.shape_permuteAxes ht haxes]) hpicked,
      ofTable_permuteAxes ht haxes]

/-- Three axes of different lengths, given with the last variable first. -/
theorem axes_in_any_order_of_three :
    let table : Table ℝ := Table.ofFn [2, 3, 4] fun index => (Table.offset [2, 3, 4] index : ℝ)
    Network.wetGrass.Reached ∧ [2, 0, 1].Nodup ∧ [1, 2, 0].Perm (List.range 3) ∧
    ∃ p, ofTable? [2, 0, 1] table = .ok p ∧ ofTable? [0, 1, 2] (table.permuteAxes [1, 2, 0]) = .ok p ∧
      p.value? (VarMap.ofList [(0, 2), (1, 1), (2, 1)]) = some 21 ∧
      ∃ q, Network.wetGrass.factorOf 1 = .ok q ∧ q.Formed := by
  intro table
  have hperm : [1, 2, 0].Perm (List.range 3) := by decide
  obtain ⟨-, hsorted, hfactor, -⟩ :=
    axes_in_any_order [2, 0, 1] table Network.wetGrass Network.reached_wetGrass
  obtain ⟨hok, hmoved, hvalue⟩ := hsorted rfl (by decide)
  obtain ⟨q, hq, hformed, -⟩ := hfactor 1 Nat.one_lt_two
  refine ⟨Network.reached_wetGrass, by decide, hperm, sortAxes [2, 0, 1] table, hok,
    hmoved [1, 2, 0] hperm, ?_, q, hq, hformed⟩
  rw [hvalue]
  change table.get? [1, 2, 1] = some 21
  rw [Table.get?_eq_some rfl, Table.entry_ofFn _ rfl]
  norm_num [Table.offset, Table.size]

end Potential
end Bayes
