import Bayes.Proofs.Potential.Shaped
/-!
The form that every potential has: a strictly increasing scope, and one axis for every variable of it.
Whatever is made by the operations has this form, so the cardinality of a variable is told by one axis,
and potentials that agree about the variables they share have one cardinality for every variable.
-/
namespace Bayes.Potential

variable {α : Type} {p q : Potential α} {card : Nat → Nat} {s t : List Nat}

structure Formed (p : Potential α) : Prop where
  increasing : Scope.Increasing p.scope
  length : p.table.shape.length = p.scope.length

def Agrees (p q : Potential α) : Prop :=
  ∀ v ∈ p.scope, v ∈ q.scope → p.cardinality? v = q.cardinality? v

/-- How long the axis of a variable is: a variable without an axis might as well have a single state. -/
def width (p : Potential α) (v : Nat) : Nat := (p.cardinality? v).getD 1

theorem Shaped.formed (h : p.Shaped card s) : p.Formed :=
  ⟨h.scope ▸ h.increasing, by rw [h.shape, h.scope, List.length_map]⟩

theorem Formed.shaped (h : p.Formed) : p.Shaped p.width p.scope := by
  refine ⟨rfl, ?_, h.increasing⟩
  have hwidth : ∀ v ∈ p.scope, p.width v = assign p.scope p.table.shape v := by
    intro v hv
    rw [width, cardinality?, axes, cardinalities, lookup_zip h.length hv, Option.getD_some]
  rw [List.map_congr_left hwidth, map_assign h.increasing.nodup h.length]

theorem Shaped.width_eq (h : p.Shaped card s) {v : Nat} (hv : v ∈ s) : p.width v = card v := by
  rw [width, h.cardinality?_eq, if_pos hv, Option.getD_some]

theorem Formed.width_of_not_mem (h : p.Formed) {v : Nat} (hv : v ∉ p.scope) : p.width v = 1 := by
  rw [width, h.shaped.cardinality?_eq, if_neg hv, Option.getD_none]

theorem Formed.shaped_of (h : p.Formed) (hcard : ∀ v ∈ p.scope, p.cardinality? v = some (card v)) :
    p.Shaped card p.scope := by
  refine ⟨rfl, h.shaped.shape.trans (List.map_congr_left fun v hv => ?_), h.increasing⟩
  rw [width, hcard v hv, Option.getD_some]

instance : Std.Symm (@Agrees α) := ⟨fun _ _ h v hq hp => (h v hp hq).symm⟩

theorem Shaped.agrees (hp : p.Shaped card s) (hq : q.Shaped card t) : p.Agrees q := by
  intro v hps hqt
  rw [hp.scope] at hps
  rw [hq.scope] at hqt
  rw [hp.cardinality?_eq, hq.cardinality?_eq, if_pos hps, if_pos hqt]

def jointWidth (p q : Potential α) (v : Nat) : Nat :=
  ((p.cardinality? v).or (q.cardinality? v)).getD 1

theorem Formed.jointWidth_left (hp : p.Formed) {v : Nat} (hv : v ∈ p.scope) :
    p.jointWidth q v = p.width v := by
  rw [jointWidth, hp.shaped.cardinality?_eq, if_pos hv, Option.some_or, Option.getD_some]

theorem Formed.jointWidth_right (hp : p.Formed) {v : Nat} (hv : v ∉ p.scope) :
    p.jointWidth q v = q.width v := by
  rw [jointWidth, hp.shaped.cardinality?_eq, if_neg hv, Option.none_or, width]

/-- One cardinality for every variable of all potentials, when any two agree. -/
theorem exists_shaped (ps : List (Potential α)) (hformed : ∀ p ∈ ps, p.Formed)
    (hagree : ps.Pairwise Agrees) : ∃ card : Nat → Nat, ∀ p ∈ ps, p.Shaped card p.scope := by
  have hall : ∀ p ∈ ps, ∀ q ∈ ps, p.Agrees q := fun p hp q hq =>
    List.Pairwise.forall_of_forall (fun _ _ _ _ _ => rfl) hagree hp hq
  refine ⟨fun v => (ps.findSome? (·.cardinality? v)).getD 0, fun p hp => ?_⟩
  refine (hformed p hp).shaped_of fun v hv => ?_
  have hpv : p.cardinality? v = some (p.width v) := by
    rw [(hformed p hp).shaped.cardinality?_eq, if_pos hv]
  have hsome : (ps.findSome? (·.cardinality? v)).isSome = true :=
    List.findSome?_isSome_iff.2 ⟨p, hp, by rw [hpv, Option.isSome_some]⟩
  obtain ⟨k, hk⟩ := Option.isSome_iff_exists.1 hsome
  obtain ⟨q, hq, hqv⟩ := List.exists_of_findSome?_eq_some hk
  have hmem : v ∈ q.scope := by
    by_contra hnot
    rw [(hformed q hq).shaped.cardinality?_eq, if_neg hnot] at hqv
    cases hqv
  rw [hk, Option.getD_some, hall p hp q hq v hv hmem, hqv]

theorem formed_ofFn {axes : List (Nat × Nat)} (h : Scope.Increasing (axes.map (·.1)))
    (f : (Nat → Nat) → α) : (ofFn axes f).Formed :=
  ⟨h, by simp [ofFn, Table.ofFn]⟩

theorem formed_constant (axes : List (Nat × Nat)) (value : α) : (constant axes value).Formed := by
  refine formed_ofFn ?_ _
  rw [firstAxes, List.map_map, Function.comp_def, List.map_id']
  exact Scope.increasing_ofList _

variable [Scalar α]

theorem formed_unit : (unit : Potential α).Formed := by
  have hnil : Scope.Increasing (([] : List (Nat × Nat)).map (·.1)) := .nil
  exact formed_ofFn hnil _

theorem formed_indicator (v cardinality state : Nat) :
    (indicator v cardinality state : Potential α).Formed := by
  have hsingle : Scope.Increasing ([(v, cardinality)].map (·.1)) := List.pairwise_singleton _ v
  exact formed_ofFn hsingle _

theorem formed_multiply (p q : Potential α) : (p.multiply q).Formed := by
  refine formed_ofFn ?_ _
  rw [jointAxes, List.map_map, Function.comp_def, List.map_id']
  exact Scope.increasing_union _ _

theorem formed_ofTable (scope : List Nat) (table : Table α) : (ofTable scope table).Formed := by
  refine formed_ofFn ?_ _
  rw [List.map_map, Function.comp_def, List.map_id']
  exact Scope.increasing_ofList _

theorem onto_induction {keep : List Nat} {how : Reduction} {P : Potential α → Prop} (hp : P p)
    (hstep : ∀ q v, P q → P (q.eliminate v how)) : P (p.onto keep how) := by
  rw [onto]
  refine List.foldlRecOn _ _ hp fun q hq v _ => ?_
  split
  · exact hq
  · exact hstep q v hq

/-- Potentials that the operations make, one from another. -/
inductive Made : Potential α → Prop
  | new {scope : List Nat} {table : Table α} {p : Potential α} (h : ofTable? scope table = .ok p) :
    Made p
  | unit : Made unit
  | constant (axes : List (Nat × Nat)) (value : α) : Made (constant axes value)
  | indicator (v cardinality state : Nat) : Made (indicator v cardinality state)
  | multiply {p q : Potential α} (hp : Made p) (hq : Made q) : Made (p.multiply q)
  | divide {p q : Potential α} (hp : Made p) (hq : Made q) : Made (p.divide q)
  | eliminate {p : Potential α} (hp : Made p) (v : Nat) (how : Reduction) : Made (p.eliminate v how)
  | onto {p : Potential α} (hp : Made p) (keep : List Nat) (how : Reduction) : Made (p.onto keep how)
  | condition {p : Potential α} (hp : Made p) (v state : Nat) : Made (p.condition v state)
  | slice {p : Potential α} (hp : Made p) (v state : Nat) : Made (p.slice v state)
  | normalize {p q : Potential α} {total : α} (hp : Made p) (h : p.normalize = .ok (total, q)) :
    Made q

theorem Made.formed (h : p.Made) : p.Formed := by
  induction h with
  | @new scope table p h =>
    rw [ofTable?] at h
    split at h
    · cases h
    · cases h
      exact formed_ofTable scope table
  | unit => exact formed_unit
  | constant axes value => exact formed_constant axes value
  | indicator v cardinality state => exact formed_indicator v cardinality state
  | multiply hp hq ihp ihq => exact formed_multiply _ _
  | divide hp hq ihp ihq => exact (ihp.shaped.divide _).formed
  | eliminate hp v how ih => exact (ih.shaped.eliminate v how).formed
  | onto hp keep how ih =>
    exact onto_induction ih fun q v hq => (hq.shaped.eliminate v how).formed
  | condition hp v state ih => exact (ih.shaped.condition v state).formed
  | slice hp v state ih => exact (ih.shaped.slice v state).formed
  | @normalize p q total hp h ih =>
    simp only [Potential.normalize] at h
    split at h
    · cases h
      exact (ih.shaped.map _).formed
    · cases h

end Bayes.Potential
