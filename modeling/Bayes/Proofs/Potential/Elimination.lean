import Bayes.Proofs.Potential.Form
import Bayes.Proofs.Table.Axes
/-!
Eliminations one after the other. Whatever the order, what is left is the table reduced over the states
of all variables that were eliminated; so keeping some variables does not depend on the order either,
and may be done in two steps. Eliminating a variable is also told by the place of its axis.
-/
namespace Bayes

variable {α : Type} [Scalar α] {card : Nat → Nat} {s t : List Nat} {p q : Potential α} {x : Nat → Nat}
  {how : Reduction} {v : Nat}

namespace Potential

theorem Shaped.eliminate_of_not_mem (h : p.Shaped card s) (hv : v ∉ s) : p.eliminate v how = p := by
  rw [Potential.eliminate, h.cardinality?_eq, if_neg hv]

theorem onto_eq_foldl (p : Potential α) (keep : List Nat) (how : Reduction) : p.onto keep how =
    (p.scope.filter fun v => !keep.contains v).reverse.foldl (fun q v => q.eliminate v how) p := by
  have hstep : (fun (q : Potential α) (v : Nat) => if keep.contains v then q else q.eliminate v how) =
      fun q v => if !keep.contains v then q.eliminate v how else q := by
    funext q v
    cases keep.contains v <;> rfl
  rw [onto, hstep, ← List.foldl_filter, List.filter_reverse]

section
variable [Exact α]

/-- What is left, and its values, after some variables were eliminated in the order of a list. -/
theorem Shaped.foldl_eliminate (h : p.Shaped card s) (how : Reduction) {order : List Nat}
    (hnodup : order.Nodup) (hsub : ∀ v ∈ order, v ∈ s) :
    (order.foldl (fun q v => q.eliminate v how) p).Shaped card (s.filter fun v => !order.contains v) ∧
      ∀ x, Within card (s.filter fun v => !order.contains v) x →
        (order.foldl (fun q v => q.eliminate v how) p).value x = how.over card order p.value x := by
  induction order generalizing p s with
  | nil =>
    have hall : (s.filter fun v => !([] : List Nat).contains v) = s := by simp
    rw [hall]
    exact ⟨h, fun x _ => Reduction.over_nil.symm⟩
  | cons v order ih =>
    obtain ⟨hv, hrest⟩ := List.nodup_cons.1 hnodup
    obtain ⟨hvs, hsub⟩ := List.forall_mem_cons.1 hsub
    have hsplit : (s.filter fun w => !(v :: order).contains w) =
        (s.filter (· != v)).filter fun w => !order.contains w := by
      rw [List.filter_filter]
      refine List.filter_congr fun w _ => ?_
      by_cases hwv : w = v <;> simp [hwv]
    obtain ⟨hshaped, hvalue⟩ := ih (h.eliminate v how) hrest fun w hw =>
      List.mem_filter.2 ⟨hsub w hw, by simpa using fun e : w = v => hv (e ▸ hw)⟩
    rw [List.foldl_cons, hsplit]
    refine ⟨hshaped, fun x hx => ?_⟩
    have hfirst : ∀ y ∈ assignments card order x,
        (p.eliminate v how).value y = how.over card [v] p.value y := by
      intro y hy
      obtain ⟨hin, hout⟩ := mem_assignments.1 hy
      refine h.value_eliminate hvs fun w hw => ?_
      by_cases hwo : w ∈ order
      · exact hin w hwo
      · rw [hout w hwo]
        exact hx w (List.mem_filter.2 ⟨hw, by simpa using hwo⟩)
    calc (order.foldl (fun q v => q.eliminate v how) (p.eliminate v how)).value x
        = how.over card order (p.eliminate v how).value x := hvalue x hx
      _ = how.over card order (how.over card [v] p.value) x := Reduction.over_congr hfirst
      _ = how.over card (order ++ [v]) p.value x := Reduction.over_append.symm
      _ = how.over card (v :: order) p.value x :=
        Reduction.over_eq (List.nodup_append_comm.1 hnodup) hnodup (by simp [or_comm])

theorem Shaped.foldl_eliminate_perm (h : p.Shaped card s) {order other : List Nat}
    (hnodup : order.Nodup) (hsub : ∀ v ∈ order, v ∈ s) (hperm : order.Perm other) :
    order.foldl (fun q v => q.eliminate v how) p =
      other.foldl (fun q v => q.eliminate v how) p := by
  have hsame : (s.filter fun v => !other.contains v) = s.filter fun v => !order.contains v := by
    simp only [List.contains_eq_mem, hperm.mem_iff]
  obtain ⟨hleft, hlvalue⟩ := h.foldl_eliminate how hnodup hsub
  obtain ⟨hright, hrvalue⟩ := h.foldl_eliminate how (hperm.nodup_iff.1 hnodup)
    fun v hv => hsub v (hperm.mem_iff.2 hv)
  rw [hsame] at hright hrvalue
  refine hleft.ext hright fun x hx => ?_
  rw [hlvalue x hx, hrvalue x hx]
  exact Reduction.over_eq hnodup (hperm.nodup_iff.1 hnodup) fun _ => hperm.mem_iff

/-! Keeping some variables -/

theorem Shaped.onto_eq (h : p.Shaped card s) {keep order : List Nat}
    (horder : order.Perm (s.filter fun v => !keep.contains v)) :
    p.onto keep how = order.foldl (fun q v => q.eliminate v how) p := by
  have hnodup : order.Nodup := horder.nodup_iff.2 (h.increasing.nodup.filter _)
  rw [onto_eq_foldl, h.scope]
  refine (h.foldl_eliminate_perm hnodup (fun v hv => ?_) ?_).symm
  · exact (List.mem_filter.1 (horder.mem_iff.1 hv)).1
  · exact horder.trans (List.reverse_perm _).symm

theorem Shaped.onto_spec (h : p.Shaped card s) (keep : List Nat) (how : Reduction) :
    (p.onto keep how).Shaped card (s.filter keep.contains) ∧
      ∀ x, Within card (s.filter keep.contains) x → (p.onto keep how).value x =
        how.over card (s.filter fun v => !keep.contains v) p.value x := by
  have hrest : (s.filter fun v => !(s.filter fun v => !keep.contains v).contains v) =
      s.filter keep.contains := by
    refine List.filter_congr fun v hv => ?_
    simp [hv]
  have hfold := h.foldl_eliminate how (h.increasing.nodup.filter fun v => !keep.contains v)
    fun v hv => (List.mem_filter.1 hv).1
  rw [hrest] at hfold
  rw [h.onto_eq (List.Perm.refl _)]
  exact hfold

theorem Shaped.onto_onto (h : p.Shaped card s) {keep fewer : List Nat} (hfewer : ∀ v ∈ fewer, v ∈ keep) :
    (p.onto keep how).onto fewer how = p.onto fewer how := by
  have hfirst : (s.filter fun v => !fewer.contains v).filter (fun v => !keep.contains v) =
      s.filter fun v => !keep.contains v := by
    rw [List.filter_filter]
    refine List.filter_congr fun v _ => ?_
    have hv := hfewer v
    by_cases hvf : v ∈ fewer <;> simp_all
  have hsecond : (s.filter fun v => !fewer.contains v).filter (fun v => !!keep.contains v) =
      (s.filter keep.contains).filter fun v => !fewer.contains v := by
    simp only [List.filter_filter, Bool.not_not, Bool.and_comm]
  have hperm := List.filter_append_perm (fun v => !keep.contains v)
    (s.filter fun v => !fewer.contains v)
  rw [hfirst, hsecond] at hperm
  rw [h.onto_eq hperm, List.foldl_append, ← h.onto_eq (List.Perm.refl _),
    (h.onto_spec keep how).1.onto_eq (List.Perm.refl _)]

end

/-- A factor that does not have the variable may be left out of its elimination, when the reduction lets
its entries out. -/
theorem Shaped.eliminate_multiply (hp : p.Shaped card s) (hq : q.Shaped card t) (hv : v ∉ s)
    (hout : v ∈ t → ∀ x, Within card s x → Within card (t.filter (· != v)) x →
      how.apply ((List.range (card v)).map fun i => p.value x * q.value (override x v i)) =
        p.value x * how.apply ((List.range (card v)).map fun i => q.value (override x v i))) :
    (p.multiply q).eliminate v how = p.multiply (q.eliminate v how) := by
  have hpq := hp.multiply hq
  by_cases hvt : v ∈ t
  · have hrest : (Scope.union s t).filter (· != v) = Scope.union s (t.filter (· != v)) := by
      refine ((Scope.increasing_union s t).filter _).ext (Scope.increasing_union _ _) fun w => ?_
      simp only [List.mem_filter, Scope.mem_union]
      have hws : w ∈ s → w ≠ v := fun hw e => hv (e ▸ hw)
      simp only [bne_iff_ne]
      tauto
    have hleft := hpq.eliminate v how
    have hright := hp.multiply (hq.eliminate v how)
    rw [hrest] at hleft
    refine hleft.ext hright fun x hx => ?_
    obtain ⟨hxs, hxt⟩ := within_union.1 hx
    have hxu : Within card ((Scope.union s t).filter (· != v)) x := hrest ▸ hx
    have hvalue : ∀ i ∈ List.range (card v),
        (p.multiply q).value (override x v i) = p.value x * q.value (override x v i) := by
      intro i hi
      have hps : p.value (override x v i) = p.value x :=
        hp.dependsOn fun w hw => override_ne x i fun e => hv (e ▸ hw)
      rw [hp.value_multiply hq (within_override hxu (List.mem_range.1 hi)), hps]
    rw [hpq.value_eliminate (Scope.mem_union.2 (Or.inr hvt)) hxu, Reduction.over_singleton,
      List.map_congr_left hvalue, hout hvt x hxs hxt, hp.value_multiply (hq.eliminate v how) hx,
      hq.value_eliminate hvt hxt, Reduction.over_singleton]
  · have hvu : v ∉ Scope.union s t := fun h => (Scope.mem_union.1 h).elim hv hvt
    rw [hpq.eliminate_of_not_mem hvu, hq.eliminate_of_not_mem hvt]

end Potential

/-! Eliminating by the place of the axis -/

def Reduction.fold : Reduction → List α → α
  | sum, xs => xs.foldl (· + ·) 0
  | max, xs => xs.foldl Scalar.larger Scalar.bottom

namespace Potential

def eliminateByAxis (p : Potential α) (v : Nat) (how : Reduction) : Potential α :=
  if p.contains v then
    let axis := p.scope.idxOf v
    ⟨p.scope.eraseIdx axis, p.table.reduceAxis how.fold axis⟩
  else p

def ontoByAxes (p : Potential α) (keep : List Nat) (how : Reduction) : Potential α :=
  p.scope.reverse.foldl (fun q v => if keep.contains v then q else q.eliminateByAxis v how) p

theorem Shaped.reduceAxis_spec (h : p.Shaped card s) (hv : v ∈ s) (apply : List α → α)
    (hq : q = ⟨p.scope.eraseIdx (p.scope.idxOf v), p.table.reduceAxis apply (p.scope.idxOf v)⟩) :
    q.Shaped card (s.filter (· != v)) ∧ ∀ x, Within card (s.filter (· != v)) x →
      q.value x = apply ((List.range (card v)).map fun i => p.value (override x v i)) := by
  obtain ⟨front, back, hs, hfront⟩ := List.eq_append_cons_of_mem hv
  have haxis : p.scope.idxOf v = front.length := by
    rw [h.scope, hs, List.idxOf_append_of_notMem hfront]
    simp
  have hback : v ∉ back :=
    (List.nodup_cons.1 (List.nodup_append.1 (hs ▸ h.increasing.nodup)).2.1).1
  have hrest : s.filter (· != v) = front ++ back := by
    rw [hs, List.filter_append, List.filter_cons_of_neg (by simp),
      Scope.filter_ne_of_not_mem hfront, Scope.filter_ne_of_not_mem hback]
  have hshape : p.table.shape = front.map card ++ card v :: back.map card := by
    rw [h.shape, hs, List.map_append, List.map_cons]
  have hlength : p.scope.idxOf v = (front.map card).length := by simp [haxis]
  have hnew : q.Shaped card (s.filter (· != v)) := by
    rw [hq, hrest]
    refine ⟨?_, ?_, hrest ▸ h.increasing.filter _⟩
    · simp only [h.scope, hs]
      exact Table.eraseIdx_middle front back v (by rw [← hs, ← h.scope, haxis])
    · rw [Table.shape_reduceAxis hshape hlength, List.map_append]
  refine ⟨hnew, fun x hx => ?_⟩
  have hfits := fits_map.2 (hrest ▸ hx)
  rw [List.map_append, List.map_append] at hfits
  have hentry (i : Nat) (hi : i ∈ List.range (card v)) :
      p.table.entry (front.map x ++ i :: back.map x) = p.value (override x v i) := by
    rw [h.value_eq (within_override hx (List.mem_range.1 hi)), hs, List.map_append, List.map_cons,
      map_override hfront, map_override hback, override_same]
  rw [hnew.value_eq hx, hrest, hq, List.map_append,
    Table.entry_reduceAxis hshape hlength hfits (by simp), List.map_congr_left hentry]

theorem Shaped.eliminateByAxis_eq (h : p.Shaped card s) (hfold : ∀ xs : List α, how.fold xs = how.apply xs)
    (v : Nat) : p.eliminateByAxis v how = p.eliminate v how := by
  by_cases hv : v ∈ s
  · rw [eliminateByAxis, if_pos ((h.contains_iff v).2 hv)]
    obtain ⟨hnew, hvalue⟩ := h.reduceAxis_spec hv how.fold rfl
    refine hnew.ext (h.eliminate v how) fun x hx => ?_
    rw [hvalue x hx, hfold, h.value_eliminate hv hx, Reduction.over_singleton]
  · rw [eliminateByAxis, if_neg (mt (h.contains_iff v).1 hv), h.eliminate_of_not_mem hv]

theorem Shaped.ontoByAxes_eq (h : p.Shaped card s) (hfold : ∀ xs : List α, how.fold xs = how.apply xs)
    (keep : List Nat) : p.ontoByAxes keep how = p.onto keep how := by
  have hloop (l : List Nat) : ∀ (q : Potential α) (t : List Nat), q.Shaped card t →
      l.foldl (fun q v => if keep.contains v then q else q.eliminateByAxis v how) q =
        l.foldl (fun q v => if keep.contains v then q else q.eliminate v how) q := by
    induction l with
    | nil => exact fun q t _ => rfl
    | cons v l ih =>
      intro q t hq
      rw [List.foldl_cons, List.foldl_cons]
      by_cases hv : keep.contains v = true
      · rw [if_pos hv, if_pos hv]
        exact ih q t hq
      · rw [if_neg hv, if_neg hv, hq.eliminateByAxis_eq hfold v]
        exact ih _ _ (hq.eliminate v how)
  exact hloop p.scope.reverse p s h

end Potential
end Bayes
