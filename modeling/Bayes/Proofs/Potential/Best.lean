import Bayes.Proofs.Potential.Mass
import Bayes.Proofs.VarMap
/-!
The best entry of a table, and tables in which some variables have their states already.
-/
namespace Bayes

variable {card : Nat → Nat} {s : List Nat} {x : Nat → Nat}

/-- The states that a map gives, and the first state of the variables that it leaves out. -/
def VarMap.states (m : VarMap Nat) (v : Nat) : Nat := (m.get? v).getD 0

def VarMap.onto (m : VarMap Nat) (l : List Nat) (x : Nat → Nat) (v : Nat) : Nat :=
  if v ∈ l then m.states v else x v

theorem Reduction.le_max_over {f : (Nat → Nat) → ℝ} {vs : List Nat} {y : Nat → Nat}
    (hy : y ∈ assignments card vs x) : f y ≤ Reduction.max.over card vs f x := by
  have hmem : f y ∈ (assignments card vs x).map f := List.mem_map_of_mem hy
  exact (Scalar.isGreatest_maximum (List.ne_nil_of_mem hmem)).2 hmem

theorem Reduction.max_over_eq {f : (Nat → Nat) → ℝ} {vs : List Nat} (hx : Within card vs x)
    (hmax : ∀ y ∈ assignments card vs x, f y ≤ f x) : Reduction.max.over card vs f x = f x := by
  refine Scalar.maximum_eq_of_isGreatest ⟨?_, fun r hr => ?_⟩
  · exact List.mem_map_of_mem (mem_assignments.2 ⟨hx, fun _ _ => rfl⟩)
  · obtain ⟨y, hy, rfl⟩ := List.mem_map.1 hr
    exact hmax y hy

theorem Reduction.max_over_of_dependsOn {f : (Nat → Nat) → ℝ} {vs : List Nat} {y : Nat → Nat}
    (hf : DependsOn f {v | v ∈ vs}) (hy : Within card vs y)
    (hmax : ∀ z, Within card vs z → f z ≤ f y) : Reduction.max.over card vs f x = f y := by
  let y' := fun v => if v ∈ vs then y v else x v
  have hy' : f y' = f y := hf fun v hv => by
    have hv : v ∈ vs := hv
    simp [y', hv]
  have hmem : y' ∈ assignments card vs x :=
    mem_assignments.2 ⟨fun v hv => by simpa [y', hv] using hy v hv, fun v hv => by simp [y', hv]⟩
  refine Scalar.maximum_eq_of_isGreatest ⟨?_, fun r hr => ?_⟩
  · rw [← hy']
    exact List.mem_map_of_mem hmem
  · obtain ⟨z, hz, rfl⟩ := List.mem_map.1 hr
    exact hmax z (mem_assignments.1 hz).1

namespace Potential

variable {p q : Potential ℝ}

theorem better_some (b e : List Nat × ℝ) : better (some b) e = if b.2 < e.2 then some e else some b := by
  have habove : Scalar.aboveBottom e.2 = true := rfl
  simp only [better, habove, if_true, Scalar.lt_iff]

theorem foldl_better (l : List (List Nat × ℝ)) : ∀ b : List Nat × ℝ,
    ∃ e ∈ b :: l, l.foldl better (some b) = some e ∧ ∀ e' ∈ b :: l, e'.2 ≤ e.2 := by
  induction l with
  | nil =>
    intro b
    exact ⟨b, List.mem_cons_self, rfl, by simp⟩
  | cons a l ih =>
    intro b
    rw [List.foldl_cons, better_some]
    by_cases h : b.2 < a.2
    · rw [if_pos h]
      obtain ⟨e, he, hfold, hmax⟩ := ih a
      refine ⟨e, List.mem_cons_of_mem _ he, hfold, List.forall_mem_cons.2 ⟨?_, hmax⟩⟩
      exact h.le.trans (hmax a List.mem_cons_self)
    · rw [if_neg h]
      obtain ⟨e, he, hfold, hmax⟩ := ih b
      obtain ⟨hb, hl⟩ := List.forall_mem_cons.1 hmax
      refine ⟨e, by grind, hfold, List.forall_mem_cons.2 ⟨hb, List.forall_mem_cons.2 ⟨?_, hl⟩⟩⟩
      exact (not_lt.1 h).trans hb

/-- The best entry is that of an assignment, and no other one has a larger value. -/
theorem argmax_spec (h : p.Shaped card s) (hpos : ∀ v ∈ s, 0 < card v) :
    ∃ y, Within card s y ∧ p.argmax = (s.map y, p.value y) ∧
      ∀ z, Within card s z → p.value z ≤ p.value y := by
  have hzip : (Table.indices p.cardinalities).zip p.table.toList =
      (assignments card s fun _ => 0).map fun y => (s.map y, p.value y) := by
    rw [cardinalities, h.shape, ← map_assignments h.increasing.nodup fun _ => 0,
      h.toList_eq fun _ => 0, List.zip_map']
  cases hl : assignments card s fun _ => 0 with
  | nil =>
    obtain ⟨v, hv, h0⟩ := assignments_eq_nil.1 hl
    exact absurd h0 (hpos v hv).ne'
  | cons b l =>
    obtain ⟨e, he, hfold, hmax⟩ := foldl_better (l.map fun y => (s.map y, p.value y))
      (s.map b, p.value b)
    rw [← List.map_cons (f := fun y => (s.map y, p.value y)), ← hl] at he hmax
    obtain ⟨y, hy, rfl⟩ := List.mem_map.1 he
    have hfirst (e : List Nat × ℝ) : better none e = some e := rfl
    refine ⟨y, (mem_assignments.1 hy).1, ?_, fun z hz => ?_⟩
    · rw [argmax, hzip, hl, List.map_cons, List.foldl_cons, hfirst, hfold]
      rfl
    · -- only the states of the scope matter
      let z' := fun v => if v ∈ s then z v else 0
      have hz' : z' ∈ assignments card s fun _ => 0 :=
        mem_assignments.2 ⟨fun v hv => by simpa [z', hv] using hz v hv, fun v hv => by simp [z', hv]⟩
      have heq : p.value z = p.value z' := h.dependsOn fun v hv => by
        have hv : v ∈ s := hv
        simp [z', hv]
      rw [heq]
      exact hmax _ (List.mem_map_of_mem hz')

/-! Variables whose states are known -/

def sliceAll {α : Type} [Scalar α] (chosen : VarMap Nat) (l : List Nat) (q : Potential α) :
    Potential α :=
  l.foldl (fun q v =>
    match chosen.get? v with
    | none => q
    | some s => q.slice v s) q

theorem sliceAll_spec {chosen : VarMap Nat} (l : List Nat) (hnodup : l.Nodup)
    (hchosen : ∀ v ∈ l, ∃ i, chosen.get? v = some i ∧ i < card v) :
    ∀ (q : Potential ℝ) (s : List Nat), q.Shaped card s → (∀ v ∈ l, v ∈ s) →
      (sliceAll chosen l q).Shaped card (s.filter fun v => !l.contains v) ∧
      ∀ x, Within card (s.filter fun v => !l.contains v) x →
        (sliceAll chosen l q).value x = q.value (chosen.onto l x) := by
  induction l with
  | nil =>
    intro q s hq _
    have hall : (s.filter fun v => !([] : List Nat).contains v) = s := by simp
    rw [hall]
    exact ⟨hq, fun x _ => congrArg q.value (funext fun v => by simp [VarMap.onto])⟩
  | cons v l ih =>
    intro q s hq hin
    obtain ⟨hv, hl⟩ := List.forall_mem_cons.1 hin
    obtain ⟨⟨i, hi, hlt⟩, hchosen⟩ := List.forall_mem_cons.1 hchosen
    obtain ⟨hvl, hnodup⟩ := List.nodup_cons.1 hnodup
    have hstep : sliceAll chosen (v :: l) q = sliceAll chosen l (q.slice v i) := by
      simp only [sliceAll, List.foldl_cons, hi]
    have hrest : ((s.filter (· != v)).filter fun w => !l.contains w) =
        s.filter fun w => !(v :: l).contains w := by
      rw [List.filter_filter]
      refine List.filter_congr fun w _ => ?_
      by_cases hwv : w = v <;> simp [hwv]
    obtain ⟨hshaped, hvalue⟩ := ih hnodup hchosen (q.slice v i) (s.filter (· != v))
      (hq.slice v i) fun w hw => List.mem_filter.2 ⟨hl w hw, by
        have hwv : w ≠ v := fun h => hvl (h ▸ hw)
        simpa using hwv⟩
    rw [hrest] at hshaped hvalue
    rw [hstep]
    refine ⟨hshaped, fun x hx => ?_⟩
    have hwithin : Within card (s.filter (· != v)) (chosen.onto l x) := by
      intro w hw
      obtain ⟨hws, hwv⟩ := List.mem_filter.1 hw
      have hwv : w ≠ v := by simpa using hwv
      by_cases hwl : w ∈ l
      · obtain ⟨j, hj, hjlt⟩ := hchosen w hwl
        simpa [VarMap.onto, VarMap.states, hwl, hj] using hjlt
      · simpa [VarMap.onto, hwl] using hx w (by simp [hws, hwv, hwl])
    rw [hvalue x hx, hq.value_slice hv hwithin]
    refine congrArg q.value (funext fun w => ?_)
    by_cases hwv : w = v
    · simp [hwv, VarMap.onto, VarMap.states, hi]
    · rw [override_ne _ _ hwv]
      simp [VarMap.onto, hwv]

end Potential

theorem VarMap.get?_foldl_insertIfNew {β : Type} (f : Nat → β) (l : List Nat) (w : Nat) :
    ∀ m : VarMap β, ((l.map fun v => (v, f v)).foldl (fun m e => m.insertIfNew e.1 e.2) m).get? w =
      if w ∈ l then some ((m.get? w).getD (f w)) else m.get? w := by
  induction l with
  | nil =>
    intro m
    rfl
  | cons v l ih =>
    intro m
    rw [List.map_cons, List.foldl_cons, ih, VarMap.get?_insertIfNew]
    by_cases hwv : w = v
    · subst hwv
      by_cases hwl : w ∈ l <;> simp [hwl]
    · simp [hwv]

end Bayes
