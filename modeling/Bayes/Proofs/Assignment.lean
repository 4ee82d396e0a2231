import Mathlib.Logic.Function.DependsOn
import Bayes.Proofs.Exact
/-!
Assignments of states to variables, and the reduction of a function over all states of some variables:
its sum or its maximum while the other variables keep their states. The main laws are those of
elimination: the order does not matter, some variables may be eliminated before others, and a factor
that does not look at the eliminated variables stays outside.
-/
namespace Bayes

/-- Every way to give the variables of a list states; the other variables stay as they are. -/
def assignments (card : Nat → Nat) : List Nat → (Nat → Nat) → List (Nat → Nat)
  | [], x => [x]
  | v :: vs, x => (List.range (card v)).flatMap fun s => assignments card vs (override x v s)

/-- The variables of a list are in states that they have. -/
def Within (card : Nat → Nat) (vs : List Nat) (x : Nat → Nat) : Prop := ∀ v ∈ vs, x v < card v

/-- The reduction of a function over all states of some variables. -/
def Reduction.over {α : Type} [Scalar α] (how : Reduction) (card : Nat → Nat) (vs : List Nat)
    (f : (Nat → Nat) → α) (x : Nat → Nat) : α :=
  how.apply ((assignments card vs x).map f)

@[simp] theorem override_same (x : Nat → Nat) (v s : Nat) : override x v s v = s := by
  simp [override]

theorem override_ne (x : Nat → Nat) {v w : Nat} (s : Nat) (h : w ≠ v) : override x v s w = x w := by
  simp [override, h]

theorem override_comm (x : Nat → Nat) {v w : Nat} (h : v ≠ w) (i j : Nat) :
    override (override x v i) w j = override (override x w j) v i := by
  funext u
  by_cases huw : u = w
  · rw [huw, override_same, override_ne _ _ h.symm, override_same]
  · by_cases huv : u = v
    · rw [huv, override_same, override_ne _ _ h, override_same]
    · rw [override_ne _ _ huw, override_ne _ _ huv, override_ne _ _ huv, override_ne _ _ huw]

variable {card : Nat → Nat} {vs ws : List Nat} {x y : Nat → Nat}

theorem Within.mono (h : Within card vs x) (hs : ∀ v ∈ ws, v ∈ vs) : Within card ws x :=
  fun v hv => h v (hs v hv)

theorem map_override {v : Nat} (hv : v ∉ vs) (x : Nat → Nat) (i : Nat) :
    vs.map (override x v i) = vs.map x :=
  List.map_congr_left fun _ hw => override_ne x i fun e => hv (e ▸ hw)

theorem within_override {v i : Nat} (hx : Within card (vs.filter (· != v)) x) (hi : i < card v) :
    Within card vs (override x v i) := by
  intro w hw
  by_cases hwv : w = v
  · rw [hwv, override_same]
    exact hi
  · rw [override_ne x i hwv]
    exact hx w (List.mem_filter.2 ⟨hw, by simpa using hwv⟩)

theorem mem_assignments :
    y ∈ assignments card vs x ↔ Within card vs y ∧ ∀ v, v ∉ vs → y v = x v := by
  induction vs generalizing x with
  | nil => simp [assignments, Within, funext_iff]
  | cons v vs ih =>
    simp only [assignments, List.mem_flatMap, List.mem_range, ih]
    constructor
    · rintro ⟨s, hs, hin, hout⟩
      refine ⟨fun w hw => ?_, fun w hw => ?_⟩
      · by_cases hv : w ∈ vs
        · exact hin w hv
        · obtain rfl : w = v := by simpa [hv] using hw
          rw [hout w hv, override_same]
          exact hs
      · simp only [List.mem_cons, not_or] at hw
        rw [hout w hw.2, override_ne _ _ hw.1]
    · rintro ⟨hin, hout⟩
      refine ⟨y v, hin v List.mem_cons_self, hin.mono fun w => List.mem_cons_of_mem v, ?_⟩
      intro w hw
      by_cases hwv : w = v
      · rw [hwv, override_same]
      · rw [override_ne _ _ hwv]
        exact hout w (by simp [hw, hwv])

theorem Within.of_mem (hx : Within card ws x) (hy : y ∈ assignments card vs x) : Within card ws y := by
  obtain ⟨hin, hout⟩ := mem_assignments.1 hy
  intro v hv
  by_cases hvs : v ∈ vs
  · exact hin v hvs
  · exact hout v hvs ▸ hx v hv

theorem nodup_assignments (h : vs.Nodup) : (assignments card vs x).Nodup := by
  induction vs generalizing x with
  | nil => exact List.nodup_singleton x
  | cons v vs ih =>
    obtain ⟨hv, hvs⟩ := List.nodup_cons.1 h
    refine List.nodup_flatMap.2 ⟨fun s _ => ih hvs, ?_⟩
    refine List.nodup_range.imp fun {s t} hst y hs ht => hst ?_
    -- the state of the first variable tells two parts of the enumeration apart
    have es := (mem_assignments.1 hs).2 v hv
    have et := (mem_assignments.1 ht).2 v hv
    rw [override_same] at es et
    rw [← es, ← et]

theorem assignments_append :
    assignments card (vs ++ ws) x = (assignments card vs x).flatMap (assignments card ws) := by
  induction vs generalizing x with
  | nil => simp [assignments]
  | cons v vs ih => simp [assignments, ih, List.flatMap_assoc]

theorem assignments_singleton (v : Nat) :
    assignments card [v] x = (List.range (card v)).map (override x v) := by
  simp only [assignments, List.map_eq_flatMap]

theorem assignments_perm (hv : vs.Nodup) (hw : ws.Nodup) (h : ∀ v, v ∈ vs ↔ v ∈ ws) :
    (assignments card vs x).Perm (assignments card ws x) := by
  refine (List.perm_ext_iff_of_nodup (nodup_assignments hv) (nodup_assignments hw)).2 fun y => ?_
  simp only [mem_assignments, Within, h]

theorem assignments_eq_nil : assignments card vs x = [] ↔ ∃ v ∈ vs, card v = 0 := by
  induction vs generalizing x with
  | nil => simp [assignments]
  | cons v vs ih =>
    simp only [assignments, List.flatMap_eq_nil_iff, List.mem_range, ih]
    constructor
    · intro h
      by_cases hv : card v = 0
      · exact ⟨v, List.mem_cons_self, hv⟩
      · obtain ⟨w, hw, h0⟩ := h 0 (Nat.pos_of_ne_zero hv)
        exact ⟨w, List.mem_cons_of_mem v hw, h0⟩
    · rintro ⟨w, hw, h0⟩ s hs
      obtain rfl | hw := List.mem_cons.1 hw
      · omega
      · exact ⟨w, hw, h0⟩

namespace Reduction

section
variable {α : Type} [Scalar α] {how : Reduction} {f g : (Nat → Nat) → α}

theorem over_congr (h : ∀ y ∈ assignments card vs x, f y = g y) :
    how.over card vs f x = how.over card vs g x := by
  rw [Reduction.over, Reduction.over, List.map_congr_left h]

theorem over_singleton (v : Nat) : how.over card [v] f x =
    how.apply ((List.range (card v)).map fun i => f (override x v i)) := by
  rw [Reduction.over, assignments_singleton, List.map_map]
  rfl

theorem over_of_card_zero (h : ∃ v ∈ vs, card v = 0) : how.over card vs f x = how.apply [] := by
  rw [Reduction.over, assignments_eq_nil.2 h, List.map_nil]

variable [Exact α]

theorem over_nil : how.over card [] f x = f x := Exact.apply_singleton how (f x)

theorem over_append : how.over card (vs ++ ws) f x = how.over card vs (how.over card ws f) x := by
  by_cases h : ∃ v ∈ ws, card v = 0
  · have hz : how.over card ws f = fun _ => how.apply [] := funext fun y => over_of_card_zero h
    rw [hz, over_of_card_zero (by grind), Reduction.over, Exact.apply_nils]
  · rw [Reduction.over, assignments_append, List.map_flatMap]
    refine Exact.apply_flatMap how _ _ fun y _ hy => h ?_
    exact assignments_eq_nil.1 (List.map_eq_nil_iff.1 hy)

theorem over_cons (v : Nat) : how.over card (v :: vs) f x =
    how.apply ((List.range (card v)).map fun s => how.over card vs f (override x v s)) := by
  have h : how.over card ([v] ++ vs) f x = how.over card [v] (how.over card vs f) x := over_append
  rwa [over_singleton] at h

theorem over_eq (hv : vs.Nodup) (hw : ws.Nodup) (h : ∀ v, v ∈ vs ↔ v ∈ ws) :
    how.over card vs f x = how.over card ws f x :=
  Exact.apply_perm how ((assignments_perm hv hw h).map f)

theorem over_filter (hv : vs.Nodup) (p : Nat → Bool) :
    how.over card (vs.filter p) (how.over card (vs.filter fun v => !p v) f) x =
      how.over card vs f x := by
  have hperm := List.filter_append_perm p vs
  rw [← over_append]
  exact over_eq (hperm.nodup_iff.2 hv) hv fun v => hperm.mem_iff

theorem dependsOn_over {s : Set Nat} (hf : DependsOn f s) :
    DependsOn (how.over card vs f) (s \ {v | v ∈ vs}) := by
  induction vs with
  | nil =>
    intro x y h
    rw [over_nil, over_nil]
    exact hf fun v hv => h v ⟨hv, List.not_mem_nil⟩
  | cons v vs ih =>
    intro x y h
    rw [over_cons, over_cons]
    refine congrArg how.apply (List.map_congr_left fun i _ => ih fun w hw => ?_)
    by_cases hwv : w = v
    · rw [hwv, override_same, override_same]
    · rw [override_ne _ _ hwv, override_ne _ _ hwv]
      exact h w ⟨hw.1, by simpa [hwv] using hw.2⟩

end

variable {how : Reduction} {f g : (Nat → Nat) → ℝ}

theorem over_nonneg (h : ∀ y, 0 ≤ f y) : 0 ≤ how.over card vs f x := by
  refine apply_nonneg how fun r hr => ?_
  obtain ⟨y, _, rfl⟩ := List.mem_map.1 hr
  exact h y

theorem over_mul_left (h0 : 0 ≤ g x) (hg : ∀ y ∈ assignments card vs x, g y = g x) :
    how.over card vs (fun y => g y * f y) x = g x * how.over card vs f x := by
  rw [over_congr (g := fun y => g x * f y) fun y hy => by rw [hg y hy]]
  simpa [Reduction.over, Function.comp_def] using apply_mul_left how h0 ((assignments card vs x).map f)

theorem over_const_mul {c : ℝ} (hc : 0 ≤ c) :
    how.over card vs (fun y => c * f y) x = c * how.over card vs f x :=
  over_mul_left (g := fun _ => c) hc fun _ _ => rfl

end Reduction
end Bayes
