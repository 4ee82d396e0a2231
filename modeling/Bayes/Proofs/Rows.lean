import Bayes.Proofs.Joint
/-!
What one variable puts into the joint, summed over its states while its parents keep theirs. Without a
finding this is the sum of a row of the conditional table; an observation leaves one entry of the row, and
an intervention leaves the number one. The last of some variables can be summed out of the product of all
their parts, so bounds for the rows are bounds for the sum over all states of all variables.
-/
namespace Bayes.Network

variable {n : Network ℝ} {found : Findings} {leftOut : Option Nat} {x y : Nat → Nat} {v state : Nat}
  {A : Finset Nat}

theorem entryAt_override (h : n.WellFormed) (x : Nat → Nat) (v i : Nat) :
    n.entryAt (override x v i) v = (n.table v).entry ((n.parents v).map x ++ [i]) := by
  have hself : v ∉ n.parents v := by
    have hnodup := h.nodup_family v
    rw [List.nodup_append] at hnodup
    exact fun hv => hnodup.2.2 v hv v (by simp) rfl
  have hparents : (n.parents v).map (override x v i) = (n.parents v).map x :=
    List.map_congr_left fun p hp => override_ne x i fun heq => hself (heq ▸ hp)
  rw [entryAt, List.map_append, List.map_singleton, override_same, hparents]

theorem entryAt_nonneg (h : n.WellFormed) (hv : v < n.size) (x : Nat → Nat) :
    0 ≤ n.entryAt x v := by
  obtain hmem | hzero := Table.entry_mem_or_zero (n.table v) ((n.parents v ++ [v]).map x)
  · exact h.nonneg v hv _ hmem
  · exact hzero.ge

theorem part_nonneg (h : n.WellFormed) (hv : v < n.size) (x : Nat → Nat) :
    0 ≤ n.part found none x v := by
  have hentry := entryAt_nonneg h hv x
  simp only [part, reduceCtorEq, if_false]
  cases found.get? v with
  | none => exact hentry
  | some f =>
    obtain ⟨kind, state⟩ := f
    cases kind with
    | observed => exact ite_nonneg hentry le_rfl
    | intervened => exact ite_nonneg zero_le_one le_rfl

theorem part_congr (hxy : ∀ w ∈ n.parents v ++ [v], x w = y w) :
    n.part found leftOut x v = n.part found leftOut y v := by
  have hself : x v = y v := hxy v (by simp)
  have hentry : n.entryAt x v = n.entryAt y v := by
    rw [entryAt, entryAt, List.map_congr_left hxy]
  simp only [part, hself, hentry]

/-! One variable over its states -/

noncomputable def rowSum (n : Network ℝ) (found : Findings) (x : Nat → Nat) (v : Nat) : ℝ :=
  Reduction.sum.over n.cardinality [v] (fun y => n.part found none y v) x

theorem rowSum_eq : n.rowSum found x v =
    ((List.range (n.cardinality v)).map fun i => n.part found none (override x v i) v).sum :=
  Reduction.over_singleton v

theorem entries_mem_rows (h : n.WellFormed) (hv : v < n.size)
    (hx : Within n.cardinality (n.parents v) x) :
    ((List.range (n.cardinality v)).map fun i => n.entryAt (override x v i) v) ∈ (n.table v).rows := by
  simp only [entryAt_override h]
  rw [Table.rows, h.shape v hv, List.map_append, List.map_singleton, List.dropLast_concat,
    List.getLast?_concat]
  exact List.mem_map.2 ⟨(n.parents v).map x, Table.mem_indices.2 (fits_map.2 hx), rfl⟩

theorem rowSum_of_free (hf : found.get? v = none) : n.rowSum found x v =
    ((List.range (n.cardinality v)).map fun i => n.entryAt (override x v i) v).sum := by
  simp only [rowSum_eq, part, reduceCtorEq, if_false, hf]

theorem rowSum_of_observed (hf : found.get? v = some ⟨.observed, state⟩)
    (hstate : state < n.cardinality v) :
    n.rowSum found x v = n.entryAt (override x v state) v := by
  simp only [rowSum_eq, part, reduceCtorEq, if_false, hf, override_same]
  exact (Reduction.sum_range_single hstate fun i hi => if_neg hi).trans (if_pos rfl)

theorem rowSum_of_intervened (hf : found.get? v = some ⟨.intervened, state⟩)
    (hstate : state < n.cardinality v) : n.rowSum found x v = 1 := by
  simp only [rowSum_eq, part, reduceCtorEq, if_false, hf, override_same]
  exact (Reduction.sum_range_single hstate fun i hi => if_neg hi).trans (if_pos rfl)

/-! All variables over their states -/

theorem over_last (h : n.WellFormed) (hA : ∀ u ∈ A, u < n.size) (hvA : v ∉ A)
    (hlast : ∀ u ∈ A, v ∉ n.parents u) (x : Nat → Nat) :
    Reduction.sum.overSet n.cardinality {v} (fun y => ∏ u ∈ insert v A, n.part found none y u) x =
      (∏ u ∈ A, n.part found none x u) * n.rowSum found x v := by
  have hothers : ∀ y ∈ assignments n.cardinality [v] x,
      ∏ u ∈ A, n.part found none y u = ∏ u ∈ A, n.part found none x u := by
    intro y hy
    refine Finset.prod_congr rfl fun u hu => part_congr fun w hw => ?_
    refine (mem_assignments.1 hy).2 w fun hwv => ?_
    obtain rfl := List.mem_singleton.1 hwv
    obtain hw | hw := List.mem_append.1 hw
    · exact hlast u hu hw
    · exact hvA (List.mem_singleton.1 hw ▸ hu)
  have hnonneg : 0 ≤ ∏ u ∈ A, n.part found none x u :=
    Finset.prod_nonneg fun u hu => part_nonneg h (hA u hu) x
  calc Reduction.sum.overSet n.cardinality {v} (fun y => ∏ u ∈ insert v A, n.part found none y u) x
      = Reduction.sum.over n.cardinality [v]
          (fun y => (∏ u ∈ A, n.part found none y u) * n.part found none y v) x := by
        simp only [Reduction.overSet, Finset.toList_singleton, Finset.prod_insert hvA, mul_comm]
    _ = (∏ u ∈ A, n.part found none x u) * n.rowSum found x v :=
        Reduction.over_mul_left hnonneg hothers

theorem over_insert (h : n.WellFormed) (hA : ∀ u ∈ A, u < n.size) (hvA : v ∉ A)
    (hlast : ∀ u ∈ A, v ∉ n.parents u) (x : Nat → Nat) :
    Reduction.sum.overSet n.cardinality (insert v A)
        (fun y => ∏ u ∈ insert v A, n.part found none y u) x =
      Reduction.sum.over n.cardinality A.toList
        (fun y => n.rowSum found y v * ∏ u ∈ A, n.part found none y u) x := by
  have hdisjoint : Disjoint A {v} := Finset.disjoint_singleton_right.2 hvA
  rw [Finset.insert_eq, Finset.union_comm, Reduction.overSet_union hdisjoint, Finset.union_comm,
    ← Finset.insert_eq]
  exact Reduction.over_congr fun y _ => (over_last h hA hvA hlast y).trans (mul_comm _ _)

/-- Bounds for every row bound the sum over all states of some variables, whatever the states of the
others are. A variable is summed out before all those that come earlier in an order of the edges. -/
theorem over_parts_mem (lo hi : Nat → ℝ) (h : n.WellFormed) (hranked : n.Ranked)
    (hlo : ∀ v < n.size, 0 ≤ lo v)
    (hrow : ∀ v < n.size, ∀ x, Within n.cardinality n.ids x →
      n.rowSum found x v ∈ Set.Icc (lo v) (hi v)) (A : Finset Nat) :
    (∀ v ∈ A, v < n.size) → ∀ x, Within n.cardinality n.ids x →
      Reduction.sum.overSet n.cardinality A (fun y => ∏ v ∈ A, n.part found none y v) x ∈
        Set.Icc (∏ v ∈ A, lo v) (∏ v ∈ A, hi v) := by
  obtain ⟨rank, hrank⟩ := hranked
  induction A using Finset.induction_on_max_value rank with
  | empty =>
    intro _ x _
    simp [Reduction.overSet_empty]
  | insert v A hvA hmax ih =>
    intro hlt x hx
    obtain ⟨hv, hlt⟩ := (Finset.forall_mem_insert ..).1 hlt
    have hlast : ∀ u ∈ A, v ∉ n.parents u := fun u hu hparent =>
      (hrank u v hparent).not_ge (hmax u hu)
    let others (y : Nat → Nat) := ∏ u ∈ A, n.part found none y u
    have hothers (y : Nat → Nat) : 0 ≤ others y :=
      Finset.prod_nonneg fun u hu => part_nonneg h (hlt u hu) y
    obtain ⟨hleast, hmost⟩ : Reduction.sum.over n.cardinality A.toList others x ∈
      Set.Icc (∏ v ∈ A, lo v) (∏ v ∈ A, hi v) := ih hlt x hx
    have hin : ∀ y ∈ assignments n.cardinality A.toList x,
        n.rowSum found y v ∈ Set.Icc (lo v) (hi v) := fun y hy => hrow v hv y (hx.of_mem hy)
    have hlo0 : 0 ≤ lo v := hlo v hv
    have hhi0 : 0 ≤ hi v := hlo0.trans ((hrow v hv x hx).1.trans (hrow v hv x hx).2)
    rw [over_insert h hlt hvA hlast, Finset.prod_insert hvA, Finset.prod_insert hvA]
    constructor
    · calc lo v * ∏ u ∈ A, lo u
          ≤ lo v * Reduction.sum.over n.cardinality A.toList others x :=
            mul_le_mul_of_nonneg_left hleast hlo0
        _ = Reduction.sum.over n.cardinality A.toList (fun y => lo v * others y) x :=
            (Reduction.over_const_mul hlo0).symm
        _ ≤ Reduction.sum.over n.cardinality A.toList (fun y => n.rowSum found y v * others y) x :=
            Reduction.sum_over_le fun y hy => mul_le_mul_of_nonneg_right (hin y hy).1 (hothers y)
    · calc Reduction.sum.over n.cardinality A.toList (fun y => n.rowSum found y v * others y) x
          ≤ Reduction.sum.over n.cardinality A.toList (fun y => hi v * others y) x :=
            Reduction.sum_over_le fun y hy => mul_le_mul_of_nonneg_right (hin y hy).2 (hothers y)
        _ = hi v * Reduction.sum.over n.cardinality A.toList others x :=
            Reduction.over_const_mul hhi0
        _ ≤ hi v * ∏ u ∈ A, hi u := mul_le_mul_of_nonneg_left hmost hhi0

theorem mass_eq_overSet (hfound : n.Admits found) : n.mass found (fun _ => true) =
    Reduction.sum.overSet n.cardinality (Finset.range n.size)
      (fun x => ∏ v ∈ Finset.range n.size, n.part found none x v) fun _ => 0 := by
  have hnodup : n.ids.Nodup := List.nodup_range
  rw [Network.mass_eq, Reduction.over_eq_overSet hnodup (A := Finset.range n.size)
    fun v => by rw [Finset.mem_range, mem_ids]]
  refine Reduction.over_congr fun y _ => ?_
  rw [if_pos rfl, prod_part hfound]

end Bayes.Network
