import Mathlib.Data.List.Nodup
import Mathlib.Data.List.Perm.Subperm
import Bayes.Scope
/-!
Laws of strictly increasing lists: what is already increasing stays as it is, and the pairs of members
are those in which the first is smaller than the second.
-/
namespace Bayes.Scope

variable {s t : List Nat}

theorem Increasing.ofList_eq (h : Increasing s) : ofList s = s :=
  (increasing_ofList s).ext h fun _ => mem_ofList

theorem ofList_congr {vs ws : List Nat} (h : ∀ v, v ∈ vs ↔ v ∈ ws) : ofList vs = ofList ws :=
  (increasing_ofList vs).ext (increasing_ofList ws) fun v => by rw [mem_ofList, mem_ofList, h]

theorem Increasing.union_eq_left (h : Increasing s) (ht : ∀ v ∈ t, v ∈ s) : union s t = s := by
  refine (increasing_union s t).ext h fun v => ?_
  rw [mem_union]
  exact ⟨fun hv => hv.elim id (ht v), Or.inl⟩

theorem union_comm (s t : List Nat) : union s t = union t s :=
  ofList_congr fun v => by simp [or_comm]

theorem union_assoc (s t u : List Nat) : union (union s t) u = union s (union t u) :=
  ofList_congr fun v => by simp [mem_union, or_assoc]

theorem inter_comm (hs : Increasing s) (ht : Increasing t) : inter s t = inter t s := by
  refine (increasing_inter hs t).ext (increasing_inter ht s) fun v => ?_
  rw [mem_inter, mem_inter, and_comm]

theorem filter_inter : s.filter (inter s t).contains = inter s t := by
  refine List.filter_congr fun v hv => ?_
  rw [Bool.eq_iff_iff, List.contains_iff_mem, mem_inter]
  simp [hv]

theorem Increasing.filter_contains (hs : Increasing s) (ht : Increasing t) (h : ∀ v ∈ t, v ∈ s) :
    s.filter t.contains = t := by
  refine Increasing.ext (hs.filter _) ht fun v => ?_
  rw [List.mem_filter, List.contains_iff_mem]
  exact ⟨fun hv => hv.2, fun hv => ⟨h v hv, hv⟩⟩

theorem length_ofList_eq_iff {vs : List Nat} : (ofList vs).length = vs.length ↔ vs.Nodup := by
  have hnodup := (increasing_ofList vs).nodup
  constructor
  · intro hlength
    have hsub : (ofList vs).Subperm vs := hnodup.subperm fun v hv => mem_ofList.1 hv
    exact (hsub.perm_of_length_le (Nat.le_of_eq hlength.symm)).nodup_iff.1 hnodup
  · intro h
    exact ((List.perm_ext_iff_of_nodup hnodup h).2 fun v => mem_ofList).length_eq

theorem increasing_range (n : Nat) : Increasing (List.range n) := List.pairwise_lt_range

theorem mem_pairs (h : Increasing s) {v w : Nat} : (v, w) ∈ pairs s ↔ v ∈ s ∧ w ∈ s ∧ v < w := by
  induction s with
  | nil => simp [pairs]
  | cons u s ih =>
    obtain ⟨hu, hs⟩ := List.pairwise_cons.1 h
    have hw := hu w
    have hv := hu v
    simp only [pairs, List.mem_append, List.mem_map, Prod.mk.injEq, List.mem_cons, ih hs]
    grind

theorem mem_of_mem_pairs {v w : Nat} (h : (v, w) ∈ pairs s) : v ∈ s ∧ w ∈ s := by
  induction s with
  | nil => cases h
  | cons u s ih =>
    simp only [pairs, List.mem_append, List.mem_map, Prod.mk.injEq] at h
    grind

theorem nodup_pairs (h : Increasing s) : (pairs s).Nodup := by
  induction s with
  | nil => exact List.nodup_nil
  | cons u s ih =>
    obtain ⟨hu, hs⟩ := List.pairwise_cons.1 h
    refine List.nodup_append.2 ⟨?_, ih hs, fun e he f hf hef => ?_⟩
    · exact (Increasing.nodup hs).map fun a b e => (Prod.mk.inj e).2
    · obtain ⟨w, _, rfl⟩ := List.mem_map.1 he
      subst hef
      have hlt := hu u ((mem_pairs hs).1 hf).1
      omega

end Bayes.Scope
