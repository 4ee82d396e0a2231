import Bayes.Proofs.Network.Consistent
import Bayes.Proofs.Potential
/-!
What edits keep, over the real numbers. Parents exist, no variable occurs twice in a family, and every
conditional table has the shape of its family and no negative entry; and equal parts of one do sum to
one.
-/
namespace Bayes.Network

structure WellFormed (n : Network ℝ) : Prop where
  card_pos : ∀ v < n.size, 0 < n.cardinality v
  parents_lt : ∀ v, ∀ p ∈ n.parents v, p < n.size
  nodup_family : ∀ v, (n.parents v ++ [v]).Nodup
  shape : ∀ v < n.size, (n.table v).shape = (n.parents v ++ [v]).map n.cardinality
  nonneg : ∀ v < n.size, ∀ e ∈ (n.table v).toList, 0 ≤ e

variable {n : Network ℝ} {v : Nat}

theorem rowTolerance_real : (Scalar.rowTolerance : ℝ) = 1 / 10 ^ 6 := by
  norm_num [Scalar.rowTolerance, Scalar.ofNat]

/-- Over the real numbers: no entry is negative, and no sum of a row is more than a millionth away
from one. -/
theorem conditional_real {entries : List ℝ} {rows : List (List ℝ)} : Conditional entries rows ↔
    (∀ x ∈ entries, 0 ≤ x) ∧ ∀ row ∈ rows, |row.sum - 1| ≤ 1 / 10 ^ 6 := by
  have hrow (s : ℝ) : |s - 1| ≤ 1 / 10 ^ 6 ↔ Scalar.lt Scalar.rowTolerance (s - 1) = false ∧
      Scalar.lt Scalar.rowTolerance (1 - s) = false := by
    rw [rowTolerance_real, abs_le', neg_sub]
    simp [Scalar.lt]
  constructor
  · intro h
    exact ⟨fun x hx => by simpa [Scalar.lt] using h.nonneg x hx,
      fun row hmem => (hrow row.sum).2 (h.sum row hmem)⟩
  · rintro ⟨hnonneg, hsum⟩
    exact ⟨fun _ _ => rfl, fun x hx => by simpa [Scalar.lt] using hnonneg x hx,
      fun row hmem => (hrow row.sum).1 (hsum row hmem)⟩

theorem splits_real {k : Nat} (hk : 0 < k) : Splits ℝ k := by
  have hk : (k : ℝ) ≠ 0 := Nat.cast_ne_zero.2 hk.ne'
  refine conditional_real.2 ⟨?_, ?_⟩
  · simp [Scalar.ofNat]
  · simp [Scalar.ofNat, hk]

theorem Coherent.splitsEvenly (h : n.Coherent) (hv : v < n.size) : n.SplitsEvenly v :=
  fun _ => splits_real (Nat.zero_lt_of_lt (h.two_le_cardinality hv))

theorem Coherent.wellFormed (h : n.Coherent) : n.WellFormed where
  card_pos _ hv := Nat.zero_lt_of_lt (h.two_le_cardinality hv)
  parents_lt _ _ hp := (h.linked.known hp).1
  nodup_family v := by
    rw [← List.concat_eq_append]
    exact (h.nodup_parents v).concat fun hv => h.ranked.acyclic v (.single hv)
  shape v hv := (h.fills v hv).shape_eq.trans (tableShape_eq hv)
  nonneg _ hv := (conditional_real.1 (h.conditional hv (h.splitsEvenly hv))).1

/-- The networks that come from the empty one by edits that succeed. -/
inductive Reachable : Network ℝ → Prop
  | empty : Reachable .empty
  | edit {n n' : Network ℝ} (h : Reachable n) (u : Edit ℝ) (hok : n.edit u = .ok n') : Reachable n'

theorem Reachable.coherent (h : Reachable n) : n.Coherent := by
  induction h with
  | empty => exact coherent_empty
  | edit _ u hok ih => exact ih.edit hok

theorem Reachable.wellFormed (h : Reachable n) : n.WellFormed := h.coherent.wellFormed

theorem Reachable.named (h : Reachable n) : n.Named := h.coherent.named

theorem Reachable.linked_ranked (h : Reachable n) : n.Linked ∧ n.Ranked :=
  ⟨h.coherent.linked, h.coherent.ranked⟩

theorem ofDeclarations_invariant {α : Type} [Scalar α] {ds : List (Declaration α)} {n : Network α}
    (P : Network α → Prop) (hempty : P .empty) (hedit : ∀ m u m', P m → m.edit u = .ok m' → P m')
    (h : ofDeclarations ds = .ok n) : P n := by
  obtain ⟨n₁, h₁, h⟩ := bind_eq_ok.1 h
  obtain ⟨n₂, h₂, h₃⟩ := bind_eq_ok.1 h
  have hparent (child : Nat) (m : Network α) (name : String) (m' : Network α) (hm : P m)
      (hok : addParent child m name = .ok m') : P m' := by
    obtain ⟨p, _, hok⟩ := bind_eq_ok.1 hok
    exact hedit m (.addEdge p child) m' hm hok
  refine foldlM_invariant P (fun m d m' hm hok => ?_) ds n₂ n ?_ h₃
  · rw [declareValues] at hok
    cases hvalues : d.values with
    | none =>
      rw [hvalues] at hok
      cases hok
      exact hm
    | some values =>
      rw [hvalues] at hok
      obtain ⟨v, _, hok⟩ := bind_eq_ok.1 hok
      exact hedit m (.setValues v values) m' hm hok
  · refine foldlM_invariant P (fun m d m' hm hok => ?_) ds n₁ n₂ ?_ h₂
    · obtain ⟨child, _, hok⟩ := bind_eq_ok.1 hok
      exact foldlM_invariant P (hparent child) d.parents m m' hm hok
    · exact foldlM_invariant P
        (fun m d m' hm hok => hedit m (.addVariable d.name d.states) m' hm hok) ds .empty n₁ hempty h₁

theorem reachable_ofDeclarations {ds : List (Declaration ℝ)} (h : ofDeclarations ds = .ok n) :
    Reachable n :=
  ofDeclarations_invariant Reachable .empty (fun _ u _ hm hok => hm.edit u hok) h

end Bayes.Network
