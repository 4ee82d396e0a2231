import Mathlib.Algebra.BigOperators.Ring.Finset
import Mathlib.Algebra.Order.BigOperators.Group.Finset
import Mathlib.Combinatorics.SimpleGraph.Acyclic
import Mathlib.Combinatorics.SimpleGraph.Connectivity.Finite
/-!
Counting edges of forests. The edges inside a set of vertices are those of the graph induced there; a
forest has as many edges as vertices less components; so a forest whose edges join what a second forest
connects has no more edges than that one. With weights: when every edge of one forest is bridged by
edges of the other that weigh no less, the other one weighs no less.
-/
namespace Bayes.Forest
open Finset SimpleGraph

variable {V : Type} [Fintype V] {S T : SimpleGraph V} {A : Set V} {e : Sym2 V}

open Classical in
noncomputable def edges (T : SimpleGraph V) : Finset (Sym2 V) := T.edgeFinset

open Classical in
noncomputable def inside (T : SimpleGraph V) (A : Set V) : Finset (Sym2 V) :=
  (edges T).filter fun e => ∀ a ∈ e, a ∈ A

theorem mem_edges : e ∈ edges T ↔ e ∈ T.edgeSet := by
  classical
  exact mem_edgeFinset

theorem mem_inside : e ∈ inside T A ↔ e ∈ T.edgeSet ∧ ∀ a ∈ e, a ∈ A := by
  simp only [inside, mem_filter, mem_edges]

theorem card_edges (T : SimpleGraph V) : (edges T).card = Nat.card T.edgeSet := by
  classical
  rw [Nat.card_eq_fintype_card, edges, edgeFinset_card]

theorem card_inside (T : SimpleGraph V) (A : Set V) :
    (inside T A).card = Nat.card (T.induce A).edgeSet := by
  classical
  rw [← card_edges]
  symm
  refine card_bij (fun e _ => e.map Subtype.val) (fun e he => ?_) (fun e _ f _ hef => ?_)
    fun e he => ?_
  · induction e using Sym2.ind with
    | _ a b =>
      have hab : T.Adj a b := mem_edges.1 he
      simpa [mem_inside] using hab
  · exact Sym2.map.injective Subtype.val_injective hef
  · obtain ⟨he, hA⟩ := mem_inside.1 he
    induction e using Sym2.ind with
    | _ a b =>
      have ha : a ∈ A := hA a (by simp)
      have hb : b ∈ A := hA b (by simp)
      exact ⟨s(⟨a, ha⟩, ⟨b, hb⟩), mem_edges.2 he, rfl⟩

theorem card_inside_lt (hT : T.IsAcyclic) (hA : A.Nonempty) :
    (inside T A).card + 1 ≤ Nat.card A := by
  classical
  have : Nonempty A := hA.to_subtype
  obtain ⟨F, hle, -, hF⟩ :=
    connected_top.exists_isTree_le_of_le_of_isAcyclic le_top (hT.induce A)
  rw [card_inside, ← (isTree_iff_connected_and_card.1 hF).2, ← card_edges, ← card_edges]
  refine Nat.succ_le_succ (card_le_card fun e he => ?_)
  exact mem_edges.2 (edgeSet_mono hle (mem_edges.1 he))

theorem card_inside_eq_iff (hT : T.IsAcyclic) (hA : A.Nonempty) :
    (inside T A).card + 1 = Nat.card A ↔ (T.induce A).Preconnected := by
  classical
  have : Nonempty A := hA.to_subtype
  rw [card_inside]
  constructor
  · intro hcard
    obtain ⟨F, hle, -, hF⟩ :=
      connected_top.exists_isTree_le_of_le_of_isAcyclic le_top (hT.induce A)
    have hsame : edges (T.induce A) = edges F := by
      refine eq_of_subset_of_card_le (fun e he => ?_) ?_
      · exact mem_edges.2 (edgeSet_mono hle (mem_edges.1 he))
      · have hF := (isTree_iff_connected_and_card.1 hF).2
        rw [card_edges, card_edges]
        omega
    have heq : T.induce A = F := by
      rw [← edgeSet_inj]
      ext e
      rw [← mem_edges, hsame, mem_edges]
    exact heq ▸ hF.connected.preconnected
  · intro hconnected
    exact (isTree_iff_connected_and_card.1 ⟨⟨hconnected⟩, hT.induce A⟩).2

/-- Every edge lies inside one component, and every component is a tree. -/
theorem card_edges_add_components (hT : T.IsAcyclic) :
    (edges T).card + Nat.card T.ConnectedComponent = Nat.card V := by
  classical
  have hedges : (edges T).card = ∑ c : T.ConnectedComponent, (inside T c.supp).card := by
    rw [card_eq_sum_card_fiberwise (f := fun e => T.connectedComponentMk (Quot.out e).1)
      fun e _ => mem_coe.2 (mem_univ _)]
    refine sum_congr rfl fun c _ => congrArg card ?_
    ext e
    rw [mem_filter, mem_inside, mem_edges]
    refine and_congr_right fun he => ?_
    have hout : s((Quot.out e).1, (Quot.out e).2) = e := Quot.out_eq e
    have hadj : T.Adj (Quot.out e).1 (Quot.out e).2 := by
      rw [← mem_edgeSet, hout]
      exact he
    have hsame := ConnectedComponent.connectedComponentMk_eq_of_adj hadj
    rw [← hout, Sym2.ball]
    simp only [ConnectedComponent.mem_supp_iff, hout, ← hsame, and_self]
  have hvertices : Nat.card V = ∑ c : T.ConnectedComponent, Nat.card c.supp := by
    rw [← Nat.card_congr (Equiv.sigmaFiberEquiv T.connectedComponentMk), Nat.card_sigma]
    rfl
  rw [hedges, hvertices, Nat.card_eq_fintype_card, Fintype.card_eq_sum_ones, ← sum_add_distrib]
  refine sum_congr rfl fun c _ => ?_
  exact (card_inside_eq_iff hT c.nonempty_supp).2 c.connected_toSimpleGraph.preconnected

theorem card_edges_le (hT : T.IsAcyclic) (hS : S.IsAcyclic)
    (h : ∀ a b, T.Adj a b → S.Reachable a b) : (edges T).card ≤ (edges S).card := by
  have hTcard := card_edges_add_components hT
  have hScard := card_edges_add_components hS
  have hreachable (a b : V) (hab : T.Reachable a b) : S.Reachable a b := by
    obtain ⟨p⟩ := hab
    induction p with
    | nil => exact .rfl
    | cons hadj _ ih => exact (h _ _ hadj).trans ih
  let f : T.ConnectedComponent → S.ConnectedComponent :=
    Quot.lift S.connectedComponentMk fun a b hab => ConnectedComponent.sound (hreachable a b hab)
  have hcomponents : Nat.card S.ConnectedComponent ≤ Nat.card T.ConnectedComponent := by
    refine Nat.card_le_card_of_surjective f fun c => ?_
    induction c using ConnectedComponent.ind with
    | _ a => exact ⟨T.connectedComponentMk a, rfl⟩
  omega

/-! Weights -/

variable {w : Sym2 V → ℕ} {k : ℕ}

def heavy (T : SimpleGraph V) (w : Sym2 V → ℕ) (k : ℕ) : SimpleGraph V where
  Adj a b := T.Adj a b ∧ k ≤ w s(a, b)
  symm := ⟨fun _ _ h => ⟨h.1.symm, Sym2.eq_swap ▸ h.2⟩⟩
  loopless := ⟨fun _ h => h.1.ne rfl⟩

theorem mem_edges_heavy : e ∈ edges (heavy T w k) ↔ e ∈ edges T ∧ k ≤ w e := by
  induction e using Sym2.ind with
  | _ a b =>
    rw [mem_edges, mem_edges]
    rfl

omit [Fintype V] in
theorem heavy_le (T : SimpleGraph V) (w : Sym2 V → ℕ) (k : ℕ) : heavy T w k ≤ T := fun _ _ h => h.1

omit [Fintype V] in
theorem heavy_anti (T : SimpleGraph V) (w : Sym2 V → ℕ) {k l : ℕ} (h : k ≤ l) :
    heavy T w l ≤ heavy T w k := fun _ _ hab => ⟨hab.1, h.trans hab.2⟩

theorem sum_weights (T : SimpleGraph V) {bound : ℕ} (h : ∀ e, w e ≤ bound) :
    ∑ e ∈ edges T, w e = ∑ k ∈ range bound, (edges (heavy T w (k + 1))).card := by
  classical
  have hone (e : Sym2 V) : w e = ∑ k ∈ range bound, if k + 1 ≤ w e then 1 else 0 := by
    rw [sum_boole]
    have heq : (range bound).filter (fun k => k + 1 ≤ w e) = range (w e) := by
      ext k
      have := h e
      simp only [mem_filter, mem_range]
      omega
    rw [heq, card_range, Nat.cast_id]
  rw [sum_congr rfl fun e _ => hone e, sum_comm]
  refine sum_congr rfl fun k _ => ?_
  rw [sum_boole, Nat.cast_id]
  refine congrArg card ?_
  ext e
  rw [mem_filter, mem_edges_heavy]

/-- Every edge of the one is bridged by edges of the other that weigh no less. -/
theorem sum_weights_le (hT : T.IsAcyclic) (hS : S.IsAcyclic)
    (h : ∀ a b, T.Adj a b → (heavy S w (w s(a, b))).Reachable a b) :
    ∑ e ∈ edges T, w e ≤ ∑ e ∈ edges S, w e := by
  classical
  have hbound (e : Sym2 V) : w e ≤ univ.sup w := le_sup (mem_univ e)
  rw [sum_weights T hbound, sum_weights S hbound]
  refine sum_le_sum fun k _ => card_edges_le (hT.anti (heavy_le T w _)) (hS.anti (heavy_le S w _)) ?_
  rintro a b ⟨hab, hk⟩
  exact (h a b hab).mono (heavy_anti S w hk)

end Bayes.Forest
