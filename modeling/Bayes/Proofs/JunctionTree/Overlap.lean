import Mathlib.Data.Finset.Union
import Bayes.Proofs.Forest
/-!
Trees on cliques, and what neighbours in them share. Counted by variables, a forest has fewer edges
between the cliques that contain a variable than there are such cliques, and just one less where these
are connected. So a tree in which the cliques of every variable are connected shares the most, and every
tree that shares as much is another such tree.
-/
namespace Bayes.JunctionTree
open Finset SimpleGraph Forest

variable {V : Type} [Fintype V] {C : V → Finset Nat} {S T : SimpleGraph V} {v : Nat} {e : Sym2 V}

def holding (C : V → Finset Nat) (v : Nat) : Set V := {c | v ∈ C c}

def overlap (C : V → Finset Nat) (e : Sym2 V) : Finset Nat :=
  Sym2.lift ⟨fun a b => C a ∩ C b, fun a b => inter_comm (C a) (C b)⟩ e

/-- A tree on cliques that keeps the cliques of every variable together. -/
structure IsJunction (C : V → Finset Nat) (T : SimpleGraph V) : Prop where
  acyclic : T.IsAcyclic
  connected : T.Preconnected
  running : ∀ v, (T.induce (holding C v)).Preconnected

noncomputable def shared (C : V → Finset Nat) (T : SimpleGraph V) : Nat :=
  ∑ e ∈ edges T, (overlap C e).card

omit [Fintype V] in
theorem mem_overlap : v ∈ overlap C e ↔ ∀ a ∈ e, a ∈ holding C v := by
  induction e using Sym2.ind with
  | _ a b => simp [overlap, holding]

theorem shared_eq (C : V → Finset Nat) (T : SimpleGraph V) :
    shared C T = ∑ v ∈ univ.biUnion C, (inside T (holding C v)).card := by
  classical
  have hone (e : Sym2 V) : (overlap C e).card =
      ∑ v ∈ univ.biUnion C, if v ∈ overlap C e then 1 else 0 := by
    rw [sum_boole, Nat.cast_id]
    refine congrArg card ?_
    ext v
    rw [mem_filter, iff_and_self]
    induction e using Sym2.ind with
    | _ a b =>
      intro hv
      exact mem_biUnion.2 ⟨a, mem_univ a, mem_overlap.1 hv a (by simp)⟩
  rw [shared, sum_congr rfl fun e _ => hone e, sum_comm]
  refine sum_congr rfl fun v _ => ?_
  rw [sum_boole, Nat.cast_id]
  refine congrArg card ?_
  ext e
  rw [mem_filter, mem_inside, mem_edges, mem_overlap]

theorem nonempty_holding (hv : v ∈ univ.biUnion C) : (holding C v).Nonempty := by
  obtain ⟨c, -, hc⟩ := mem_biUnion.1 hv
  exact ⟨c, hc⟩

theorem shared_le (hT : T.IsAcyclic) : shared C T + (univ.biUnion C).card ≤
    ∑ v ∈ univ.biUnion C, Nat.card (holding C v) := by
  rw [shared_eq, card_eq_sum_ones, ← sum_add_distrib]
  exact sum_le_sum fun v hv => card_inside_lt hT (nonempty_holding hv)

theorem shared_eq_iff (hT : T.IsAcyclic) : shared C T + (univ.biUnion C).card =
    ∑ v ∈ univ.biUnion C, Nat.card (holding C v) ↔
      ∀ v, (T.induce (holding C v)).Preconnected := by
  rw [shared_eq, card_eq_sum_ones, ← sum_add_distrib,
    sum_eq_sum_iff_of_le fun v hv => card_inside_lt hT (nonempty_holding hv)]
  refine ⟨fun h v => ?_, fun h v hv => (card_inside_eq_iff hT (nonempty_holding hv)).2 (h v)⟩
  by_cases hv : v ∈ univ.biUnion C
  · exact (card_inside_eq_iff hT (nonempty_holding hv)).1 (h v hv)
  · rintro ⟨a, ha⟩
    exact absurd (mem_biUnion.2 ⟨a, mem_univ a, ha⟩) hv

/-- A tree that shares as much as some junction tree is one. -/
theorem IsJunction.of_le (h : IsJunction C T) (hS : S.IsAcyclic) (hconnected : S.Preconnected)
    (hle : shared C T ≤ shared C S) : IsJunction C S := by
  have hT := (shared_eq_iff h.acyclic).2 h.running
  have hSle := shared_le (C := C) hS
  exact ⟨hS, hconnected, (shared_eq_iff hS).1 (by omega)⟩

omit [Fintype V] in
/-- Whatever lies on the path between two cliques with a variable contains the variable, since the path is
the one that keeps to such cliques. -/
theorem IsJunction.mem_of_mem_path (h : IsJunction C T) {a b c : V} {p : T.Walk a b} (hp : p.IsPath)
    (ha : v ∈ C a) (hb : v ∈ C b) (hc : c ∈ p.support) : v ∈ C c := by
  classical
  obtain ⟨q⟩ := h.running v ⟨a, ha⟩ ⟨b, hb⟩
  let f : T.induce (holding C v) →g T := ⟨Subtype.val, fun hab => hab⟩
  have hpath : (q.toPath.1.map f).IsPath :=
    (Walk.isPath_map_iff_of_injective (f := f) Subtype.val_injective).2 q.toPath.2
  have hsame : p = q.toPath.1.map f :=
    congrArg Subtype.val ((h.acyclic.subsingleton_path a b).elim ⟨p, hp⟩ ⟨_, hpath⟩)
  rw [hsame, Walk.support_map] at hc
  obtain ⟨d, -, rfl⟩ := List.mem_map.1 hc
  exact d.2

end Bayes.JunctionTree
