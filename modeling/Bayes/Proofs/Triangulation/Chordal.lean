import Bayes.Proofs.Elimination.MinFill
import Bayes.Proofs.Triangulation.Filled
/-!
Chordal graphs are not filled. In a chordal graph the search of the recognition leaves a perfect order of
the vertices. The neighbours of its first vertex are pairwise adjacent, so some vertex needs no new edges,
and the vertex that the game takes away, having the least key, needs none either. The order without this
vertex is perfect for what is left, so the same goes on.
-/
namespace Bayes

namespace Elimination

variable {g : Graph} {alive : Finset Nat} {u v w : Nat} {l : List Nat}

theorem missing_eq_nil (h : g.Perfect (v :: l)) (hl : ∀ u ∈ g.neighbors v, u ∈ l) :
    missing g v = [] := by
  cases h with
  | cons hadj _ =>
    refine List.eq_nil_iff_forall_not_mem.2 fun e he => ?_
    obtain ⟨⟨hvx, hvy, hlt⟩, hnot⟩ := mem_missing.1 he
    have hx := hl e.1 ((g.hasEdge_iff v e.1).1 hvx)
    have hy := hl e.2 ((g.hasEdge_iff v e.2).1 hvy)
    exact hnot (hadj e.1 hx e.2 hy hvx hvy hlt.ne)

theorem exists_missing_eq_nil (h : g.Perfect l) (hl : ∀ v, v ∈ l ↔ v ∈ alive) (hg : g.Within alive)
    (halive : alive.Nonempty) : ∃ w ∈ alive, missing g w = [] := by
  cases l with
  | nil =>
    obtain ⟨v, hv⟩ := halive
    simp [← hl] at hv
  | cons w l =>
    refine ⟨w, (hl w).1 List.mem_cons_self, missing_eq_nil h fun u hu => ?_⟩
    have hmem := (hl u).2 (hg.neighbors_mem hu)
    have huw : u ≠ w := fun huw => g.irrefl w (huw ▸ hu)
    exact (List.mem_cons.1 hmem).resolve_left huw

theorem length_missing_le (h : (key g v).rank ≤ (key g w).rank) :
    (missing g v).length ≤ (missing g w).length :=
  Prod.Lex.monotone_fst _ _ h

theorem hasEdge_eliminate_of_missing (h : missing g v = []) :
    (eliminate g v).hasEdge u w ↔ g.hasEdge u w ∧ u ≠ v ∧ w ≠ v := by
  rw [eliminate, h]
  exact g.hasEdge_isolate v u w

/-- Taking away a vertex that needs no new edges leaves the order without it perfect. -/
theorem perfect_eliminate (h : g.Perfect l) (hv : missing g v = []) :
    (eliminate g v).Perfect (l.filter (· ≠ v)) := by
  refine h.restrict List.filter_sublist fun a ha b hb => ?_
  have hav : a ≠ v := by simpa using (List.mem_filter.1 ha).2
  have hbv : b ≠ v := by simpa using (List.mem_filter.1 hb).2
  rw [Bool.eq_iff_iff, hasEdge_eliminate_of_missing hv]
  simp [hav, hbv]

theorem Game.Fresh.added_eq_nil (rounds : Nat) : ∀ {alive : Finset Nat} {game : Game} {l : List Nat},
    game.Fresh [] alive → game.graph.Perfect l → (∀ v, v ∈ l ↔ v ∈ alive) →
      ∀ s ∈ game.play rounds, s.added = [] := by
  induction rounds with
  | zero => simp [Game.play]
  | succ rounds ih =>
    intro alive game l h hperfect hl s hs
    obtain rfl | halive := alive.eq_empty_or_nonempty
    · rw [Game.play, h.next?_empty] at hs
      cases hs
    · obtain ⟨v, -, game', hnext, hgraph, h', hleast⟩ := h.next? halive
      obtain ⟨w, hw, hnone⟩ := exists_missing_eq_nil hperfect hl h.holds.within halive
      have hmissing : missing game.graph v = [] := by
        have hle := length_missing_le (hleast w hw)
        rw [hnone, List.length_nil] at hle
        exact List.length_eq_zero_iff.1 (Nat.le_zero.1 hle)
      rw [Game.play, hnext] at hs
      cases List.mem_cons.1 hs with
      | inl hs => rw [hs, hmissing]
      | inr hs =>
        refine ih h' (l := l.filter (· ≠ v)) ?_ (fun u => ?_) s hs
        · rw [hgraph]
          exact perfect_eliminate hperfect hmissing
        · simp [hl, and_comm]

end Elimination

namespace Triangulation
open Elimination

theorem filled_of_fillIn_eq_nil {g : Graph} {cardinalities : List Nat}
    (h : (g.triangulate cardinalities).fillIn = []) : (g.triangulate cardinalities).filled = g := by
  rw [filled, h]
  rfl

theorem fillIn_of_isChordal {g : Graph} (cardinalities : List Nat) (h : g.isChordal = true) :
    (g.triangulate cardinalities).fillIn = [] := by
  have hgreedy := g.greedy_cardinalitySearch
  have hperfect : g.Perfect g.cardinalitySearch := (Graph.eliminates_iff hgreedy.nodup).1 h
  have hall (v : Nat) : v ∈ g.cardinalitySearch ↔ v ∈ Finset.range g.size := by
    rw [Finset.mem_range]
    exact ⟨hgreedy.lt_size v, Graph.mem_cardinalitySearch⟩
  exact List.flatMap_eq_nil_iff.2 (Game.Fresh.added_eq_nil g.size (Game.fresh_start g) hperfect hall)

/-- Just the graphs that are recognised as chordal are not filled, so filling a graph twice adds nothing
the second time. -/
theorem fillIn_eq_nil_iff (g : Graph) (cardinalities cardinalities' : List Nat) :
    ((g.triangulate cardinalities).fillIn = [] ↔ g.isChordal = true) ∧
    ((g.triangulate cardinalities).filled.triangulate cardinalities').fillIn = [] := by
  have hfilled := isChordal_filled g cardinalities
  refine ⟨⟨fun h => ?_, fillIn_of_isChordal cardinalities⟩, fillIn_of_isChordal cardinalities' hfilled⟩
  rwa [filled_of_fillIn_eq_nil h] at hfilled

end Triangulation
end Bayes
