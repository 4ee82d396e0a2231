import Bayes.Proofs.Graph.Chordal
import Bayes.Proofs.Triangulation.Maximal
/-!
The filled graph is a triangulation. Taking vertices away can be done edge by edge on two graphs, one that
shrinks and one that grows: an edge goes into the second when it is new in the first. An edge that a step
adds joins vertices that are left and was no edge before, and it stays as long as its ends, so no edge is
added twice. The neighbours that a vertex has when it goes are a clique from then on, and they are the
ones that come later in the order, so the order shows that the filled graph is chordal.
-/
namespace Bayes

namespace Graph

variable {g g' : Graph} {l l' : List Nat}

theorem Perfect.restrict (h : Perfect g l) : ∀ {l' : List Nat}, l'.Sublist l →
    (∀ a ∈ l', ∀ b ∈ l', g'.hasEdge a b = g.hasEdge a b) → Perfect g' l' := by
  induction h with
  | nil =>
    intro l' hl _
    rw [List.sublist_nil.1 hl]
    exact .nil
  | @cons v rest hadj _ ih =>
    intro l' hl hsame
    cases hl with
    | cons _ hl => exact ih hl hsame
    | cons_cons _ hl =>
      have hrest := ih hl fun a ha b hb =>
        hsame a (List.mem_cons_of_mem v ha) b (List.mem_cons_of_mem v hb)
      refine .cons (fun a ha b hb hva hvb hab => ?_) hrest
      have ha' := List.mem_cons_of_mem v ha
      have hb' := List.mem_cons_of_mem v hb
      rw [hsame v List.mem_cons_self a ha'] at hva
      rw [hsame v List.mem_cons_self b hb'] at hvb
      rw [hsame a ha' b hb']
      exact hadj a (hl.subset ha) b (hl.subset hb) hva hvb hab

theorem Perfect.isChordal (h : Perfect g l) (hl : ∀ v < g.size, v ∈ l) : g.isChordal = true := by
  rw [Graph.isChordal, eliminates_iff g.greedy_cardinalitySearch.nodup]
  refine g.greedy_cardinalitySearch.perfect fun v p hp hlength => ?_
  refine h.exists_isChord p hp hlength fun u hu => hl u ?_
  exact lt_size_of_hasEdge ((p.rotate u hu).adj_snd ((SimpleGraph.Walk.isCycle_rotate hu).2 hp).not_nil)

end Graph

namespace Elimination

/-- The graph that shrinks, the graph that grows, and the edges that were added. -/
structure Filling where
  work : Graph
  chordal : Graph
  fillIn : List (Nat × Nat)

namespace Filling

def join (s : Filling) (e : Nat × Nat) : Filling :=
  if s.work.lacksEdge e.1 e.2 then
    ⟨s.work.addEdge e.1 e.2, s.chordal.addEdge e.1 e.2, s.fillIn ++ [e]⟩
  else s

def eliminate (s : Filling) (v : Nat) : Filling :=
  let joined := (Scope.pairs (s.work.neighbors v)).foldl join s
  { joined with work := joined.work.isolate v }

variable {g chordal : Graph} {fillIn : List (Nat × Nat)} {v : Nat}

/-- Adding one of some different edges does not settle whether another one is missing. -/
theorem foldl_join (l : List (Nat × Nat)) (hl : l.Nodup) (hlt : ∀ e ∈ l, e.1 < e.2) :
    ∀ g chordal fillIn, l.foldl join ⟨g, chordal, fillIn⟩ =
      ⟨g.addEdges (l.filter fun e => !g.hasEdge e.1 e.2),
        chordal.addEdges (l.filter fun e => !g.hasEdge e.1 e.2),
        fillIn ++ l.filter fun e => !g.hasEdge e.1 e.2⟩ := by
  induction l with
  | nil =>
    intro g chordal fillIn
    simp [Graph.addEdges]
  | cons e l ih =>
    intro g chordal fillIn
    obtain ⟨he, hl⟩ := List.nodup_cons.1 hl
    obtain ⟨hlt₁, hlt⟩ := List.forall_mem_cons.1 hlt
    have hne : (e.1 != e.2) = true := bne_iff_ne.2 hlt₁.ne
    rw [List.foldl_cons]
    cases hedge : g.hasEdge e.1 e.2 with
    | true =>
      have hjoin : join ⟨g, chordal, fillIn⟩ e = ⟨g, chordal, fillIn⟩ := by
        simp [join, Graph.lacksEdge, hedge]
      rw [hjoin, ih hl hlt, List.filter_cons_of_neg (by simp [hedge])]
    | false =>
      have hjoin : join ⟨g, chordal, fillIn⟩ e =
          ⟨g.addEdge e.1 e.2, chordal.addEdge e.1 e.2, fillIn ++ [e]⟩ := by
        simp [join, Graph.lacksEdge, hedge, hne]
      have hfilter : l.filter (fun f => !(g.addEdge e.1 e.2).hasEdge f.1 f.2) =
          l.filter fun f => !g.hasEdge f.1 f.2 := by
        refine List.filter_congr fun f hf => congrArg _ ?_
        have hfe : f ≠ e := fun hfe => he (hfe ▸ hf)
        have hltf := hlt f hf
        rw [Bool.eq_iff_iff, Graph.hasEdge_addEdge]
        refine ⟨fun h => h.resolve_right ?_, Or.inl⟩
        rintro ⟨-, -, -, ⟨h₁, h₂⟩ | ⟨h₁, h₂⟩⟩
        · exact hfe (Prod.ext h₁ h₂)
        · omega
      rw [hjoin, ih hl hlt, hfilter, List.filter_cons_of_pos (by simp [hedge]), List.append_assoc]
      rfl

theorem eliminate_eq : eliminate ⟨g, chordal, fillIn⟩ v =
    ⟨Elimination.eliminate g v, chordal.addEdges (missing g v), fillIn ++ missing g v⟩ := by
  have hlt : ∀ e ∈ Scope.pairs (g.neighbors v), e.1 < e.2 := fun e he =>
    ((Scope.mem_pairs (g.increasing v)).1 he).2.2
  have hjoined : (Scope.pairs (g.neighbors v)).foldl join ⟨g, chordal, fillIn⟩ =
      ⟨g.addEdges (missing g v), chordal.addEdges (missing g v), fillIn ++ missing g v⟩ :=
    foldl_join _ (Scope.nodup_pairs (g.increasing v)) hlt g chordal fillIn
  rw [eliminate, hjoined]
  rfl

end Filling

variable {g : Graph} {alive : Finset Nat} {steps : List Step}

/-- Edge by edge the two graphs come to the same as the steps. -/
theorem Played.foldl_eliminate (h : Played g alive steps) : ∀ chordal fillIn,
    ((steps.map (·.vertex)).foldl Filling.eliminate ⟨g, chordal, fillIn⟩).chordal =
        chordal.addEdges (steps.flatMap (·.added)) ∧
      ((steps.map (·.vertex)).foldl Filling.eliminate ⟨g, chordal, fillIn⟩).fillIn =
        fillIn ++ steps.flatMap (·.added) := by
  induction h with
  | done g =>
    intro chordal fillIn
    exact ⟨rfl, (List.append_nil fillIn).symm⟩
  | @step g alive v rest _ _ ih =>
    intro chordal fillIn
    obtain ⟨hchordal, hfillIn⟩ := ih (chordal.addEdges (missing g v)) (fillIn ++ missing g v)
    rw [List.map_cons, List.foldl_cons, Filling.eliminate_eq, hchordal, hfillIn, List.flatMap_cons]
    exact ⟨List.foldl_append.symm, List.append_assoc _ _ _⟩

theorem Played.mem_added (h : Played g alive steps) : g.Within alive →
    ∀ e ∈ steps.flatMap (·.added),
      e.1 < e.2 ∧ e.1 ∈ alive ∧ e.2 ∈ alive ∧ ¬ g.hasEdge e.1 e.2 := by
  induction h with
  | done g => simp
  | @step g alive v rest _ _ ih =>
    intro hg e he
    rw [List.flatMap_cons] at he
    cases List.mem_append.1 he with
    | inl he =>
      obtain ⟨⟨hvx, hvy, hlt⟩, hnot⟩ := mem_missing.1 he
      exact ⟨hlt, hg.neighbors_mem ((g.hasEdge_iff v e.1).1 hvx),
        hg.neighbors_mem ((g.hasEdge_iff v e.2).1 hvy), hnot⟩
    | inr he =>
      obtain ⟨hlt, hx, hy, hnot⟩ := ih (within_eliminate hg) e he
      obtain ⟨hxv, hx⟩ := Finset.mem_erase.1 hx
      obtain ⟨hyv, hy⟩ := Finset.mem_erase.1 hy
      exact ⟨hlt, hx, hy, fun hedge => hnot (hasEdge_eliminate.2 ⟨hxv, hyv, Or.inl hedge⟩)⟩

/-- An edge that a step adds is there in the next step, so it is not added again. -/
theorem Played.nodup_added (h : Played g alive steps) :
    g.Within alive → (steps.flatMap (·.added)).Nodup := by
  induction h with
  | done g => exact fun _ => List.nodup_nil
  | @step g alive v rest _ hrest ih =>
    intro hg
    have hwithin := within_eliminate (v := v) hg
    rw [List.flatMap_cons]
    refine List.nodup_append.2 ⟨nodup_missing g v, ih hwithin, fun e he f hf hef => ?_⟩
    subst hef
    obtain ⟨⟨hvx, hvy, hlt⟩, -⟩ := mem_missing.1 he
    obtain ⟨-, hx, hy, hnot⟩ := hrest.mem_added hwithin e hf
    refine hnot (hasEdge_eliminate.2 ⟨?_, ?_, Or.inr ⟨hlt.ne, hvx, hvy⟩⟩)
    · exact (Finset.mem_erase.1 hx).1
    · exact (Finset.mem_erase.1 hy).1

/-- A vertex and those of its neighbours that are taken away later are in the clique of its step. -/
theorem Played.perfect (h : Played g alive steps) :
    g.Within alive → (filledBy g steps).Perfect (steps.map (·.vertex)) := by
  induction h with
  | done g => exact fun _ => .nil
  | @step g alive v rest hv hrest ih =>
    intro hg
    have hwithin := hrest.within_filledBy (within_eliminate hg)
    have hleft {a : Nat} (ha : a ∈ rest.map (·.vertex)) : a ∈ alive.erase v := by
      rw [← Finset.mem_val, ← hrest.vertices]
      exact ha
    have hlater {a : Nat} (ha : a ∈ rest.map (·.vertex))
        (hva : (filledBy g (⟨v, g.neighbors v, missing g v⟩ :: rest)).hasEdge v a) :
        a ∈ Step.clique ⟨v, g.neighbors v, missing g v⟩ := by
      have hav : a ≠ v := (Finset.mem_erase.1 (hleft ha)).1
      obtain hedge | ⟨-, hedge⟩ | ⟨hav', -⟩ := hasEdge_filledBy_cons.1 hva
      · exact absurd (hwithin v a hedge) (Finset.notMem_erase v alive)
      · exact Step.mem_clique.2 (Or.inr ((g.hasEdge_iff v a).1 hedge))
      · exact absurd hav' hav
    have hclique := (Played.step hv hrest).hasEdge_of_mem_clique _ List.mem_cons_self
    refine .cons (fun a ha b hb hva hvb hab => ?_) ?_
    · exact hclique a (hlater ha hva) b (hlater hb hvb) hab
    · refine (ih (within_eliminate hg)).restrict (List.Sublist.refl _) fun a ha b hb => ?_
      obtain ⟨hav, -⟩ := Finset.mem_erase.1 (hleft ha)
      obtain ⟨hbv, -⟩ := Finset.mem_erase.1 (hleft hb)
      rw [Bool.eq_iff_iff, hasEdge_filledBy_cons]
      simp [hav, hbv]

end Elimination

namespace Triangulation
open Elimination

variable {g : Graph} {cardinalities : List Nat} {u v : Nat}

theorem mem_fillIn {e : Nat × Nat} (he : e ∈ (g.triangulate cardinalities).fillIn) :
    e.1 < e.2 ∧ e.2 < g.size ∧ ¬ g.hasEdge e.1 e.2 := by
  obtain ⟨hlt, -, hy, hnot⟩ := (played_steps g).mem_added g.within_range e he
  exact ⟨hlt, Finset.mem_range.1 hy, hnot⟩

theorem hasEdge_filled : (g.triangulate cardinalities).filled.hasEdge u v ↔ g.hasEdge u v ∨
    (u, v) ∈ (g.triangulate cardinalities).fillIn ∨
      (v, u) ∈ (g.triangulate cardinalities).fillIn := by
  have hadded : (g.triangulate cardinalities).filled.hasEdge u v ↔ g.hasEdge u v ∨
      ∃ e ∈ (g.triangulate cardinalities).fillIn, e.1 ≠ e.2 ∧ e.1 < g.size ∧ e.2 < g.size ∧
        (u = e.1 ∧ v = e.2 ∨ u = e.2 ∧ v = e.1) := Graph.hasEdge_addEdges _ u v g
  rw [hadded]
  refine or_congr_right ⟨?_, ?_⟩
  · rintro ⟨⟨x, y⟩, he, -, -, -, ⟨rfl, rfl⟩ | ⟨rfl, rfl⟩⟩
    · exact Or.inl he
    · exact Or.inr he
  · rintro (he | he)
    · obtain ⟨hlt, hv, -⟩ := mem_fillIn he
      exact ⟨_, he, hlt.ne, hlt.trans hv, hv, Or.inl ⟨rfl, rfl⟩⟩
    · obtain ⟨hlt, hu, -⟩ := mem_fillIn he
      exact ⟨_, he, hlt.ne, hlt.trans hu, hu, Or.inr ⟨rfl, rfl⟩⟩

theorem perm_order (g : Graph) (cardinalities : List Nat) :
    (g.triangulate cardinalities).order.Perm g.vertices :=
  Multiset.coe_eq_coe.1 (played_steps g).vertices

theorem perfect_order (g : Graph) (cardinalities : List Nat) :
    (g.triangulate cardinalities).filled.Perfect (g.triangulate cardinalities).order :=
  (played_steps g).perfect g.within_range

theorem isChordal_filled (g : Graph) (cardinalities : List Nat) :
    (g.triangulate cardinalities).filled.isChordal = true := by
  refine (perfect_order g cardinalities).isChordal fun v hv => ?_
  rw [filled_triangulate, size_filledBy] at hv
  exact (perm_order g cardinalities).mem_iff.2 (List.mem_range.2 hv)

/-- The filled graph, which is what edge by edge the graph that grows comes to, has the edges of the
graph and those of the fill-in, and these are new, different, and written with the lower end first. The
order of elimination contains every vertex once and is perfect for the filled graph, so the filled graph
is recognised as chordal. -/
theorem filled_triangulates (g : Graph) (cardinalities : List Nat) :
    let t := g.triangulate cardinalities
    let s := t.order.foldl Filling.eliminate ⟨g, g, []⟩
    (s.chordal = t.filled ∧ s.fillIn = t.fillIn) ∧
    t.filled.size = g.size ∧
    (∀ u v, t.filled.hasEdge u v ↔ g.hasEdge u v ∨ (u, v) ∈ t.fillIn ∨ (v, u) ∈ t.fillIn) ∧
    t.fillIn.Nodup ∧
    (∀ e ∈ t.fillIn, e.1 < e.2 ∧ e.2 < g.size ∧ ¬ g.hasEdge e.1 e.2) ∧
    t.order.Perm g.vertices ∧ t.filled.Perfect t.order ∧ t.filled.isChordal = true := by
  have hplayed := played_steps g
  refine ⟨hplayed.foldl_eliminate g [], ?_, fun u v => hasEdge_filled, ?_, fun e => mem_fillIn,
    perm_order g cardinalities, perfect_order g cardinalities, isChordal_filled g cardinalities⟩
  · rw [filled_triangulate, size_filledBy]
  · exact hplayed.nodup_added g.within_range

example : (((Graph.edgeless 4).addEdges [(0, 1), (1, 2), (2, 3), (3, 0)]).triangulate
    [2, 2, 2, 2]).fillIn = [(1, 3)] := by
  decide +kernel

end Triangulation
end Bayes
