import Mathlib.Order.Minimal
import Bayes.Proofs.Triangulation
/-!
The cliques of a triangulation are the maximal cliques of the filled graph. An edge of the filled graph
joins a vertex to one of its neighbours at the time it is taken away, so the cliques of the steps are
cliques of the filled graph and contain all others. The clique of a step that lies inside the clique of
another step is dropped, so of those that stay none contains another.
-/
namespace Bayes

def Graph.IsClique (g : Graph) (K : Finset Nat) : Prop :=
  (∀ v ∈ K, v < g.size) ∧ ∀ v ∈ K, ∀ w ∈ K, v ≠ w → g.hasEdge v w

namespace Elimination

def filledBy (g : Graph) (steps : List Step) : Graph := g.addEdges (steps.flatMap (·.added))

variable {g : Graph} {alive : Finset Nat} {steps rest : List Step} {s t : Step} {u v w : Nat}

theorem size_filledBy : (filledBy g steps).size = g.size := Graph.size_addEdges _ g

/-- The edges of the filled graph, by the first step: those at its vertex, and those of the rest. -/
theorem hasEdge_filledBy_cons : (filledBy g (⟨v, g.neighbors v, missing g v⟩ :: rest)).hasEdge u w ↔
    (filledBy (eliminate g v) rest).hasEdge u w ∨
      u = v ∧ g.hasEdge v w ∨ w = v ∧ g.hasEdge v u := by
  have hcons : filledBy g (⟨v, g.neighbors v, missing g v⟩ :: rest) =
      (g.addEdges (missing g v)).addEdges (rest.flatMap (·.added)) := by
    rw [filledBy, List.flatMap_cons, Graph.addEdges, List.foldl_append]
    rfl
  have hself : g.hasEdge v v = false := g.hasEdge_self v
  rw [hcons, filledBy, Graph.hasEdge_addEdges _ u w (g.addEdges _),
    Graph.hasEdge_addEdges _ u w (eliminate g v), Graph.size_addEdges, size_eliminate,
    hasEdge_addMissing, hasEdge_eliminate]
  by_cases hu : u = v
  · subst hu
    grind
  · by_cases hw : w = v
    · subst hw
      rw [g.hasEdge_comm w u]
      grind
    · simp only [hu, hw, ne_eq, not_false_eq_true, true_and, false_and, or_false]

theorem Played.within_filledBy (h : Played g alive steps) :
    g.Within alive → (filledBy g steps).Within alive := by
  induction h with
  | done g => exact id
  | @step g alive v rest hv _ ih =>
    intro hg u w hedge
    obtain hedge | ⟨rfl, -⟩ | ⟨rfl, hedge⟩ := hasEdge_filledBy_cons.1 hedge
    · exact Finset.mem_of_mem_erase (ih (within_eliminate hg) u w hedge)
    · exact hv
    · exact hg.neighbors_mem ((g.hasEdge_iff _ _).1 hedge)

theorem Played.increasing_later (h : Played g alive steps) :
    ∀ s ∈ steps, Scope.Increasing s.later := by
  induction h with
  | done g => simp
  | @step g alive v rest _ _ ih => exact List.forall_mem_cons.2 ⟨g.increasing v, ih⟩

theorem Played.card_clique (h : Played g alive steps) :
    ∀ s ∈ steps, s.clique.card = s.later.length + 1 := by
  induction h with
  | done g => simp
  | @step g alive v rest _ _ ih =>
    refine List.forall_mem_cons.2 ⟨?_, ih⟩
    have hv : v ∉ (g.neighbors v).toFinset := fun hv => g.irrefl v (List.mem_toFinset.1 hv)
    rw [Step.clique, Finset.card_insert_of_notMem hv, List.toFinset_card_of_nodup (g.nodup_neighbors v)]

theorem Played.hasEdge_of_mem_clique (h : Played g alive steps) : ∀ s ∈ steps,
    ∀ x ∈ s.clique, ∀ y ∈ s.clique, x ≠ y → (filledBy g steps).hasEdge x y := by
  induction h with
  | done g => simp
  | @step g alive v rest _ _ ih =>
    intro s hs x hx y hy hne
    rw [hasEdge_filledBy_cons]
    obtain rfl | hs := List.mem_cons.1 hs
    · have hedge {z : Nat} (hz : z ∈ g.neighbors v) := (g.hasEdge_iff v z).2 hz
      obtain rfl | hx := Step.mem_clique.1 hx
      · obtain rfl | hy := Step.mem_clique.1 hy
        · exact absurd rfl hne
        · exact Or.inr (Or.inl ⟨rfl, hedge hy⟩)
      · obtain rfl | hy := Step.mem_clique.1 hy
        · exact Or.inr (Or.inr ⟨rfl, hedge hx⟩)
        · have hother {z : Nat} (hz : z ∈ g.neighbors v) : z ≠ v := fun hzv => g.irrefl v (hzv ▸ hz)
          refine Or.inl (Graph.hasEdge_addEdges _ x y _ |>.2 (Or.inl ?_))
          exact hasEdge_eliminate.2 ⟨hother hx, hother hy, Or.inr ⟨hne, hedge hx, hedge hy⟩⟩
    · exact Or.inl (ih s hs x hx y hy hne)

theorem Played.exists_clique_filledBy {K : Finset Nat} (h : Played g alive steps)
    (hne : K.Nonempty) : g.Within alive → K ⊆ alive →
      (∀ x ∈ K, ∀ y ∈ K, x ≠ y → (filledBy g steps).hasEdge x y) → ∃ t ∈ steps, K ⊆ t.clique := by
  induction h with
  | done g =>
    intro _ hK
    exact absurd hne (Finset.not_nonempty_iff_eq_empty.2 (Finset.subset_empty.1 hK))
  | @step g alive v rest _ hrest ih =>
    intro hg hK hadj
    have hwithin := hrest.within_filledBy (within_eliminate hg)
    by_cases hvK : v ∈ K
    · refine ⟨_, List.mem_cons_self, fun w hw => Step.mem_clique.2 ?_⟩
      by_cases hwv : w = v
      · exact Or.inl hwv
      · obtain hedge | ⟨-, hedge⟩ | ⟨hwv', -⟩ :=
          hasEdge_filledBy_cons.1 (hadj v hvK w hw (Ne.symm hwv))
        · exact absurd (hwithin v w hedge) (Finset.notMem_erase v alive)
        · exact Or.inr ((g.hasEdge_iff v w).1 hedge)
        · exact absurd hwv' hwv
    · have hother (x : Nat) (hx : x ∈ K) : x ≠ v := fun hxv => hvK (hxv ▸ hx)
      obtain ⟨t, ht, hclique⟩ := ih (within_eliminate hg)
        (fun x hx => Finset.mem_erase.2 ⟨hother x hx, hK hx⟩) fun x hx y hy hne => by
          obtain hedge | ⟨hxv, -⟩ | ⟨hyv, -⟩ := hasEdge_filledBy_cons.1 (hadj x hx y hy hne)
          · exact hedge
          · exact absurd hxv (hother x hx)
          · exact absurd hyv (hother y hy)
      exact ⟨t, List.mem_cons_of_mem _ ht, hclique⟩

end Elimination

namespace Triangulation
open Elimination

variable {g : Graph} {alive : Finset Nat} {steps rest : List Step} {s t q : Step} {v : Nat}

theorem mem_absorbed_cons (hv : v ∈ absorbed rest) : v ∈ absorbed (s :: rest) := by
  rw [absorbed]
  split
  · exact hv
  · split
    · exact List.mem_cons_of_mem _ hv
    · exact hv

/-- A step whose clique lies inside the clique of another step is absorbed: the last of the steps before
it with such a clique has just one vertex more. -/
theorem mem_absorbed_of_subset (h : Played g alive steps) : g.Within alive →
    ∀ t ∈ steps, ∀ q ∈ steps, t.vertex ≠ q.vertex → t.clique ⊆ q.clique →
      t.vertex ∈ absorbed steps := by
  induction h with
  | done g => simp
  | @step g alive v rest _ hrest ih =>
    intro hg t ht q hq hne hsub
    have hwithin := within_eliminate (v := v) hg
    have hgone (r : Step) (hr : r ∈ rest) : v ∉ r.clique := fun hvr =>
      Finset.notMem_erase v alive (hrest.clique_subset hwithin r hr hvr)
    obtain rfl | ht := List.mem_cons.1 ht
    · obtain rfl | hq := List.mem_cons.1 hq
      · exact absurd rfl hne
      · exact absurd (hsub (Finset.mem_insert_self _ _)) (hgone q hq)
    · obtain rfl | hq := List.mem_cons.1 hq
      · -- the vertices of the later clique are neighbours of the vertex that goes first
        have hlater : ∀ w ∈ t.clique, w ∈ g.neighbors v := fun w hw => by
          obtain hwv | hw' := Step.mem_clique.1 (hsub hw)
          · have hwv : w = v := hwv
            exact absurd (hwv ▸ hw) (hgone t ht)
          · exact hw'
        have htv : t.vertex ∈ g.neighbors v := hlater _ (Finset.mem_insert_self _ _)
        obtain hnil | ⟨r, hfind, hr⟩ := hrest.neighbors_cases hg
        · simp [hnil] at htv
        · have hmem : r ∈ rest := List.mem_of_find?_eq_some hfind
          by_cases htr : t.vertex = r.vertex
          · obtain rfl : t = r := List.inj_on_of_nodup_map hrest.nodup ht hmem htr
            have hsame : (g.neighbors v).toFinset = t.clique := by
              refine Finset.Subset.antisymm (fun w hw => hr w (List.mem_toFinset.1 hw)) fun w hw => ?_
              exact List.mem_toFinset.2 (hlater w hw)
            have hlength : (g.neighbors v).length = t.later.length + 1 := by
              rw [← hrest.card_clique t ht, ← hsame,
                List.toFinset_card_of_nodup (g.nodup_neighbors v)]
            rw [absorbed_of_some hfind, if_pos hlength]
            exact List.mem_cons_self
          · exact mem_absorbed_cons (ih hwithin t ht r hmem htr fun w hw => hr w (hlater w hw))
      · exact mem_absorbed_cons (ih hwithin t ht q hq hne hsub)

theorem mem_cliques {c : List Nat} {t : Triangulation} : c ∈ t.cliques ↔
    ∃ s ∈ t.steps, s.vertex ∉ absorbed t.steps ∧ c = Scope.insert s.vertex s.later := by
  simp [cliques, maximalCliques, and_assoc, eq_comm (a := c)]

theorem toFinset_insert (s : Step) : (Scope.insert s.vertex s.later).toFinset = s.clique := by
  ext v
  rw [List.mem_toFinset, Scope.mem_insert, Step.mem_clique]

variable {cardinalities : List Nat}

theorem eq_of_clique_subset {s q : Step} (hs : s ∈ (g.triangulate cardinalities).steps)
    (hkept : s.vertex ∉ absorbed (g.triangulate cardinalities).steps)
    (hq : q ∈ (g.triangulate cardinalities).steps) (hsub : s.clique ⊆ q.clique) : s = q := by
  have hplayed : Played g _ (g.triangulate cardinalities).steps := played_steps g
  refine List.inj_on_of_nodup_map hplayed.nodup hs hq (not_not.1 fun hne => hkept ?_)
  exact mem_absorbed_of_subset hplayed g.within_range s hs q hq hne hsub

theorem filled_triangulate :
    (g.triangulate cardinalities).filled = filledBy g (g.triangulate cardinalities).steps := rfl

theorem isClique_filled {s : Step} (hs : s ∈ (g.triangulate cardinalities).steps) :
    (g.triangulate cardinalities).filled.IsClique s.clique := by
  have hplayed : Played g _ (g.triangulate cardinalities).steps := played_steps g
  refine ⟨fun v hv => ?_, hplayed.hasEdge_of_mem_clique s hs⟩
  rw [filled_triangulate, size_filledBy]
  exact Finset.mem_range.1 (hplayed.clique_subset g.within_range s hs hv)

theorem exists_step_of_isClique {K : Finset Nat} (hne : K.Nonempty)
    (hK : (g.triangulate cardinalities).filled.IsClique K) :
    ∃ s ∈ (g.triangulate cardinalities).steps, K ⊆ s.clique := by
  refine (played_steps g).exists_clique_filledBy hne g.within_range (fun v hv => ?_) hK.2
  exact Finset.mem_range.2 (size_filledBy (g := g) ▸ hK.1 v hv)

theorem exists_kept {q : Step} (hq : q ∈ (g.triangulate cardinalities).steps) :
    ∃ s ∈ (g.triangulate cardinalities).steps,
      s.vertex ∉ absorbed (g.triangulate cardinalities).steps ∧ q.clique ⊆ s.clique := by
  obtain ⟨c, hc, hqc⟩ := (settled_triangulate g cardinalities).covered q hq
  rw [kept_eq] at hc
  obtain ⟨s, hs, rfl⟩ := List.mem_map.1 hc
  obtain ⟨hs, hkept⟩ := List.mem_filter.1 hs
  exact ⟨s, hs, by simpa using hkept, hqc⟩

theorem maximal_filled_iff (h0 : 0 < g.size) {K : Finset Nat} :
    Maximal (g.triangulate cardinalities).filled.IsClique K ↔
      ∃ c ∈ (g.triangulate cardinalities).cliques, c.toFinset = K := by
  constructor
  · intro hK
    have hne : K.Nonempty := by
      by_contra hempty
      obtain rfl := Finset.not_nonempty_iff_eq_empty.1 hempty
      have hpoint : (g.triangulate cardinalities).filled.IsClique {0} := by
        refine ⟨fun v hv => ?_, fun v hv w hw hvw => ?_⟩
        · rw [Finset.mem_singleton.1 hv, filled_triangulate, size_filledBy]
          exact h0
        · exact absurd ((Finset.mem_singleton.1 hv).trans (Finset.mem_singleton.1 hw).symm) hvw
      exact Finset.notMem_empty 0 (hK.2 hpoint (Finset.empty_subset _) (Finset.mem_singleton_self 0))
    obtain ⟨q, hq, hKq⟩ := exists_step_of_isClique hne hK.1
    obtain ⟨s, hs, hkept, hqs⟩ := exists_kept hq
    refine ⟨_, mem_cliques.2 ⟨s, hs, hkept, rfl⟩, ?_⟩
    rw [toFinset_insert]
    exact (hK.2 (isClique_filled hs) (hKq.trans hqs)).antisymm (hKq.trans hqs)
  · rintro ⟨c, hc, rfl⟩
    obtain ⟨s, hs, hkept, rfl⟩ := mem_cliques.1 hc
    rw [toFinset_insert]
    refine ⟨isClique_filled hs, fun K hK hsK => ?_⟩
    obtain ⟨q, hq, hKq⟩ := exists_step_of_isClique ⟨_, hsK (Finset.mem_insert_self _ _)⟩ hK
    obtain rfl := eq_of_clique_subset hs hkept hq (hsK.trans hKq)
    exact hKq

/-- The cliques of a triangulation are increasing and different, and they are the maximal cliques of the
filled graph, or none if there is no vertex. So they cover the vertices and the edges of the graph, and
none contains another. -/
theorem cliques_maximal (g : Graph) (cardinalities : List Nat) :
    let t := g.triangulate cardinalities
    (∀ c ∈ t.cliques, Scope.Increasing c) ∧ t.cliques.Nodup ∧
    (g.size = 0 → t.cliques = []) ∧
    (0 < g.size → ∀ K, Maximal t.filled.IsClique K ↔ ∃ c ∈ t.cliques, c.toFinset = K) ∧
    (∀ v < g.size, ∃ c ∈ t.cliques, v ∈ c) ∧
    (∀ u v, g.hasEdge u v → ∃ c ∈ t.cliques, u ∈ c ∧ v ∈ c) ∧
    ∀ c ∈ t.cliques, ∀ d ∈ t.cliques, c ⊆ d → c = d := by
  intro t
  have hinside {c d : List Nat} (hc : c ∈ t.cliques) (hd : d ∈ t.cliques) (hcd : c ⊆ d) : c = d := by
    obtain ⟨s, hs, hkept, rfl⟩ := mem_cliques.1 hc
    obtain ⟨q, hq, -, rfl⟩ := mem_cliques.1 hd
    have hsub : s.clique ⊆ q.clique := by
      rw [← toFinset_insert, ← toFinset_insert]
      exact fun v hv => List.mem_toFinset.2 (hcd (List.mem_toFinset.1 hv))
    rw [eq_of_clique_subset hs hkept hq hsub]
  refine ⟨fun c hc => ?_, ?_, fun h0 => ?_, fun h0 K => maximal_filled_iff h0, fun v hv => ?_,
    fun u v huv => ?_, fun c hc d hd => hinside hc hd⟩
  · obtain ⟨s, hs, -, rfl⟩ := mem_cliques.1 hc
    exact Scope.increasing_insert ((played_steps g).increasing_later s hs)
  · refine List.Nodup.map_on (fun s hs q hq heq => ?_)
      ((List.Nodup.of_map _ (played_steps g).nodup).filter _)
    obtain ⟨hs, hkept⟩ := List.mem_filter.1 hs
    refine eq_of_clique_subset hs (by simpa using hkept) (List.mem_filter.1 hq).1 ?_
    rw [← toFinset_insert, ← toFinset_insert, heq]
  · change maximalCliques ((Game.start g).play g.size) = []
    rw [h0]
    rfl
  · obtain ⟨c, hc, hvc⟩ := exists_mem_cliques (g := g) cardinalities (List.cons_ne_nil v [])
      (by simpa using hv) (by simp)
    exact ⟨c, hc, hvc v (by simp)⟩
  · have hvu : g.hasEdge v u := g.hasEdge_comm u v ▸ huv
    obtain ⟨c, hc, huvc⟩ := exists_mem_cliques (g := g) cardinalities (List.cons_ne_nil u [v])
      (by simpa using ⟨Graph.lt_size_of_hasEdge huv, Graph.lt_size_of_hasEdge hvu⟩)
      (by simp [huv, hvu])
    exact ⟨c, hc, huvc u (by simp), huvc v (by simp)⟩

end Triangulation
end Bayes
