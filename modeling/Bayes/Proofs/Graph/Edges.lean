import Bayes.Proofs.Elimination
import Bayes.Proofs.Network.Path
/-!
The list of the edges of a graph. Every edge is seen from both of its ends; seen from the lower one they
are the list of edges, and from the upper one as many.
-/
namespace Bayes.Graph

variable {g h : Graph} {u v : Nat}

theorem ext_hasEdge (hsize : g.size = h.size) (hedge : ∀ u v, g.hasEdge u v ↔ h.hasEdge u v) : g = h := by
  have hrow (v : Nat) : row g.adjacency v = row h.adjacency v :=
    (g.increasing v).ext (h.increasing v) fun w => by
      have := hedge v w
      rwa [hasEdge_iff, hasEdge_iff] at this
  have hadjacency : g.adjacency = h.adjacency := by
    refine Array.ext hsize fun i hg hh => ?_
    have := hrow i
    simpa [row, Array.getElem?_eq_getElem hg, Array.getElem?_eq_getElem hh] using this
  obtain ⟨adjacency, _, _, _⟩ := g
  obtain ⟨adjacency', _, _, _⟩ := h
  cases hadjacency
  rfl

def sides (g : Graph) : List (Nat × Nat) := g.vertices.flatMap fun u => (g.neighbors u).map fun v => (u, v)

theorem mem_sides : (u, v) ∈ g.sides ↔ g.hasEdge u v := by
  simp only [sides, vertices, List.mem_flatMap, List.mem_range, List.mem_map, Prod.mk.injEq,
    ← hasEdge_iff]
  constructor
  · rintro ⟨w, -, x, hedge, rfl, rfl⟩
    exact hedge
  · exact fun hedge => ⟨u, lt_size_of_hasEdge hedge, v, hedge, rfl, rfl⟩

theorem pairwise_sides (g : Graph) : g.sides.Pairwise (Prod.Lex (· < ·) (· < ·)) := by
  rw [sides, List.pairwise_flatMap]
  refine ⟨fun u _ => List.pairwise_map.2 ((g.increasing u).imp fun h => .right u h), ?_⟩
  refine List.pairwise_lt_range.imp fun huw e he f hf => ?_
  obtain ⟨v, -, rfl⟩ := List.mem_map.1 he
  obtain ⟨x, -, rfl⟩ := List.mem_map.1 hf
  exact .left v x huw

theorem nodup_sides (g : Graph) : g.sides.Nodup :=
  g.pairwise_sides.imp fun hlex heq => by
    subst heq
    obtain h | h := Prod.lex_def.1 hlex
    · exact h.false
    · exact h.2.false

theorem length_sides (g : Graph) :
    g.sides.length = g.vertices.foldl (fun ends v => ends + g.degree v) 0 := by
  rw [Network.foldl_add_eq, sides, List.length_flatMap, Nat.zero_add]
  simp only [List.length_map]
  rfl

theorem edges_eq (g : Graph) : g.edges = g.sides.filter fun e => e.1 < e.2 := by
  simp [edges, sides, List.filter_flatMap, List.filter_map, Function.comp_def]

theorem mem_edges : (u, v) ∈ g.edges ↔ u < v ∧ g.hasEdge u v := by
  rw [edges_eq, List.mem_filter, mem_sides, decide_eq_true_eq, and_comm]

theorem pairwise_edges (g : Graph) : g.edges.Pairwise (Prod.Lex (· < ·) (· < ·)) := by
  rw [edges_eq]
  exact g.pairwise_sides.filter _

theorem perm_swap_edges (g : Graph) :
    (g.sides.filter fun e => !decide (e.1 < e.2)).Perm (g.edges.map Prod.swap) := by
  have hnodup : g.edges.Nodup := g.edges_eq ▸ g.nodup_sides.filter _
  refine (List.perm_ext_iff_of_nodup (g.nodup_sides.filter _)
    (hnodup.map Prod.swap_injective)).2 fun e => ?_
  obtain ⟨u, v⟩ := e
  have hne : g.hasEdge u v → u ≠ v := by
    rintro hedge rfl
    rw [hasEdge_self] at hedge
    cases hedge
  rw [List.mem_filter, mem_sides, List.mem_map]
  constructor
  · rintro ⟨hedge, hnot⟩
    have hlt : v < u := by
      have := hne hedge
      simp only [Bool.not_eq_true', decide_eq_false_iff_not] at hnot
      omega
    exact ⟨(v, u), mem_edges.2 ⟨hlt, g.hasEdge_comm u v ▸ hedge⟩, rfl⟩
  · rintro ⟨⟨x, y⟩, hedge, heq⟩
    obtain ⟨rfl, rfl⟩ := Prod.mk.inj heq
    obtain ⟨hlt, hedge⟩ := mem_edges.1 hedge
    exact ⟨g.hasEdge_comm x y ▸ hedge, by simp [hlt.le]⟩

theorem edgeCount_eq (g : Graph) : g.edgeCount = g.edges.length := by
  have hsides : g.sides.length = g.edges.length + g.edges.length := by
    rw [List.length_eq_length_filter_add fun e : Nat × Nat => decide (e.1 < e.2), ← edges_eq,
      g.perm_swap_edges.length_eq, List.length_map]
  rw [edgeCount, ← length_sides, hsides]
  omega

end Bayes.Graph
