import Mathlib.Data.Finset.Card
import Bayes.Elimination
import Bayes.Proofs.Scope
/-!
How the elimination game goes, whatever the keys say: as long as vertices are left it takes one of them,
joins its neighbours to each other and removes it from the graph. The queue holds the vertices that are
left, each with its present key.
-/
namespace Bayes

namespace Graph

variable {g : Graph} {u v : Nat}

theorem size_edgeless (n : Nat) : (edgeless n).size = n := by simp [edgeless, size]

theorem hasEdge_edgeless (n u v : Nat) : (edgeless n).hasEdge u v = false := by
  simp only [hasEdge, neighbors, edgeless, row, Array.getElem?_replicate]
  split <;> rfl

theorem size_addEdges (edges : List (Nat × Nat)) : ∀ g : Graph, (g.addEdges edges).size = g.size := by
  induction edges with
  | nil =>
    intro g
    rfl
  | cons e edges ih =>
    intro g
    rw [addEdges, List.foldl_cons]
    exact (ih _).trans (size_addEdge g e.1 e.2)

theorem hasEdge_addEdges (edges : List (Nat × Nat)) (x w : Nat) : ∀ g : Graph,
    (g.addEdges edges).hasEdge x w ↔ g.hasEdge x w ∨ ∃ e ∈ edges,
      e.1 ≠ e.2 ∧ e.1 < g.size ∧ e.2 < g.size ∧ (x = e.1 ∧ w = e.2 ∨ x = e.2 ∧ w = e.1) := by
  induction edges with
  | nil =>
    intro g
    simp [addEdges]
  | cons e edges ih =>
    intro g
    have hcons : g.addEdges (e :: edges) = (g.addEdge e.1 e.2).addEdges edges := rfl
    simp only [hcons, ih, hasEdge_addEdge, size_addEdge, List.mem_cons, exists_eq_or_imp, or_assoc]

theorem nodup_neighbors (g : Graph) (v : Nat) : (g.neighbors v).Nodup :=
  Scope.Increasing.nodup (g.increasing v)

def Within (alive : Finset Nat) (g : Graph) : Prop := ∀ v w, g.hasEdge v w → v ∈ alive

theorem within_range (g : Graph) : g.Within (Finset.range g.size) :=
  fun _ _ h => Finset.mem_range.2 (lt_size_of_hasEdge h)

theorem Within.neighbors_mem {alive : Finset Nat} (h : g.Within alive) (hv : v ∈ g.neighbors u) :
    v ∈ alive := by
  refine h v u ?_
  rw [hasEdge_comm, hasEdge_iff]
  exact hv

end Graph

namespace Elimination

variable {g : Graph} {alive : Finset Nat} {u v w : Nat} {rest : List Step}

theorem mem_missing {e : Nat × Nat} : e ∈ missing g v ↔
    (g.hasEdge v e.1 ∧ g.hasEdge v e.2 ∧ e.1 < e.2) ∧ ¬ g.hasEdge e.1 e.2 := by
  have hpairs : e ∈ Scope.pairs (g.neighbors v) ↔
      e.1 ∈ g.neighbors v ∧ e.2 ∈ g.neighbors v ∧ e.1 < e.2 :=
    Scope.mem_pairs (g.increasing v)
  rw [missing, List.mem_filter, hpairs, g.hasEdge_iff v e.1, g.hasEdge_iff v e.2]
  simp

theorem nodup_missing (g : Graph) (v : Nat) : (missing g v).Nodup :=
  (Scope.nodup_pairs (g.increasing v)).filter _

theorem hasEdge_addMissing : (g.addEdges (missing g v)).hasEdge u w ↔
    g.hasEdge u w ∨ u ≠ w ∧ g.hasEdge v u ∧ g.hasEdge v w := by
  have hsize {x : Nat} (hx : g.hasEdge v x) : x < g.size := by
    rw [Graph.hasEdge_comm] at hx
    exact Graph.lt_size_of_hasEdge hx
  rw [Graph.hasEdge_addEdges]
  constructor
  · rintro (hedge | ⟨e, he, hne, -, -, hends⟩)
    · exact Or.inl hedge
    · obtain ⟨⟨h₁, h₂, -⟩, -⟩ := mem_missing.1 he
      obtain ⟨rfl, rfl⟩ | ⟨rfl, rfl⟩ := hends
      · exact Or.inr ⟨hne, h₁, h₂⟩
      · exact Or.inr ⟨hne.symm, h₂, h₁⟩
  · intro hedge
    by_cases hold : g.hasEdge u w = true
    · exact Or.inl hold
    · obtain ⟨hne, hvu, hvw⟩ := hedge.resolve_left hold
      right
      obtain hlt | hlt := lt_or_gt_of_ne hne
      · exact ⟨(u, w), mem_missing.2 ⟨⟨hvu, hvw, hlt⟩, hold⟩, hne, hsize hvu, hsize hvw,
          Or.inl ⟨rfl, rfl⟩⟩
      · refine ⟨(w, u), mem_missing.2 ⟨⟨hvw, hvu, hlt⟩, ?_⟩, hne.symm, hsize hvw, hsize hvu,
          Or.inr ⟨rfl, rfl⟩⟩
        rwa [Graph.hasEdge_comm]

/-- Elimination keeps the edges at other vertices and joins all neighbours. -/
theorem hasEdge_eliminate : (eliminate g v).hasEdge u w ↔
    u ≠ v ∧ w ≠ v ∧ (g.hasEdge u w ∨ u ≠ w ∧ g.hasEdge v u ∧ g.hasEdge v w) := by
  rw [eliminate, Graph.hasEdge_isolate, hasEdge_addMissing]
  tauto

theorem size_eliminate : (eliminate g v).size = g.size := by
  rw [eliminate, Graph.size_isolate, Graph.size_addEdges]

theorem within_eliminate (h : g.Within alive) : (eliminate g v).Within (alive.erase v) := by
  intro x w hedge
  obtain ⟨hx, -, hedge | ⟨-, hvx, -⟩⟩ := hasEdge_eliminate.1 hedge
  · exact Finset.mem_erase.2 ⟨hx, h x w hedge⟩
  · rw [Graph.hasEdge_comm] at hvx
    exact Finset.mem_erase.2 ⟨hx, h x v hvx⟩

/-- The steps that take away all of some vertices from a graph, one after the other. -/
inductive Played : Graph → Finset Nat → List Step → Prop
  | done (g : Graph) : Played g ∅ []
  | step {g : Graph} {alive : Finset Nat} {v : Nat} {rest : List Step} (hv : v ∈ alive)
      (h : Played (eliminate g v) (alive.erase v) rest) :
      Played g alive (⟨v, g.neighbors v, missing g v⟩ :: rest)

/-! The queue -/

theorem perm_enqueue (k : Key) (queue : List Key) : (enqueue k queue).Perm (k :: queue) := by
  induction queue with
  | nil => exact .rfl
  | cons l queue ih =>
    rw [enqueue]
    by_cases h : k.before l = true
    · rw [if_pos h]
    · rw [if_neg h]
      exact (ih.cons l).trans (.swap k l queue)

theorem perm_foldr_enqueue (keys : List Key) : (keys.foldr enqueue []).Perm keys := by
  induction keys with
  | nil => exact .rfl
  | cons k keys ih => exact (perm_enqueue k _).trans (ih.cons k)

namespace Game

variable {game : Game} {rounds : Nat}

/-- The vertices that are left are in the queue with their present keys. -/
structure Holds (alive : Finset Nat) (game : Game) : Prop where
  within : game.graph.Within alive
  queue : (game.queue.map Key.vertex : Multiset Nat) = alive.val
  keys : ∀ v ∈ alive, ∃ k ∈ game.queue, game.keys[v]? = some k ∧ k.vertex = v

theorem holds_start (g : Graph) : (start g).Holds (Finset.range g.size) := by
  have hqueue : (start g).queue.Perm (g.vertices.map (key g)) := perm_foldr_enqueue _
  refine ⟨g.within_range, ?_, fun v hv => ?_⟩
  · rw [Multiset.coe_eq_coe.2 (hqueue.map Key.vertex), List.map_map]
    exact congrArg _ (List.map_id _)
  · have hlt := Finset.mem_range.1 hv
    refine ⟨key g v, hqueue.mem_iff.2 (List.mem_map_of_mem (List.mem_range.2 hlt)), ?_, rfl⟩
    simp [start, Graph.vertices, hlt]

theorem Holds.renew (h : game.Holds alive) (hv : v ∈ alive) : (game.renew v).Holds alive := by
  obtain ⟨old, hold, hget, hvertex⟩ := h.keys v hv
  have hqueue : (game.renew v).queue = enqueue (key game.graph v) (game.queue.erase old) := by
    rw [Game.renew, hget]
  have hperm : (game.renew v).queue.Perm (key game.graph v :: game.queue.erase old) :=
    hqueue ▸ perm_enqueue _ _
  refine ⟨h.within, ?_, fun w hw => ?_⟩
  · rw [← h.queue]
    refine Multiset.coe_eq_coe.2 ((hperm.map _).trans ?_)
    refine List.Perm.trans ?_ ((List.perm_cons_erase hold).map _).symm
    rw [List.map_cons, List.map_cons, hvertex]
    rfl
  · by_cases hwv : w = v
    · subst hwv
      have hlt : w < game.keys.size := (Array.getElem?_eq_some_iff.1 hget).1
      refine ⟨key game.graph w, hperm.mem_iff.2 (by simp), ?_, rfl⟩
      simp [Game.renew, hlt]
    · obtain ⟨k, hk, hkey, hkv⟩ := h.keys w hw
      have hne : k ≠ old := fun heq => hwv (by rw [← hkv, heq, hvertex])
      have hmem : k ∈ game.queue.erase old := (List.mem_erase_of_ne hne).2 hk
      refine ⟨k, hperm.mem_iff.2 (List.mem_cons_of_mem _ hmem), ?_, hkv⟩
      simpa [Game.renew, Array.getElem?_setIfInBounds_ne (Ne.symm hwv)] using hkey

theorem Holds.foldl_renew (l : List Nat) : ∀ game : Game, game.Holds alive → (∀ v ∈ l, v ∈ alive) →
    (l.foldl Game.renew game).Holds alive ∧ (l.foldl Game.renew game).graph = game.graph := by
  induction l with
  | nil =>
    intro game h _
    exact ⟨h, rfl⟩
  | cons v l ih =>
    intro game h hl
    obtain ⟨hv, hl⟩ := List.forall_mem_cons.1 hl
    exact ih (game.renew v) (h.renew hv) hl

theorem mem_of_touched (h : g.Within alive) (hw : w ∈ touched (eliminate g v) (g.neighbors v)) :
    w ∈ alive.erase v := by
  have hstep := within_eliminate (v := v) h
  rw [touched, Scope.mem_ofList, List.mem_append, List.mem_flatMap] at hw
  obtain hw | ⟨u, -, hw⟩ := hw
  · refine Finset.mem_erase.2 ⟨fun hwv => g.irrefl v ?_, h.neighbors_mem hw⟩
    exact hwv ▸ hw
  · exact hstep.neighbors_mem hw

theorem Holds.pop {k : Key} {queue : List Key} (h : game.Holds alive) (hqueue : game.queue = k :: queue) :
    k.vertex ∈ alive ∧
      (⟨eliminate game.graph k.vertex, game.keys, queue⟩ : Game).Holds (alive.erase k.vertex) := by
  have hval : k.vertex ::ₘ (queue.map Key.vertex : Multiset Nat) = alive.val := by
    rw [← h.queue, hqueue]
    rfl
  have hk : k.vertex ∈ alive := by
    rw [← Finset.mem_val, ← hval]
    exact Multiset.mem_cons_self _ _
  refine ⟨hk, within_eliminate h.within, ?_, fun w hw => ?_⟩
  · rw [Finset.erase_val, ← hval, Multiset.erase_cons_head]
  · obtain ⟨hne, hw⟩ := Finset.mem_erase.1 hw
    obtain ⟨l, hl, hkey, hlw⟩ := h.keys w hw
    rw [hqueue] at hl
    obtain rfl | hl := List.mem_cons.1 hl
    · exact absurd hlw.symm hne
    · exact ⟨l, hl, hkey, hlw⟩

theorem Holds.next? (h : game.Holds alive) (halive : alive.Nonempty) : ∃ v ∈ alive, ∃ game' : Game,
    game.next? = some (⟨v, game.graph.neighbors v, missing game.graph v⟩, game') ∧
      game'.graph = eliminate game.graph v ∧ game'.Holds (alive.erase v) := by
  cases hqueue : game.queue with
  | nil =>
    have hval := h.queue
    rw [hqueue] at hval
    exact absurd (Finset.val_eq_zero.1 hval.symm) halive.ne_empty
  | cons k queue =>
    obtain ⟨hk, hpopped⟩ := h.pop hqueue
    obtain ⟨hholds, hgraph⟩ := Holds.foldl_renew
      (touched (eliminate game.graph k.vertex) (game.graph.neighbors k.vertex)) _ hpopped
      fun w hw => mem_of_touched h.within hw
    refine ⟨k.vertex, hk, _, ?_, hgraph, hholds⟩
    rw [Game.next?, hqueue]

theorem Holds.play (rounds : Nat) : ∀ (alive : Finset Nat) (game : Game), game.Holds alive →
    alive.card ≤ rounds → Played game.graph alive (game.play rounds) := by
  induction rounds with
  | zero =>
    intro alive game _ hcard
    obtain rfl := Finset.card_eq_zero.1 (Nat.le_zero.1 hcard)
    exact .done _
  | succ rounds ih =>
    intro alive game h hcard
    obtain rfl | halive := alive.eq_empty_or_nonempty
    · have hqueue : game.queue = [] := by
        have hval := h.queue
        simpa using hval
      rw [Game.play, Game.next?, hqueue]
      exact .done _
    · obtain ⟨v, hv, game', hnext, hgraph, h'⟩ := h.next? halive
      rw [Game.play, hnext]
      have hless := Finset.card_erase_lt_of_mem hv
      exact .step hv (hgraph ▸ ih _ game' h' (by omega))

end Game

theorem played_steps (g : Graph) : Played g (Finset.range g.size) (steps g) :=
  Game.Holds.play g.size _ _ (Game.holds_start g) (Finset.card_range g.size).le

end Elimination
end Bayes
