import Mathlib.Data.Prod.Lex
import Bayes.Proofs.Graph.Chordal
import Bayes.Proofs.Triangulation
/-!
The order of elimination is that of the plain min-fill game, which looks at every vertex that is left in
every round. A vertex whose key a step does not renew has no neighbour among those of the vertex that is
taken away, so its neighbours and the edges between them stay; the keys in the queue are therefore
always those of the graph as it is, and the queue begins with the least of them.
-/
namespace Bayes

namespace MinFill
open Finset SimpleGraph

def eliminated (G : SimpleGraph Nat) (v : Nat) : SimpleGraph Nat where
  Adj u w := u ≠ v ∧ w ≠ v ∧ (G.Adj u w ∨ u ≠ w ∧ G.Adj v u ∧ G.Adj v w)
  symm := ⟨fun _ _ h => ⟨h.2.1, h.1, h.2.2.imp (·.symm) fun h => ⟨h.1.symm, h.2.2, h.2.1⟩⟩⟩
  loopless := ⟨fun _ h => h.2.2.elim (·.ne rfl) (·.1 rfl)⟩

open Classical in
noncomputable def around (G : SimpleGraph Nat) (left : Finset Nat) (v : Nat) : Finset Nat :=
  left.filter (G.Adj v)

open Classical in
noncomputable def lacking (G : SimpleGraph Nat) (left : Finset Nat) (v : Nat) : Finset (Nat × Nat) :=
  (around G left v ×ˢ around G left v).filter fun e => e.1 < e.2 ∧ ¬ G.Adj e.1 e.2

/-- How many edges are missing, how large the clique is, and which vertex it is, compared in this
order. -/
noncomputable def rank (G : SimpleGraph Nat) (left : Finset Nat) (v : Nat) : Nat ×ₗ Nat ×ₗ Nat :=
  toLex ((lacking G left v).card, toLex ((around G left v).card + 1, v))

/-- The plain game: of all vertices that are left the one with the least rank goes next. -/
inductive Plays : SimpleGraph Nat → Finset Nat → List Nat → Prop
  | done (G : SimpleGraph Nat) : Plays G ∅ []
  | step {G : SimpleGraph Nat} {left : Finset Nat} {v : Nat} {rest : List Nat} (hv : v ∈ left)
      (hleast : ∀ w ∈ left, rank G left v ≤ rank G left w)
      (h : Plays (eliminated G v) (left.erase v) rest) : Plays G left (v :: rest)

theorem rank_injective {G : SimpleGraph Nat} {left : Finset Nat} : (rank G left).Injective :=
  fun _ _ h => congrArg (fun r => (ofLex (ofLex r).2).2) h

theorem Plays.unique {G : SimpleGraph Nat} {left : Finset Nat} {l : List Nat} (h : Plays G left l) :
    ∀ {l'}, Plays G left l' → l = l' := by
  induction h with
  | done G =>
    intro l' h'
    cases h' with
    | done => rfl
    | step hv _ _ => exact absurd hv (notMem_empty _)
  | @step G left v rest hv hleast _ ih =>
    intro l' h'
    cases h' with
    | done => exact absurd hv (notMem_empty _)
    | @step _ _ w _ hw hleast' h' =>
      obtain rfl : v = w := rank_injective (le_antisymm (hleast w hw) (hleast' v hv))
      rw [ih h']

end MinFill

namespace Elimination
open MinFill

variable {g : Graph} {alive : Finset Nat} {u v w x y : Nat} {k l : Key} {queue : List Key}

/-! Keys -/

def Key.rank (k : Key) : Nat ×ₗ Nat ×ₗ Nat := toLex (k.fillIn, toLex (k.cliqueSize, k.vertex))

theorem Key.before_iff : k.before l = true ↔ k.rank < l.rank := by
  simp [before, rank, Prod.Lex.toLex_lt_toLex]

def Ordered (queue : List Key) : Prop := queue.Pairwise fun k l => k.rank ≤ l.rank

theorem Ordered.enqueue (h : Ordered queue) : Ordered (enqueue k queue) := by
  induction queue with
  | nil => exact List.pairwise_singleton _ _
  | cons l queue ih =>
    obtain ⟨hl, hqueue⟩ := List.pairwise_cons.1 h
    rw [Elimination.enqueue]
    by_cases hkl : k.before l = true
    · have hlt := Key.before_iff.1 hkl
      rw [if_pos hkl]
      exact List.pairwise_cons.2 ⟨List.forall_mem_cons.2 ⟨hlt.le, fun m hm => hlt.le.trans (hl m hm)⟩, h⟩
    · have hle := not_lt.1 (mt Key.before_iff.2 hkl)
      rw [if_neg hkl]
      refine List.pairwise_cons.2 ⟨fun m hm => ?_, ih hqueue⟩
      obtain rfl | hm := List.mem_cons.1 ((perm_enqueue k queue).mem_iff.1 hm)
      · exact hle
      · exact hl m hm

theorem ordered_foldr_enqueue (keys : List Key) : Ordered (keys.foldr enqueue []) := by
  induction keys with
  | nil => exact .nil
  | cons k keys ih => exact ih.enqueue

/-! The key of a vertex is its rank -/

theorem around_toSimple (h : g.Within alive) : around g.toSimple alive v = (g.neighbors v).toFinset := by
  classical
  ext w
  have hadj : g.toSimple.Adj v w ↔ w ∈ g.neighbors v := g.hasEdge_iff v w
  rw [around, Finset.mem_filter, List.mem_toFinset, hadj]
  exact ⟨And.right, fun hw => ⟨h.neighbors_mem hw, hw⟩⟩

theorem lacking_toSimple (h : g.Within alive) : lacking g.toSimple alive v = (missing g v).toFinset := by
  ext e
  have hadj : g.toSimple.Adj e.1 e.2 ↔ g.hasEdge e.1 e.2 = true := Iff.rfl
  simp only [lacking, around_toSimple h, Finset.mem_filter, Finset.mem_product, List.mem_toFinset,
    mem_missing, hadj, g.hasEdge_iff v]
  tauto

theorem rank_toSimple (h : g.Within alive) : rank g.toSimple alive v = (key g v).rank := by
  rw [rank, around_toSimple h, lacking_toSimple h, List.toFinset_card_of_nodup (nodup_missing g v),
    List.toFinset_card_of_nodup (g.nodup_neighbors v)]
  rfl

theorem eliminated_toSimple (g : Graph) (v : Nat) :
    eliminated g.toSimple v = (eliminate g v).toSimple := by
  ext u w
  exact hasEdge_eliminate.symm

/-! Keys that stay -/

theorem mem_touched {later : List Nat} :
    w ∈ Game.touched g later ↔ w ∈ later ∨ ∃ u ∈ later, w ∈ g.neighbors u := by
  rw [Game.touched, Scope.mem_ofList, List.mem_append, List.mem_flatMap]

theorem neighbors_eliminate (hwv : w ≠ v) (hw : w ∉ g.neighbors v) :
    (eliminate g v).neighbors w = g.neighbors w := by
  refine Scope.Increasing.ext ((eliminate g v).increasing w) (g.increasing w) fun x => ?_
  have hvw : ¬ g.hasEdge v w := mt (g.hasEdge_iff v w).1 hw
  change x ∈ (eliminate g v).neighbors w ↔ x ∈ g.neighbors w
  rw [← Graph.hasEdge_iff, ← Graph.hasEdge_iff, hasEdge_eliminate]
  refine ⟨fun hx => hx.2.2.resolve_right fun hboth => hvw hboth.2.1, fun hx => ⟨hwv, ?_, Or.inl hx⟩⟩
  rintro rfl
  rw [Graph.hasEdge_comm] at hx
  exact hvw hx

/-- A vertex that is not touched keeps its neighbours, and these keep the edges between them: none of
them is a neighbour of the vertex that is taken away. -/
theorem key_eliminate (hwv : w ≠ v) (hw : w ∉ Game.touched (eliminate g v) (g.neighbors v)) :
    key (eliminate g v) w = key g w := by
  rw [mem_touched, not_or, not_exists] at hw
  obtain ⟨hlater, hfar⟩ := hw
  have hneighbors := neighbors_eliminate hwv hlater
  have hsymm {x z : Nat} (hx : x ∈ (eliminate g v).neighbors z) : z ∈ (eliminate g v).neighbors x :=
    (eliminate g v).symm z x hx
  have hnot {x : Nat} (hx : x ∈ g.neighbors w) : ¬ g.hasEdge v x := fun hvx =>
    hfar x ⟨(g.hasEdge_iff v x).1 hvx, hsymm (hneighbors ▸ hx)⟩
  have hne {x : Nat} (hx : x ∈ g.neighbors w) : x ≠ v := fun hxv =>
    hlater (g.symm w v (hxv ▸ hx))
  have hedge {x y : Nat} (hx : x ∈ g.neighbors w) (hy : y ∈ g.neighbors w) :
      (eliminate g v).hasEdge x y = g.hasEdge x y := by
    rw [Bool.eq_iff_iff, hasEdge_eliminate]
    exact ⟨fun h => h.2.2.resolve_right fun h => hnot hx h.2.1, fun h => ⟨hne hx, hne hy, Or.inl h⟩⟩
  have hmissing : missing (eliminate g v) w = missing g w := by
    rw [missing, missing, hneighbors]
    refine List.filter_congr fun e he => ?_
    obtain ⟨hx, hy, -⟩ := (Scope.mem_pairs (g.increasing w)).1 he
    rw [hedge hx hy]
  rw [key, key, hmissing, Graph.degree, Graph.degree, hneighbors]

namespace Game

variable {game : Game} {stale : List Nat}

/-- The queue is in order, and the keys are those of the graph as it is, except perhaps those of some
vertices that are still to be renewed. -/
structure Fresh (stale : List Nat) (alive : Finset Nat) (game : Game) : Prop where
  holds : game.Holds alive
  ordered : Ordered game.queue
  keys : ∀ v ∈ alive, v ∉ stale → game.keys[v]? = some (key game.graph v)

theorem fresh_start (g : Graph) : (start g).Fresh [] (Finset.range g.size) := by
  refine ⟨holds_start g, ordered_foldr_enqueue _, fun v hv _ => ?_⟩
  simp [start, Graph.vertices, Finset.mem_range.1 hv]

theorem Fresh.renew (h : game.Fresh (v :: stale) alive) (hv : v ∈ alive) :
    (game.renew v).Fresh stale alive := by
  obtain ⟨old, -, hget, -⟩ := h.holds.keys v hv
  have hlt : v < game.keys.size := (Array.getElem?_eq_some_iff.1 hget).1
  refine ⟨h.holds.renew hv, ?_, fun w hw hstale => ?_⟩
  · have hqueue : (game.renew v).queue = enqueue (key game.graph v) (game.queue.erase old) := by
      rw [Game.renew, hget]
    rw [hqueue]
    exact Ordered.enqueue (List.Pairwise.sublist List.erase_sublist h.ordered)
  · by_cases hwv : v = w
    · subst hwv
      simp [Game.renew, hlt]
    · have hkey := h.keys w hw (by simp [Ne.symm hwv, hstale])
      simpa [Game.renew, Array.getElem?_setIfInBounds_ne hwv] using hkey

theorem Fresh.foldl_renew (stale : List Nat) : ∀ game : Game, game.Fresh stale alive →
    (∀ v ∈ stale, v ∈ alive) → (stale.foldl Game.renew game).Fresh [] alive := by
  induction stale with
  | nil => exact fun game h _ => h
  | cons v stale ih =>
    intro game h hstale
    obtain ⟨hv, hstale⟩ := List.forall_mem_cons.1 hstale
    exact ih (game.renew v) (h.renew hv) hstale

theorem Holds.nodup_queue (h : game.Holds alive) : (game.queue.map Key.vertex).Nodup := by
  rw [← Multiset.coe_nodup, h.queue]
  exact alive.nodup

theorem Fresh.mem_queue (h : game.Fresh [] alive) (hv : v ∈ alive) : key game.graph v ∈ game.queue := by
  obtain ⟨k, hk, hget, -⟩ := h.holds.keys v hv
  obtain rfl : k = key game.graph v := Option.some.inj (hget.symm.trans (h.keys v hv (by simp)))
  exact hk

theorem Fresh.next? (h : game.Fresh [] alive) (halive : alive.Nonempty) : ∃ v ∈ alive, ∃ game' : Game,
    game.next? = some (⟨v, game.graph.neighbors v, missing game.graph v⟩, game') ∧
      game'.graph = eliminate game.graph v ∧ game'.Fresh [] (alive.erase v) ∧
      ∀ w ∈ alive, (key game.graph v).rank ≤ (key game.graph w).rank := by
  cases hqueue : game.queue with
  | nil =>
    obtain ⟨v, hv⟩ := halive
    simpa [hqueue] using h.mem_queue hv
  | cons k queue =>
    obtain ⟨hk, hpopped⟩ := h.holds.pop hqueue
    have hordered : Ordered (k :: queue) := hqueue ▸ h.ordered
    obtain ⟨hleast, hrest⟩ := List.pairwise_cons.1 hordered
    have hall (w : Nat) (hw : w ∈ alive) : k.rank ≤ (key game.graph w).rank := by
      have hmem := h.mem_queue hw
      rw [hqueue] at hmem
      obtain heq | hmem := List.mem_cons.1 hmem
      · exact (congrArg Key.rank heq).ge
      · exact hleast _ hmem
    have hpresent : key game.graph k.vertex = k :=
      List.inj_on_of_nodup_map h.holds.nodup_queue (h.mem_queue hk) (by simp [hqueue]) rfl
    have hmem : ∀ w ∈ touched (eliminate game.graph k.vertex) (game.graph.neighbors k.vertex),
        w ∈ alive.erase k.vertex := fun w => mem_of_touched h.holds.within
    have hfresh : (⟨eliminate game.graph k.vertex, game.keys, queue⟩ : Game).Fresh
        (touched (eliminate game.graph k.vertex) (game.graph.neighbors k.vertex))
        (alive.erase k.vertex) := by
      refine ⟨hpopped, hrest, fun w hw hstale => ?_⟩
      obtain ⟨hne, hw⟩ := Finset.mem_erase.1 hw
      rw [key_eliminate hne hstale]
      exact h.keys w hw (by simp)
    refine ⟨k.vertex, hk, _, by rw [Game.next?, hqueue], ?_, Fresh.foldl_renew _ _ hfresh hmem, ?_⟩
    · exact (Holds.foldl_renew _ _ hpopped hmem).2
    · rwa [hpresent]

theorem Fresh.next?_empty (h : game.Fresh [] ∅) : game.next? = none := by
  have hqueue : game.queue = [] := by
    have hval := h.holds.queue
    simpa using hval
  rw [Game.next?, hqueue]

theorem Fresh.plays (rounds : Nat) : ∀ (alive : Finset Nat) (game : Game), game.Fresh [] alive →
    alive.card = rounds → Plays game.graph.toSimple alive ((game.play rounds).map (·.vertex)) := by
  induction rounds with
  | zero =>
    intro alive game _ hcard
    obtain rfl := Finset.card_eq_zero.1 hcard
    exact .done _
  | succ rounds ih =>
    intro alive game h hcard
    have halive : alive.Nonempty := Finset.card_pos.1 (by omega)
    obtain ⟨v, hv, game', hnext, hgraph, h', hleast⟩ := h.next? halive
    have hrest : (alive.erase v).card = rounds := by
      rw [Finset.card_erase_of_mem hv, hcard, Nat.add_sub_cancel]
    rw [Game.play, hnext]
    refine .step hv (fun w hw => ?_) ?_
    · rw [rank_toSimple h.holds.within, rank_toSimple h.holds.within]
      exact hleast w hw
    · rw [eliminated_toSimple, ← hgraph]
      exact ih (alive.erase v) game' h' hrest

theorem Fresh.play_eq_take (rounds : Nat) : ∀ (alive : Finset Nat) (game : Game), game.Fresh [] alive →
    game.play rounds = (game.play alive.card).take rounds := by
  induction rounds with
  | zero =>
    intro alive game _
    rfl
  | succ rounds ih =>
    intro alive game h
    obtain rfl | halive := alive.eq_empty_or_nonempty
    · rw [Game.play, h.next?_empty]
      rfl
    · obtain ⟨v, hv, game', hnext, -, h', -⟩ := h.next? halive
      have hcard : alive.card = (alive.erase v).card + 1 := (Finset.card_erase_add_one hv).symm
      rw [hcard, Game.play, Game.play, hnext, List.take_succ_cons, ← ih _ game' h']

end Game

/-- The vertices are taken away in the order of the plain game, each in one round of the loop: after as
many rounds as there are vertices nothing is left. -/
theorem steps_minFill (g : Graph) (cardinalities : List Nat) :
    (∀ order, Plays g.toSimple (Finset.range g.size) order ↔
      order = (g.triangulate cardinalities).order) ∧
    (∀ rounds, (Game.start g).play rounds = (steps g).take rounds) ∧ (steps g).length = g.size ∧
    (g.triangulate cardinalities).order.Perm g.vertices := by
  have hfresh := Game.fresh_start g
  have hplays : Plays g.toSimple (Finset.range g.size) (g.triangulate cardinalities).order :=
    Game.Fresh.plays g.size _ _ hfresh (Finset.card_range g.size)
  have hvertices : ((steps g).map (·.vertex) : Multiset Nat) = (Finset.range g.size).val :=
    (played_steps g).vertices
  have hperm : ((steps g).map (·.vertex)).Perm (List.range g.size) := Multiset.coe_eq_coe.1 hvertices
  refine ⟨fun order => ⟨fun h => h.unique hplays, fun h => h ▸ hplays⟩, fun rounds => ?_, ?_, hperm⟩
  · have htake := hfresh.play_eq_take rounds
    rwa [Finset.card_range] at htake
  · simpa using hperm.length_eq

end Elimination
end Bayes
