import Bayes.Proofs.JunctionTree.Heaviest
/-!
Every tree that is built is a rooted junction tree, and all that is recorded of it fits together: the
separators are the edges of a tree on the cliques, the walk from the root lists the cliques by depth with
parents before their children, and parents, children and depths are those of this tree.
-/
namespace Bayes.JunctionTree
open Forest

variable {cliques : Array (List Nat)} {separators : List Separator} {t : JunctionTree} {c d : Nat}

/-! The order of the visits -/

/-- Breadth first means by depth: what waits lies no more than one level below the next visit, where the
visits that this one adds belong. -/
theorem pairwise_depth_walk (separators : List Separator) (steps : Nat) :
    ∀ waiting done : List Visit,
      ((done.reverse ++ waiting).Pairwise fun u w => u.depth ≤ w.depth) →
      (∀ u ∈ waiting, ∀ w ∈ waiting, w.depth ≤ u.depth + 1) →
      (walk separators steps waiting done).Pairwise fun u w => u.depth ≤ w.depth := by
  induction steps with
  | zero =>
    intro waiting done h _
    exact (List.pairwise_append.1 h).1
  | succ steps ih =>
    intro waiting done h hnear
    cases waiting with
    | nil => exact (List.pairwise_append.1 h).1
    | cons u waiting =>
      obtain ⟨hdone, hwaiting, hacross⟩ := List.pairwise_append.1 h
      obtain ⟨hu, hwaiting⟩ := List.pairwise_cons.1 hwaiting
      have hbelow : ∀ w ∈ done.reverse ++ u :: waiting, w.depth ≤ u.depth + 1 :=
        List.forall_mem_append.2
          ⟨fun w hw => (hacross w hw u List.mem_cons_self).trans (Nat.le_succ _),
            fun w hw => hnear u List.mem_cons_self w hw⟩
      let seen := (done ++ u :: waiting).map (·.clique)
      let next := (links separators u.clique).filter fun l => !seen.contains l.1
      have hrange : ∀ w ∈ waiting ++ next.map (visitOf u), u.depth ≤ w.depth ∧ w.depth ≤ u.depth + 1 :=
        List.forall_mem_append.2
          ⟨fun w hw => ⟨hu w hw, hnear u List.mem_cons_self w (List.mem_cons_of_mem _ hw)⟩,
            List.forall_mem_map.2 fun l _ => ⟨Nat.le_succ _, le_rfl⟩⟩
      have hsorted : (done.reverse ++ u :: waiting ++ next.map (visitOf u)).Pairwise
          fun u w => u.depth ≤ w.depth := by
        refine List.pairwise_append.2 ⟨h, ?_, fun w hw v hv => ?_⟩
        · exact List.pairwise_map.2 (List.pairwise_of_forall fun _ _ => le_rfl)
        · obtain ⟨l, -, rfl⟩ := List.mem_map.1 hv
          exact hbelow w hw
      refine ih (waiting ++ next.map (visitOf u)) (u :: done) (by simpa using hsorted) ?_
      exact fun v hv w hw => (hrange w hw).2.trans (Nat.succ_le_succ (hrange v hv).1)

theorem idxOf_lt_of_pairwise {R : Nat → Nat → Prop} {l : List Nat} (h : l.Pairwise R) (hc : c ∈ l)
    (hd : d ∈ l) (hne : c ≠ d) (hR : ¬ R c d) : l.idxOf d < l.idxOf c := by
  by_contra hle
  have hc' := List.idxOf_lt_length_of_mem hc
  have hd' := List.idxOf_lt_length_of_mem hd
  have hidx : l.idxOf c ≠ l.idxOf d := fun heq => hne ((List.idxOf_inj hc).1 heq)
  have hfirst := List.pairwise_iff_getElem.1 h _ _ hc' hd' (by omega)
  rw [List.getElem_idxOf, List.getElem_idxOf] at hfirst
  exact hR hfirst

/-! Well-formed trees -/

/-- The separators are the edges of a tree, on which the cliques of every variable are connected. -/
structure Framed (t : JunctionTree) : Prop where
  length_separators : t.separators.length + 1 = t.size
  separator : ∀ s ∈ t.separators, s.lower < s.upper ∧ s.upper < t.size ∧
    Scope.Increasing s.shared ∧ ∀ v, v ∈ s.shared ↔ v ∈ t.clique s.lower ∧ v ∈ t.clique s.upper
  isTree : (graphOf t.size t.separators).IsTree
  between : ∀ (a b : Fin t.size) (p : (graphOf t.size t.separators).Walk a b), p.IsPath →
    ∀ v, v ∈ t.clique a → v ∈ t.clique b → ∀ c ∈ p.support, v ∈ t.clique c

/-- The orders list every clique once: from the first clique down, and from the deepest cliques up. -/
structure Ordered (t : JunctionTree) : Prop where
  preorder_perm : t.preorder.Perm (List.range t.size)
  preorder_head : t.preorder.head? = some 0
  depths : (t.preorder.map t.depth).Pairwise (· ≤ ·)
  after_parent : ∀ c p, t.parent? c = some p → t.preorder.idxOf p < t.preorder.idxOf c
  postorder_perm : t.postorder.Perm (List.range t.size)
  after_children : ∀ c, ∀ d ∈ t.children c, t.postorder.idxOf d < t.postorder.idxOf c

/-- Parents, children, depths and the separators above are those of the tree, seen from its root. -/
structure Linked (t : JunctionTree) : Prop where
  root : t.root = 0 ∧ t.parent? 0 = none ∧ t.depth 0 = 0 ∧ t.separatorAbove 0 = []
  parent : ∀ c < t.size, c ≠ 0 → ∃ p < t.size, t.parent? c = some p ∧ t.depth c = t.depth p + 1 ∧
    Scope.Increasing (t.separatorAbove c) ∧
    ∀ v, v ∈ t.separatorAbove c ↔ v ∈ t.clique c ∧ v ∈ t.clique p
  adj_iff : ∀ a b : Fin t.size, (graphOf t.size t.separators).Adj a b ↔
    t.parent? a = some b.val ∨ t.parent? b = some a.val
  nodup_children : ∀ c, (t.children c).Nodup
  mem_children : ∀ c d, d ∈ t.children c ↔ t.parent? d = some c

structure WellFormed (t : JunctionTree) : Prop extends Framed t, Ordered t, Linked t

namespace Walked

variable (w : Walked t)
include w

theorem length_separators : t.separators.length + 1 = t.size := by
  have hcount := w.spanning.sum_edges fun _ => 1
  have htree := (SimpleGraph.isTree_iff_connected_and_card.1 w.spanning.isTree).2
  rw [← card_edges, Nat.card_eq_fintype_card, Fintype.card_fin] at htree
  have hsize : t.size = t.cliques.size := rfl
  simp only [Finset.sum_const, smul_eq_mul, mul_one, List.map_const', List.sum_replicate] at hcount
  omega

theorem framed (h : t.violation? = none) : Framed t where
  length_separators := w.length_separators
  separator s hs := by
    obtain ⟨hlt, hup⟩ := w.spanning.ends_lt s hs
    have hshared := w.spanning.shared_eq s hs
    refine ⟨hlt, hup, hshared ▸ Scope.increasing_inter (w.increasing s.lower) _, fun v => ?_⟩
    rw [hshared]
    exact Scope.mem_inter
  isTree := w.spanning.isTree
  between a b p hp v ha hb c hc := by
    have hjunction := (violation?_eq_none_iff w.spanning).1 h
    exact mem_members.1 (hjunction.mem_of_mem_path hp (mem_members.2 ha) (mem_members.2 hb) hc)

theorem mem_preorder_of_parent? {p : Nat} (hp : t.parent? c = some p) :
    c ∈ t.preorder ∧ p ∈ t.preorder ∧ c ≠ p := by
  obtain ⟨hc, hcr⟩ := w.parent?_some hp
  obtain ⟨q, hq, hcq, hdepth, -⟩ := w.parent_spec hc hcr
  obtain rfl : q = p := Option.some.inj (hcq.symm.trans hp)
  refine ⟨w.mem_preorder.2 hc, w.mem_preorder.2 hq, ?_⟩
  rintro rfl
  omega

theorem mem_children_iff : d ∈ t.children c ↔ t.parent? d = some c := by
  rw [mem_children w.grown.nodup, and_iff_right_of_imp]
  exact fun hp => (w.mem_preorder_of_parent? hp).1

theorem ordered (hdepth : t.visits.Pairwise fun u v => u.depth ≤ v.depth) : Ordered t := by
  have hnodup : t.preorder.Nodup := w.grown.nodup
  have hperm : t.preorder.Perm (List.range t.size) :=
    (List.perm_ext_iff_of_nodup hnodup List.nodup_range).2 fun c =>
      w.mem_preorder.trans List.mem_range.symm
  have hparents : t.preorder.Pairwise fun a b => t.parent? a ≠ some b := by
    refine List.pairwise_map.2 (w.grown.ordered.imp_of_mem fun {u v} hu _ huv => ?_)
    rwa [parent?_eq hnodup hu]
  refine ⟨hperm, ?_, ?_, fun c p hp => ?_, (List.reverse_perm _).trans hperm, fun c d hd => ?_⟩
  · rw [preorder, List.head?_map, w.grown.head?]
    rfl
  · rw [preorder, List.map_map]
    refine List.pairwise_map.2 (hdepth.imp_of_mem fun {u v} hu hv huv => ?_)
    simpa [depth, visit?_eq hnodup hu, visit?_eq hnodup hv] using huv
  · obtain ⟨hc, hp', hne⟩ := w.mem_preorder_of_parent? hp
    exact idxOf_lt_of_pairwise hparents hc hp' hne (not_not_intro hp)
  · have hp := w.mem_children_iff.1 hd
    obtain ⟨hd', hc, hne⟩ := w.mem_preorder_of_parent? hp
    exact idxOf_lt_of_pairwise (List.pairwise_reverse.2 hparents) (List.mem_reverse.2 hc)
      (List.mem_reverse.2 hd') hne.symm (not_not_intro hp)

theorem linked : Linked t where
  root := by
    have hvisit := w.visit?_root
    rw [w.root_eq] at hvisit
    exact ⟨w.root_eq, by simp [parent?, hvisit], by simp [depth, hvisit],
      by simp [separatorAbove, hvisit]⟩
  parent c hc hc0 := by
    obtain ⟨p, hlt, hp, hdepth, -⟩ := w.parent_spec hc (w.root_eq ▸ hc0)
    have hshared := w.separator_eq hp
    refine ⟨p, hlt, hp, hdepth, hshared ▸ Scope.increasing_inter (w.increasing c) _, fun v => ?_⟩
    rw [hshared]
    exact Scope.mem_inter
  adj_iff a b := by
    have hjoined {x y : Fin t.size} (hp : t.parent? x = some y.val) :
        (graphOf t.size t.separators).Adj x y := by
      obtain ⟨hx, hxr⟩ := w.parent?_some hp
      obtain ⟨q, -, hq, -, hedge⟩ := w.parent_spec hx hxr
      obtain rfl : q = y := Option.some.inj (hq.symm.trans hp)
      refine ⟨fun heq => (w.mem_preorder_of_parent? hp).2.2 (congrArg Fin.val heq), ?_⟩
      rwa [edge_comm]
    refine ⟨fun hadj => ?_, fun hp => hp.elim hjoined fun hp => (hjoined hp).symm⟩
    obtain ⟨s, hs, hends⟩ := List.mem_map.1 hadj.2
    obtain ⟨c, p, hp, hedge⟩ := w.exists_above hs
    have hlt := (w.spanning.ends_lt s hs).1
    obtain ⟨ha, hb⟩ | ⟨ha, hb⟩ := (edge_eq_iff hlt).1 hends.symm <;>
      obtain ⟨rfl, rfl⟩ | ⟨rfl, rfl⟩ := (edge_eq_iff hlt).1 hedge
    · exact Or.inr (by rw [ha, hb, hp])
    · exact Or.inl (by rw [ha, hb, hp])
    · exact Or.inl (by rw [ha, hb, hp])
    · exact Or.inr (by rw [ha, hb, hp])
  nodup_children := nodup_children w.grown.nodup
  mem_children _ _ := w.mem_children_iff

end Walked

/-- The tree that is built for some cliques is well-formed. -/
theorem build_wellFormed {α : Type} {cliques : List (List Nat)} (h : build (α := α) cliques = .ok t) :
    t.cliques = arranged cliques ∧ t.WellFormed := by
  obtain ⟨h0, hinc⟩ := arranged_spec cliques
  have w := walked_rooted h0 hinc
  have hdepth := pairwise_depth_walk (spanning (arranged cliques)) (arranged cliques).size
    [⟨0, none, [], 0⟩] [] (by simp) (by simp)
  cases hv : (rooted (arranged cliques) (spanning (arranged cliques))).violation? with
  | some v => simp [build, hv] at h
  | none =>
    obtain rfl : rooted (arranged cliques) (spanning (arranged cliques)) = t := by
      simpa [build, hv] using h
    exact ⟨rfl, w.framed hv, w.ordered hdepth, w.linked⟩

/-- Two cliques with a common variable, and a third one that is chained to the first. -/
theorem build_wellFormed_of_pair_and_point : ∃ t : JunctionTree,
    build (α := Float) [[2, 1], [0, 1], [3]] = .ok t ∧ t.postorder = [2, 1, 0] ∧ t.WellFormed := by
  have hbuild : build (α := Float) [[2, 1], [0, 1], [3]] = .ok ⟨#[[1, 2], [0, 1], [3]],
      [⟨0, 1, [1]⟩, ⟨0, 2, []⟩],
      [⟨0, none, [], 0⟩, ⟨1, some 0, [1], 1⟩, ⟨2, some 0, [], 1⟩], []⟩ := by cbv
  exact ⟨_, hbuild, rfl, (build_wellFormed hbuild).2⟩

end Bayes.JunctionTree
