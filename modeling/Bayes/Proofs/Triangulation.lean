import Bayes.Network.Moral
import Bayes.Proofs.Elimination
import Bayes.Proofs.JunctionTree.Ear
import Bayes.Triangulation
/-!
The cliques of a triangulation. A clique of the graph lies inside the clique of the first step that takes
away one of its vertices. So the clique of a step is an ear of the later ones, or one of them with one
vertex more; and the maximal cliques have a junction tree and cover all cliques of the graph.
-/
namespace Bayes

theorem Network.size_moralize {α : Type} (n : Network α) : n.moralize.size = n.size := by
  rw [moralize, Graph.size_addEdges, Graph.size_edgeless]

namespace Elimination

def Step.clique (s : Step) : Finset Nat := insert s.vertex s.later.toFinset

variable {g : Graph} {alive : Finset Nat} {steps rest : List Step} {s t : Step} {v : Nat}

theorem Step.mem_clique : v ∈ s.clique ↔ v = s.vertex ∨ v ∈ s.later := by
  rw [clique, Finset.mem_insert, List.mem_toFinset]

theorem Played.vertices (h : Played g alive steps) :
    (steps.map (·.vertex) : Multiset Nat) = alive.val := by
  induction h with
  | done g => rfl
  | @step g alive v rest hv _ ih =>
    rw [List.map_cons, ← Multiset.cons_coe, ih, Finset.erase_val]
    exact Multiset.cons_erase hv

theorem Played.nodup (h : Played g alive steps) : (steps.map (·.vertex)).Nodup := by
  rw [← Multiset.coe_nodup, h.vertices]
  exact alive.nodup

theorem Played.clique_subset (h : Played g alive steps) :
    g.Within alive → ∀ s ∈ steps, s.clique ⊆ alive := by
  induction h with
  | done g => simp
  | @step g alive v rest hv _ ih =>
    intro hg s hs w hw
    obtain rfl | hs := List.mem_cons.1 hs
    · obtain rfl | hw := Step.mem_clique.1 hw
      · exact hv
      · exact hg.neighbors_mem hw
    · exact Finset.mem_of_mem_erase (ih (within_eliminate hg) s hs hw)

/-- The first step that takes away a vertex of a clique has the whole clique before it. -/
theorem Played.exists_clique {K : List Nat} (h : Played g alive steps) (hne : K ≠ []) :
    (∀ v ∈ K, v ∈ alive) → (∀ v ∈ K, ∀ w ∈ K, v ≠ w → g.hasEdge v w) →
      ∃ t, steps.find? (fun s => K.contains s.vertex) = some t ∧ ∀ v ∈ K, v ∈ t.clique := by
  induction h with
  | done g =>
    intro hK _
    obtain ⟨v, hv⟩ := List.exists_mem_of_ne_nil K hne
    exact absurd (hK v hv) (Finset.notMem_empty v)
  | @step g alive v rest hv _ ih =>
    intro hK hadj
    by_cases hvK : v ∈ K
    · refine ⟨_, List.find?_cons_of_pos (List.contains_iff_mem.2 hvK), fun w hw => ?_⟩
      rw [Step.mem_clique]
      by_cases hwv : w = v
      · exact Or.inl hwv
      · exact Or.inr ((g.hasEdge_iff v w).1 (hadj v hvK w hw (Ne.symm hwv)))
    · have hother (w : Nat) (hw : w ∈ K) : w ≠ v := fun hwv => hvK (hwv ▸ hw)
      obtain ⟨t, ht, hclique⟩ := ih
        (fun w hw => Finset.mem_erase.2 ⟨hother w hw, hK w hw⟩)
        fun x hx w hw hne => hasEdge_eliminate.2 ⟨hother x hx, hother w hw, Or.inl (hadj x hx w hw hne)⟩
      exact ⟨t, (List.find?_cons_of_neg (by simpa using hvK)).trans ht, hclique⟩

/-- The neighbours of a vertex are a clique once it is gone, so one of the later steps has them all. -/
theorem Played.neighbors_cases (h : Played (eliminate g v) (alive.erase v) rest) (hg : g.Within alive) :
    g.neighbors v = [] ∨ ∃ t, rest.find? (fun t => (g.neighbors v).contains t.vertex) = some t ∧
      ∀ w ∈ g.neighbors v, w ∈ t.clique := by
  have hother (w : Nat) (hw : w ∈ g.neighbors v) : w ≠ v := fun hwv => g.irrefl v (hwv ▸ hw)
  by_cases hnil : g.neighbors v = []
  · exact Or.inl hnil
  · refine Or.inr (h.exists_clique hnil (fun w hw => ?_) fun x hx w hw hne => ?_)
    · exact Finset.mem_erase.2 ⟨hother w hw, hg.neighbors_mem hw⟩
    · exact hasEdge_eliminate.2 ⟨hother x hx, hother w hw,
        Or.inr ⟨hne, (g.hasEdge_iff v x).2 hx, (g.hasEdge_iff v w).2 hw⟩⟩

end Elimination

namespace Triangulation
open Elimination JunctionTree

variable {g : Graph} {alive : Finset Nat} {steps rest : List Step} {s t : Step} {v : Nat}
  {others : Multiset (Finset Nat)}

theorem absorbed_of_none (h : (rest.find? fun t => s.later.contains t.vertex) = none) :
    absorbed (s :: rest) = absorbed rest := by
  rw [absorbed, h]

theorem absorbed_of_some (h : (rest.find? fun t => s.later.contains t.vertex) = some t) :
    absorbed (s :: rest) =
      if s.later.length = t.later.length + 1 then t.vertex :: absorbed rest else absorbed rest := by
  rw [absorbed, h]

theorem mem_absorbed (hv : v ∈ absorbed steps) : v ∈ steps.map (·.vertex) := by
  induction steps with
  | nil => simp [absorbed] at hv
  | cons s rest ih =>
    rw [List.map_cons, List.mem_cons]
    cases hfind : rest.find? fun t => s.later.contains t.vertex with
    | none =>
      rw [absorbed_of_none hfind] at hv
      exact Or.inr (ih hv)
    | some t =>
      rw [absorbed_of_some hfind] at hv
      split at hv
      · obtain rfl | hv := List.mem_cons.1 hv
        · exact Or.inr (List.mem_map_of_mem (List.mem_of_find?_eq_some hfind))
        · exact Or.inr (ih hv)
      · exact Or.inr (ih hv)

def keeping (inner : List Nat) (steps : List Step) : Multiset (Finset Nat) :=
  ((steps.filter fun s => !inner.contains s.vertex).map Step.clique : List (Finset Nat))

def kept (steps : List Step) : Multiset (Finset Nat) :=
  ((maximalCliques steps).map List.toFinset : List (Finset Nat))

theorem kept_eq (steps : List Step) : kept steps = keeping (absorbed steps) steps := by
  rw [kept, keeping, maximalCliques, List.map_map]
  refine congrArg _ (List.map_congr_left fun s _ => ?_)
  ext v
  simp [Step.mem_clique, Scope.mem_insert]

theorem mem_kept {c : Finset Nat} (hc : c ∈ kept steps) : ∃ s ∈ steps, s.clique = c := by
  rw [kept_eq] at hc
  obtain ⟨s, hs, rfl⟩ := List.mem_map.1 hc
  exact ⟨s, (List.mem_filter.1 hs).1, rfl⟩

theorem keeping_cons {inner : List Nat} (hs : s.vertex ∉ inner) :
    keeping inner (s :: rest) = s.clique ::ₘ keeping inner rest := by
  rw [keeping, List.filter_cons_of_pos (by simpa using hs)]
  rfl

theorem keeping_absorb {inner : List Nat} (hnodup : (rest.map (·.vertex)).Nodup) (ht : t ∈ rest)
    (hinner : t.vertex ∉ inner) : keeping inner rest = t.clique ::ₘ keeping (t.vertex :: inner) rest := by
  obtain ⟨l, r, rfl⟩ := List.append_of_mem ht
  rw [List.map_append, List.map_cons, List.nodup_middle, ← List.map_append, List.nodup_cons] at hnodup
  have hother (u : Step) (hu : u ∈ l ++ r) : (!inner.contains u.vertex) =
      !(t.vertex :: inner).contains u.vertex := by
    have hne : u.vertex ≠ t.vertex := fun heq => hnodup.1 (heq ▸ List.mem_map_of_mem hu)
    simp [hne]
  have hl := List.filter_congr fun u hu => hother u (List.mem_append_left r hu)
  have hr := List.filter_congr fun u hu => hother u (List.mem_append_right l hu)
  have hself : (t.vertex :: inner).contains t.vertex = true := by simp
  have hkept : (!inner.contains t.vertex) = true := by simpa using hinner
  simp only [keeping, List.filter_append, List.filter_cons, hkept, hself, hl, hr, if_true,
    Bool.not_true, Bool.false_eq_true, if_false, List.map_append, List.map_cons]
  exact Multiset.coe_eq_coe.2 List.perm_middle

/-- The maximal cliques have a junction tree, and every clique lies inside a maximal one. -/
structure Settled (steps : List Step) : Prop where
  junction : HasJunction (kept steps)
  covered : ∀ s ∈ steps, ∃ c ∈ kept steps, s.clique ⊆ c

theorem Settled.beside (h : Settled rest) (hkept : kept (s :: rest) = s.clique ::ₘ kept rest)
    (hfresh : ∀ c ∈ kept rest, s.vertex ∉ c)
    (hlater : s.later = [] ∨ ∃ t ∈ rest, ∀ v ∈ s.later, v ∈ t.clique) : Settled (s :: rest) := by
  refine ⟨hkept ▸ ?_, fun q hq => hkept ▸ ?_⟩
  · obtain hnone | ⟨c, hc⟩ := (kept rest).empty_or_exists_mem
    · rw [hnone]
      exact .single _
    · have hear : ∃ d ∈ kept rest, ∀ v ∈ s.later, v ∈ d := by
        obtain hnil | ⟨t, ht, hlater⟩ := hlater
        · exact ⟨c, hc, by simp [hnil]⟩
        · obtain ⟨d, hd, htd⟩ := h.covered t ht
          exact ⟨d, hd, fun v hv => htd (hlater v hv)⟩
      obtain ⟨d, hd, hlater⟩ := hear
      refine h.junction.ear hd fun v hv e he hve => ?_
      obtain rfl | hv := Step.mem_clique.1 hv
      · exact absurd hve (hfresh e he)
      · exact hlater v hv
  · obtain rfl | hq := List.mem_cons.1 hq
    · exact ⟨_, Multiset.mem_cons_self _ _, Finset.Subset.refl _⟩
    · obtain ⟨c, hc, hqc⟩ := h.covered q hq
      exact ⟨c, Multiset.mem_cons_of_mem hc, hqc⟩

theorem Settled.instead (h : Settled rest) (hrest : kept rest = t.clique ::ₘ others)
    (hkept : kept (s :: rest) = s.clique ::ₘ others) (hfresh : ∀ c ∈ kept rest, s.vertex ∉ c)
    (hclique : s.clique = insert s.vertex t.clique) : Settled (s :: rest) := by
  refine ⟨hkept ▸ ?_, fun q hq => hkept ▸ ?_⟩
  · rw [hclique]
    exact (hrest ▸ h.junction).enlarge (hrest ▸ hfresh)
  · obtain rfl | hq := List.mem_cons.1 hq
    · exact ⟨_, Multiset.mem_cons_self _ _, Finset.Subset.refl _⟩
    · obtain ⟨c, hc, hqc⟩ := h.covered q hq
      rw [hrest] at hc
      obtain rfl | hc := Multiset.mem_cons.1 hc
      · refine ⟨_, Multiset.mem_cons_self _ _, hqc.trans ?_⟩
        rw [hclique]
        exact Finset.subset_insert _ _
      · exact ⟨c, Multiset.mem_cons_of_mem hc, hqc⟩

theorem Settled.cons (h : Settled rest) (hnodup : (rest.map (·.vertex)).Nodup)
    (hgone : ∀ q ∈ rest, s.vertex ∉ q.clique) (hlater : s.later.Nodup)
    (hclique : s.later = [] ∨ ∃ t, (rest.find? fun t => s.later.contains t.vertex) = some t ∧
      ∀ v ∈ s.later, v ∈ t.clique) : Settled (s :: rest) := by
  have hfresh : ∀ c ∈ kept rest, s.vertex ∉ c := fun c hc => by
    obtain ⟨q, hq, rfl⟩ := mem_kept hc
    exact hgone q hq
  have hkept (inner : List Nat) (hinner : ∀ w ∈ inner, w ∈ rest.map (·.vertex)) :
      keeping inner (s :: rest) = s.clique ::ₘ keeping inner rest := by
    refine keeping_cons fun hmem => ?_
    obtain ⟨q, hq, hqs⟩ := List.mem_map.1 (hinner _ hmem)
    exact hgone q hq (hqs ▸ Finset.mem_insert_self _ _)
  have hbeside (habsorbed : absorbed (s :: rest) = absorbed rest) :
      kept (s :: rest) = s.clique ::ₘ kept rest := by
    rw [kept_eq, kept_eq, habsorbed, hkept _ fun w => mem_absorbed]
  obtain hnil | ⟨t, hfind, hsubset⟩ := hclique
  · exact h.beside (hbeside (absorbed_of_none (by simp [hnil]))) hfresh (Or.inl hnil)
  · have ht : t ∈ rest := List.mem_of_find?_eq_some hfind
    have habsorbed := absorbed_of_some hfind
    by_cases hlength : s.later.length = t.later.length + 1
    · rw [if_pos hlength] at habsorbed
      have hinner : ∀ w ∈ t.vertex :: absorbed rest, w ∈ rest.map (·.vertex) :=
        List.forall_mem_cons.2 ⟨List.mem_map_of_mem ht, fun w => mem_absorbed⟩
      by_cases hinside : t.vertex ∈ absorbed rest
      · -- the clique of the later step was left out before
        refine h.beside ?_ hfresh (Or.inr ⟨t, ht, hsubset⟩)
        have hsame : keeping (t.vertex :: absorbed rest) rest = keeping (absorbed rest) rest := by
          refine congrArg _ (congrArg _ (List.filter_congr fun q _ => ?_))
          by_cases hq : q.vertex = t.vertex <;> simp [hq, hinside]
        rw [kept_eq, kept_eq, habsorbed, hkept _ hinner, hsame]
      · -- as many vertices as the clique that they lie in: they are that clique
        have hsame : s.later.toFinset = t.clique := by
          refine Finset.eq_of_subset_of_card_le (fun w hw => hsubset w (List.mem_toFinset.1 hw)) ?_
          rw [List.toFinset_card_of_nodup hlater, hlength]
          exact (Finset.card_insert_le _ _).trans (Nat.succ_le_succ t.later.toFinset_card_le)
        have hrest : kept rest = t.clique ::ₘ keeping (t.vertex :: absorbed rest) rest :=
          (kept_eq rest).trans (keeping_absorb hnodup ht hinside)
        refine h.instead hrest ?_ hfresh (congrArg (insert s.vertex) hsame)
        rw [kept_eq, habsorbed, hkept _ hinner]
    · rw [if_neg hlength] at habsorbed
      exact h.beside (hbeside habsorbed) hfresh (Or.inr ⟨t, ht, hsubset⟩)

theorem settled (h : Played g alive steps) : g.Within alive → Settled steps := by
  induction h with
  | done g => exact fun _ => ⟨.zero, fun _ hs => absurd hs List.not_mem_nil⟩
  | @step g alive v rest hv hrest ih =>
    intro hg
    have hwithin := within_eliminate (v := v) hg
    refine (ih hwithin).cons hrest.nodup (fun q hq hvq => ?_) (g.increasing v).nodup
      (hrest.neighbors_cases hg)
    exact Finset.notMem_erase v alive (hrest.clique_subset hwithin q hq hvq)

variable {cardinalities : List Nat}

theorem settled_triangulate (g : Graph) (cardinalities : List Nat) :
    Settled (g.triangulate cardinalities).steps :=
  settled (played_steps g) g.within_range

theorem lt_of_mem_cliques {s : List Nat} (hs : s ∈ (g.triangulate cardinalities).cliques) :
    ∀ v ∈ s, v < g.size := by
  intro v hv
  have hkept : s.toFinset ∈ kept (g.triangulate cardinalities).steps := List.mem_map_of_mem hs
  obtain ⟨step, hstep, hclique⟩ := mem_kept hkept
  have hsubset := (played_steps g).clique_subset g.within_range step hstep
  exact Finset.mem_range.1 (hsubset (hclique ▸ List.mem_toFinset.2 hv))

theorem exists_mem_cliques (cardinalities : List Nat) {K : List Nat} (hne : K ≠ [])
    (hK : ∀ v ∈ K, v < g.size) (hadj : ∀ v ∈ K, ∀ w ∈ K, v ≠ w → g.hasEdge v w) :
    ∃ s ∈ (g.triangulate cardinalities).cliques, ∀ v ∈ K, v ∈ s := by
  obtain ⟨t, hfind, hclique⟩ := (played_steps g).exists_clique hne
    (fun v hv => Finset.mem_range.2 (hK v hv)) hadj
  obtain ⟨c, hc, htc⟩ := (settled_triangulate g cardinalities).covered t
    (List.mem_of_find?_eq_some hfind)
  obtain ⟨s, hs, rfl⟩ := List.mem_map.1 hc
  exact ⟨s, hs, fun v hv => List.mem_toFinset.1 (htc (hclique v hv))⟩

end Triangulation
end Bayes
