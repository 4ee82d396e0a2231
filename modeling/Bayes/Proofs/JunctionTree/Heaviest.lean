import Mathlib.Order.Bounds.Basic
import Bayes.Proofs.JunctionTree.Overlap
import Bayes.Proofs.JunctionTree.Rooted
/-!
A tree is built just when one exists. The separators that are chosen form a tree on the cliques, and two
cliques are connected by separators that share no less than the two cliques do, because the pairs that
share more were taken first. So the chosen tree shares the most of all trees, and has the running
intersection property as soon as any tree has it.
-/
namespace Bayes.JunctionTree
open DisjointSets Finset SimpleGraph Forest

variable {cliques : Array (List Nat)} {separators : List Separator} {n : Nat}

/-! The order of the candidates -/

theorem span_append (l r : List Separator) (sets : DisjointSets) :
    (span sets (l ++ r)).1 = (span sets l).1 ++ (span (span sets l).2 r).1 := by
  induction l generalizing sets with
  | nil => rfl
  | cons s l ih =>
    simp only [List.cons_append, span, ih]
    by_cases h : (sets.union s.lower s.upper).1 = true <;> simp [h]

theorem pairwise_candidates (cliques : Array (List Nat)) :
    (candidates cliques).Pairwise fun s t => t.shared.length ≤ s.shared.length := by
  have h : (candidates cliques).Pairwise fun s t =>
      decide (t.shared.length ≤ s.shared.length) = true := by
    refine List.pairwise_mergeSort (fun a b c hab hbc => ?_) (fun a b => ?_) _
    · simp only [decide_eq_true_eq] at hab hbc ⊢
      omega
    · simp only [Bool.or_eq_true, decide_eq_true_eq]
      omega
  exact h.imp fun hst => of_decide_eq_true hst

/-- A property that is kept by all separators that share at least as much as a candidate cannot tell the
two ends of the candidate apart. -/
theorem bridged {s : Separator} (hs : s ∈ candidates cliques) {P : Nat → Prop}
    (hP : ∀ t ∈ spanning cliques, s.shared.length ≤ t.shared.length → (P t.lower ↔ P t.upper)) :
    P s.lower ↔ P s.upper := by
  obtain ⟨l, r, hlr⟩ := List.append_of_mem hs
  have hsplit : candidates cliques = (l ++ [s]) ++ r := by simp [hlr]
  have hsorted := pairwise_candidates cliques
  rw [hsplit] at hsorted
  have hfirst : ∀ t ∈ l ++ [s], s.shared.length ≤ t.shared.length := by
    have hl := List.pairwise_append.1 (List.pairwise_append.1 hsorted).1
    exact List.forall_mem_append.2 ⟨fun t ht => hl.2.2 t ht s (by simp), by simp⟩
  obtain ⟨label, -, htaken⟩ := span_spec (l ++ [s]) (.discrete cliques.size) id
    (forest_discrete cliques.size) fun t ht => by
      obtain ⟨hlt, hup, _⟩ := candidate_spec (hsplit ▸ List.mem_append_left r ht)
      exact ⟨hlt.trans hup, hup⟩
  refine htaken.generated P (by simp) (fun t ht => ?_) _ _ (htaken.together s (by simp))
  refine hP t ?_ (hfirst t (htaken.sublist.subset ht))
  have hmem : t ∈ (span (.discrete cliques.size) (candidates cliques)).1 := by
    rw [hsplit, span_append]
    exact List.mem_append_left _ ht
  exact List.mem_append_left _ hmem

/-! The separators as a graph -/

def graphOf (n : Nat) (separators : List Separator) : SimpleGraph (Fin n) where
  Adj a b := a ≠ b ∧ edge a b ∈ separators.map ends
  symm := ⟨fun a b h => ⟨h.1.symm, edge_comm a b ▸ h.2⟩⟩
  loopless := ⟨fun _ h => h.1 rfl⟩

def pairOf (e : Sym2 (Fin n)) : Nat × Nat :=
  Sym2.lift ⟨fun a b : Fin n => edge a b, fun a b => edge_comm a b⟩ e

theorem pairOf_injective : Function.Injective (pairOf (n := n)) := by
  intro e f h
  induction e using Sym2.ind with
  | _ a b =>
    induction f using Sym2.ind with
    | _ c d =>
      simp only [pairOf, Sym2.lift_mk, edge] at h
      rw [Sym2.eq_iff]
      split at h <;> split at h <;> simp only [Prod.mk.injEq, Fin.val_inj] at h <;> tauto

theorem Spanning.adj (h : Spanning cliques separators) {s : Separator} (hs : s ∈ separators) :
    ∃ (hl : s.lower < cliques.size) (hu : s.upper < cliques.size),
      (graphOf cliques.size separators).Adj ⟨s.lower, hl⟩ ⟨s.upper, hu⟩ := by
  obtain ⟨hlt, hup⟩ := h.ends_lt s hs
  refine ⟨hlt.trans hup, hup, fun heq => hlt.ne (congrArg Fin.val heq), ?_⟩
  rw [edge, if_pos hlt]
  exact List.mem_map_of_mem hs

theorem Spanning.image_edges (h : Spanning cliques separators) :
    (edges (graphOf cliques.size separators)).image pairOf = (separators.map ends).toFinset := by
  ext p
  rw [mem_image, List.mem_toFinset]
  constructor
  · rintro ⟨e, he, rfl⟩
    induction e using Sym2.ind with
    | _ a b =>
      have hadj : (graphOf cliques.size separators).Adj a b := mem_edges.1 he
      exact hadj.2
  · intro hp
    obtain ⟨s, hs, rfl⟩ := List.mem_map.1 hp
    obtain ⟨hl, hu, hadj⟩ := h.adj hs
    refine ⟨s(⟨s.lower, hl⟩, ⟨s.upper, hu⟩), mem_edges.2 hadj, ?_⟩
    simp [pairOf, edge, (h.ends_lt s hs).1, ends]

theorem Spanning.sum_edges (h : Spanning cliques separators) (g : Nat × Nat → Nat) :
    ∑ e ∈ edges (graphOf cliques.size separators), g (pairOf e) =
      (separators.map fun s => g (ends s)).sum := by
  rw [← sum_image (g := pairOf) (f := g) fun _ _ _ _ heq => pairOf_injective heq, h.image_edges,
    List.sum_toFinset g h.nodup, List.map_map]
  rfl

theorem Spanning.isTree (h : Spanning cliques separators) :
    (graphOf cliques.size separators).IsTree := by
  have h0 : 0 < cliques.size := (Nat.zero_le _).trans_lt h.length_lt
  have : Nonempty (Fin cliques.size) := ⟨⟨0, h0⟩⟩
  let root : Fin cliques.size := ⟨0, h0⟩
  have hreachable : ∀ c < cliques.size, ∃ hc : c < cliques.size,
      (graphOf cliques.size separators).Reachable root ⟨c, hc⟩ := by
    refine h.connected _ ⟨h0, .rfl⟩ fun s hs => ?_
    obtain ⟨hl, hu, hadj⟩ := h.adj hs
    exact ⟨fun ⟨_, hr⟩ => ⟨hu, hr.trans hadj.reachable⟩,
      fun ⟨_, hr⟩ => ⟨hl, hr.trans hadj.symm.reachable⟩⟩
  have hconnected : (graphOf cliques.size separators).Connected :=
    ⟨fun a b => (hreachable a a.2).2.symm.trans (hreachable b b.2).2⟩
  refine isTree_iff_connected_and_card.2 ⟨hconnected, ?_⟩
  have hle := hconnected.card_vert_le_card_edgeSet_add_one
  have hcount := h.sum_edges fun _ => 1
  have hlt := h.length_lt
  simp only [sum_const, smul_eq_mul, mul_one, card_edges, List.map_const', List.sum_replicate]
    at hcount
  rw [Nat.card_eq_fintype_card (α := Fin cliques.size), Fintype.card_fin] at hle ⊢
  omega

/-! What the separators share -/

def members (cliques : Array (List Nat)) (c : Fin cliques.size) : Finset Nat := cliques[c].toFinset

theorem mem_members {c : Fin cliques.size} {v : Nat} :
    v ∈ members cliques c ↔ v ∈ cliques[(c : Nat)]?.getD [] := by
  simp [members]

theorem overlap_members (a b : Fin cliques.size) :
    overlap (members cliques) s(a, b) =
      (Scope.inter (cliques[(edge a b).1]?.getD []) (cliques[(edge a b).2]?.getD [])).toFinset := by
  ext v
  rw [mem_overlap, List.mem_toFinset, Scope.mem_inter]
  simp only [Sym2.ball, holding, Set.mem_ofPred_eq, mem_members, edge]
  split
  · rfl
  · exact and_comm

theorem Spanning.card_inside (h : Spanning cliques separators) (v : Nat) :
    (inside (graphOf cliques.size separators) (holding (members cliques) v)).card =
      (separators.filter (·.shared.contains v)).length := by
  have hnodup : ((separators.filter (·.shared.contains v)).map ends).Nodup :=
    h.nodup.sublist (List.filter_sublist.map ends)
  rw [← card_image_of_injective _ pairOf_injective, ← List.length_map ends,
    ← List.toFinset_card_of_nodup hnodup]
  refine congrArg card ?_
  ext p
  simp only [mem_image, List.mem_toFinset, List.mem_map, List.mem_filter, List.contains_iff_mem]
  constructor
  · rintro ⟨e, he, rfl⟩
    obtain ⟨he, hv⟩ := mem_inside.1 he
    have hp : pairOf e ∈ (separators.map ends).toFinset :=
      h.image_edges ▸ mem_image_of_mem pairOf (mem_edges.2 he)
    obtain ⟨s, hs, hse⟩ := List.mem_map.1 (List.mem_toFinset.1 hp)
    refine ⟨s, ⟨hs, ?_⟩, hse⟩
    induction e using Sym2.ind with
    | _ a b =>
      have hoverlap : v ∈ overlap (members cliques) s(a, b) := mem_overlap.2 hv
      have hends : ends s = edge a b := hse
      rw [overlap_members, ← hends, List.mem_toFinset] at hoverlap
      rw [h.shared_eq s hs]
      exact hoverlap
  · rintro ⟨s, ⟨hs, hv⟩, rfl⟩
    obtain ⟨hl, hu, hadj⟩ := h.adj hs
    rw [h.shared_eq s hs, Scope.mem_inter] at hv
    refine ⟨s(⟨s.lower, hl⟩, ⟨s.upper, hu⟩), mem_inside.2 ⟨hadj, ?_⟩, ?_⟩
    · rw [Sym2.ball]
      exact ⟨mem_members.2 hv.1, mem_members.2 hv.2⟩
    · simp [pairOf, edge, (h.ends_lt s hs).1, ends]

theorem card_holding (t : JunctionTree) (v : Nat) : Nat.card (holding (members t.cliques) v) =
    ((Finset.range t.size).filter fun c => v ∈ t.clique c).card := by
  have himage : Fin.val '' holding (members t.cliques) v =
      ((Finset.range t.size).filter fun c => v ∈ t.clique c : Finset Nat) := by
    ext c
    simp only [Set.mem_image, coe_filter, Finset.mem_range, Set.mem_ofPred_eq, holding, mem_members]
    constructor
    · rintro ⟨d, hv, rfl⟩
      exact ⟨d.2, hv⟩
    · rintro ⟨hc, hv⟩
      exact ⟨⟨c, hc⟩, hv, rfl⟩
  rw [Nat.card_coe_set_eq, ← Set.ncard_image_of_injective _ Fin.val_injective, himage,
    Set.ncard_coe_finset]

theorem violation?_eq_none_iff {t : JunctionTree} (h : Spanning t.cliques t.separators) :
    t.violation? = none ↔ IsJunction (members t.cliques) (graphOf t.cliques.size t.separators) := by
  have htree := h.isTree
  have hcount (v : Nat) (hv : (holding (members t.cliques) v).Nonempty) :
      (t.separators.filter (·.shared.contains v)).length + 1 =
        (t.cliques.toList.filter (·.contains v)).length ↔
      ((graphOf t.cliques.size t.separators).induce (holding (members t.cliques) v)).Preconnected := by
    rw [← card_inside_eq_iff htree.isAcyclic hv, h.card_inside, card_holding, length_filter_cliques]
  constructor
  · refine fun hnone => ⟨htree.isAcyclic, htree.connected.preconnected, fun v => ?_⟩
    by_cases hv : (holding (members t.cliques) v).Nonempty
    · obtain ⟨c, hc⟩ := hv
      refine (hcount v ⟨c, hc⟩).1 ?_
      rw [length_filter_cliques]
      exact joined_of_violation? hnone (mem_members.1 hc)
    · rintro ⟨c, hc⟩
      exact absurd ⟨c, hc⟩ hv
  · -- a variable that no clique holds passes the test by itself
    refine fun hjunction => List.find?_eq_none.2 fun v _ => ?_
    simp only [joins, Bool.not_eq_true, Bool.not_eq_false', Bool.or_eq_true, beq_iff_eq]
    by_cases hv : (holding (members t.cliques) v).Nonempty
    · exact Or.inr ((hcount v hv).2 (hjunction.running v))
    · left
      rw [length_filter_cliques, ← card_holding, Set.not_nonempty_iff_eq_empty.1 hv]
      simp

variable (hinc : ∀ c : Nat, Scope.Increasing (cliques[c]?.getD []))
include hinc

theorem card_overlap (a b : Fin cliques.size) : (overlap (members cliques) s(a, b)).card =
    (Scope.inter (cliques[(edge a b).1]?.getD []) (cliques[(edge a b).2]?.getD [])).length := by
  rw [overlap_members, List.toFinset_card_of_nodup]
  exact (Scope.increasing_inter (hinc _) _).nodup

theorem Spanning.shared_eq_sum (h : Spanning cliques separators) :
    shared (members cliques) (graphOf cliques.size separators) =
      (separators.map fun s => s.shared.length).sum := by
  let g (p : Nat × Nat) : Nat :=
    (Scope.inter (cliques[p.1]?.getD []) (cliques[p.2]?.getD [])).length
  have hg (e : Sym2 (Fin cliques.size)) : (overlap (members cliques) e).card = g (pairOf e) := by
    induction e using Sym2.ind with
    | _ a b => exact card_overlap hinc a b
  rw [shared, sum_congr rfl fun e _ => hg e, h.sum_edges g]
  refine congrArg List.sum (List.map_congr_left fun s hs => ?_)
  rw [h.shared_eq s hs]
  rfl

/-- Any two cliques are connected by separators that share no less than they do. -/
theorem reachable_heavy (a b : Fin cliques.size) :
    (heavy (graphOf cliques.size (spanning cliques)) (fun e => (overlap (members cliques) e).card)
      (overlap (members cliques) s(a, b)).card).Reachable a b := by
  have hspanning := spanning_spec a.pos
  wlog hab : a < b generalizing a b
  · rcases (not_lt.1 hab).eq_or_lt with rfl | hba
    · exact .rfl
    · rw [Sym2.eq_swap]
      exact (this b a hba).symm
  let G := heavy (graphOf cliques.size (spanning cliques))
    (fun e => (overlap (members cliques) e).card) (overlap (members cliques) s(a, b)).card
  have hval : (a : Nat) < b := hab
  have hlength : (separatorOf cliques a b).shared.length =
      (overlap (members cliques) s(a, b)).card := by
    rw [card_overlap hinc, edge, if_pos hval]
    rfl
  have hkept : ∀ t ∈ spanning cliques, (separatorOf cliques a b).shared.length ≤ t.shared.length →
      ((∃ h : t.lower < cliques.size, G.Reachable a ⟨t.lower, h⟩) ↔
        ∃ h : t.upper < cliques.size, G.Reachable a ⟨t.upper, h⟩) := by
    intro t ht hle
    obtain ⟨hl, hu, hadj⟩ := hspanning.adj ht
    have hweight : (overlap (members cliques) s(⟨t.lower, hl⟩, ⟨t.upper, hu⟩)).card =
        t.shared.length := by
      rw [card_overlap hinc, edge, if_pos (hspanning.ends_lt t ht).1, hspanning.shared_eq t ht]
    have hG : G.Adj ⟨t.lower, hl⟩ ⟨t.upper, hu⟩ := ⟨hadj, (hlength.ge.trans hle).trans hweight.ge⟩
    constructor
    · rintro ⟨_, hr⟩
      exact ⟨hu, hr.trans hG.reachable⟩
    · rintro ⟨_, hr⟩
      exact ⟨hl, hr.trans hG.symm.reachable⟩
  by_cases hempty : (separatorOf cliques a b).shared = []
  · -- every separator shares as much as two cliques that share nothing
    have hall : G = graphOf cliques.size (spanning cliques) := by
      refine le_antisymm (heavy_le _ _ _) fun c d hcd => ⟨hcd, ?_⟩
      rw [← hlength, hempty]
      exact Nat.zero_le _
    change G.Reachable a b
    rw [hall]
    exact hspanning.isTree.connected.preconnected a b
  · have hs : separatorOf cliques a b ∈ candidates cliques :=
      mem_candidates.2 ⟨a, b, hab, b.2, rfl, hempty⟩
    exact ((bridged hs (P := fun c => ∃ h : c < cliques.size, G.Reachable a ⟨c, h⟩) hkept).1
      ⟨a.2, .rfl⟩).2

/-- The separators that are chosen share the most of all trees. -/
theorem shared_le_spanning (h0 : 0 < cliques.size) {T : SimpleGraph (Fin cliques.size)}
    (hT : T.IsAcyclic) : shared (members cliques) T ≤
      shared (members cliques) (graphOf cliques.size (spanning cliques)) :=
  sum_weights_le hT (spanning_spec h0).isTree.isAcyclic fun a b _ => reachable_heavy hinc a b

theorem isGreatest_shared (h0 : 0 < cliques.size) :
    IsGreatest {total | ∃ T : SimpleGraph (Fin cliques.size), T.IsAcyclic ∧ T.Preconnected ∧
      shared (members cliques) T = total} ((spanning cliques).map fun s => s.shared.length).sum := by
  have hspanning := spanning_spec h0
  have htree := hspanning.isTree
  rw [← hspanning.shared_eq_sum hinc]
  refine ⟨⟨_, htree.isAcyclic, htree.connected.preconnected, rfl⟩, ?_⟩
  rintro total ⟨T, hT, -, rfl⟩
  exact shared_le_spanning hinc h0 hT

theorem IsJunction.spanning (h0 : 0 < cliques.size) {T : SimpleGraph (Fin cliques.size)}
    (hT : IsJunction (members cliques) T) :
    IsJunction (members cliques) (graphOf cliques.size (spanning cliques)) := by
  have htree := (spanning_spec h0).isTree
  exact hT.of_le htree.isAcyclic htree.connected.preconnected
    (shared_le_spanning hinc h0 hT.acyclic)

omit hinc

/-! Building -/

variable {α : Type}

theorem build_of_junction {cliques : List (List Nat)}
    {T : SimpleGraph (Fin (arranged cliques).size)} (hT : IsJunction (members (arranged cliques)) T) :
    build (α := α) cliques = .ok (rooted (arranged cliques) (spanning (arranged cliques))) := by
  obtain ⟨h0, hinc⟩ := arranged_spec cliques
  have hnone := (violation?_eq_none_iff (t := rooted (arranged cliques)
    (spanning (arranged cliques))) (spanning_spec h0)).2 (hT.spanning hinc h0)
  simp only [build, hnone]

theorem build_cases (cliques : List (List Nat)) :
    (∃ v, build (α := α) cliques =
      .error (.notChordal ("running intersection fails for variable " ++ idText v))) ∨
    build (α := α) cliques = .ok (rooted (arranged cliques) (spanning (arranged cliques))) ∧
      IsJunction (members (arranged cliques))
        (graphOf (arranged cliques).size (spanning (arranged cliques))) := by
  obtain ⟨h0, _⟩ := arranged_spec cliques
  cases hv : (rooted (arranged cliques) (spanning (arranged cliques))).violation? with
  | none =>
    refine Or.inr ⟨by simp only [build, hv], ?_⟩
    exact (violation?_eq_none_iff (t := rooted (arranged cliques) (spanning (arranged cliques)))
      (spanning_spec h0)).1 hv
  | some v => exact Or.inl ⟨v, by simp only [build, hv]⟩

def scopes (cliques : List (List Nat)) (c : Fin cliques.length) : Finset Nat :=
  cliques[c].toFinset

def Decided (α : Type) (cliques : List (List Nat)) (family : Σ n, Fin n → Finset Nat) : Prop :=
  ((∃ t, build (α := α) cliques = .ok t) ↔ ∃ T, IsJunction family.2 T) ∧
  ((¬ ∃ T, IsJunction family.2 T) →
    ∃ reason, build (α := α) cliques = .error (.notChordal reason)) ∧
  ∀ t, build (α := α) cliques = .ok t → IsGreatest {total | ∃ T, T.IsAcyclic ∧ T.Preconnected ∧
    shared family.2 T = total} (t.separators.map fun s => s.shared.length).sum

theorem decided_arranged (cliques : List (List Nat)) :
    Decided α cliques ⟨(arranged cliques).size, members (arranged cliques)⟩ := by
  obtain ⟨h0, hinc⟩ := arranged_spec cliques
  refine ⟨⟨?_, fun ⟨T, hT⟩ => ⟨_, build_of_junction hT⟩⟩, fun hnone => ?_, ?_⟩
  · rintro ⟨t, ht⟩
    obtain ⟨v, herror⟩ | ⟨-, hjunction⟩ := build_cases (α := α) cliques
    · rw [herror] at ht
      cases ht
    · exact ⟨_, hjunction⟩
  · obtain ⟨v, herror⟩ | ⟨-, hjunction⟩ := build_cases (α := α) cliques
    · exact ⟨_, herror⟩
    · exact absurd ⟨_, hjunction⟩ hnone
  · intro t ht
    obtain ⟨v, herror⟩ | ⟨hok, -⟩ := build_cases (α := α) cliques
    · rw [herror] at ht
      cases ht
    · obtain rfl := Except.ok.inj (hok.symm.trans ht)
      exact isGreatest_shared hinc h0

theorem arranged_of_ne_nil {cliques : List (List Nat)} (h : cliques ≠ []) :
    arranged cliques = (cliques.map Scope.ofList).toArray := by
  cases cliques with
  | nil => exact absurd rfl h
  | cons s cliques => rfl

theorem arranged_eq_scopes {cliques : List (List Nat)} (h : cliques ≠ []) :
    (⟨(arranged cliques).size, members (arranged cliques)⟩ : Σ n, Fin n → Finset Nat) =
      ⟨cliques.length, scopes cliques⟩ := by
  have harranged := arranged_of_ne_nil h
  have hsize : (arranged cliques).size = cliques.length := by simp [harranged]
  refine Sigma.ext hsize ((Fin.heq_fun_iff hsize).2 fun c => ?_)
  ext v
  simp [members, scopes, harranged, Scope.mem_ofList]

theorem decided_nil : Decided α [] ⟨0, scopes []⟩ := by
  have hbuild : build (α := α) [] = .ok ⟨#[[]], [], [⟨0, none, [], 0⟩], []⟩ := by cbv
  have hjunction : IsJunction (V := Fin 0) (scopes []) ⊥ :=
    ⟨.of_subsingleton, fun a => a.elim0, fun _ a => a.1.elim0⟩
  have hshared (T : SimpleGraph (Fin 0)) : shared (scopes []) T = 0 := by
    refine sum_eq_zero fun e _ => ?_
    induction e using Sym2.ind with
    | _ a => exact a.elim0
  refine ⟨⟨fun _ => ⟨_, hjunction⟩, fun _ => ⟨_, hbuild⟩⟩, fun hnone => absurd ⟨_, hjunction⟩ hnone,
    fun t ht => ?_⟩
  obtain rfl := Except.ok.inj (hbuild.symm.trans ht)
  refine ⟨⟨⊥, hjunction.acyclic, hjunction.connected, hshared _⟩, ?_⟩
  rintro total ⟨T, -, -, rfl⟩
  exact (hshared T).le

theorem decided (cliques : List (List Nat)) :
    Decided α cliques ⟨cliques.length, scopes cliques⟩ := by
  by_cases h : cliques = []
  · subst h
    exact decided_nil
  · exact arranged_eq_scopes h ▸ decided_arranged cliques

/-- Building succeeds just when the cliques have a junction tree, and then the separators share the most
that the edges of any tree on the cliques share. -/
theorem build_ok_iff (cliques : List (List Nat)) :
    ((∃ t, build (α := α) cliques = .ok t) ↔
      ∃ T : SimpleGraph (Fin cliques.length), IsJunction (scopes cliques) T) ∧
    ((¬ ∃ T : SimpleGraph (Fin cliques.length), IsJunction (scopes cliques) T) →
      ∃ reason, build (α := α) cliques = .error (.notChordal reason)) ∧
    ∀ t, build (α := α) cliques = .ok t →
      IsGreatest {total | ∃ T : SimpleGraph (Fin cliques.length), T.IsAcyclic ∧ T.Preconnected ∧
        shared (scopes cliques) T = total} (t.separators.map fun s => s.shared.length).sum :=
  decided cliques

/-- Of the trees on two cliques with one common variable the best shares that one, and three cliques
around a ring have no junction tree. -/
theorem build_ok_iff_of_path_and_ring :
    (∃ t, build (α := Float) [[0, 1], [1, 2]] = .ok t ∧
      IsGreatest {total | ∃ T : SimpleGraph (Fin 2), T.IsAcyclic ∧ T.Preconnected ∧
        shared (scopes [[0, 1], [1, 2]]) T = total} 1) ∧
    ¬ ∃ T : SimpleGraph (Fin 3), IsJunction (scopes [[0, 1], [1, 2], [0, 2]]) T := by
  have hpath : build (α := Float) [[0, 1], [1, 2]] =
      .ok ⟨#[[0, 1], [1, 2]], [⟨0, 1, [1]⟩], [⟨0, none, [], 0⟩, ⟨1, some 0, [1], 1⟩], []⟩ := by cbv
  have hring : build (α := Float) [[0, 1], [1, 2], [0, 2]] =
      .error (.notChordal "running intersection fails for variable #2") := by cbv
  refine ⟨⟨_, hpath, (build_ok_iff (α := Float) [[0, 1], [1, 2]]).2.2 _ hpath⟩, fun hjunction => ?_⟩
  obtain ⟨t, ht⟩ := (build_ok_iff (α := Float) [[0, 1], [1, 2], [0, 2]]).1.2 hjunction
  rw [hring] at ht
  cases ht

end Bayes.JunctionTree
