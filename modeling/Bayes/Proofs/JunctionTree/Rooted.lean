import Bayes.Proofs.JunctionTree.Walk
/-!
What a tree of cliques that was built is known to be: the walk visits every clique once, parents before
their children, and the cliques that contain a variable have a single topmost one among them. The last
follows by counting, since in a tree each of these cliques but the topmost one is joined to its parent.
-/
namespace Bayes.JunctionTree

structure Rooted (t : JunctionTree) : Prop where
  nodup : t.preorder.Nodup
  mem_preorder : ∀ c, c ∈ t.preorder ↔ c < t.size
  ordered : t.preorder.Pairwise fun a b => t.parent? a ≠ some b
  root_lt : t.root < t.size
  parent_root : t.parent? t.root = none
  parent : ∀ c < t.size, c ≠ t.root → ∃ p < t.size, t.parent? c = some p ∧ t.depth c = t.depth p + 1
  separator_root : t.separatorAbove t.root = []
  separator : ∀ c p, t.parent? c = some p →
    t.separatorAbove c = Scope.inter (t.clique c) (t.clique p)
  increasing : ∀ c, Scope.Increasing (t.clique c)
  top_unique : ∀ v c d, v ∈ t.clique c → v ∈ t.clique d → v ∉ t.separatorAbove c →
    v ∉ t.separatorAbove d → c = d

variable {t : JunctionTree} {c d : Nat}

theorem lt_of_mem_clique {v : Nat} (h : v ∈ t.clique c) : c < t.size := by
  by_contra hc
  have hnone : t.cliques[c]? = none := Array.getElem?_eq_none (not_lt.1 hc)
  simp [clique, hnone] at h

theorem visit?_eq (h : t.preorder.Nodup) {u : Visit} (hu : u ∈ t.visits) :
    t.visit? u.clique = some u := by
  cases hfind : t.visit? u.clique with
  | none => simpa using List.find?_eq_none.1 hfind u hu
  | some w =>
    have hw : w ∈ t.visits := List.mem_of_find?_eq_some hfind
    have heq : w.clique = u.clique := by simpa using List.find?_some hfind
    rw [List.inj_on_of_nodup_map h hw hu heq]

theorem parent?_eq (h : t.preorder.Nodup) {u : Visit} (hu : u ∈ t.visits) :
    t.parent? u.clique = u.parent := by
  rw [parent?, visit?_eq h hu]
  rfl

theorem mem_children (h : t.preorder.Nodup) :
    d ∈ t.children c ↔ d ∈ t.preorder ∧ t.parent? d = some c := by
  simp only [children, preorder, List.mem_map, List.mem_filter, beq_iff_eq]
  constructor
  · rintro ⟨u, ⟨hu, hp⟩, rfl⟩
    exact ⟨⟨u, hu, rfl⟩, (parent?_eq h hu).trans hp⟩
  · rintro ⟨⟨u, hu, rfl⟩, hp⟩
    exact ⟨u, ⟨hu, (parent?_eq h hu).symm.trans hp⟩, rfl⟩

theorem nodup_children (h : t.preorder.Nodup) (c : Nat) : (t.children c).Nodup :=
  h.sublist (List.filter_sublist.map _)

theorem Rooted.withFamilies (h : t.Rooted) (families : List Nat) :
    ({ t with families } : JunctionTree).Rooted :=
  ⟨h.nodup, h.mem_preorder, h.ordered, h.root_lt, h.parent_root, h.parent, h.separator_root,
    h.separator, h.increasing, h.top_unique⟩

/-! The tree that is built -/

theorem length_filter_cliques (v : Nat) : (t.cliques.toList.filter (·.contains v)).length =
    ((Finset.range t.size).filter fun c => v ∈ t.clique c).card := by
  have hlist : t.cliques.toList = (List.range t.size).map t.clique := by
    refine List.ext_getElem (by simp [size]) fun i hi _ => ?_
    have hi' : i < t.cliques.size := by simpa using hi
    simp [clique, hi']
  have hnodup : ((List.range t.size).filter fun c => v ∈ t.clique c).Nodup :=
    List.nodup_range.filter _
  have hset : ((List.range t.size).filter fun c => v ∈ t.clique c).toFinset =
      (Finset.range t.size).filter fun c => v ∈ t.clique c := by
    ext c
    simp
  rw [hlist, List.filter_map, List.length_map, ← hset, List.toFinset_card_of_nodup hnodup]
  congr 2
  funext c
  simp

theorem joined_of_violation? (h : t.violation? = none) {v : Nat} (hv : v ∈ t.clique c) :
    (t.separators.filter (·.shared.contains v)).length + 1 =
      ((Finset.range t.size).filter fun c => v ∈ t.clique c).card := by
  have hc := lt_of_mem_clique hv
  have hmem : v ∈ Scope.ofList t.cliques.toList.flatten := by
    refine Scope.mem_ofList.2 (List.mem_flatten.2 ⟨t.clique c, ?_, hv⟩)
    have hc' : c < t.cliques.size := hc
    simp [clique, hc']
  have hjoins : t.joins v = true := by simpa using List.find?_eq_none.1 h v hmem
  have hpos : 0 < ((Finset.range t.size).filter fun c => v ∈ t.clique c).card :=
    Finset.card_pos.2 ⟨c, Finset.mem_filter.2 ⟨Finset.mem_range.2 hc, hv⟩⟩
  simp only [joins, length_filter_cliques, Bool.or_eq_true, beq_iff_eq] at hjoins
  omega

theorem edge_eq_iff {a b i j : Nat} (hij : i < j) :
    edge a b = (i, j) ↔ a = i ∧ b = j ∨ a = j ∧ b = i := by
  simp only [edge]
  split <;> simp only [Prod.mk.injEq] <;> omega

/-- A tree whose visits come from a walk along separators that span its cliques. -/
structure Walked (t : JunctionTree) : Prop where
  spanning : Spanning t.cliques t.separators
  increasing : ∀ c, Scope.Increasing (t.clique c)
  grown : Grown t.separators t.visits
  all_seen : ∀ c < t.size, c ∈ t.preorder

namespace Walked

variable (w : Walked t)
include w

theorem mem_preorder : c ∈ t.preorder ↔ c < t.size := by
  constructor
  · intro hc
    obtain ⟨u, hu, rfl⟩ := List.mem_map.1 hc
    exact w.grown.clique_lt w.spanning u hu
  · exact w.all_seen c

theorem root_eq : t.root = 0 := by
  obtain ⟨rest, hrest⟩ := List.head?_eq_some_iff.1 w.grown.head?
  simp [root, preorder, hrest]

theorem root_lt : t.root < t.size := by
  have hlt := w.spanning.length_lt
  have hsize : t.size = t.cliques.size := rfl
  rw [w.root_eq]
  omega

theorem visit?_root : t.visit? t.root = some ⟨0, none, [], 0⟩ := by
  obtain ⟨rest, hrest⟩ := List.head?_eq_some_iff.1 w.grown.head?
  rw [w.root_eq]
  exact visit?_eq w.grown.nodup (u := ⟨0, none, [], 0⟩) (by simp [hrest])

theorem visit?_child (hc : c < t.size) (hcr : c ≠ t.root) : ∃ u ∈ t.visits,
    ∃ l ∈ links t.separators u.clique, l.1 = c ∧ t.visit? c = some (visitOf u l) := by
  obtain ⟨v, hv, rfl⟩ := List.mem_map.1 (w.all_seen c hc)
  obtain rfl | ⟨u, hu, l, hl, rfl⟩ := w.grown.root_or_child v hv
  · exact absurd w.root_eq.symm hcr
  · exact ⟨u, hu, l, hl, rfl, visit?_eq w.grown.nodup hv⟩

theorem parent_spec (hc : c < t.size) (hcr : c ≠ t.root) : ∃ p < t.size, t.parent? c = some p ∧
    t.depth c = t.depth p + 1 ∧ edge p c ∈ t.separators.map ends := by
  obtain ⟨u, hu, l, hl, rfl, hvisit⟩ := w.visit?_child hc hcr
  refine ⟨u.clique, w.grown.clique_lt w.spanning u hu, by simp [parent?, hvisit, visitOf], ?_,
    (w.spanning.link_spec hl).2.1⟩
  simp [depth, hvisit, visitOf, visit?_eq w.grown.nodup hu]

theorem parent?_some {p : Nat} (hp : t.parent? c = some p) : c < t.size ∧ c ≠ t.root := by
  constructor
  · cases hvisit : t.visit? c with
    | none => simp [parent?, hvisit] at hp
    | some u =>
      have heq : u.clique = c := by simpa using List.find?_some hvisit
      rw [← heq]
      exact w.grown.clique_lt w.spanning u (List.mem_of_find?_eq_some hvisit)
  · intro hcr
    rw [hcr, parent?, w.visit?_root] at hp
    simp at hp

theorem separator_eq {p : Nat} (hp : t.parent? c = some p) :
    t.separatorAbove c = Scope.inter (t.clique c) (t.clique p) := by
  obtain ⟨hc, hcr⟩ := w.parent?_some hp
  obtain ⟨u, hu, l, hl, rfl, hvisit⟩ := w.visit?_child hc hcr
  obtain rfl : u.clique = p := by simpa [parent?, hvisit, visitOf] using hp
  have hsep : t.separatorAbove l.1 = l.2 := by simp [separatorAbove, hvisit, visitOf]
  obtain ⟨s, hs, hshared, hends⟩ := mem_links.1 hl
  have hinter : l.2 = Scope.inter (t.clique s.lower) (t.clique s.upper) := by
    rw [← hshared]
    exact w.spanning.shared_eq s hs
  obtain ⟨hlow, hup⟩ | ⟨-, hup, hlow⟩ := hends
  · rw [hsep, hinter, hlow, hup, Scope.inter_comm (w.increasing _) (w.increasing _)]
  · rw [hsep, hinter, hlow, hup]

theorem separator_root : t.separatorAbove t.root = [] := by
  rw [separatorAbove, w.visit?_root]
  rfl

theorem mem_separator {v : Nat} (hv : v ∈ t.separatorAbove c) : c < t.size ∧ v ∈ t.clique c := by
  cases hvisit : t.visit? c with
  | none => simp [separatorAbove, hvisit] at hv
  | some u =>
    have heq : u.clique = c := by simpa using List.find?_some hvisit
    have hc : c < t.size :=
      heq ▸ w.grown.clique_lt w.spanning u (List.mem_of_find?_eq_some hvisit)
    refine ⟨hc, ?_⟩
    by_cases hcr : c = t.root
    · rw [hcr, w.separator_root] at hv
      simp at hv
    · obtain ⟨p, _, hp, _⟩ := w.parent_spec hc hcr
      rw [w.separator_eq hp] at hv
      exact (Scope.mem_inter.1 hv).1

def above (t : JunctionTree) (c : Nat) : Nat × Nat := edge ((t.parent? c).getD 0) c

theorem injOn_above : Set.InjOn (above t) ((Finset.range t.size).erase t.root) := by
  intro c hc d hd hcd
  obtain ⟨hcr, hc⟩ := Finset.mem_erase.1 (Finset.mem_coe.1 hc)
  obtain ⟨hdr, hd⟩ := Finset.mem_erase.1 (Finset.mem_coe.1 hd)
  obtain ⟨p, _, hp, hpc, _⟩ := w.parent_spec (Finset.mem_range.1 hc) hcr
  obtain ⟨q, _, hq, hqd, _⟩ := w.parent_spec (Finset.mem_range.1 hd) hdr
  simp only [above, hp, hq, Option.getD_some, edge] at hcd
  -- two cliques cannot be the parents of each other
  have hcycle : ¬ (p = d ∧ c = q) := by
    rintro ⟨rfl, rfl⟩
    omega
  split at hcd <;> split at hcd <;> obtain ⟨h1, h2⟩ := Prod.mk.inj hcd
  · exact h2
  · exact absurd ⟨h1, h2⟩ hcycle
  · exact absurd ⟨h2, h1⟩ hcycle
  · exact h1

/-- Every separator joins some clique with its parent, since there are as many of the one as of the
other. -/
theorem exists_above {s : Separator} (hs : s ∈ t.separators) :
    ∃ c p, t.parent? c = some p ∧ edge p c = ends s := by
  let joined := ((Finset.range t.size).erase t.root).image (above t)
  have hsub : joined ⊆ (t.separators.map ends).toFinset := by
    intro e he
    obtain ⟨c, hc, rfl⟩ := Finset.mem_image.1 he
    obtain ⟨hcr, hc⟩ := Finset.mem_erase.1 hc
    obtain ⟨p, _, hp, _, hedge⟩ := w.parent_spec (Finset.mem_range.1 hc) hcr
    rw [List.mem_toFinset, above, hp]
    exact hedge
  have hcard : (t.separators.map ends).toFinset.card ≤ joined.card := by
    have hlt := w.spanning.length_lt
    have hsize : t.size = t.cliques.size := rfl
    rw [Finset.card_image_of_injOn w.injOn_above,
      Finset.card_erase_of_mem (Finset.mem_range.2 w.root_lt), Finset.card_range,
      List.toFinset_card_of_nodup w.spanning.nodup, List.length_map]
    omega
  have hends : ends s ∈ joined := by
    rw [Finset.eq_of_subset_of_card_le hsub hcard]
    exact List.mem_toFinset.2 (List.mem_map_of_mem hs)
  obtain ⟨c, hc, hedge⟩ := Finset.mem_image.1 hends
  obtain ⟨hcr, hc⟩ := Finset.mem_erase.1 hc
  obtain ⟨p, _, hp, _⟩ := w.parent_spec (Finset.mem_range.1 hc) hcr
  rw [above, hp] at hedge
  exact ⟨c, p, hp, hedge⟩

theorem length_filter_separators (v : Nat) : (t.separators.filter (·.shared.contains v)).length ≤
    ((Finset.range t.size).filter fun c => v ∈ t.separatorAbove c).card := by
  have hnodup : ((t.separators.filter (·.shared.contains v)).map ends).Nodup :=
    w.spanning.nodup.sublist (List.filter_sublist.map ends)
  rw [← List.length_map ends, ← List.toFinset_card_of_nodup hnodup]
  refine (Finset.card_le_card fun e he => ?_).trans (Finset.card_image_le (f := above t))
  obtain ⟨s, hs, rfl⟩ := List.mem_map.1 (List.mem_toFinset.1 he)
  obtain ⟨hs, hvs⟩ := List.mem_filter.1 hs
  obtain ⟨c, p, hp, hedge⟩ := w.exists_above hs
  have hv : v ∈ t.clique s.lower ∧ v ∈ t.clique s.upper := by
    have hshared : s.shared = Scope.inter (t.clique s.lower) (t.clique s.upper) :=
      w.spanning.shared_eq s hs
    rw [hshared] at hvs
    exact Scope.mem_inter.1 (by simpa using hvs)
  have hvc : v ∈ t.separatorAbove c := by
    rw [w.separator_eq hp, Scope.mem_inter]
    obtain ⟨rfl, rfl⟩ | ⟨rfl, rfl⟩ := (edge_eq_iff (w.spanning.ends_lt s hs).1).1 hedge
    · exact ⟨hv.2, hv.1⟩
    · exact hv
  refine Finset.mem_image.2 ⟨c, Finset.mem_filter.2 ⟨?_, hvc⟩, ?_⟩
  · exact Finset.mem_range.2 (w.mem_separator hvc).1
  · rw [above, hp]
    exact hedge

/-- With the running intersection property, all but one of the cliques that contain a variable share it
with their parent. -/
theorem top_unique (h : t.violation? = none) {v : Nat} (hc : v ∈ t.clique c) (hd : v ∈ t.clique d)
    (hcs : v ∉ t.separatorAbove c) (hds : v ∉ t.separatorAbove d) : c = d := by
  let holding := (Finset.range t.size).filter fun c => v ∈ t.clique c
  let passing := (Finset.range t.size).filter fun c => v ∈ t.separatorAbove c
  have hsub : passing ⊆ holding := by
    intro e he
    obtain ⟨he, hve⟩ := Finset.mem_filter.1 he
    exact Finset.mem_filter.2 ⟨he, (w.mem_separator hve).2⟩
  have hone : (holding \ passing).card ≤ 1 := by
    have hjoined : _ + 1 = holding.card := joined_of_violation? h hc
    have hcount : _ ≤ passing.card := w.length_filter_separators v
    rw [Finset.card_sdiff_of_subset hsub]
    omega
  have htop (e : Nat) (he : v ∈ t.clique e) (hes : v ∉ t.separatorAbove e) :
      e ∈ holding \ passing := by
    have hlt := Finset.mem_range.2 (lt_of_mem_clique he)
    exact Finset.mem_sdiff.2 ⟨Finset.mem_filter.2 ⟨hlt, he⟩, fun h => hes (Finset.mem_filter.1 h).2⟩
  exact Finset.card_le_one.1 hone c (htop c hc hcs) d (htop d hd hds)

theorem rooted (h : t.violation? = none) : Rooted t where
  nodup := w.grown.nodup
  mem_preorder _ := w.mem_preorder
  ordered := by
    refine List.pairwise_map.2 (w.grown.ordered.imp_of_mem fun {u v} hu _ huv => ?_)
    rw [parent?_eq w.grown.nodup hu]
    exact huv
  root_lt := w.root_lt
  parent_root := by
    rw [parent?, w.visit?_root]
    rfl
  parent c hc hcr := by
    obtain ⟨p, hlt, hp, hdepth, _⟩ := w.parent_spec hc hcr
    exact ⟨p, hlt, hp, hdepth⟩
  separator_root := w.separator_root
  separator c p := w.separator_eq
  increasing := w.increasing
  top_unique v c d := w.top_unique h

end Walked

theorem walked_rooted {cliques : Array (List Nat)} (h : 0 < cliques.size)
    (hinc : ∀ c : Nat, Scope.Increasing (cliques[c]?.getD [])) :
    Walked (rooted cliques (spanning cliques)) := by
  have hs := spanning_spec h
  obtain ⟨hgrown, hclosed⟩ := walk_spec hs cliques.size [⟨0, none, [], 0⟩] [] .root
    (by simp [Closed]) (by simp)
  exact ⟨hs, hinc, hgrown, hs.all_seen hgrown hclosed⟩

theorem arranged_spec (cliques : List (List Nat)) : 0 < (arranged cliques).size ∧
    ∀ c : Nat, Scope.Increasing ((arranged cliques)[c]?.getD []) := by
  cases cliques with
  | nil =>
    refine ⟨by simp [arranged], fun c => ?_⟩
    cases c <;> simp [arranged, Scope.increasing_nil]
  | cons s cliques =>
    refine ⟨by simp [arranged], fun c => ?_⟩
    simp only [arranged, List.getElem?_toArray, List.getElem?_map]
    cases (s :: cliques)[c]? with
    | none => exact Scope.increasing_nil
    | some s => exact Scope.increasing_ofList s

theorem build_spec {α : Type} {cliques : List (List Nat)} {t : JunctionTree}
    (h : build (α := α) cliques = .ok t) : Rooted t ∧ t.cliques = arranged cliques := by
  obtain ⟨hpos, hinc⟩ := arranged_spec cliques
  cases hv : (rooted (arranged cliques) (spanning (arranged cliques))).violation? with
  | none =>
    simp only [build, hv] at h
    cases h
    exact ⟨(walked_rooted hpos hinc).rooted hv, rfl⟩
  | some v => simp [build, hv] at h

end Bayes.JunctionTree
