import Mathlib.Logic.Relation
import Mathlib.Data.Finset.Union
import Bayes.Proofs.JunctionTree.Rooted
/-!
The parts into which a clique divides the tree: the clique itself, what is below each child, and what
is outside. Two parts share no variables but those of the clique, which is the running intersection
property in the form that message passing needs.
-/
namespace Bayes.JunctionTree

def Descends (t : JunctionTree) : Nat → Nat → Prop :=
  Relation.ReflTransGen fun a b => t.parent? a = some b

open Classical in
noncomputable def below (t : JunctionTree) (c : Nat) : Finset Nat :=
  (Finset.range t.size).filter fun d => t.Descends d c

noncomputable def outside (t : JunctionTree) (c : Nat) : Finset Nat :=
  Finset.range t.size \ t.below c

/-- The variables of a clique that it does not share with its parent. -/
def fresh (t : JunctionTree) (c : Nat) : List Nat :=
  (t.clique c).filter fun v => !(t.separatorAbove c).contains v

def vars (t : JunctionTree) (parts : Finset Nat) : Finset Nat :=
  parts.biUnion fun c => (t.clique c).toFinset

variable {t : JunctionTree} {c d e f p v : Nat} {D E : Finset Nat}

theorem mem_vars : v ∈ t.vars D ↔ ∃ d ∈ D, v ∈ t.clique d := by simp [vars]

theorem mem_fresh : v ∈ t.fresh c ↔ v ∈ t.clique c ∧ v ∉ t.separatorAbove c := by simp [fresh]

theorem vars_union : t.vars (D ∪ E) = t.vars D ∪ t.vars E := Finset.union_biUnion

theorem vars_singleton : t.vars {c} = (t.clique c).toFinset := Finset.singleton_biUnion

/-- Two parts of the tree have no clique in common, and share only variables of a third clique. -/
def Apart (t : JunctionTree) (c : Nat) (D E : Finset Nat) : Prop :=
  Disjoint D E ∧ ∀ v ∈ t.vars D, v ∈ t.vars E → v ∈ t.clique c

theorem below_subset_range (t : JunctionTree) (c : Nat) : t.below c ⊆ Finset.range t.size := by
  classical
  exact Finset.filter_subset _ _

theorem mem_outside : d ∈ t.outside c ↔ d < t.size ∧ d ∉ t.below c := by simp [outside]

namespace Rooted

variable (h : Rooted t)
include h

theorem mem_children : d ∈ t.children c ↔ t.parent? d = some c := by
  rw [JunctionTree.mem_children h.nodup, and_iff_right_of_imp]
  intro hp
  cases hvisit : t.visit? d with
  | none => simp [parent?, hvisit] at hp
  | some u =>
    have heq : u.clique = d := by simpa using List.find?_some hvisit
    rw [← heq]
    exact List.mem_map_of_mem (List.mem_of_find?_eq_some hvisit)

theorem parent?_some (hp : t.parent? c = some p) :
    c < t.size ∧ p < t.size ∧ t.depth c = t.depth p + 1 := by
  have hc : c < t.size := by
    have hmem := h.mem_children.2 hp
    exact (h.mem_preorder c).1 ((JunctionTree.mem_children h.nodup).1 hmem).1
  have hcr : c ≠ t.root := by
    intro hcr
    rw [hcr, h.parent_root] at hp
    simp at hp
  obtain ⟨q, hq, hpq, hdepth⟩ := h.parent c hc hcr
  obtain rfl : q = p := Option.some.inj (hpq.symm.trans hp)
  exact ⟨hc, hq, hdepth⟩

theorem preorder_visit {done rest : List Nat} (hl : t.preorder = done ++ c :: rest) :
    c < t.size ∧ c ∉ done ∧ ∀ q, t.parent? c = some q → q ∈ done := by
  have hnodup := h.nodup
  have hordered := h.ordered
  rw [hl] at hnodup hordered
  refine ⟨(h.mem_preorder c).1 (by simp [hl]), fun hmem => ?_, fun q hq => ?_⟩
  · exact (List.nodup_append.1 hnodup).2.2 c hmem c List.mem_cons_self rfl
  · obtain ⟨_, hqlt, hdepth⟩ := h.parent?_some hq
    have hmem : q ∈ done ++ c :: rest := hl ▸ (h.mem_preorder q).2 hqlt
    obtain hmem | hmem := List.mem_append.1 hmem
    · exact hmem
    · obtain rfl | hmem := List.mem_cons.1 hmem
      · omega
      · exact absurd hq ((List.pairwise_cons.1 (List.pairwise_append.1 hordered).2.1).1 q hmem)

theorem postorder_visit {done rest : List Nat} (hl : t.postorder = done ++ c :: rest) :
    c < t.size ∧ c ∉ done ∧ ∀ e, t.parent? e = some c → e ∈ done := by
  have horder : t.preorder = rest.reverse ++ c :: done.reverse := by
    have hreverse := congrArg List.reverse hl
    simpa [postorder] using hreverse
  have hnodup := h.nodup
  have hordered := h.ordered
  rw [horder] at hnodup hordered
  refine ⟨(h.mem_preorder c).1 (by simp [horder]), fun hmem => ?_, fun e he => ?_⟩
  · simp [List.nodup_append, hmem] at hnodup
  · obtain ⟨helt, _, hdepth⟩ := h.parent?_some he
    have hmem : e ∈ rest.reverse ++ c :: done.reverse := horder ▸ (h.mem_preorder e).2 helt
    obtain hmem | hmem := List.mem_append.1 hmem
    · exact absurd he ((List.pairwise_append.1 hordered).2.2 e hmem c List.mem_cons_self)
    · obtain rfl | hmem := List.mem_cons.1 hmem
      · omega
      · exact List.mem_reverse.1 hmem

theorem mem_separator (hp : t.parent? c = some p) :
    v ∈ t.separatorAbove c ↔ v ∈ t.clique c ∧ v ∈ t.clique p := by
  rw [h.separator c p hp, Scope.mem_inter]

theorem mem_clique_of_separator (hv : v ∈ t.separatorAbove c) :
    v ∈ t.clique c ∧ ∃ p, t.parent? c = some p ∧ v ∈ t.clique p := by
  cases hp : t.parent? c with
  | some p =>
    obtain ⟨hc, hvp⟩ := (h.mem_separator hp).1 hv
    exact ⟨hc, p, rfl, hvp⟩
  | none =>
    by_cases hcr : c = t.root
    · rw [hcr, h.separator_root] at hv
      simp at hv
    · cases hvisit : t.visit? c with
      | none => simp [separatorAbove, hvisit] at hv
      | some u =>
        have heq : u.clique = c := by simpa using List.find?_some hvisit
        have hmem : c ∈ t.preorder := heq ▸ List.mem_map_of_mem (List.mem_of_find?_eq_some hvisit)
        obtain ⟨q, _, hq, _⟩ := h.parent c ((h.mem_preorder c).1 hmem) hcr
        rw [hp] at hq
        simp at hq

theorem nodup_separator (c : Nat) : (t.separatorAbove c).Nodup := by
  cases hp : t.parent? c with
  | some p =>
    rw [h.separator c p hp]
    exact (Scope.increasing_inter (h.increasing c) _).nodup
  | none =>
    cases hs : t.separatorAbove c with
    | nil => exact List.nodup_nil
    | cons v s =>
      obtain ⟨_, p, hp', _⟩ := h.mem_clique_of_separator (c := c) (v := v) (by simp [hs])
      rw [hp] at hp'
      simp at hp'

/-! Descending -/

theorem eq_or_depth_lt (hd : t.Descends d c) : d = c ∨ t.depth c < t.depth d := by
  induction hd with
  | refl => exact Or.inl rfl
  | tail _ hp ih =>
    have := (h.parent?_some hp).2.2
    obtain rfl | hlt := ih
    · right
      omega
    · right
      omega

theorem descends_antisymm (hd : t.Descends d c) (hc : t.Descends c d) : d = c := by
  obtain heq | hlt := h.eq_or_depth_lt hd
  · exact heq
  · obtain heq | hlt' := h.eq_or_depth_lt hc
    · exact heq.symm
    · omega

omit h in
theorem descends_total (hc : t.Descends d c) (he : t.Descends d e) :
    t.Descends c e ∨ t.Descends e c :=
  Relation.ReflTransGen.total_of_right_unique (fun _ _ _ ha hb => Option.some.inj (ha.symm.trans hb))
    hc he

theorem descends_lt (hc : c < t.size) (hd : t.Descends d c) : d < t.size := by
  obtain rfl | ⟨p, hp, _⟩ := Relation.ReflTransGen.cases_head hd
  · exact hc
  · exact (h.parent?_some hp).1

theorem mem_below (hc : c < t.size) : d ∈ t.below c ↔ t.Descends d c := by
  simp only [below, Finset.mem_filter, Finset.mem_range, and_iff_right_iff_imp]
  exact h.descends_lt hc

theorem self_mem_below (hc : c < t.size) : c ∈ t.below c := (h.mem_below hc).2 .refl

theorem mem_below_iff (hc : c < t.size) :
    d ∈ t.below c ↔ d = c ∨ ∃ e, t.parent? e = some c ∧ d ∈ t.below e := by
  rw [h.mem_below hc, Descends, Relation.ReflTransGen.cases_tail_iff]
  refine or_congr eq_comm (exists_congr fun e => ?_)
  rw [and_comm]
  refine and_congr_right fun he => ?_
  rw [h.mem_below (h.parent?_some he).1]
  rfl

theorem parent_not_mem_below (he : t.parent? e = some c) : c ∉ t.below e := by
  intro hc
  obtain ⟨hlt, _, hdepth⟩ := h.parent?_some he
  obtain rfl | hlt := h.eq_or_depth_lt ((h.mem_below hlt).1 hc)
  · omega
  · omega

theorem below_subset (he : t.parent? e = some c) : t.below e ⊆ t.below c := by
  intro d hd
  exact (h.mem_below_iff (h.parent?_some he).2.1).2 (Or.inr ⟨e, he, hd⟩)

theorem disjoint_below (he : t.parent? e = some c) (hf : t.parent? f = some c) (hef : e ≠ f) :
    Disjoint (t.below e) (t.below f) := by
  obtain ⟨helt, _, hedepth⟩ := h.parent?_some he
  obtain ⟨hflt, _, hfdepth⟩ := h.parent?_some hf
  refine Finset.disjoint_left.2 fun d hde hdf => hef ?_
  rw [h.mem_below helt] at hde
  rw [h.mem_below hflt] at hdf
  obtain hd | hd := descends_total hde hdf
  · obtain heq | hlt := h.eq_or_depth_lt hd
    · exact heq
    · omega
  · obtain heq | hlt := h.eq_or_depth_lt hd
    · exact heq.symm
    · omega

theorem descends_root (hc : c < t.size) : t.Descends c t.root := by
  induction hdepth : t.depth c using Nat.strong_induction_on generalizing c with
  | _ n ih =>
    by_cases hcr : c = t.root
    · exact hcr ▸ .refl
    · obtain ⟨p, hp, hpc, hlt⟩ := h.parent c hc hcr
      exact .head hpc (ih _ (by omega) hp rfl)

theorem below_root : t.below t.root = Finset.range t.size := by
  ext d
  rw [h.mem_below h.root_lt, Finset.mem_range]
  exact ⟨h.descends_lt h.root_lt, h.descends_root⟩

/-! Variables -/

/-- Going up from a clique that contains a variable, one arrives at the topmost such clique, and every
clique on the way shares the variable with its parent. -/
theorem exists_top (hv : v ∈ t.clique d) :
    ∃ top, t.Descends d top ∧ v ∈ t.clique top ∧ v ∉ t.separatorAbove top ∧
      ∀ g, t.Descends d g → t.Descends g top → g = top ∨ v ∈ t.separatorAbove g := by
  induction hdepth : t.depth d using Nat.strong_induction_on generalizing d with
  | _ n ih =>
    by_cases hs : v ∈ t.separatorAbove d
    · obtain ⟨_, p, hp, hvp⟩ := h.mem_clique_of_separator hs
      have hlt := (h.parent?_some hp).2.2
      obtain ⟨top, hpt, hvt, hst, hway⟩ := ih _ (by omega) hvp rfl
      refine ⟨top, .head hp hpt, hvt, hst, fun g hdg hgt => ?_⟩
      obtain rfl | ⟨q, hq, hqg⟩ := Relation.ReflTransGen.cases_head hdg
      · exact Or.inr hs
      · obtain rfl : p = q := Option.some.inj (hp.symm.trans hq)
        exact hway g hqg hgt
    · exact ⟨d, .refl, hv, hs, fun g hdg hgd => Or.inl (h.descends_antisymm hgd hdg)⟩

/-- A variable that occurs both below a clique and elsewhere is shared by the clique and its parent. -/
theorem crossing (he : t.parent? e = some c) (hd : d ∈ t.below e) (hvd : v ∈ t.clique d)
    (hf : f ∉ t.below e) (hvf : v ∈ t.clique f) : v ∈ t.separatorAbove e := by
  have helt := (h.parent?_some he).1
  rw [h.mem_below helt] at hd hf
  obtain ⟨top, hdt, hvt, hst, hway⟩ := h.exists_top hvd
  obtain ⟨top', hft, hvt', hst', _⟩ := h.exists_top hvf
  obtain rfl := h.top_unique v top top' hvt hvt' hst hst'
  have habove : t.Descends e top := by
    obtain hte | het := descends_total hdt hd
    · exact absurd (hft.trans hte) hf
    · exact het
  obtain rfl | hs := hway e hd habove
  · exact absurd hft hf
  · exact hs

theorem apart_below (he : t.parent? e = some c) (hD : Disjoint D (t.below e)) :
    t.Apart c D (t.below e) := by
  refine ⟨hD, fun v hvD hve => ?_⟩
  obtain ⟨f, hf, hvf⟩ := mem_vars.1 hvD
  obtain ⟨d, hd, hvd⟩ := mem_vars.1 hve
  exact ((h.mem_separator he).1 (h.crossing he hd hvd (Finset.disjoint_left.1 hD hf) hvf)).2

theorem apart_outside (hp : t.parent? c = some p) (hD : D ⊆ t.below c) :
    t.Apart c D (t.outside c) := by
  refine ⟨Finset.disjoint_left.2 fun d hd ho => (mem_outside.1 ho).2 (hD hd), fun v hvD hvo => ?_⟩
  obtain ⟨d, hd, hvd⟩ := mem_vars.1 hvD
  obtain ⟨f, hf, hvf⟩ := mem_vars.1 hvo
  exact ((h.mem_separator hp).1 (h.crossing hp (hD hd) hvd (mem_outside.1 hf).2 hvf)).1

end Rooted
end Bayes.JunctionTree
